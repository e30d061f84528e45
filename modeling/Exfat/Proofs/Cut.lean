import Exfat.Proofs.NoSpace
import Exfat.Proofs.Parse

namespace Exfat
open Lib

/-! Shrinking malformed chains: how far `shrink_file` gets, and what it has cut by then. -/

namespace Proofs

variable {E : Halt → Prop} {w v : World} {n m : Node} {id : NodeId} {b : Bool} {k c : Nat}
  {bits : Nat → Bool} {sb : SuperBlock}

/-- What `check_node` asks of a node. -/
structure Accepted (sb : SuperBlock) (n : Node) : Prop where
  empty : n.size = 0 → n.startCluster = exfatClusterFree
  start : 0 < n.size → sb.clusterInvalid n.startCluster = false
  heap : n.size ≤ sb.clusterCount * sb.clusterSize

/-- The clusters of a node in the order of its links, whatever these are. -/
def chainAt (w : World) (n : Node) (i : Nat) : Nat :=
  (link w.sb w.dev n.isContiguous)^[i] n.startCluster

/-- The cached pointer was moved along valid clusters only. -/
def PointerValid (w : World) (n : Node) : Prop :=
  n.fptrCluster = chainAt w n n.fptrIndex ∧
    ∀ i ≤ n.fptrIndex, w.sb.clusterInvalid (chainAt w n i) = false

/-- The loop of `shrink_file` gets through `k` clusters from `c` on. -/
def Frees (w : World) (b : Bool) (k c : Nat) : Prop :=
  Clears (fun x => w.sb.clusterInvalid x = false) (link w.sb w.dev b) (b = false) k c

theorem clusterFree_invalid (sb : SuperBlock) : sb.clusterInvalid exfatClusterFree = true := by
  simp [SuperBlock.clusterInvalid]

/-- One turn of the loop on the chain. -/
theorem frees_succ {x : Nat} (hs : v.sb = w.sb) (hd : v.dev = linkFat w.sb b w.dev c x)
    (hx : w.sb.clusterInvalid (x % 2 ^ 32) = true) :
    Frees w b (k + 1) c ↔
      w.sb.clusterInvalid c = false ∧ Frees v b k (link w.sb w.dev b c) := by
  rw [Frees, Frees, hs, hd]
  refine clears_succ (fun y hy => link_linkFat fun hyc => absurd hyc hy) ?_ ?_
  · rintro rfl hv
    have hl : link w.sb (linkFat w.sb false w.dev c x) false c = x % 2 ^ 32 := by
      simp [link, fat_linkFat]
    rw [hl, hx] at hv
    cases hv
  · intro hb
    have hb' : b = true := by simpa using hb
    subst hb'
    rfl

/-- The node, the FAT and the bitmap are as they were. -/
structure Intact (w v : World) (bits : Nat → Bool) (id : NodeId) (n : Node) : Prop where
  node : ∃ m, v.nodes id = some m ∧ m.startCluster = n.startCluster ∧ m.size = n.size
  fat : ∀ c, fat v.sb v.dev c = fat w.sb w.dev c
  chunk : v.cmap.chunk = some bits

/-- The condition under which cutting a chain from `current` to `keep` clusters either succeeds or
changes nothing. -/
def CutSafe (w : World) (bits : Nat → Bool) (n : Node) (keep current : Nat) : Prop :=
  if keep = 0 then Frees w n.isContiguous current n.startCluster
  else
    (∃ i < keep, w.sb.clusterInvalid (chainAt w n i) = true) ∨
    Frees w n.isContiguous (current - keep + 1) (chainAt w n (keep - 1)) ∨
    (n.isContiguous = false ∧ fat w.sb w.dev (chainAt w n (keep - 1)) = exfatClusterEnd) ∨
    (n.isContiguous = true ∧ ∀ i, keep ≤ i → i < current →
      (∀ j, keep ≤ j → j ≤ i → w.sb.clusterInvalid (chainAt w n j) = false) →
      bits (chainAt w n i - 2) = false)

/-- Releasing clusters changes nothing exactly if they were free. -/
theorem releaseAll_same {D : List Nat} (hm : Mapped w bits) (hD : ∀ x ∈ D, 2 ≤ x) :
    (w.cmap.releaseAll D).chunk = some bits ↔ ∀ x ∈ D, bits (x - 2) = false := by
  rw [releaseAll_chunk hm.chunk hD, Option.some.injEq]
  constructor
  · intro h x hx
    have hi := congrFun h (x - 2)
    have h2 := hD x hx
    rw [show x - 2 + 2 = x by omega] at hi
    simpa [hx] using hi.symm
  · intro h
    funext i
    by_cases hi : i + 2 ∈ D
    · have := h _ hi
      rw [Nat.add_sub_cancel] at this
      simp [this]
    · simp [hi]

section
variable [Env]

/-- The nodes `parse_file_entries` accepts, with their cached pointer at the start. -/
theorem parseFileEntries_accepts (hn : w.nodes id = some n) (hi : n.fptrIndex = 0)
    (entries : List UInt8) (k : Nat) :
    Wp (fun _ => True) (parseFileEntries id entries k) w fun rc v => rc = .ok →
      ∃ m, v.nodes id = some m ∧ Accepted v.sb m ∧ (0 < m.size → PointerValid v m) := by
  refine (parseFileEntries_run _ _ hn).mono fun rc v hrun hrc => ?_
  obtain ⟨hs, hset, ⟨d, hd⟩, -⟩ := hrun hrc
  rw [← hs] at hset
  refine ⟨_, hd, ⟨hset.node.empty, hset.node.start, hset.node.heap⟩, fun hpos => ⟨?_, fun i hi' => ?_⟩⟩
  · have h0 : ({ parsed entries n with isDirty := d } : Node).fptrIndex = 0 := hi
    rw [h0]
    rfl
  · have h0 : i = 0 := Nat.le_zero.mp (hi ▸ hi')
    rw [h0]
    exact hset.node.start hpos

/-- `exfat_advance_cluster` finds the cluster at an index if all clusters before it are valid, and an
invalid one otherwise. -/
theorem advanceLoop_total (hq : Env.Quiet) (hc : 2 ≤ c) :
    Wp E (advanceLoop b k c) w fun x v => (∃ t, v = w.ticked t) ∧
      ((∀ i, 0 < i → i ≤ k → w.sb.clusterInvalid ((link w.sb w.dev b)^[i] c) = false) →
        x = (link w.sb w.dev b)^[k] c) ∧
      (∀ i, 0 < i → i ≤ k → w.sb.clusterInvalid ((link w.sb w.dev b)^[i] c) = true →
        w.sb.clusterInvalid x = true) := by
  induction k generalizing w c with
  | zero => exact ⟨⟨w.tick, rfl⟩, fun _ => rfl, fun i _ _ => by omega⟩
  | succ k ih =>
    simp only [advanceLoop, wp_bind]
    refine after_ret (exfatNextCluster_spec hq b hc) fun t => ?_
    simp only [wp_get]
    split
    · rename_i hval
      have hinv : w.sb.clusterInvalid (link w.sb w.dev b c) = true := hval
      refine ⟨⟨t, rfl⟩, fun hall => ?_, fun _ _ _ _ => hinv⟩
      have := hall 1 (by omega) (by omega)
      rw [Function.iterate_one, hinv] at this
      cases this
    · rename_i hval
      have hv : w.sb.clusterInvalid (link w.sb w.dev b c) = false := by simpa using hval
      refine (ih (w := w.ticked t) (clusterInvalid_false.mp hv).1).mono ?_
      rintro x _ ⟨⟨t', rfl⟩, h1, h2⟩
      refine ⟨⟨t', rfl⟩, fun hall => ?_, fun i hi hik hinv => ?_⟩
      · rw [Function.iterate_succ_apply]
        refine h1 fun i hi hik => ?_
        have := hall (i + 1) (by omega) (by omega)
        rwa [Function.iterate_succ_apply] at this
      · obtain ⟨j, rfl⟩ := Nat.exists_eq_succ_of_ne_zero (Nat.pos_iff_ne_zero.mp hi)
        rw [Function.iterate_succ_apply] at hinv
        rcases Nat.eq_zero_or_pos j with rfl | hj
        · rw [Function.iterate_zero_apply, hv] at hinv
          cases hinv
        · exact h2 j hj (by omega) hinv

/-- How far the loop of `shrink_file` gets: it passes the clusters `D` and ends well exactly on a
chain that `Frees`. -/
theorem shrinkLoop_total (hq : Env.Quiet) (hm : Mapped w bits) :
    Wp E (shrinkLoop b k c) w fun rc v => ∃ D t e,
      v = ((World.dropped w b D).ticked t).erred e ∧
      (∀ x ∈ D, w.sb.clusterInvalid x = false) ∧
      (D = [] ↔ k = 0 ∨ w.sb.clusterInvalid c = true) ∧
      (b = true → ∀ i, i < k → (∀ j ≤ i, w.sb.clusterInvalid ((link w.sb w.dev b)^[j] c) = false) →
        (link w.sb w.dev b)^[i] c ∈ D) ∧
      (b = true → ∀ x ∈ D, ∃ i, i < k ∧ x = (link w.sb w.dev b)^[i] c ∧
        ∀ j ≤ i, w.sb.clusterInvalid ((link w.sb w.dev b)^[j] c) = false) ∧
      (rc = .ok ↔ Frees w b k c) := by
  induction k generalizing w c bits with
  | zero =>
    refine ⟨[], w.tick, w.errors, rfl, by simp, by simp, fun _ i hi => by omega, by simp, ?_⟩
    simp [Frees, Clears]
  | succ k ih =>
    by_cases hc : w.sb.clusterInvalid c = true
    · simp only [shrinkLoop, wp_bind, wp_get, hc, if_true, wp_exfatError, wp_pure]
      refine ⟨[], w.tick, w.errors + 1, rfl, by simp, by simp, fun _ i _ hall => ?_, by simp, ?_⟩
      · have := hall 0 (Nat.zero_le i)
        rw [Function.iterate_zero_apply, hc] at this
        cases this
      · simp only [reduceCtorEq, false_iff]
        intro hf
        have := hf.1 0 (by omega)
        rw [Function.iterate_zero_apply, hc] at this
        cases this
    · have hv : w.sb.clusterInvalid c = false := by simpa using hc
      refine shrinkLoop_step hq hm hv fun t => ?_
      have hm' : Mapped ((World.dropped w b [c]).ticked t) (bmapClr bits (c - 2)) :=
        hm.release.congr rfl rfl
      refine (ih hm').mono ?_
      rintro rc _ ⟨D, t', e, rfl, hD, -, hin, hfrom, hok⟩
      have hsb : ((World.dropped w b [c]).ticked t).sb = w.sb := rfl
      have hdev : ((World.dropped w b [c]).ticked t).dev =
          linkFat w.sb b w.dev c exfatClusterFree := rfl
      rw [hsb] at hD
      refine ⟨c :: D, t', e, rfl, ?_, by simp [hv], fun hb i hi hall => ?_, fun hb x hx => ?_, ?_⟩
      · intro x hx
        rcases List.mem_cons.mp hx with rfl | hx
        · exact hv
        · exact hD x hx
      · subst hb
        cases i with
        | zero => simp
        | succ i =>
          rw [Function.iterate_succ_apply]
          refine List.mem_cons_of_mem _ (hin rfl i (by omega) fun j hj => ?_)
          have := hall (j + 1) (by omega)
          rwa [Function.iterate_succ_apply] at this
      · subst hb
        rcases List.mem_cons.mp hx with rfl | hx
        · refine ⟨0, by omega, rfl, fun j hj => ?_⟩
          rw [Nat.le_zero.mp hj]
          exact hv
        · obtain ⟨i, hi, rfl, hall⟩ := hfrom rfl x hx
          refine ⟨i + 1, by omega, (Function.iterate_succ_apply _ _ _).symm, fun j hj => ?_⟩
          cases j with
          | zero => exact hv
          | succ j =>
            rw [Function.iterate_succ_apply]
            exact hall j (by omega)
      · rw [hok, frees_succ hsb hdev (by simpa using clusterFree_invalid w.sb)]
        simp [hv]

/-- `exfat_advance_cluster` along the links of a node, from a pointer moved along valid clusters. -/
theorem exfatAdvanceCluster_total (hq : Env.Quiet) (hn : w.nodes id = some n)
    (hp : PointerValid w n) :
    Wp E (exfatAdvanceCluster id k) w fun x v =>
      (∃ t, v = (w.setNode id (n.seek k x)).ticked t) ∧
      ((∀ i ≤ k, w.sb.clusterInvalid (chainAt w n i) = false) → x = chainAt w n k) ∧
      (∀ i ≤ k, w.sb.clusterInvalid (chainAt w n i) = true → w.sb.clusterInvalid x = true) := by
  obtain ⟨hfp, hpv⟩ := hp
  have hfinish : ∀ x t, Wp E (do
      modifyNode id fun n => { n with fptrIndex := k, fptrCluster := x }
      pure x) (w.ticked t) fun y v => y = x ∧ ∃ t, v = (w.setNode id (n.seek k x)).ticked t := by
    intro x t
    simp only [wp_bind]
    rw [wp_modifyNode (n := n) (by simpa using hn)]
    exact ⟨rfl, t, rfl⟩
  simp only [exfatAdvanceCluster, wp_bind, wp_getNode hn]
  by_cases hi : n.fptrIndex > k
  · simp only [if_pos hi, Nat.sub_zero]
    have hs := (clusterInvalid_false.mp (hpv 0 (Nat.zero_le _))).1
    refine (advanceLoop_total hq hs).mono ?_
    rintro x _ ⟨⟨t, rfl⟩, h1, -⟩
    refine (wp_bind.mp (hfinish x t)).mono fun _ u hu => hu.mono ?_
    rintro _ v ⟨rfl, hv⟩
    refine ⟨hv, fun hall => h1 fun i _ hik => hall i hik, fun i hik hinv => ?_⟩
    rw [hpv i (by omega)] at hinv
    cases hinv
  · simp only [if_neg hi]
    have hs := hpv n.fptrIndex (Nat.le_refl _)
    rw [← hfp] at hs
    have hat : ∀ i, (link w.sb w.dev n.isContiguous)^[i] n.fptrCluster =
        chainAt w n (n.fptrIndex + i) := by
      intro i
      rw [hfp, chainAt, chainAt, ← Function.iterate_add_apply, Nat.add_comm]
    refine (advanceLoop_total hq (clusterInvalid_false.mp hs).1).mono ?_
    rintro x _ ⟨⟨t, rfl⟩, h1, h2⟩
    simp only [hat] at h1 h2
    refine (wp_bind.mp (hfinish x t)).mono fun _ u hu => hu.mono ?_
    rintro _ v ⟨rfl, hv⟩
    refine ⟨hv, fun hall => ?_, fun i hik hinv => ?_⟩
    · rw [h1 fun i _ hik => hall _ (by omega), show n.fptrIndex + (k - n.fptrIndex) = k by omega]
    · have hlt : n.fptrIndex < i := by
        by_contra hle
        rw [hpv i (Nat.le_of_not_lt hle)] at hinv
        cases hinv
      refine h2 (i - n.fptrIndex) (by omega) (by omega) ?_
      rwa [show n.fptrIndex + (i - n.fptrIndex) = i by omega]

omit [Env] in
theorem chainAt_add (w : World) (n : Node) (k i : Nat) :
    (link w.sb w.dev n.isContiguous)^[i] (chainAt w n k) = chainAt w n (k + i) := by
  rw [chainAt, chainAt, ← Function.iterate_add_apply, Nat.add_comm]

omit [Env] in
theorem chainAt_succ (w : World) (n : Node) (k : Nat) :
    chainAt w n (k + 1) = link w.sb w.dev n.isContiguous (chainAt w n k) :=
  Function.iterate_succ_apply' _ _ _

omit [Env] in
/-- Cutting a FAT chain that did not end there changes the FAT. -/
theorem intact_linked {D : List Nat} {last : Nat} (hm : Mapped w bits)
    (hn : ∃ m, v.nodes id = some m ∧ m.startCluster = n.startCluster ∧ m.size = n.size)
    (hsb : v.sb = w.sb)
    (hdev : v.dev = freeFat w.sb false (linkFat w.sb false w.dev last exfatClusterEnd) D)
    (hcmap : v.cmap = w.cmap.releaseAll D) (hend : w.sb.clusterInvalid exfatClusterEnd = true)
    (hD : D = [] ↔ k = 0 ∨ w.sb.clusterInvalid (fat w.sb w.dev last) = true) :
    Intact w v bits id n ↔ fat w.sb w.dev last = exfatClusterEnd := by
  have hfat : ∀ x, fat v.sb v.dev x = if x ∈ D then exfatClusterFree
      else if x = last then exfatClusterEnd else fat w.sb w.dev x := by
    intro x
    rw [hsb, hdev, fat_freeFat, fat_linkFat]
    simp
  constructor
  · intro hint
    have hlast := hint.fat last
    rw [hfat, if_pos rfl] at hlast
    split at hlast
    · rename_i hmem
      have hfree : w.sb.clusterInvalid (fat w.sb w.dev last) = true := by
        rw [← hlast]
        exact clusterFree_invalid w.sb
      rw [hD.mpr (Or.inr hfree)] at hmem
      cases hmem
    · exact hlast.symm
  · intro hlast
    have hnil : D = [] := hD.mpr (Or.inr (by rw [hlast]; exact hend))
    subst hnil
    refine ⟨hn, fun x => ?_, ?_⟩
    · rw [hfat]
      by_cases hx : x = last
      · simp [hx, hlast]
      · simp [hx]
    · rw [hcmap]
      exact hm.chunk

omit [Env] in
/-- Cutting a contiguous extent changes the bitmap unless the clusters passed were free. -/
theorem intact_contiguous {D : List Nat} {current : Nat} (hm : Mapped w bits)
    (hn : ∃ m, v.nodes id = some m ∧ m.startCluster = n.startCluster ∧ m.size = n.size)
    (hsb : v.sb = w.sb) (hdev : v.dev = w.dev) (hcmap : v.cmap = w.cmap.releaseAll D)
    (hD : ∀ x ∈ D, w.sb.clusterInvalid x = false)
    (hin : ∀ i, i < current - k → (∀ j ≤ i, w.sb.clusterInvalid (chainAt w n (k + j)) = false) →
      chainAt w n (k + i) ∈ D)
    (hfrom : ∀ x ∈ D, ∃ i, i < current - k ∧ x = chainAt w n (k + i) ∧
      ∀ j ≤ i, w.sb.clusterInvalid (chainAt w n (k + j)) = false) :
    Intact w v bits id n ↔ ∀ i, k ≤ i → i < current →
      (∀ j, k ≤ j → j ≤ i → w.sb.clusterInvalid (chainAt w n j) = false) →
      bits (chainAt w n i - 2) = false := by
  have hsame : Intact w v bits id n ↔ ∀ x ∈ D, bits (x - 2) = false := by
    rw [← releaseAll_same hm fun x hx => (clusterInvalid_false.mp (hD x hx)).1, ← hcmap]
    exact ⟨Intact.chunk, fun h => ⟨hn, fun x => by rw [hsb, hdev], h⟩⟩
  rw [hsame]
  constructor
  · intro h i hki hic hall
    obtain ⟨i, rfl⟩ := Nat.exists_eq_add_of_le hki
    exact h _ (hin i (by omega) fun j hj => hall (k + j) (by omega) (by omega))
  · intro h x hx
    obtain ⟨i, hi, rfl, hall⟩ := hfrom x hx
    refine h (k + i) (by omega) (by omega) fun j hkj hji => ?_
    obtain ⟨j, rfl⟩ := Nat.exists_eq_add_of_le hkj
    exact hall j (by omega)

/-- The loop of `shrink_file` after the link of the last cluster kept was cut. -/
theorem shrinkLoop_cut (hq : Env.Quiet) {u : World} {current : Nat} (hm : Mapped w bits)
    (hend : w.sb.clusterCount + 2 < 2 ^ 32)
    (hn : ∃ m, u.nodes id = some m ∧ m.startCluster = n.startCluster ∧ m.size = n.size)
    (hsb : u.sb = w.sb)
    (hdev : u.dev = linkFat w.sb n.isContiguous w.dev (chainAt w n k) exfatClusterEnd)
    (hcmap : u.cmap = w.cmap) (hval : w.sb.clusterInvalid (chainAt w n k) = false) :
    Wp E (shrinkLoop n.isContiguous (current - (k + 1))
      (link w.sb w.dev n.isContiguous (chainAt w n k))) u fun rc v =>
      (∃ m, v.nodes id = some m) ∧ ((rc = .ok ∨ Intact w v bits id n) ↔
        Frees w n.isContiguous (current - (k + 1) + 1) (chainAt w n k) ∨
        (n.isContiguous = false ∧ fat w.sb w.dev (chainAt w n k) = exfatClusterEnd) ∨
        (n.isContiguous = true ∧ ∀ i, k + 1 ≤ i → i < current →
          (∀ j, k + 1 ≤ j → j ≤ i → w.sb.clusterInvalid (chainAt w n j) = false) →
          bits (chainAt w n i - 2) = false)) := by
  have hinv : w.sb.clusterInvalid exfatClusterEnd = true := clusterEnd_invalid hend
  refine (shrinkLoop_total hq (hm.congr hsb hcmap)).mono ?_
  rintro rc v ⟨D, t, e, rfl, hD, hnil, hin, hfrom, hok⟩
  have hnodes : ∃ m, (((World.dropped u n.isContiguous D).ticked t).erred e).nodes id = some m ∧
      m.startCluster = n.startCluster ∧ m.size = n.size := hn
  have hcm : (((World.dropped u n.isContiguous D).ticked t).erred e).cmap =
      w.cmap.releaseAll D := by
    rw [← hcmap]
    rfl
  have hdv : (((World.dropped u n.isContiguous D).ticked t).erred e).dev =
      freeFat w.sb n.isContiguous
        (linkFat w.sb n.isContiguous w.dev (chainAt w n k) exfatClusterEnd) D := by
    rw [← hdev, ← hsb]
    rfl
  refine ⟨hn.imp fun m hm => hm.1, ?_⟩
  rw [hok, frees_succ hsb hdev (show w.sb.clusterInvalid (exfatClusterEnd % 2 ^ 32) = true from hinv),
    and_iff_right hval]
  refine or_congr_right ?_
  rw [hsb] at hD hnil
  cases hb : n.isContiguous with
  | false =>
    rw [hb] at hdv hnil
    simp only [true_and, Bool.false_eq_true, false_and, or_false]
    rw [hb] at hnodes hcm
    exact intact_linked hm hnodes hsb hdv hcm hinv hnil
  | true =>
    have hiter : ∀ i, (link w.sb u.dev n.isContiguous)^[i]
        (link w.sb w.dev n.isContiguous (chainAt w n k)) = chainAt w n (k + 1 + i) := by
      intro i
      rw [hdev, ← chainAt_succ, hb]
      have := chainAt_add w n (k + 1) i
      rw [hb] at this
      exact this
    rw [hsb] at hin hfrom
    simp only [hiter] at hin hfrom
    rw [hb, linkFat] at hdv
    simp only [if_true, freeFat_contiguous] at hdv
    simp only [Bool.true_eq_false, false_and, true_and, false_or]
    rw [hb] at hnodes hcm
    exact intact_contiguous hm hnodes hsb hdv hcm hD (hin hb) (hfrom hb)

/-- `shrink_file` on a chain whatever its links are: it succeeds or changes nothing exactly under
`CutSafe`. -/
theorem shrinkFile_total (hq : Env.Quiet) {keep current : Nat} (hm : Mapped w bits)
    (hend : w.sb.clusterCount + 2 < 2 ^ 32) (hn : w.nodes id = some n) (hp : PointerValid w n)
    (hk : keep < current) :
    Wp E (shrinkFile id current (current - keep)) w fun rc v => (∃ m, v.nodes id = some m) ∧
      ((rc = .ok ∨ Intact w v bits id n) ↔ CutSafe w bits n keep current) := by
  have hs : w.sb.clusterInvalid n.startCluster = false := hp.2 0 (Nat.zero_le _)
  have hs2 := (clusterInvalid_false.mp hs).1
  have hne : ¬n.startCluster = exfatClusterFree := by
    rw [exfatClusterFree]
    omega
  simp only [shrinkFile, wp_bind, wp_getNode hn, if_neg (show ¬current - keep = 0 by omega),
    if_neg hne, if_neg (show ¬current < current - keep by omega)]
  rcases Nat.eq_zero_or_pos keep with rfl | hpos
  · simp only [Nat.sub_zero, gt_iff_lt, lt_irrefl, if_false, wp_bind, wp_modifyNode hn, shrinkTail,
      wp_modifyNode_setNode, wp_getNode_setNode]
    refine (shrinkLoop_total (w := w.setNode id { n with
      startCluster := exfatClusterFree, isDirty := true, fptrIndex := 0,
      fptrCluster := exfatClusterFree }) hq (hm.congr rfl rfl)).mono ?_
    rintro rc _ ⟨D, t, e, rfl, -, -, -, -, hok⟩
    rw [CutSafe, if_pos rfl]
    refine ⟨⟨_, World.setNode_self _ _ _⟩, ?_, ?_⟩
    · rintro (hrc | hint)
      · exact hok.mp hrc
      · obtain ⟨m, hm', hstart, -⟩ := hint.node
        have hnode := World.setNode_self w id { n with
          startCluster := exfatClusterFree, isDirty := true, fptrIndex := 0,
          fptrCluster := exfatClusterFree }
        obtain rfl := Option.some.inj (hnode.symm.trans hm')
        exact absurd hstart.symm hne
    · exact fun hf => Or.inl (hok.mpr hf)
  · obtain ⟨k, rfl⟩ : ∃ k, keep = k + 1 := ⟨keep - 1, by omega⟩
    have hidx : current - (current - (k + 1)) - 1 = k := by omega
    rw [CutSafe, if_neg (Nat.succ_ne_zero k), Nat.add_sub_cancel]
    simp only [if_pos (show current > current - (k + 1) by omega), wp_bind, hidx]
    refine (exfatAdvanceCluster_total hq hn hp).mono ?_
    rintro last _ ⟨⟨t, rfl⟩, hgood, hbad⟩
    simp only [wp_get]
    split
    · rename_i hinv
      have hinv' : w.sb.clusterInvalid last = true := hinv
      simp only [wp_bind, wp_exfatError, wp_pure]
      refine ⟨⟨_, World.setNode_self _ _ _⟩, fun _ => Or.inl ?_, fun _ => Or.inr ?_⟩
      · by_contra hno
        have hall : ∀ i ≤ k, w.sb.clusterInvalid (chainAt w n i) = false := fun i hi => by
          by_contra hne'
          exact hno ⟨i, by omega, by simpa using hne'⟩
        rw [hgood hall, hall k (Nat.le_refl k)] at hinv'
        cases hinv'
      · exact ⟨⟨n.seek k last, World.setNode_self _ _ _, rfl, rfl⟩, fun _ => rfl, hm.chunk⟩
    · rename_i hval
      have hval' : w.sb.clusterInvalid last = false := by simpa using hval
      have hall : ∀ i ≤ k, w.sb.clusterInvalid (chainAt w n i) = false := by
        intro i hi
        by_contra hne'
        rw [hbad i hi (by simpa using hne')] at hval'
        cases hval'
      have hlast := hgood hall
      subst hlast
      simp only [wp_bind]
      refine after_ret (exfatNextCluster_spec hq _ (clusterInvalid_false.mp hval').1) fun t => ?_
      refine after_ret (setNextCluster_spec hq _ _ _) fun t => ?_
      simp only [if_true, shrinkTail, wp_bind]
      rw [wp_modifyNode (n := n.seek k (chainAt w n k)) (by simp)]
      simp only [wp_getNode_setNode]
      have hnone : ¬∃ i < k + 1, w.sb.clusterInvalid (chainAt w n i) = true := by
        rintro ⟨i, hi, h⟩
        rw [hall i (by omega)] at h
        cases h
      simp only [hnone, false_or]
      apply shrinkLoop_cut (n := n) (k := k) hq hm hend
      · exact ⟨_, World.setNode_self _ _ _, rfl, rfl⟩
      · rfl
      · rfl
      · rfl
      · exact hval'

/-- A failed shrinking leaves the start cluster, the size, the FAT and the bitmap as they were
exactly if the clusters to drop can all be freed, or the failure comes before the chain is cut. -/
theorem exfatTruncate_intact_iff (hq : Env.Quiet) {size : Nat} {erase : Bool} (hm : Mapped w bits)
    (hend : w.sb.clusterCount + 2 < 2 ^ 32) (hn : w.nodes id = some n) (ha : Accepted w.sb n)
    (hp : PointerValid w n) (hs : size < n.size) :
    (∀ rc v, exfatTruncate id size erase w = .ok (rc, v) → rc ≠ .ok → Intact w v bits id n) ↔
      ¬Referenced n ∨
      divRoundUp size w.sb.clusterSize = divRoundUp n.size w.sb.clusterSize ∨
      CutSafe w bits n (divRoundUp size w.sb.clusterSize) (divRoundUp n.size w.sb.clusterSize) := by
  by_cases hr : Referenced n
  swap
  · simp only [hr, not_false_eq_true, true_or, iff_true]
    intro rc v hrun
    have hfalse : Wp (fun _ => True) (exfatTruncate id size erase) w fun _ _ => False :=
      exfatTruncate_unreferenced hn hr
    exact (hfalse.run hrun).elim
  simp only [hr, not_true_eq_false, false_or]
  have hcs := clusterSize_pos w.sb
  have hcount := hm.count
  have hc1 : divRoundUp n.size w.sb.clusterSize ≤ w.sb.clusterCount := divRoundUp_le hcs ha.heap
  have hle : divRoundUp size w.sb.clusterSize ≤ divRoundUp n.size w.sb.clusterSize :=
    divRoundUp_mono hs.le
  have h1 := bytes2clusters_eq hm.cluster
    (show divRoundUp n.size w.sb.clusterSize < 2 ^ 32 by omega)
  have h2 := bytes2clusters_eq hm.cluster (show divRoundUp size w.sb.clusterSize < 2 ^ 32 by omega)
  generalize divRoundUp n.size w.sb.clusterSize = current at *
  generalize divRoundUp size w.sb.clusterSize = keep at *
  have hresize : Wp (fun _ => False) (resizeChain id current keep) w fun rc v =>
      (∃ m, v.nodes id = some m) ∧
      ((rc = .ok ∨ Intact w v bits id n) ↔ (keep = current ∨ CutSafe w bits n keep current)) := by
    rw [resizeChain, if_neg (show ¬current < keep by omega)]
    split
    · rename_i hlt
      refine (shrinkFile_total hq hm hend hn hp hlt).mono ?_
      rintro rc v ⟨hv, hiff⟩
      refine ⟨hv, hiff.trans ?_⟩
      simp [show keep ≠ current by omega]
    · rename_i hge
      have heq : keep = current := by omega
      rw [wp_pure]
      exact ⟨⟨n, hn⟩, fun _ => Or.inl heq, fun _ => Or.inl rfl⟩
  have hrun : Wp (fun _ => False) (exfatTruncate id size erase) w fun rc v =>
      (rc = .ok ∨ Intact w v bits id n) ↔ (keep = current ∨ CutSafe w bits n keep current) := by
    simp only [exfatTruncate, wp_bind, wp_get, wp_getNode hn, if_neg hr,
      if_neg (show ¬n.size = size by omega), h1, h2]
    refine hresize.mono ?_
    rintro rc v ⟨⟨m, hm'⟩, hiff⟩
    cases rc with
    | err e => simpa using hiff
    | ok =>
      simp only [ne_eq, not_true_eq_false, if_false, wp_bind]
      refine after_ret (eraseNew_shrunk hs.le) fun t => ?_
      simp only [not_true_eq_false, if_false, wp_bind, exfatUpdateMtime, wp_timeNow]
      rw [wp_modifyNode (n := m) (by simpa using hm')]
      simp only [wp_modifyNode_setNode, wp_pure]
      exact ⟨fun _ => hiff.mp (Or.inl rfl), fun _ => Or.inl trivial⟩
  obtain ⟨rc, v, hret, hiff⟩ := hrun.returns
  rw [← hiff]
  constructor
  · intro h
    by_cases hok : rc = .ok
    · exact Or.inl hok
    · exact Or.inr (h rc v hret hok)
  · rintro h rc' v' hret' hok
    obtain ⟨rfl, rfl⟩ := Prod.mk.inj (Except.ok.inj (hret.symm.trans hret'))
    exact h.resolve_left hok

end

/-- A file of three clusters whose chain ends after two. -/
def shortNode : Node := { twoClustersNode with size := 1536 }

def shortChain : World := (twoClusters smallSb).setNode 1 shortNode

theorem twoClusters_placed {n : Node} (hs : n.startCluster = 2) (hc : n.fptrCluster = 2)
    (hi : n.fptrIndex = 0) (hpos : 0 < n.size) (hsize : n.size ≤ 4096) :
    Accepted smallSb n ∧ PointerValid (twoClusters smallSb) n := by
  have hvalid : smallSb.clusterInvalid 2 = false := by decide
  refine ⟨⟨fun h => by omega, fun _ => by rw [hs]; exact hvalid, hsize⟩, ?_, fun i hle => ?_⟩
  · rw [chainAt, hi, Function.iterate_zero_apply, hs, hc]
  · rw [show i = 0 by omega, chainAt, Function.iterate_zero_apply, hs]
    exact hvalid

theorem exfatTruncate_intact_iff_twoClusters : Accepted smallSb twoClustersNode ∧ ∀ rc v,
    @exfatTruncate calmEnv 1 512 true (twoClusters smallSb) = .ok (rc, v) → rc ≠ .ok →
      Intact (twoClusters smallSb) v (fun i => decide (i < 2)) 1 twoClustersNode := by
  obtain ⟨ha, hp⟩ := twoClusters_placed (n := twoClustersNode) rfl rfl rfl (by decide) (by decide)
  refine ⟨ha, ?_⟩
  refine (@exfatTruncate_intact_iff _ _ _ _ calmEnv calmEnv_quiet 512 true
    (twoClusters_exact (Or.inl rfl)).1 (by decide) rfl ha hp (by decide)).mpr (Or.inr (Or.inr ?_))
  rw [CutSafe, if_neg (by decide)]
  refine Or.inr (Or.inl ⟨?_, ?_⟩)
  · decide +kernel
  · intro _
    decide +kernel

/-- A chain that ends early is cut before the missing cluster is met. -/
theorem shrink_cuts_shortChain :
    Mapped shortChain (fun i => decide (i < 2)) ∧ shortChain.nodes 1 = some shortNode ∧
    Accepted shortChain.sb shortNode ∧ PointerValid shortChain shortNode ∧
    ∃ rc v, @exfatTruncate calmEnv 1 512 true shortChain = .ok (rc, v) ∧ rc = .err .eio ∧
      ¬Intact shortChain v (fun i => decide (i < 2)) 1 shortNode := by
  have hm := (twoClusters_exact (Or.inl rfl : smallSb = smallSb ∨ smallSb = overlapSb)).1
  obtain ⟨ha, hp⟩ := twoClusters_placed (n := shortNode) rfl rfl rfl (by decide) (by decide)
  refine ⟨hm.congr rfl rfl, rfl, ha, hp, ?_⟩
  let _ := calmEnv
  obtain ⟨rc, v, hrun, hc⟩ := returns_of_check (m := exfatTruncate 1 512 true) (s := shortChain)
    (p := fun rc v => decide (rc = .err .eio ∧ fat v.sb v.dev 2 ≠ fat smallSb shortChain.dev 2))
    (by decide +kernel)
  obtain ⟨hrc, hfat⟩ := of_decide_eq_true hc
  exact ⟨rc, v, hrun, hrc, fun hint => hfat (hint.fat 2)⟩

end Proofs

end Exfat
