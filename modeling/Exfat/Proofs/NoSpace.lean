import Exfat.Proofs.Space

namespace Exfat
open Lib

/-! A write that runs out of space: `exfat_generic_pwrite` extends the file in two truncations. -/

namespace Proofs

variable {E : Halt → Prop} {w v : World} {n m : Node} {L : List Nat} {id : NodeId}
  {bits : Nat → Bool} {size off : Nat} {erase : Bool} {sb : SuperBlock}

/-- What `exfat_truncate` needs to know about the node it resizes. -/
structure Counted (w : World) (bits : Nat → Bool) (id : NodeId) (n : Node) (L : List Nat) :
    Prop where
  node : w.nodes id = some n
  geometry : Geometry w.sb
  mapped : Mapped w bits
  last : w.sb.clusterCount + 2 < 2 ^ 32
  chained : Chained w.sb w.dev n L
  count : bytes2clusters w.sb n.size = L.length
  allocated : ∀ c ∈ L, bits (c - 2) = true
  empty : L = [] → n.startCluster = exfatClusterFree ∧ n.fptrIndex = 0 ∧
    n.fptrCluster = exfatClusterFree

/-- The size, the bytes and the number of free clusters are the same. -/
structure Spared (w v : World) (bits : Nat → Bool) (id : NodeId) (n : Node) (L : List Nat) :
    Prop where
  node : ∃ m, v.nodes id = some m ∧ m.size = n.size ∧ Chained v.sb v.dev m L ∧
    fileBytes v m L = fileBytes w n L
  free : ∃ bits', v.cmap.chunk = some bits' ∧
    (freeSet bits' w.sb.clusterCount).card = (freeSet bits w.sb.clusterCount).card

/-- A trap at the end of the heap. -/
def TrappedLast (bits : Nat → Bool) (count : Nat) (n : Node) (L : List Nat) : Prop :=
  Trapped bits count n L ∧ L = [count + 1]

/-- `exfat_truncate` accepts the node. -/
def Referenced (n : Node) : Prop := ¬(n.references = 0 ∧ n.parent.isSome = true)

theorem fileBytes_heap (hs : v.sb = w.sb) (hm : m.size = n.size)
    (hd : ∀ p, c2oRaw w.sb exfatFirstDataCluster ≤ p → v.dev p = w.dev p) :
    fileBytes v m L = fileBytes w n L := by
  rw [fileBytes, fileBytes, hs, hm]
  exact fileData_congr fun i _ => hd _ (filePos_ge _ _ _)

theorem Growing.heap {bits' : Nat → Bool} {A : List Nat} (hg : Geometry w.sb)
    (hc : Chained w.sb w.dev n L) (h : Growing w v bits bits' id n m L A) {p : Nat}
    (hp : c2oRaw w.sb exfatFirstDataCluster ≤ p) : v.dev p = w.dev p := by
  refine h.device p fun c hcm => Or.inr ?_
  have hlt : c < w.sb.clusterCount + 2 := by
    rcases hcm with hcm | hcm
    · exact hc.lt hcm
    · exact (clusterInvalid_false.mp hcm.1).2
  have := hg.fat_lt hlt
  omega

/-- A node whose chain now has the clusters that a larger size needs. -/
structure Stretched (w u : World) (bits : Nat → Bool) (id : NodeId) (n m : Node) (L K : List Nat) :
    Prop where
  node : u.nodes id = some m
  sb : u.sb = w.sb
  size_eq : m.size = n.size
  referenced : Referenced n → Referenced m
  chained : Chained u.sb u.dev m K
  mapped : ∃ bits', Mapped u bits' ∧ (∀ c ∈ K, bits' (c - 2) = true) ∧
    (freeSet bits' w.sb.clusterCount).card + K.length =
      (freeSet bits w.sb.clusterCount).card + L.length

theorem Growing.stretched {bits' : Nat → Bool} {A : List Nat}
    (hL : ∀ c ∈ L, bits (c - 2) = true) (h : Growing w v bits bits' id n m L A) :
    Stretched w v bits id n m L (L ++ A) := by
  have hsame := h.same
  refine ⟨h.node, h.sb, ?_, ?_, h.chained, bits', h.mapped, fun c hc => h.used hL hc, ?_⟩
  · obtain ⟨_, _, _, _, _, rfl⟩ := hsame
    rfl
  · obtain ⟨_, _, _, _, _, rfl⟩ := hsame
    exact fun hr => hr
  · rw [List.length_append, ← h.card]
    omega

/-- From a trap inside the heap the next cluster of the heap passes for the second one. -/
theorem AfterTrap.stretched {u : World} {c : Nat} (h : AfterTrap w u id n c ∅)
    (hc : Chained w.sb w.dev n [c + 1]) (hb : n.isContiguous = true) (hlt : c < w.sb.clusterCount)
    (hcount : w.sb.clusterCount + 2 < 2 ^ 32)
    (hfree : freeSet bits w.sb.clusterCount = {c - 2}) :
    Stretched w u bits id n (n.seek 0 (c + 1)) [c + 1] [c + 1, c + 2] := by
  obtain ⟨bits', hm, hfull⟩ := h.mapped
  have hset : ∀ i, i < w.sb.clusterCount → bits' i = true := by
    intro i hi
    by_contra hne
    have hin : i ∈ freeSet bits' w.sb.clusterCount := mem_freeSet.mpr ⟨hi, by simpa using hne⟩
    rw [hfull] at hin
    exact absurd hin (Finset.notMem_empty _)
  refine ⟨h.node, h.sb, rfl, fun hr => hr, ⟨⟨hc.walk.1, ?_, trivial⟩, ?_, by simp, fun _ => rfl⟩,
    bits', hm, ?_, ?_⟩
  · simp only [Node.seek_isContiguous, Node.seek_startCluster, hb, link, if_true, ← hc.walk.1]
    omega
  · intro x hx
    rw [h.sb]
    have h2 := hc.ge (c := c + 1) (by simp)
    rcases List.mem_cons.mp hx with rfl | hx
    · exact hc.valid _ (by simp)
    · rw [List.mem_singleton] at hx
      subst hx
      exact clusterInvalid_false.mpr ⟨by omega, by omega⟩
  · intro x hx
    rcases List.mem_cons.mp hx with rfl | hx
    · exact hset _ (by omega)
    · rw [List.mem_singleton] at hx
      subst hx
      exact hset _ (by omega)
  · rw [hfull, hfree]
    rfl

section
variable [Env]

/-- A truncation that asks for more clusters than there are fails; what it is about is spared unless
the node is in a trap at the end of the heap. -/
theorem Counted.fails (hq : Env.Quiet) (h : Counted w bits id n L) (href : Referenced n)
    (hlt : L.length + (freeSet bits w.sb.clusterCount).card < bytes2clusters w.sb size)
    (erase : Bool) :
    Wp E (exfatTruncate id size erase) w fun rc v => rc = .err .enospc ∧
      (∃ m, v.nodes id = some m ∧ m.size = n.size) ∧
      (Spared w v bits id n L ↔ ¬TrappedLast bits w.sb.clusterCount n L) := by
  have hne : ¬n.size = size := by
    rintro rfl
    rw [h.count] at hlt
    omega
  simp only [exfatTruncate, wp_bind, wp_get, wp_getNode h.node, if_neg href, if_neg hne, h.count,
    resizeChain, if_pos (show L.length < bytes2clusters w.sb size by omega)]
  by_cases htrap : Trapped bits w.sb.clusterCount n L
  · obtain ⟨hb, c, h2, rfl, hfree⟩ := htrap
    rw [hfree, Finset.card_singleton, List.length_singleton] at hlt
    refine (growFile_trapped hq h.mapped h.last h.node h.chained hb h2 hfree (by
      rw [List.length_singleton]; omega)).mono fun rc u hu => ?_
    obtain ⟨rfl, htr⟩ := hu.2 (by rw [List.length_singleton]; omega)
    refine ⟨rfl, ⟨_, htr.node, rfl⟩, ?_⟩
    have hlast : TrappedLast bits w.sb.clusterCount n [c + 1] ↔ ¬c < w.sb.clusterCount := by
      have hv := h.chained.lt (c := c + 1) (by simp)
      constructor
      · rintro ⟨-, he⟩
        have := List.singleton_injective he
        omega
      · intro hc
        exact ⟨⟨hb, c, h2, rfl, hfree⟩, by rw [show c = w.sb.clusterCount by omega]⟩
    obtain ⟨bits', hm', hF⟩ := htr.mapped
    rw [hlast, not_not]
    constructor
    · intro hsp
      by_contra hc
      obtain ⟨bits2, hchunk, hcard⟩ := hsp.free
      obtain rfl := Option.some.inj (hm'.chunk.symm.trans hchunk)
      rw [hF, if_neg hc, hfree] at hcard
      simp at hcard
    · intro hc
      have hchain : Chained u.sb u.dev (n.seek 0 (c + 1)) [c + 1] := by
        rw [htr.sb, htr.dev]
        exact h.chained.advanced rfl
      refine ⟨⟨_, htr.node, rfl, hchain, fileBytes_heap htr.sb rfl fun p _ => by rw [htr.dev]⟩,
        bits', hm'.chunk, ?_⟩
      rw [hF, if_pos hc, hfree]
      simp
  · refine (growFile_spec hq h.mapped h.last h.node h.chained h.allocated h.empty (by omega)
      htrap).mono fun rc u hu => ?_
    obtain ⟨rfl, m, hgrow⟩ := hu.2 (by omega)
    have hsize : m.size = n.size := by
      obtain ⟨_, _, _, _, _, rfl⟩ := hgrow.same
      rfl
    have hchain := hgrow.chained
    rw [List.append_nil] at hchain
    refine ⟨rfl, ⟨m, hgrow.node, hsize⟩, ⟨fun _ ht => htrap ht.1, fun _ => ?_⟩⟩
    exact ⟨⟨m, hgrow.node, hsize, hchain, fileBytes_heap hgrow.sb hsize fun p hp =>
      hgrow.heap h.geometry h.chained hp⟩, bits, hgrow.mapped.chunk, rfl⟩

/-- A truncation for which there are enough clusters does not fail for lack of space. -/
theorem Counted.fits (hq : Env.Quiet) (h : Counted w bits id n L)
    (hle : bytes2clusters w.sb size ≤ L.length + (freeSet bits w.sb.clusterCount).card)
    (erase : Bool) :
    Wp (fun _ => True) (exfatTruncate id size erase) w fun rc _ => rc ≠ .err .enospc := by
  refine (exfatTruncate_enospc (R := fun _ => False) h.node ?_).mono fun rc _ hrc he => hrc he
  rw [h.count]
  by_cases hlt : L.length < bytes2clusters w.sb size
  · rw [resizeChain, if_pos hlt]
    by_cases htrap : Trapped bits w.sb.clusterCount n L
    · obtain ⟨hb, c, h2, rfl, hfree⟩ := htrap
      rw [hfree, Finset.card_singleton, List.length_singleton] at hle
      rw [List.length_singleton] at hlt ⊢
      refine (growFile_trapped hq h.mapped h.last h.node h.chained hb h2 hfree (by omega)).mono
        fun rc u hu he => ?_
      rw [(hu.1 (by omega)).1] at he
      cases he
    · refine (growFile_spec hq h.mapped h.last h.node h.chained h.allocated h.empty (by omega)
        htrap).mono fun rc u hu he => ?_
      rw [(hu.1 (by omega)).1] at he
      cases he
  · refine (resizeChain_le hq h.mapped h.node h.chained (Nat.le_of_not_lt hlt)).mono
      fun rc u hrc he => ?_
    rw [hrc] at he
    cases he

/-- There are enough clusters, and no trap at the end of the heap: the chain grows. -/
theorem Counted.stretch (hq : Env.Quiet) {k : Nat} (h : Counted w bits id n L) (hk : L.length ≤ k)
    (hle : k ≤ L.length + (freeSet bits w.sb.clusterCount).card)
    (hsafe : ¬(TrappedLast bits w.sb.clusterCount n L ∧ k = 2)) :
    Wp E (resizeChain id L.length k) w fun rc u => rc = .ok ∧ ∃ m K, K.length = k ∧
      Stretched w u bits id n m L K := by
  rw [resizeChain]
  split
  · rename_i hlt
    by_cases htrap : Trapped bits w.sb.clusterCount n L
    · have htail := htrap
      obtain ⟨hb, c, h2, hL, hfree⟩ := htail
      subst hL
      rw [hfree, Finset.card_singleton, List.length_singleton] at hle
      rw [List.length_singleton] at hlt ⊢
      obtain rfl : k = 2 := by omega
      refine (growFile_trapped hq h.mapped h.last h.node h.chained hb h2 hfree (by omega)).mono
        fun rc u hu => ?_
      obtain ⟨rfl, htr⟩ := hu.1 rfl
      have hc : c < w.sb.clusterCount := by
        have hv := h.chained.lt (c := c + 1) (by simp)
        by_contra hc
        exact hsafe ⟨⟨htrap, by rw [show c = w.sb.clusterCount by omega]⟩, rfl⟩
      exact ⟨rfl, _, _, rfl, htr.stretched h.chained hb hc h.last hfree⟩
    · refine (growFile_spec hq h.mapped h.last h.node h.chained h.allocated h.empty (by omega)
        htrap).mono fun rc u hu => ?_
      obtain ⟨rfl, bits', m, A, hA, hgrow, -⟩ := hu.1 (by omega)
      exact ⟨rfl, m, L ++ A, by rw [List.length_append]; omega, hgrow.stretched h.allocated⟩
  · rename_i hlt
    obtain rfl : k = L.length := by omega
    rw [if_neg (lt_irrefl _)]
    exact ⟨rfl, n, L, rfl, h.node, rfl, rfl, fun hr => hr, h.chained, bits, h.mapped, h.allocated,
      rfl⟩

/-- The zero-filled gap before a write: there is room for it, and it is erased. -/
theorem Counted.gap (hq : Env.Quiet) (h : Counted w bits id n L) (href : Referenced n)
    (hs : n.size < off) (hwide : divRoundUp off w.sb.clusterSize < 2 ^ 32)
    (hle : bytes2clusters w.sb off ≤ L.length + (freeSet bits w.sb.clusterCount).card)
    (hsafe : ¬(TrappedLast bits w.sb.clusterCount n L ∧ bytes2clusters w.sb off = 2)) :
    Wp E (exfatTruncate id off true) w fun rc v => rc = .ok ∧ ∃ m bits' K,
      Counted v bits' id m K ∧ m.size = off ∧ Referenced m ∧ v.sb = w.sb ∧
      (freeSet bits' w.sb.clusterCount).card + K.length =
        (freeSet bits w.sb.clusterCount).card + L.length := by
  have hcs := clusterSize_pos w.sb
  have h2 := bytes2clusters_eq h.geometry.cluster hwide
  have hmono := divRoundUp_mono (d := w.sb.clusterSize) hs.le
  have h1 : divRoundUp n.size w.sb.clusterSize = L.length := by
    rw [← h.count, bytes2clusters_eq h.geometry.cluster (by omega)]
  simp only [exfatTruncate, wp_bind, wp_get, wp_getNode h.node, if_neg href,
    if_neg (show ¬n.size = off by omega), h.count]
  refine (h.stretch hq (by omega) hle hsafe).mono ?_
  rintro _ u ⟨rfl, m, K, hK, hstr⟩
  have hgu : Geometry u.sb := hstr.sb ▸ h.geometry
  have hlast : u.sb.clusterCount + 2 < 2 ^ 32 := hstr.sb ▸ h.last
  have hcover : off ≤ K.length * u.sb.clusterSize := by
    rw [hK, h2, hstr.sb]
    exact le_divRoundUp_mul off hcs
  simp only [ne_eq, not_true_eq_false, if_false, eraseNew, if_true, wp_bind]
  rw [← hstr.size_eq]
  refine (eraseRange_spec hq hgu.count hstr.node hstr.chained
    (hgu.linksApart hstr.chained.valid) (by rw [hstr.size_eq]; exact hs)
    hcover).mono ?_
  rintro _ _ ⟨dev, len, k, c, -, -, hwr, hk, rfl, t, rfl⟩
  simp only [not_true_eq_false, if_false, wp_bind, exfatUpdateMtime, wp_timeNow]
  rw [wp_modifyNode (n := m.seek k c) (by simp)]
  simp only [wp_modifyNode_setNode, wp_pure, true_and]
  obtain ⟨bits', hm', hal, hcard⟩ := hstr.mapped
  refine ⟨_, bits', K, ⟨World.setNode_self _ _ _, hgu, hm'.congr rfl rfl, hlast, ?_, ?_, hal, ?_⟩,
    rfl, hstr.referenced href, hstr.sb, hcard⟩
  · exact ((hstr.chained.heap hgu fun p hp => hwr.before_heap hp).advanced hk).congr
      (fun _ _ => rfl) rfl fun _ => hk
  · rw [hK]
    exact congrArg (fun sb => bytes2clusters sb off) hstr.sb
  · intro hnil
    have hpos := (divRoundUp_pos (a := off) hcs).mpr (by omega)
    rw [hnil, List.length_nil] at hK
    omega

/-- A cluster that `exfat_advance_cluster` finds valid was reached through valid ones. -/
theorem advanceLoop_valid (hq : Env.Quiet) (b : Bool) (k c : Nat) :
    Wp (fun _ => True) (advanceLoop b k c) w fun x v => (∃ t, v = w.ticked t) ∧
      (w.sb.clusterInvalid x = false → x = (link w.sb w.dev b)^[k] c ∧ (0 < k → 2 ≤ c) ∧
        ∀ i, 0 < i → i ≤ k → w.sb.clusterInvalid ((link w.sb w.dev b)^[i] c) = false) := by
  induction k generalizing w c with
  | zero => exact ⟨⟨w.tick, rfl⟩, fun _ => ⟨rfl, fun h => absurd h (by omega), fun i _ _ => by omega⟩⟩
  | succ k ih =>
    by_cases hc : 2 ≤ c
    · simp only [advanceLoop, wp_bind]
      refine after_ret (exfatNextCluster_spec hq b hc) fun t => ?_
      simp only [wp_get]
      split
      · rename_i hval
        refine ⟨⟨t, rfl⟩, fun hv => ?_⟩
        rw [World.ticked_sb, hv] at hval
        cases hval
      · rename_i hval
        refine (ih (w := w.ticked t) (link w.sb w.dev b c)).mono ?_
        rintro x _ ⟨⟨t', rfl⟩, hx⟩
        refine ⟨⟨t', rfl⟩, fun hv => ?_⟩
        obtain ⟨hxk, -, hall⟩ := hx hv
        refine ⟨hxk, fun _ => hc, fun i hi hik => ?_⟩
        obtain ⟨j, rfl⟩ := Nat.exists_eq_succ_of_ne_zero (Nat.pos_iff_ne_zero.mp hi)
        rw [Function.iterate_succ_apply]
        rcases Nat.eq_zero_or_pos j with rfl | hj
        · simpa using hval
        · exact hall j hj (by omega)
    · have hbug : c < exfatFirstDataCluster := by
        simp only [exfatFirstDataCluster]
        omega
      simp only [advanceLoop, exfatNextCluster, if_pos hbug, wp_bind]
      trivial

/-- The loop of `erase_range` returns only if it met valid clusters. -/
theorem eraseLoop_valid (hq : Env.Quiet) (hg : Geometry w.sb) (b : Bool) (k c : Nat) :
    Wp (fun _ => True) (eraseLoop b k c) w fun _ _ => (0 < k → 2 ≤ c) ∧
      ∀ i, 0 < i → i ≤ k → w.sb.clusterInvalid ((link w.sb w.dev b)^[i] c) = false := by
  induction k generalizing w c with
  | zero => exact ⟨fun h => absurd h (by omega), fun i _ _ => by omega⟩
  | succ k ih =>
    by_cases hc : 2 ≤ c
    · simp only [eraseLoop, wp_bind]
      refine after_ret (exfatNextCluster_spec hq b hc) fun t => ?_
      simp only [wp_get]
      split
      · trivial
      · rename_i hval
        have hx : w.sb.clusterInvalid (link w.sb w.dev b c) = false := by simpa using hval
        generalize hlx : link w.sb w.dev b c = x at hx ⊢
        simp only [wp_bind, wp_get]
        refine after_ret (exfatC2o_spec (clusterInvalid_false.mp hx).1) fun t =>
          after_ret (eraseRaw_spec hq _ _) fun t => ?_
        simp only [if_true]
        have hheap : ∀ p, p < c2oRaw w.sb exfatFirstDataCluster →
            w.dev.write (c2oRaw w.sb x) (List.replicate w.sb.clusterSize 0) p = w.dev p := by
          intro p hp
          have := c2oRaw_ge w.sb x
          exact Store.write_out _ (Or.inl (by omega))
        refine Wp.mono (ih (w := (w.ticked t).withDev (w.dev.write (c2oRaw w.sb x)
          (List.replicate w.sb.clusterSize 0))) hg x) fun _ _ hrest => ⟨fun _ => hc, fun i hi hik => ?_⟩
        obtain ⟨j, rfl⟩ := Nat.exists_eq_succ_of_ne_zero (Nat.pos_iff_ne_zero.mp hi)
        rw [Function.iterate_succ_apply, hlx]
        have hsame := iterate_congr (f := link w.sb w.dev b)
          (P := fun y => w.sb.clusterInvalid y = false)
          (fun y hy => link_congr hg hheap (clusterInvalid_false.mp hy).2) hx hrest.2
          (show j ≤ k by omega)
        rcases Nat.eq_zero_or_pos j with rfl | hj
        · exact hx
        · rw [← hsame]
          exact hrest.2 j hj (by omega)
    · have hbug : c < exfatFirstDataCluster := by
        simp only [exfatFirstDataCluster]
        omega
      simp only [eraseLoop, exfatNextCluster, if_pos hbug, wp_bind]
      trivial

/-- `erase_range` succeeds only if the chain goes on to the end of the range. -/
theorem eraseRange_valid (hq : Env.Quiet) (hg : Geometry w.sb) {start stop : Nat}
    (hn : w.nodes id = some n)
    (hfp : n.fptrCluster = (link w.sb w.dev n.isContiguous)^[n.fptrIndex] n.startCluster)
    (hK : start / w.sb.clusterSize < 2 ^ 32) (hs : start < stop) :
    Wp (fun _ => True) (eraseRange id start stop) w fun rc _ => rc = .ok →
      (n.fptrIndex ≤ start / w.sb.clusterSize → 2 ≤ n.fptrCluster) ∧
      ∀ i, n.fptrIndex < i → i < divRoundUp stop w.sb.clusterSize →
        w.sb.clusterInvalid ((link w.sb w.dev n.isContiguous)^[i] n.startCluster) = false := by
  have hcs := clusterSize_pos w.sb
  simp only [eraseRange, wp_bind, wp_get, if_neg (Nat.not_le.mpr hs), Nat.mod_eq_of_lt hK,
    exfatAdvanceCluster, wp_getNode hn]
  generalize hKd : start / w.sb.clusterSize = K
  refine (advanceLoop_valid hq _ _ _).mono ?_
  rintro x _ ⟨⟨t, rfl⟩, hx⟩
  rw [wp_modifyNode (n := n) (by simpa using hn)]
  simp only [wp_pure]
  split
  · intro h
    cases h
  · rename_i hval
    have hxv : w.sb.clusterInvalid x = false := by simpa using hval
    obtain ⟨hxk, hstart, hall⟩ := hx hxv
    -- up to index `K` the pointer went through valid clusters
    have hxK : x = (link w.sb w.dev n.isContiguous)^[K] n.startCluster := by
      rw [hxk]
      split
      · simp
      · rename_i hle
        rw [hfp, ← Function.iterate_add_apply, Nat.sub_add_cancel (Nat.le_of_not_lt hle)]
    have hfront : ∀ i, n.fptrIndex < i → i ≤ K →
        w.sb.clusterInvalid ((link w.sb w.dev n.isContiguous)^[i] n.startCluster) = false := by
      intro i h1 h2
      have hle : ¬n.fptrIndex > K := by omega
      simp only [if_neg hle] at hall
      have := hall (i - n.fptrIndex) (by omega) (by omega)
      rwa [hfp, ← Function.iterate_add_apply, Nat.sub_add_cancel (by omega)] at this
    have htwo : n.fptrIndex ≤ K → 2 ≤ n.fptrCluster := by
      intro hle
      simp only [if_neg (Nat.not_lt.mpr hle)] at hstart hxk
      rcases Nat.lt_or_eq_of_le hle with hlt | heq
      · exact hstart (by omega)
      · rw [heq, Nat.sub_self, Function.iterate_zero_apply] at hxk
        exact hxk ▸ (clusterInvalid_false.mp hxv).1
    generalize hM : divRoundUp (stop - (K + 1) * w.sb.clusterSize) w.sb.clusterSize = M
    have hbound : divRoundUp stop w.sb.clusterSize ≤ K + 1 + M := by
      refine divRoundUp_le hcs ?_
      have := le_divRoundUp_mul (stop - (K + 1) * w.sb.clusterSize) hcs
      rw [hM] at this
      rw [Nat.add_mul (K + 1) M]
      omega
    -- the rest of the range, on any device with the same FAT
    have hrest : ∀ z : World, z.sb = w.sb →
        (∀ p, p < c2oRaw w.sb exfatFirstDataCluster → z.dev p = w.dev p) →
        Wp (fun _ => True) (eraseLoop n.isContiguous M x) z fun rc _ => rc = .ok →
          (n.fptrIndex ≤ K → 2 ≤ n.fptrCluster) ∧
          ∀ i, n.fptrIndex < i → i < divRoundUp stop w.sb.clusterSize →
            w.sb.clusterInvalid ((link w.sb w.dev n.isContiguous)^[i] n.startCluster) = false := by
      intro z hsb hd
      refine (eraseLoop_valid hq (hsb ▸ hg) n.isContiguous M x).mono
        fun rc _ hloop _ => ⟨htwo, fun i h1 h2 => ?_⟩
      rw [hsb] at hloop
      by_cases hiK : i ≤ K
      · exact hfront i h1 hiK
      · have hsame := iterate_congr (f := link w.sb w.dev n.isContiguous)
          (P := fun y => w.sb.clusterInvalid y = false)
          (fun y hy => link_congr hg hd (clusterInvalid_false.mp hy).2)
          hxv hloop.2 (show i - K ≤ M by omega)
        have hlast := hloop.2 (i - K) (by omega) (by omega)
        rw [hsame, hxK, ← Function.iterate_add_apply, Nat.sub_add_cancel (by omega)] at hlast
        exact hlast
    simp only [wp_bind]
    refine after_ret (exfatC2o_spec (clusterInvalid_false.mp hxv).1) fun t =>
      after_ret (eraseRaw_spec hq _ _) fun t => ?_
    simp only [if_true, wp_bind]
    refine (wp_getNode (n := n.seek K x) (by simp [Node.seek])).mpr (hrest _ rfl fun p hp => ?_)
    have := c2oRaw_ge w.sb x
    exact Store.write_out _ (Or.inl (by simp only [World.setNode_sb, World.ticked_sb]; omega))

omit [Env] in
theorem iterate_contiguous {d : Store} {i c : Nat} (h : c + i < 2 ^ 32) :
    (link sb d true)^[i] c = c + i := by
  induction i with
  | zero => rfl
  | succ i ih =>
    rw [Function.iterate_succ_apply', ih (by omega), link_contiguous (by omega), Nat.add_assoc]

omit [Env] in
/-- Where a chain stops: a marked one at its end, a contiguous one at the end of the heap. -/
theorem Chained.stops {d : Store} {K : List Nat} (hc : Chained sb d m K) (hK : K ≠ [])
    (hend : sb.clusterCount + 2 < 2 ^ 32)
    (hmark : m.isContiguous = false → ∀ c, K.getLast? = some c → fat sb d c = exfatClusterEnd) :
    ∃ i, m.fptrIndex < i ∧ i ≤ sb.clusterCount ∧
      (m.isContiguous = true → i = sb.clusterCount + 2 - m.startCluster) ∧
      sb.clusterInvalid ((link sb d m.isContiguous)^[i] m.startCluster) = true := by
  have hf := hc.fptr hK
  have hfget := hc.walk.get hf
  have hlen := hc.length_le
  cases hb : m.isContiguous with
  | true =>
    rw [hb] at hfget
    obtain ⟨s, hs⟩ : ∃ s, K[0]? = some s :=
      ⟨_, List.getElem?_eq_getElem (List.length_pos_iff.mpr hK)⟩
    have hstart : m.startCluster = s := (hc.walk.get hs).symm
    have hsv := clusterInvalid_false.mp (hc.valid s (List.mem_of_getElem? hs))
    have hfi := contiguous_get (by omega) (hb ▸ hc.walk) hc.valid hf
    have hfv := clusterInvalid_false.mp (hc.valid _ (List.mem_of_getElem? hf))
    refine ⟨sb.clusterCount + 2 - m.startCluster, by omega, by omega, fun _ => rfl, ?_⟩
    rw [iterate_contiguous (by omega)]
    by_contra hv
    have := (clusterInvalid_false.mp (Bool.not_eq_true _ ▸ hv)).2
    omega
  | false =>
    obtain ⟨K', x, rfl⟩ := (List.eq_nil_or_concat' K).resolve_left hK
    have hx : x = (link sb d m.isContiguous)^[K'.length] m.startCluster := hc.walk.get (by simp)
    refine ⟨(K' ++ [x]).length, getElem?_lt hf, hlen, nofun, ?_⟩
    rw [List.length_append, List.length_singleton, Function.iterate_succ_apply', ← hb, ← hx, hb]
    simp only [link, Bool.false_eq_true, if_false, hmark hb x (by simp)]
    exact clusterEnd_invalid hend

/-- A resized node on which `erase_range` cannot reach the end of the gap. -/
def Stuck (u : World) (m : Node) (first stop : Nat) : Prop :=
  m.fptrCluster = (link u.sb u.dev m.isContiguous)^[m.fptrIndex] m.startCluster ∧
  (m.fptrIndex ≤ first ∧ m.fptrCluster < 2 ∨ ∃ i, m.fptrIndex < i ∧ i < stop ∧
    u.sb.clusterInvalid ((link u.sb u.dev m.isContiguous)^[i] m.startCluster) = true)

omit [Env] in
theorem Chained.stuck {u : World} {K : List Nat} {first stop : Nat}
    (hc : Chained u.sb u.dev m K) (hK : K ≠ []) (hend : u.sb.clusterCount + 2 < 2 ^ 32)
    (hmark : m.isContiguous = false → ∀ c, K.getLast? = some c →
      fat u.sb u.dev c = exfatClusterEnd)
    (hstop : u.sb.clusterCount < stop ∨
      m.isContiguous = true ∧ u.sb.clusterCount + 2 - m.startCluster < stop) :
    Stuck u m first stop := by
  obtain ⟨i, h1, h2, h3, h4⟩ := hc.stops hK hend hmark
  refine ⟨hc.walk.get (hc.fptr hK), Or.inr ⟨i, h1, ?_, h4⟩⟩
  rcases hstop with hs | ⟨hb, hs⟩
  · omega
  · rw [h3 hb]
    exact hs

/-- A gap of 2^32 clusters or more, or one in a trap at the end of the heap: whatever the chain is
resized to, it does not reach the end of the gap. -/
theorem Counted.resize_stuck (hq : Env.Quiet) (h : Counted w bits id n L)
    (hle : bytes2clusters w.sb off ≤ L.length + (freeSet bits w.sb.clusterCount).card)
    (hends : 2 ^ 32 ≤ divRoundUp off w.sb.clusterSize → n.isContiguous = false →
      ∀ c, L.getLast? = some c → fat w.sb w.dev c = exfatClusterEnd)
    (hcase : 2 ^ 32 ≤ divRoundUp off w.sb.clusterSize ∨
      TrappedLast bits w.sb.clusterCount n L ∧ bytes2clusters w.sb off = 2) (first : Nat) :
    Wp (fun _ => True) (resizeChain id L.length (bytes2clusters w.sb off)) w fun _ u =>
      ∃ m, u.nodes id = some m ∧ u.sb = w.sb ∧
        Stuck u m first (divRoundUp off w.sb.clusterSize) := by
  have hlast := h.last
  have hempty : ∀ {m : Node} {u : World}, m.startCluster = 0 → m.fptrIndex = 0 →
      m.fptrCluster = 0 → Stuck u m first (divRoundUp off w.sb.clusterSize) := by
    intro m u h1 h2 h3
    exact ⟨by rw [h1, h2, h3]; rfl, Or.inl ⟨by omega, by omega⟩⟩
  rw [resizeChain]
  split
  · rename_i hlt
    by_cases htrap : Trapped bits w.sb.clusterCount n L
    · obtain ⟨hb, c, h2, hL, hfree⟩ := htrap
      subst hL
      rw [hfree, Finset.card_singleton, List.length_singleton] at hle
      rw [List.length_singleton] at hlt ⊢
      refine (growFile_trapped hq h.mapped h.last h.node h.chained hb h2 hfree (by omega)).mono
        fun rc u hu => ?_
      obtain ⟨-, htr⟩ := hu.1 (by omega)
      have hchain : Chained u.sb u.dev (n.seek 0 (c + 1)) [c + 1] := by
        rw [htr.sb, htr.dev]
        exact h.chained.advanced rfl
      refine ⟨_, htr.node, htr.sb, hchain.stuck (by simp) (htr.sb ▸ hlast)
        (fun hf => absurd (hb.symm.trans hf) (by decide)) ?_⟩
      rw [htr.sb]
      rcases hcase with hwide | ⟨⟨-, hl⟩, h2c⟩
      · exact Or.inl (by omega)
      · refine Or.inr ⟨hb, ?_⟩
        have hs : n.startCluster = c + 1 := h.chained.walk.1.symm
        have hcl := List.singleton_injective hl
        rw [Node.seek_startCluster, hs]
        by_contra hno
        have := @bytes2clusters_eq _ off h.geometry.cluster (by omega)
        omega
    · have hwide := hcase.resolve_right fun hc => htrap hc.1.1
      refine (growFile_spec hq h.mapped h.last h.node h.chained h.allocated h.empty (by omega)
        htrap).mono fun rc u hu => ?_
      obtain ⟨-, bits', m, A, hA, hgrow, hmark⟩ := hu.1 (by omega)
      refine ⟨m, hgrow.node, hgrow.sb, hgrow.chained.stuck ?_ (hgrow.sb ▸ hlast) hmark
        (Or.inl (by rw [hgrow.sb]; omega))⟩
      rintro hnil
      have := congrArg List.length hnil
      rw [List.length_append, List.length_nil] at this
      omega
  · rename_i hlt
    have hwide : 2 ^ 32 ≤ divRoundUp off w.sb.clusterSize := by
      refine hcase.resolve_right fun hc => ?_
      rw [hc.1.2, List.length_singleton] at hlt
      omega
    split
    · rename_i hgt
      have hcut := resizeChain_shrink (E := fun _ => True) hq h.mapped h.node h.chained hgt
      rw [resizeChain, if_neg hlt, if_pos hgt] at hcut
      refine hcut.mono ?_
      rintro _ u ⟨-, m, hcut⟩
      refine ⟨m, hcut.node, hcut.sb, ?_⟩
      by_cases h0 : bytes2clusters w.sb off = 0
      · obtain ⟨h1, h2, h3⟩ := hcut.empty h0
        exact hempty h1 h2 h3
      · refine hcut.chained.stuck ?_ (hcut.sb ▸ hlast) ?_ (Or.inl (by rw [hcut.sb]; omega))
        · intro hnil
          have := congrArg List.length hnil
          rw [List.length_take, List.length_nil] at this
          omega
        · rw [hcut.contiguous]
          exact hcut.ends
    · rename_i hgt
      refine ⟨n, h.node, rfl, ?_⟩
      rcases List.eq_nil_or_concat' L with hnil | ⟨K, x, hK⟩
      · obtain ⟨h1, h2, h3⟩ := h.empty hnil
        exact hempty h1 h2 h3
      · exact h.chained.stuck (by rw [hK]; simp) hlast (hends hwide) (Or.inl (by omega))

/-- Such a gap is never filled. -/
theorem Counted.gap_fails (hq : Env.Quiet) (h : Counted w bits id n L) (hs : n.size < off)
    (hlen : L.length = divRoundUp n.size w.sb.clusterSize)
    (hle : bytes2clusters w.sb off ≤ L.length + (freeSet bits w.sb.clusterCount).card)
    (hends : 2 ^ 32 ≤ divRoundUp off w.sb.clusterSize → n.isContiguous = false →
      ∀ c, L.getLast? = some c → fat w.sb w.dev c = exfatClusterEnd)
    (hcase : 2 ^ 32 ≤ divRoundUp off w.sb.clusterSize ∨
      TrappedLast bits w.sb.clusterCount n L ∧ bytes2clusters w.sb off = 2) :
    Wp (fun _ => True) (exfatTruncate id off true) w fun rc _ => rc ≠ .ok := by
  have hfirst : n.size / w.sb.clusterSize < 2 ^ 32 := by
    have hcs := clusterSize_pos w.sb
    have hle1 := h.chained.length_le
    have hcover := le_divRoundUp_mul n.size hcs
    have hlast := h.last
    have : n.size / w.sb.clusterSize ≤ L.length := by
      rw [hlen]
      exact Nat.div_le_of_le_mul (by rw [Nat.mul_comm]; exact hcover)
    omega
  simp only [exfatTruncate, wp_bind, wp_get, wp_getNode h.node, h.count]
  split
  · trivial
  rw [if_neg (show ¬n.size = off by omega)]
  simp only [wp_bind]
  refine (h.resize_stuck hq hle hends hcase (n.size / w.sb.clusterSize)).mono ?_
  rintro rc u ⟨m, hm, hsb, hfp, hstuck⟩
  split
  · assumption
  · simp only [wp_bind, eraseNew, if_true]
    refine (eraseRange_valid hq (hsb ▸ h.geometry) hm hfp (by rw [hsb]; exact hfirst) hs).mono
      fun rc z hrc => ?_
    split
    · assumption
    · rename_i hok
      obtain ⟨h1, h2⟩ := hrc (not_not.mp hok)
      rw [hsb] at h1 h2
      rcases hstuck with ⟨hi, hlt⟩ | ⟨i, hi, hlt, hinv⟩
      · have := h1 hi
        omega
      · rw [hsb] at hinv
        have := h2 i hi hlt
        rw [this] at hinv
        cases hinv

theorem pwriteLoop_rc (b : Bool) (fuel c lo : Nat) (buf : List UInt8) :
    Wp (fun _ => True) (pwriteLoop b fuel c lo buf) w fun rc _ => rc ≠ .err .enospc := by
  induction fuel generalizing w c lo buf with
  | zero =>
    intro h
    cases h
  | succ fuel ih =>
    rw [pwriteLoop]
    split
    · intro h
      cases h
    · simp only [wp_bind, wp_get]
      split
      · intro h
        cases h
      · simp only [wp_bind]
        refine (wp_const trivial).mono fun o u _ => (wp_const trivial).mono fun ok u _ => ?_
        split
        · simp only [wp_bind]
          refine (wp_const trivial).mono fun c u _ => ?_
          exact ih _ _ _
        · intro h
          cases h

/-- A write fails for lack of space only where one of its two truncations does. -/
theorem exfatGenericPwrite_enospc {R : World → Prop} {buf : List UInt8} (hn : w.nodes id = some n)
    (h : Wp (fun _ => True) (extendTo id n.size off true) w fun rc u =>
      (rc = .err .enospc → R u) ∧ (rc = .ok → ∀ m, u.nodes id = some m →
        Wp (fun _ => True) (extendTo id m.size ((off + buf.length) % 2 ^ 64) false) u
          fun rc v => rc = .err .enospc → R v)) :
    Wp (fun _ => True) (exfatGenericPwrite id buf off) w fun rc v => rc = .err .enospc → R v := by
  simp only [exfatGenericPwrite, wp_bind, wp_getNode hn]
  refine h.mono fun rc u hu => ?_
  split
  · exact hu.1
  · rename_i hok
    simp only [wp_bind, wp_getNode_iff (E := fun _ => True) trivial]
    refine fun m hm => (hu.2 (not_not.mp hok) m hm).mono fun rc v hv => ?_
    split
    · exact hv
    · split
      · intro h
        cases h
      · simp only [wp_bind, wp_get]
        refine (wp_const trivial).mono fun c z _ => ?_
        split
        · intro h
          cases h
        · simp only [wp_bind, wp_getNode_iff (E := fun _ => True) trivial]
          refine fun m _ => (pwriteLoop_rc _ _ _ _ _).mono fun rc y hrc => ?_
          split
          · exact fun he => absurd he hrc
          · split
            · intro h
              cases h
            · simp only [wp_bind]
              refine (wp_const trivial).mono fun _ z _ => ?_
              intro h
              cases h

omit [Env] in
/-- The condition under which a write that runs out of space leaves no trace: its gap and its payload
do not fail apart from each other, and the node is not in a trap at the end of the heap. -/
def SpaceSafe (w : World) (bits : Nat → Bool) (n : Node) (L : List Nat) (off stop : Nat) : Prop :=
  ¬Referenced n ∨
  if n.size < off then
    if L.length + (freeSet bits w.sb.clusterCount).card < bytes2clusters w.sb off then
      ¬TrappedLast bits w.sb.clusterCount n L
    else
      bytes2clusters w.sb stop ≤ L.length + (freeSet bits w.sb.clusterCount).card ∨
      2 ^ 32 ≤ divRoundUp off w.sb.clusterSize ∨
      TrappedLast bits w.sb.clusterCount n L ∧ bytes2clusters w.sb off = 2
  else
    L.length + (freeSet bits w.sb.clusterCount).card < bytes2clusters w.sb stop →
      ¬TrappedLast bits w.sb.clusterCount n L

/-- An unreferenced node is not resized. -/
theorem exfatTruncate_unreferenced (hn : w.nodes id = some n) (href : ¬Referenced n)
    {Q : Rc → World → Prop} : Wp (fun _ => True) (exfatTruncate id size erase) w Q := by
  simp only [exfatTruncate, wp_bind, wp_get, wp_getNode hn, if_pos (not_not.mp href)]
  trivial

omit [Env] in
theorem Consistent.counted {S : Set NodeId} {own : NodeId → List Nat}
    (hw : Consistent w bits S own) (hid : id ∈ S) (hn : w.nodes id = some n) :
    Counted w bits id n (own id) ∧ (own id).length = divRoundUp n.size w.sb.clusterSize := by
  obtain ⟨n', hn', hold⟩ := hw.holds id hid
  obtain rfl := Option.some.inj (hn'.symm.trans hn)
  have hcount := hw.mapped.count
  have hlen := hold.chained.length_le
  refine ⟨⟨hn, hw.geometry, hw.mapped, hw.last, hold.chained, ?_, hold.allocated, hold.empty⟩,
    hold.length⟩
  rw [bytes2clusters_eq hw.geometry.cluster (by rw [← hold.length]; omega), hold.length]

/-- Under the condition, a write that runs out of space leaves no trace. -/
theorem Counted.spared (hq : Env.Quiet) (h : Counted w bits id n L)
    (hlen : L.length = divRoundUp n.size w.sb.clusterSize) {buf : List UInt8}
    (hends : 2 ^ 32 ≤ divRoundUp off w.sb.clusterSize → n.isContiguous = false →
      ∀ c, L.getLast? = some c → fat w.sb w.dev c = exfatClusterEnd)
    (hsafe : SpaceSafe w bits n L off ((off + buf.length) % 2 ^ 64)) :
    Wp (fun _ => True) (exfatGenericPwrite id buf off) w fun rc v =>
      rc = .err .enospc → Spared w v bits id n L := by
  have hle := h.chained.length_le
  have hlast := h.last
  apply exfatGenericPwrite_enospc h.node
  generalize (off + buf.length) % 2 ^ 64 = stop at hsafe ⊢
  by_cases href : Referenced n
  · have hsafe := hsafe.resolve_left (not_not.mpr href)
    by_cases hoff : n.size < off
    · rw [if_pos hoff] at hsafe
      rw [extendTo, if_pos hoff]
      split at hsafe
      · rename_i hbig
        refine (h.fails hq href hbig true).mono ?_
        rintro _ v ⟨rfl, -, hsp⟩
        exact ⟨fun _ => hsp.mpr hsafe, fun h => by cases h⟩
      · rename_i hbig
        have hfits := h.fits hq (Nat.le_of_not_lt hbig) true
        by_cases hstuck : 2 ^ 32 ≤ divRoundUp off w.sb.clusterSize ∨
            TrappedLast bits w.sb.clusterCount n L ∧ bytes2clusters w.sb off = 2
        · have hno := h.gap_fails hq hoff hlen (Nat.le_of_not_lt hbig) hends hstuck
          refine (hfits.and hno).mono fun rc u hu => ?_
          exact ⟨fun he => absurd he hu.1, fun he => absurd he hu.2⟩
        · rw [not_or, Nat.not_le] at hstuck
          have hstop := hsafe.resolve_right fun hc => hc.elim
            (fun hwide => absurd hwide (Nat.not_le.mpr hstuck.1)) hstuck.2
          have hgap := h.gap (E := fun _ => True) hq href hoff hstuck.1 (Nat.le_of_not_lt hbig)
            hstuck.2
          refine (hfits.and hgap).mono ?_
          rintro _ u ⟨-, rfl, m, bits', K, hcounted, hsize, -, hsb, hcard⟩
          refine ⟨(fun h => by cases h), fun _ m' hm' => ?_⟩
          obtain rfl := Option.some.inj (hcounted.node.symm.trans hm')
          rw [extendTo]
          split
          · refine (hcounted.fits hq (by rw [hsb]; omega) false).mono fun rc v hrc he => ?_
            exact absurd he hrc
          · intro h
            cases h
    · rw [if_neg hoff] at hsafe
      rw [extendTo, if_neg hoff]
      refine ⟨(fun h => by cases h), fun _ m hm => ?_⟩
      obtain rfl := Option.some.inj (h.node.symm.trans hm)
      rw [extendTo]
      split
      · by_cases hbig : L.length + (freeSet bits w.sb.clusterCount).card < bytes2clusters w.sb stop
        · refine (h.fails hq href hbig false).mono ?_
          rintro _ v ⟨-, -, hsp⟩ -
          exact hsp.mpr (hsafe hbig)
        · refine (h.fits hq (Nat.le_of_not_lt hbig) false).mono fun rc v hrc he => ?_
          exact absurd he hrc
      · intro h
        cases h
  · rw [extendTo]
    split
    · exact exfatTruncate_unreferenced h.node href
    · refine ⟨(fun h => by cases h), fun _ m hm => ?_⟩
      obtain rfl := Option.some.inj (h.node.symm.trans hm)
      rw [extendTo]
      split
      · exact exfatTruncate_unreferenced h.node href
      · intro h
        cases h

end

end Proofs

end Exfat
