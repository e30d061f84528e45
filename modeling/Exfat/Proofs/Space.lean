import Exfat.Proofs.FileIo
import Exfat.Proofs.Grow

namespace Exfat
open Lib

/-! Running out of space: when `exfat_truncate` fails for lack of clusters, and what it leaves. -/

namespace Proofs

variable {E : Halt → Prop} {w v : World} {n m : Node} {L : List Nat} {id : NodeId}
  {bits : Nat → Bool} {S : Set NodeId} {own : NodeId → List Nat} {size : Nat} {erase : Bool}

/-- The chain of a node has as many clusters as its size asks for, all of them allocated. -/
structure Holds (w : World) (bits : Nat → Bool) (n : Node) (L : List Nat) : Prop where
  chained : Chained w.sb w.dev n L
  length : L.length = divRoundUp n.size w.sb.clusterSize
  allocated : ∀ c ∈ L, bits (c - 2) = true
  empty : L = [] → n.startCluster = exfatClusterFree ∧ n.fptrIndex = 0 ∧
    n.fptrCluster = exfatClusterFree

/-- A mounted volume on which the nodes of `S` have chains of their own. -/
structure Consistent (w : World) (bits : Nat → Bool) (S : Set NodeId) (own : NodeId → List Nat) :
    Prop where
  geometry : Geometry w.sb
  mapped : Mapped w bits
  last : w.sb.clusterCount + 2 < 2 ^ 32
  holds : ∀ i ∈ S, ∃ n, w.nodes i = some n ∧ Holds w bits n (own i)
  disjoint : ∀ i ∈ S, ∀ j ∈ S, i ≠ j → ∀ c ∈ own i, c ∉ own j

section
variable [Env]

theorem eraseLoop_rc (b : Bool) (k c : Nat) :
    Wp (fun _ => True) (eraseLoop b k c) w fun rc _ => rc ≠ .err .enospc := by
  induction k generalizing w c with
  | zero =>
    intro h
    cases h
  | succ k ih =>
    simp only [eraseLoop, wp_bind]
    refine (wp_const trivial).mono fun x u _ => ?_
    simp only [wp_get]
    split
    · trivial
    · simp only [wp_bind, wp_get]
      refine (wp_const trivial).mono fun o u _ => (wp_const trivial).mono fun ok u _ => ?_
      split
      · exact ih x
      · intro h
        cases h

/-- Erasing never runs out of space. -/
theorem eraseNew_rc (id : NodeId) (erase : Bool) (start stop : Nat) :
    Wp (fun _ => True) (eraseNew id erase start stop) w fun rc _ => rc ≠ .err .enospc := by
  rw [eraseNew]
  split
  · simp only [eraseRange, wp_bind, wp_get]
    split
    · exact nofun
    · simp only [wp_bind]
      refine (wp_const trivial).mono fun c u _ => ?_
      simp only [wp_get]
      split
      · exact nofun
      · simp only [wp_bind]
        refine (wp_const trivial).mono fun o u _ => (wp_const trivial).mono fun ok u _ => ?_
        split
        · simp only [wp_bind]
          refine (wp_const trivial).mono fun k u _ => ?_
          exact eraseLoop_rc _ _ _
        · exact nofun
  · exact nofun

/-- `exfat_truncate` fails for lack of space only where the chain cannot be resized. -/
theorem exfatTruncate_enospc {R : World → Prop} (hn : w.nodes id = some n)
    (h : Wp (fun _ => True) (resizeChain id (bytes2clusters w.sb n.size)
      (bytes2clusters w.sb size)) w fun rc u => rc = .err .enospc → R u) :
    Wp (fun _ => True) (exfatTruncate id size erase) w fun rc u => rc = .err .enospc → R u := by
  simp only [exfatTruncate, wp_bind, wp_get, wp_getNode hn]
  split
  · trivial
  split
  · intro h
    cases h
  · simp only [wp_bind]
    refine h.mono fun rc u hrc => ?_
    split
    · exact hrc
    · simp only [wp_bind]
      refine (eraseNew_rc _ _ _ _).mono fun rc u hrc => ?_
      split
      · exact fun he => absurd he hrc
      · simp only [wp_bind]
        refine (wp_const trivial).mono fun _ u _ => (wp_const trivial).mono fun _ u _ => ?_
        intro h
        cases h

omit [Env] in
theorem FirstFit.only {count start i j : Nat} (h : FirstFit bits count start i)
    (hf : freeSet bits count = {j}) : i = j := by
  have := mem_freeSet.mpr ⟨h.lt, h.clear⟩
  rwa [hf, Finset.mem_singleton] at this

/-- What growing from a trap leaves: the node and the device as they were, and another bitmap. -/
structure AfterTrap (w u : World) (id : NodeId) (n : Node) (c : Nat) (F : Finset Nat) : Prop where
  node : u.nodes id = some (n.seek 0 (c + 1))
  others : ∀ j, j ≠ id → u.nodes j = w.nodes j
  sb : u.sb = w.sb
  dev : u.dev = w.dev
  mapped : ∃ bits', Mapped u bits' ∧ freeSet bits' w.sb.clusterCount = F

/-- Giving back a cluster from a trap frees the cluster after the chain instead. -/
theorem AfterTrap.shrink {c : Nat} (h : AfterTrap w v id n c ∅) (hb : n.isContiguous = true)
    (hs : n.startCluster = c + 1) (h2 : 2 ≤ c) (hlt : c + 1 < w.sb.clusterCount + 2)
    (hend : w.sb.clusterCount + 2 < 2 ^ 32) :
    Wp E (shrinkFile id 2 1) v fun _ u =>
      AfterTrap w u id n c (if c < w.sb.clusterCount then {c} else ∅) := by
  obtain ⟨bits', hm, hfull⟩ := h.mapped
  have hset : ∀ i, i < w.sb.clusterCount → bits' i = true := by
    intro i hi
    by_contra hne
    have hfree : i ∈ freeSet bits' w.sb.clusterCount := mem_freeSet.mpr ⟨hi, by simpa using hne⟩
    rw [hfull] at hfree
    exact absurd hfree (Finset.notMem_empty _)
  have hvalid : w.sb.clusterInvalid (c + 1) = false := clusterInvalid_false.mpr ⟨by omega, hlt⟩
  have hfree : ¬c + 1 = exfatClusterFree := by simp
  have hfirst : ¬c + 1 < exfatFirstDataCluster := by
    simp only [exfatFirstDataCluster]
    omega
  have hback : ∀ m, m = n.seek 0 (c + 1) → v.setNode id m = v := by
    rintro _ rfl
    exact World.setNode_eq v h.node
  have hmod : (c + 1 + 1) % 2 ^ 32 = c + 2 := by omega
  simp only [shrinkFile, wp_bind, wp_getNode h.node, Node.seek_startCluster, hs, if_neg hfree,
    Nat.one_ne_zero, if_false, if_neg (show ¬2 < 1 by omega), if_pos (show 2 > 1 by omega),
    exfatAdvanceCluster, Node.seek_fptrIndex, Node.seek_fptrCluster, Nat.reduceSub, advanceLoop,
    wp_pure, wp_modifyNode h.node, wp_get, World.setNode_sb, h.sb, hvalid, Bool.false_eq_true,
    gt_iff_lt, lt_irrefl, exfatNextCluster, if_neg hfirst, Node.seek_isContiguous, hb, if_true,
    setNextCluster, shrinkTail, wp_modifyNode_setNode, wp_getNode_setNode, shrinkLoop, hmod]
  rw [hback _ (by simp [Node.seek, hs, hb])]
  split
  · rename_i hv
    have hc : ¬c < w.sb.clusterCount := by
      intro hc
      rw [clusterInvalid_false.mpr ⟨by omega, by omega⟩] at hv
      cases hv
    rw [if_neg hc]
    exact ⟨h.node, h.others, h.sb, h.dev, bits', hm.congr rfl rfl, hfull⟩
  · rename_i hv
    have hv' : v.sb.clusterInvalid (c + 2) = false := by
      rw [h.sb]
      simpa using hv
    have hc : c < w.sb.clusterCount := by
      have := (clusterInvalid_false.mp hv').2
      rw [h.sb] at this
      omega
    simp only [wp_bind, if_neg (show ¬c + 2 < exfatFirstDataCluster by simp), if_true, wp_pure]
    refine after_ret (freeCluster_spec hm hv') fun t => ?_
    rw [if_pos hc]
    have hrel : Mapped (v.withCmap (v.cmap.release (c + 2))) (bmapClr bits' c) := hm.release
    refine ⟨h.node, h.others, h.sb, h.dev, bmapClr bits' c, hrel.congr rfl rfl, ?_⟩
    ext i
    rw [mem_freeSet, Finset.mem_singleton, bmapClr]
    split
    · rename_i hi
      simp [hi, hc]
    · rename_i hi
      refine ⟨fun hf => ?_, fun he => absurd he hi⟩
      rw [hset i hf.1] at hf
      cases hf.2

/-- Growing from a trap: one cluster is taken but never linked, nor given back. -/
theorem growFile_trapped (hq : Env.Quiet) {k c : Nat} (hm : Mapped w bits)
    (hend : w.sb.clusterCount + 2 < 2 ^ 32) (hn : w.nodes id = some n)
    (hc : Chained w.sb w.dev n [c + 1]) (hb : n.isContiguous = true) (h2 : 2 ≤ c)
    (hfree : freeSet bits w.sb.clusterCount = {c - 2}) (hk : 0 < k) :
    Wp E (growFile id 1 k) w fun rc u =>
      (k = 1 → rc = .ok ∧ AfterTrap w u id n c ∅) ∧
      (1 < k → rc = .err .enospc ∧
        AfterTrap w u id n c (if c < w.sb.clusterCount then {c} else ∅)) := by
  have hv : w.sb.clusterInvalid (c + 1) = false := hc.valid _ (by simp)
  have hlt := (clusterInvalid_false.mp hv).2
  have hvc : w.sb.clusterInvalid c = false := clusterInvalid_false.mpr ⟨h2, by omega⟩
  have hs : n.startCluster = c + 1 := hc.walk.1.symm
  have hne : n.startCluster ≠ exfatClusterFree := by
    rw [hs]
    simp
  simp only [growFile, wp_bind, wp_getNode hn, if_neg (Nat.pos_iff_ne_zero.mp hk), if_pos hne,
    Nat.reduceAdd, Nat.reduceSub, Nat.reduceMod, Nat.reducePow]
  refine after_ret (exfatAdvanceCluster_spec hq hn hc (k := 0) rfl) fun t => ?_
  simp only [wp_get, World.ticked_sb, World.setNode_sb, hv, Bool.false_eq_true, if_false]
  obtain ⟨k, rfl⟩ := Nat.exists_eq_succ_of_ne_zero (Nat.pos_iff_ne_zero.mp hk)
  simp only [growLoop, wp_bind]
  refine (allocateCluster_spec (w := (w.setNode id (n.seek 0 (c + 1))).ticked t)
    (hm.congr rfl rfl) hend _).mono ?_
  rintro x a (⟨i, rfl, hfit, rfl⟩ | ⟨hnone, -, -⟩)
  · obtain rfl : i = c - 2 := FirstFit.only hfit hfree
    rw [show c - 2 + 2 = c by omega]
    generalize ha : World.took ((w.setNode id (n.seek 0 (c + 1))).ticked t) bits c = a
    have htrap : AfterTrap w a id n c ∅ := by
      subst ha
      refine ⟨World.setNode_self _ _ _, fun j hj => World.setNode_ne _ _ hj, rfl, rfl,
        bmapSet bits (c - 2),
        (hm.congr (v := (w.setNode id (n.seek 0 (c + 1))).ticked t) rfl rfl).took, ?_⟩
      rw [freeSet_bmapSet, hfree, Finset.erase_singleton]
    simp only [htrap.sb, hvc, Bool.false_eq_true, if_false, wp_bind, leaveContiguous, wp_get,
      wp_getNode htrap.node]
    have hprev : ¬(c ≠ (c + 1 + 2 ^ 32 - 1) % 2 ^ 32 ∧ (n.seek 0 (c + 1)).isContiguous = true) := by
      intro h
      omega
    rw [if_neg hprev]
    simp only [wp_pure, if_true, wp_bind, wp_getNode htrap.node, setNextCluster,
      Node.seek_isContiguous, hb]
    cases k with
    | zero =>
      simp only [growLoop, wp_bind, wp_getNode htrap.node, setNextCluster, Node.seek_isContiguous,
        hb, if_true, wp_pure]
      exact ⟨fun _ => ⟨trivial, htrap⟩, fun h => absurd h (by omega)⟩
    | succ k =>
      obtain ⟨bits', ham, hfull⟩ := htrap.mapped
      simp only [growLoop, wp_bind]
      refine (allocateCluster_spec ham (htrap.sb ▸ hend) _).mono ?_
      rintro x u (⟨i, -, hfit, -⟩ | ⟨-, rfl, rfl⟩)
      · have hin := mem_freeSet.mpr ⟨hfit.lt, hfit.clear⟩
        rw [htrap.sb, hfull] at hin
        exact absurd hin (Finset.notMem_empty _)
      · simp only [wp_get, World.erred_sb, htrap.sb, clusterEnd_invalid hend, if_true, wp_bind, ne_eq,
          Nat.one_ne_zero, not_false_eq_true, Nat.reduceAdd]
        have herr : AfterTrap w (a.erred (a.errors + 1)) id n c ∅ :=
          ⟨htrap.node, htrap.others, htrap.sb, htrap.dev, bits', ham.congr rfl rfl, hfull⟩
        refine (herr.shrink hb hs h2 hlt hend).mono fun _ u hu => ?_
        exact ⟨fun h => absurd h (by omega), fun _ => ⟨rfl, hu⟩⟩
  · have hin : c - 2 ∈ freeSet bits w.sb.clusterCount := by rw [hfree, Finset.mem_singleton]
    rw [show freeSet bits w.sb.clusterCount = ∅ from hnone] at hin
    exact absurd hin (Finset.notMem_empty _)

/-- Dropping clusters needs no space. -/
theorem resizeChain_le (hq : Env.Quiet) {k : Nat} (hm : Mapped w bits) (hn : w.nodes id = some n)
    (hc : Chained w.sb w.dev n L) (hk : k ≤ L.length) :
    Wp E (resizeChain id L.length k) w fun rc _ => rc = .ok := by
  rw [resizeChain, if_neg (Nat.not_lt.mpr hk)]
  split
  · rename_i hlt
    exact after_ret (shrinkFile_spec hq hm hn hc hlt) fun _ => rfl
  · exact rfl

end

/-- A volume of eight free clusters with one empty file. -/
def emptyFile : World where
  dev := fun _ => 0
  sb := smallSb
  cmap := { startCluster := 9, size := 8, chunk := some fun _ => false, chunkSize := 8 }
  nodes := fun i => if i = 1 then some { references := 1 } else none
  fresh := 2

theorem emptyFile_consistent : Consistent emptyFile (fun _ => false) {1} fun _ => [] where
  geometry := ⟨by decide, by decide, by decide, by decide⟩
  mapped := ⟨by decide, by decide, by decide, by decide, rfl⟩
  last := by decide
  holds := by
    rintro i rfl
    exact ⟨{ references := 1 }, rfl, ⟨trivial, by simp, by simp, fun h => absurd rfl h⟩,
      by decide +kernel, by simp, fun _ => ⟨rfl, rfl, rfl⟩⟩
  disjoint := by simp

end Proofs

end Exfat
