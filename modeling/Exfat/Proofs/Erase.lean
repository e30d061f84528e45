import Exfat.Proofs.Shrink

namespace Exfat
open Lib

/-! Erasing: `erase_range` zeroes a range of the data of a chain and the rest of its last cluster. -/

namespace Proofs

variable {E : Halt → Prop} {w : World} {n : Node} {L : List Nat} {sb : SuperBlock} {d e : Store}
  {c off len : Nat} {bits : Nat → Bool}

/-- A range of the data of a chain was zeroed, and at most the rest of its last cluster with it. -/
structure Erased (sb : SuperBlock) (d : Store) (L : List Nat) (start stop : Nat) (e : Store) :
    Prop where
  zero : ∀ o, start ≤ o → o < stop → e (filePos sb L o) = 0
  only : ∀ p, (∀ o, start ≤ o → o < roundUp stop sb.clusterSize → p ≠ filePos sb L o) → e p = d p
  below : ∀ o < start, e (filePos sb L o) = d (filePos sb L o)
  other : ∀ c, 2 ≤ c → c ∉ L → ∀ o < sb.clusterSize, e (c2oRaw sb c + o) = d (c2oRaw sb c + o)

theorem Wrote.erased {start stop : Nat} (h : Wrote sb d L start (List.replicate len 0) e)
    (hge : ∀ c ∈ L, 2 ≤ c) (hd : L.Nodup) (hl : L.length = divRoundUp stop sb.clusterSize)
    (hs : start < stop) (hcover : stop ≤ start + len)
    (hb : start + len ≤ L.length * sb.clusterSize) : Erased sb d L start stop e where
  zero := by
    intro o ho1 ho2
    have hz := h.inside (o - start) (by rw [List.length_replicate]; omega)
    rw [show start + (o - start) = o by omega] at hz
    rw [hz, List.getD_eq_getElem?_getD, List.getElem?_replicate, if_pos (by omega)]
    rfl
  only := by
    intro p hp
    refine h.outside p fun i hi => hp _ (by omega) ?_
    rw [List.length_replicate] at hi
    rw [roundUp, ← hl]
    omega
  below := by
    intro o ho
    exact h.same hge hd (by rwa [List.length_replicate]) (by omega) (Or.inl ho)
  other := by
    intro c hc hcL o ho
    exact h.cluster hge (by rwa [List.length_replicate]) hc hcL ho

/-- The world outside where no allocation fails. -/
@[reducible] def unfailing (env : Env) : Env := { env with mallocFails := fun _ => false }

theorem advanceLoop_unfailing (env : Env) (b : Bool) (k c : Nat) :
    @advanceLoop (unfailing env) b k c = @advanceLoop env b k c := by
  induction k generalizing c with
  | zero => rfl
  | succ k ih =>
    simp only [advanceLoop, ih]
    rfl

theorem eraseLoop_unfailing (env : Env) (b : Bool) (m c : Nat) :
    @eraseLoop (unfailing env) b m c = @eraseLoop env b m c := by
  induction m generalizing c with
  | zero => rfl
  | succ m ih =>
    simp only [eraseLoop, ih]
    rfl

/-- `erase_range` allocates nothing. -/
theorem eraseRange_unfailing (env : Env) (id : NodeId) (start stop : Nat) :
    @eraseRange (unfailing env) id start stop = @eraseRange env id start stop := by
  simp only [eraseRange, exfatAdvanceCluster, advanceLoop_unfailing, eraseLoop_unfailing]
  rfl

section
variable [Env]

theorem eraseRaw_spec (hq : Env.Quiet) (size off : Nat) :
    Wp E (eraseRaw size off) w
      (Ret true (w.withDev (w.dev.write off (List.replicate size 0)))) := by
  simp only [eraseRaw, wp_bind]
  refine after_ret (exfatPwrite_spec hq _ _) fun t => ?_
  exact ⟨rfl, t, rfl⟩

/-- The loop of `erase_range` zeroes the clusters after a given one. -/
theorem eraseLoop_spec (hq : Env.Quiet) {b : Bool} {s k m : Nat}
    (hw : Walk (link w.sb w.dev b) s L) (ha : LinksApart w.sb b L)
    (hv : ∀ x ∈ L, w.sb.clusterInvalid x = false) (hn : L.Nodup) (hk : L[k]? = some c)
    (hm : k + m < L.length) :
    Wp E (eraseLoop b m c) w fun rc v =>
      ∃ dev, Wrote w.sb w.dev L ((k + 1) * w.sb.clusterSize)
        (List.replicate (m * w.sb.clusterSize) 0) dev ∧ Ret .ok (w.withDev dev) rc v := by
  have hge : ∀ x ∈ L, 2 ≤ x := fun x hx => (clusterInvalid_false.mp (hv x hx)).1
  induction m generalizing w k c with
  | zero =>
    simp only [Nat.zero_mul, List.replicate_zero]
    exact ⟨w.dev, .nil _ _ _ _, Ret.intro _ _⟩
  | succ m ih =>
    have hk1 : L[k + 1]? = some (L.get ⟨k + 1, by omega⟩) := List.getElem?_eq_getElem (by omega)
    generalize L.get ⟨k + 1, by omega⟩ = x at hk1
    have hvx := hv x (List.mem_of_getElem? hk1)
    have hx2 := hge x (List.mem_of_getElem? hk1)
    simp only [eraseLoop, wp_bind]
    refine after_ret (exfatNextCluster_spec hq b (hge c (List.mem_of_getElem? hk))) fun t => ?_
    simp only [hw.next hk hk1, wp_get, World.ticked_sb, hvx, Bool.false_eq_true, if_false, wp_bind]
    refine after_ret (exfatC2o_spec hx2) fun t => after_ret (eraseRaw_spec hq _ _) fun t => ?_
    simp only [World.ticked_ticked, World.ticked_sb, World.ticked_dev, World.withDev_ticked,
      if_true]
    have hfirst := @wrote_cluster _ w.sb w.dev (List.replicate w.sb.clusterSize 0) _ _ 0 hk1
      (by simp)
    simp only [Nat.add_zero] at hfirst
    generalize w.dev.write (c2oRaw w.sb x) (List.replicate w.sb.clusterSize 0) = dev at hfirst
    have hinside : (k + 1) * w.sb.clusterSize + w.sb.clusterSize ≤ L.length * w.sb.clusterSize := by
      rw [← Nat.succ_mul]
      exact Nat.mul_le_mul_right _ (by omega)
    have hw' := hfirst.walk ha (by rwa [List.length_replicate]) hw
    refine (ih (w := (w.ticked t).withDev dev) hw' ha hv hk1 (by omega)).mono ?_
    rintro rc v ⟨dev', hwr, hret⟩
    refine ⟨dev', ?_, hret⟩
    have hsplit : List.replicate ((m + 1) * w.sb.clusterSize) (0 : UInt8) =
        List.replicate w.sb.clusterSize 0 ++ List.replicate (m * w.sb.clusterSize) 0 := by
      rw [← List.replicate_add, Nat.succ_mul, Nat.add_comm]
    have hbound : (k + 1) * w.sb.clusterSize + (m + 1) * w.sb.clusterSize ≤
        L.length * w.sb.clusterSize := by
      rw [← Nat.add_mul]
      exact Nat.mul_le_mul_right _ (by omega)
    rw [hsplit]
    refine hfirst.append hge hn ?_ ?_
    · rw [← hsplit, List.length_replicate]
      exact hbound
    · rw [List.length_replicate, ← Nat.succ_mul]
      exact hwr

/-- `erase_range` on a node whose chain starts with the clusters `L`. -/
theorem eraseRange_walk (hq : Env.Quiet) {id : NodeId} {start stop : Nat}
    (hn : w.nodes id = some n) (hcount : w.sb.clusterCount < 2 ^ 32)
    (hw : Walk (link w.sb w.dev n.isContiguous) n.startCluster L)
    (ha : LinksApart w.sb n.isContiguous L) (hv : ∀ c ∈ L, w.sb.clusterInvalid c = false)
    (hd : L.Nodup)
    (hf : n.fptrIndex ≤ start / w.sb.clusterSize → L[n.fptrIndex]? = some n.fptrCluster)
    (hs : start < stop) (hb : stop ≤ L.length * w.sb.clusterSize) :
    Wp E (eraseRange id start stop) w fun rc v => ∃ dev len k c,
      stop ≤ start + len ∧ start + len ≤ L.length * w.sb.clusterSize ∧
      Wrote w.sb w.dev L start (List.replicate len 0) dev ∧ L[k]? = some c ∧
      Ret .ok ((w.withDev dev).setNode id (n.seek k c)) rc v := by
  have hcs := clusterSize_pos w.sb
  obtain ⟨c, hk, hcm⟩ := exists_cluster (show start < L.length * w.sb.clusterSize by omega)
  have hlt := getElem?_lt hk
  have hvc := hv c hcm
  have hge : ∀ x ∈ L, 2 ≤ x := fun x hx => (clusterInvalid_false.mp (hv x hx)).1
  have hmod := Nat.div_add_mod' start w.sb.clusterSize
  have hmlt := Nat.mod_lt start hcs
  have hlen := valid_length_le hv hd
  have hidx : start / w.sb.clusterSize % 2 ^ 32 = start / w.sb.clusterSize :=
    Nat.mod_eq_of_lt (by omega)
  simp only [eraseRange, wp_bind, wp_get, if_neg (Nat.not_le.mpr hs), hidx]
  refine after_ret (exfatAdvanceCluster_walk hq hn hw hv hf hk) fun t => ?_
  simp only [World.setNode_ticked, World.setNode_sb, World.ticked_sb, hvc, Bool.false_eq_true,
    if_false, wp_bind]
  refine after_ret (exfatC2o_spec (hge c hcm)) fun t => after_ret (eraseRaw_spec hq _ _) fun t => ?_
  simp only [if_true, wp_bind]
  generalize start / w.sb.clusterSize = k at hk hlt hmod ⊢
  generalize start % w.sb.clusterSize = lo at hmod hmlt ⊢
  have hbound : (k + 1) * w.sb.clusterSize = k * w.sb.clusterSize + w.sb.clusterSize :=
    Nat.succ_mul _ _
  rw [wp_getNode (n := n.seek k c) (by simp)]
  generalize hl1 : min ((k + 1) * w.sb.clusterSize) stop - start = l1
  have hfirst : Wrote w.sb w.dev L start (List.replicate l1 0)
      (w.dev.write (c2oRaw w.sb c + lo) (List.replicate l1 0)) := by
    have := @wrote_cluster _ w.sb w.dev (List.replicate l1 0) _ _ lo hk
      (by rw [List.length_replicate]; omega)
    rwa [hmod] at this
  simp only [World.setNode_ticked, World.setNode_sb, World.ticked_sb, World.setNode_dev,
    World.ticked_dev, World.setNode_withDev, World.ticked_ticked, World.withDev_ticked,
    Node.seek_isContiguous]
  generalize w.dev.write (c2oRaw w.sb c + lo) (List.replicate l1 0) = dev at hfirst ⊢
  generalize hm : divRoundUp (stop - (k + 1) * w.sb.clusterSize) w.sb.clusterSize = m
  have hcover := le_divRoundUp_mul (stop - (k + 1) * w.sb.clusterSize) hcs
  rw [hm] at hcover
  have hle : m ≤ L.length - (k + 1) := by
    rw [← hm]
    refine divRoundUp_le hcs ?_
    rw [Nat.sub_mul]
    omega
  have hmul : (k + 1) * w.sb.clusterSize + m * w.sb.clusterSize ≤
      L.length * w.sb.clusterSize := by
    rw [← Nat.add_mul]
    exact Nat.mul_le_mul_right _ (by omega)
  have hinside : (k + 1) * w.sb.clusterSize ≤ L.length * w.sb.clusterSize :=
    Nat.mul_le_mul_right _ hlt
  have hw' := hfirst.walk ha (by rw [List.length_replicate]; omega) hw
  refine (eraseLoop_spec (w := ((w.ticked t).withDev dev).setNode id (n.seek k c)) hq hw' ha hv hd
    hk (m := m) (by omega)).mono ?_
  rintro _ _ ⟨dev', hwr, rfl, t, rfl⟩
  by_cases hmore : m = 0
  · subst hmore
    simp only [Nat.zero_mul, List.replicate_zero] at hwr
    refine ⟨dev', l1, k, c, by omega, by omega, ⟨fun i hi => ?_, fun p hp => ?_⟩, hk, rfl, t, rfl⟩
    · exact (hwr.outside _ (by simp)).trans (hfirst.inside i hi)
    · exact (hwr.outside p (by simp)).trans (hfirst.outside p hp)
  · have hpos : 0 < stop - (k + 1) * w.sb.clusterSize :=
      (divRoundUp_pos hcs).mp (by omega)
    have hend : start + l1 = (k + 1) * w.sb.clusterSize := by omega
    refine ⟨dev', l1 + m * w.sb.clusterSize, k, c, by omega, by omega, ?_, hk, rfl, t, rfl⟩
    rw [List.replicate_add]
    refine hfirst.append hge hd ?_ ?_
    · simp only [List.length_append, List.length_replicate]
      omega
    · rw [List.length_replicate, hend]
      exact hwr

/-- `erase_range` zeroes the range, and at most the rest of the clusters it lies in. -/
theorem eraseRange_spec (hq : Env.Quiet) (hcount : w.sb.clusterCount < 2 ^ 32) {id : NodeId}
    {start stop : Nat} (hn : w.nodes id = some n) (hc : Chained w.sb w.dev n L)
    (ha : LinksApart w.sb n.isContiguous L) (hs : start < stop)
    (hb : stop ≤ L.length * w.sb.clusterSize) :
    Wp E (eraseRange id start stop) w fun rc v => ∃ dev len k c,
      stop ≤ start + len ∧ start + len ≤ L.length * w.sb.clusterSize ∧
      Wrote w.sb w.dev L start (List.replicate len 0) dev ∧ L[k]? = some c ∧
      Ret .ok ((w.withDev dev).setNode id (n.seek k c)) rc v := by
  refine eraseRange_walk hq hn hcount hc.walk ha hc.valid hc.nodup
    (fun _ => hc.fptr ?_) hs hb
  rintro rfl
  simp at hb
  omega

/-- With a working device `erase_range` zeroes the range and spares everything else. Of the chain
it needs the clusters up to the end of the range, of the cached pointer nothing if it lies behind the
range. -/
theorem eraseRange_erases (hio : ∀ t, Env.ioFails t = false) {id : NodeId} {start stop : Nat}
    (hn : w.nodes id = some n) (hcount : w.sb.clusterCount < 2 ^ 32)
    (hw : Walk (link w.sb w.dev n.isContiguous) n.startCluster L)
    (hv : ∀ c ∈ L, w.sb.clusterInvalid c = false) (hd : L.Nodup)
    (hl : L.length = divRoundUp stop w.sb.clusterSize)
    (hf : n.fptrIndex ≤ start / w.sb.clusterSize → L[n.fptrIndex]? = some n.fptrCluster)
    (ha : LinksApart w.sb n.isContiguous L) (hs : start < stop) :
    ∃ v, eraseRange id start stop w = .ok (.ok, v) ∧ Erased w.sb w.dev L start stop v.dev := by
  have hq : @Env.Quiet (unfailing ‹Env›) := @Env.Quiet.mk (unfailing _) hio fun _ => rfl
  have hb : stop ≤ L.length * w.sb.clusterSize := hl ▸ le_divRoundUp_mul stop (clusterSize_pos _)
  have hspec := @eraseRange_walk (fun _ => False) w n L (unfailing _) hq id start stop hn hcount hw
    ha hv hd hf hs hb
  obtain ⟨rc, v, hrun, dev, len, k, c, hcover, hinside, hwr, -, rfl, t, rfl⟩ := hspec.returns
  rw [eraseRange_unfailing] at hrun
  refine ⟨_, hrun, ?_⟩
  exact hwr.erased (fun x hx => (clusterInvalid_false.mp (hv x hx)).1) hd hl hs hcover hinside

end

/-- A file that starts at the first cluster. -/
def twoClusterNode (contiguous : Bool) : Node :=
  { (default : Node) with
    startCluster := 2, fptrCluster := 2, fptrIndex := 0, isContiguous := contiguous, size := 1024 }

/-- A small volume whose FAT lies in the first data cluster, with one file of two clusters. -/
def overlapping : World :=
  { dev := Store.write (fun _ => 0) (2 * 512 + 2 * 4) [3]
    sb := { smallSb with fatSectorStart := 2 }
    nodes := fun _ => some (twoClusterNode false) }

set_option maxRecDepth 4000 in
/-- Erasing data that holds the links of its own chain ends in `exfat_bug`. -/
theorem eraseRange_overlapping :
    overlapping.nodes 1 = some (twoClusterNode false) ∧
    Walk (link overlapping.sb overlapping.dev false) (twoClusterNode false).startCluster [2, 3] ∧
    (∀ c ∈ [2, 3], overlapping.sb.clusterInvalid c = false) ∧ [2, 3].Nodup ∧
    [2, 3].length = divRoundUp 1024 overlapping.sb.clusterSize ∧
    [2, 3][(twoClusterNode false).fptrIndex]? = some (twoClusterNode false).fptrCluster ∧
    @eraseRange calmEnv 1 0 1024 overlapping =
      .error (.bug "invalid cluster 0x%x after allocation") := by
  refine ⟨rfl, ⟨rfl, ?_, trivial⟩, ?_, ?_, ?_, rfl, rfl⟩
  all_goals decide

/-- A range inside the second cluster of a contiguous file. -/
theorem eraseRange_erases_contiguous : ∃ v,
    @eraseRange calmEnv 1 700 900 { overlapping with nodes := fun _ => some (twoClusterNode true) } =
      .ok (.ok, v) ∧ Erased overlapping.sb overlapping.dev [2, 3] 700 900 v.dev :=
  @eraseRange_erases { overlapping with nodes := fun _ => some (twoClusterNode true) }
    (twoClusterNode true) [2, 3] calmEnv (fun _ => rfl) 1 700 900 rfl (by decide)
    ⟨rfl, rfl, trivial⟩ (by decide) (by decide) (by decide) (fun _ => rfl) (Or.inl rfl) (by decide)

end Proofs

end Exfat
