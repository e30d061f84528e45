import Exfat.Lib.Cursor
import Exfat.Model.Mount
import Exfat.Proofs.Chain

namespace Exfat
open Lib

/-! Following cluster links of any FAT: `exfat_advance_cluster` and `rootdir_size`. -/

/-- The cached file pointer of a node. -/
def Node.fptr (n : Node) : Cursor Nat := ⟨n.fptrIndex, n.fptrCluster⟩

/-- One call of `exfat_advance_cluster` after the other, and what they return. -/
def advanceAll [Env] (id : NodeId) : List Nat → M (List Nat)
  | [] => pure []
  | k :: ks => do
    let c ← exfatAdvanceCluster id k
    let cs ← advanceAll id ks
    pure (c :: cs)

/-- `exfat_next_cluster`, applied to valid clusters only. -/
def nextOfValid [Env] (contiguous : Bool) (cluster : Nat) : M Nat := do
  if (← get).sb.clusterInvalid cluster then exfatBug "link of an invalid cluster"
  else exfatNextCluster contiguous cluster

/-- The loop of `exfat_advance_cluster` with another function in the place of `exfat_next_cluster`. -/
def advanceLoopBy (next : Bool → Nat → M Nat) (contiguous : Bool) : Nat → Nat → M Nat
  | 0, c => pure c
  | steps + 1, c => do
    let c ← next contiguous c
    if (← get).sb.clusterInvalid c then pure c
    else advanceLoopBy next contiguous steps c

/-- `exfat_advance_cluster` with it. -/
def advanceClusterBy (next : Bool → Nat → M Nat) (id : NodeId) (count : Nat) : M Nat := do
  let node ← getNode id
  let (index, cluster) :=
    if node.fptrIndex > count then (0, node.startCluster) else (node.fptrIndex, node.fptrCluster)
  let cluster ← advanceLoopBy next node.isContiguous (count - index) cluster
  modifyNode id fun n => { n with fptrIndex := count, fptrCluster := cluster }
  pure cluster

def advanceAllBy (next : Bool → Nat → M Nat) (id : NodeId) : List Nat → M (List Nat)
  | [] => pure []
  | k :: ks => do
    let c ← advanceClusterBy next id k
    let cs ← advanceAllBy next id ks
    pure (c :: cs)

namespace Proofs

variable {E : Halt → Prop} {w v : World} {n : Node} {id : NodeId} {ks : List Nat} {c k : Nat}

section
variable [Env]

/-- The loop is the walk that stops at an invalid cluster, as long as it asks for no successor of a
cluster below two. -/
theorem advanceLoop_stopWalk (hq : Env.Quiet) (b : Bool)
    (h : ∀ x ∈ asked (link w.sb w.dev b) w.sb.clusterInvalid k c, 2 ≤ x) :
    Wp E (advanceLoop b k c) w
      (Ret (stopWalk (link w.sb w.dev b) w.sb.clusterInvalid k c) w) := by
  induction k generalizing w c with
  | zero => exact Ret.intro _ _
  | succ k ih =>
    simp only [asked, List.mem_cons, forall_eq_or_imp] at h
    obtain ⟨hc, h⟩ := h
    simp only [advanceLoop, wp_bind, stopWalk]
    refine after_ret (exfatNextCluster_spec hq b hc) fun t => ?_
    rw [wp_get]
    by_cases hi : w.sb.clusterInvalid (link w.sb w.dev b c) = true
    · rw [if_pos (show (w.ticked t).sb.clusterInvalid _ = true from hi), if_pos hi]
      exact ⟨rfl, t, rfl⟩
    · rw [if_neg hi] at h
      rw [if_neg (show ¬(w.ticked t).sb.clusterInvalid _ = true from hi), if_neg hi]
      exact ih (w := w.ticked t) h

omit [Env] in
/-- Where `exfat_advance_cluster` sets out from. -/
theorem rewind_fptr (n : Node) (k : Nat) : n.fptr.rewind n.startCluster k =
    ⟨(if n.fptrIndex > k then (0, n.startCluster) else (n.fptrIndex, n.fptrCluster)).1,
      (if n.fptrIndex > k then (0, n.startCluster) else (n.fptrIndex, n.fptrCluster)).2⟩ := by
  change (if n.fptrIndex > k then (⟨0, n.startCluster⟩ : Cursor Nat) else n.fptr) = _
  split <;> rfl

/-- A call of `exfat_advance_cluster` is a seek of the cached file pointer. -/
theorem exfatAdvanceCluster_seek (hq : Env.Quiet) (hn : w.nodes id = some n)
    (h : ∀ x ∈ n.fptr.asks (link w.sb w.dev n.isContiguous) w.sb.clusterInvalid n.startCluster k,
      2 ≤ x) :
    let c := (n.fptr.seek (link w.sb w.dev n.isContiguous) w.sb.clusterInvalid n.startCluster k).value
    Wp E (exfatAdvanceCluster id k) w (Ret c (w.setNode id (n.seek k c))) := by
  simp only [Cursor.asks, rewind_fptr] at h
  simp only [exfatAdvanceCluster, wp_bind, wp_getNode hn, Cursor.seek, rewind_fptr]
  refine after_ret (advanceLoop_stopWalk hq n.isContiguous h) fun t => ?_
  rw [wp_modifyNode (n := n) (by simpa using hn)]
  exact ⟨rfl, t, rfl⟩

/-- Calls one after the other are seeks one after the other. -/
theorem advanceAll_seekAll (hq : Env.Quiet) (hn : w.nodes id = some n)
    (h : ∀ x ∈ asksAll (link w.sb w.dev n.isContiguous) w.sb.clusterInvalid n.startCluster n.fptr ks,
      2 ≤ x) :
    Wp E (advanceAll id ks) w fun cs _ => cs =
      seekAll (link w.sb w.dev n.isContiguous) w.sb.clusterInvalid n.startCluster n.fptr ks := by
  induction ks generalizing w n with
  | nil => exact rfl
  | cons k ks ih =>
    simp only [asksAll, List.forall_mem_append] at h
    simp only [advanceAll, wp_bind, wp_pure, seekAll]
    refine after_ret (exfatAdvanceCluster_seek hq hn h.1) fun t => ?_
    refine (ih (w := (w.setNode id (n.seek k _)).ticked t) (World.setNode_self _ _ _) h.2).mono ?_
    rintro cs x rfl
    rfl

/-- With `exfat_next_cluster` in its own place the calls are those of the code. -/
theorem advanceAllBy_next (id : NodeId) (ks : List Nat) :
    advanceAllBy exfatNextCluster id ks = advanceAll id ks := by
  have hloop : ∀ b k c, advanceLoopBy exfatNextCluster b k c = advanceLoop b k c := by
    intro b k c
    induction k generalizing c with
    | zero => rfl
    | succ k ih => simp only [advanceLoopBy, advanceLoop, ih]
  induction ks with
  | nil => rfl
  | cons k ks ih =>
    simp only [advanceAllBy, advanceAll, advanceClusterBy, exfatAdvanceCluster, hloop, ih]

/-- The loop that is applied to valid clusters only returns exactly if the walk asks for the successors
of no others. -/
theorem advanceLoopBy_valid (hq : Env.Quiet) (b : Bool) :
    Wp (fun _ => ¬∀ x ∈ asked (link w.sb w.dev b) w.sb.clusterInvalid k c,
        w.sb.clusterInvalid x = false) (advanceLoopBy nextOfValid b k c) w fun x v =>
      (∀ x ∈ asked (link w.sb w.dev b) w.sb.clusterInvalid k c, w.sb.clusterInvalid x = false) ∧
        Ret (stopWalk (link w.sb w.dev b) w.sb.clusterInvalid k c) w x v := by
  induction k generalizing w c with
  | zero => exact ⟨by simp [asked], Ret.intro _ _⟩
  | succ k ih =>
    simp only [advanceLoopBy, nextOfValid, wp_bind, wp_get, asked, List.forall_mem_cons, stopWalk]
    cases hc : w.sb.clusterInvalid c with
    | true =>
      rw [if_pos rfl]
      exact fun h => Bool.false_ne_true h.1.symm
    | false =>
      rw [if_neg Bool.false_ne_true]
      refine after_ret (exfatNextCluster_spec hq b (clusterInvalid_false.mp hc).1) fun t => ?_
      by_cases hi : w.sb.clusterInvalid (link w.sb w.dev b c) = true
      · rw [if_pos (show (w.ticked t).sb.clusterInvalid _ = true from hi), if_pos hi, if_pos hi]
        exact ⟨⟨rfl, by simp⟩, rfl, t, rfl⟩
      · rw [if_neg hi, if_neg (show ¬(w.ticked t).sb.clusterInvalid _ = true from hi), if_neg hi]
        refine ((ih (w := w.ticked t)).halts fun _ hn h => hn h.2).mono ?_
        rintro x v ⟨hall, hx, t', rfl⟩
        exact ⟨⟨rfl, hall⟩, hx, t', rfl⟩

/-- The calls that apply it to valid clusters only return exactly if the seeks ask for the successors
of no others. -/
theorem advanceAllBy_valid (hq : Env.Quiet) (hn : w.nodes id = some n) :
    Wp (fun _ => ¬∀ x ∈ asksAll (link w.sb w.dev n.isContiguous) w.sb.clusterInvalid n.startCluster
        n.fptr ks, w.sb.clusterInvalid x = false) (advanceAllBy nextOfValid id ks) w fun _ _ =>
      ∀ x ∈ asksAll (link w.sb w.dev n.isContiguous) w.sb.clusterInvalid n.startCluster n.fptr ks,
        w.sb.clusterInvalid x = false := by
  induction ks generalizing w n with
  | nil => simp [advanceAllBy, asksAll]
  | cons k ks ih =>
    simp only [asksAll, List.forall_mem_append, Cursor.asks, Cursor.seek, rewind_fptr]
    simp only [advanceAllBy, advanceClusterBy, wp_bind, wp_getNode hn]
    refine ((advanceLoopBy_valid hq n.isContiguous).halts fun _ hn h => hn h.1).mono ?_
    rintro x _ ⟨hall, rfl, t, rfl⟩
    rw [wp_modifyNode (n := n) (by simpa using hn)]
    generalize stopWalk _ _ _ _ = c
    refine ((ih (w := (w.setNode id (n.seek k c)).ticked t) (World.setNode_self _ _ _)).halts
      fun _ hn h => hn h.2).mono fun _ _ hrest => ⟨hall, hrest⟩

/-- The cached file pointer is transparent, and `exfat_next_cluster` is applied to no invalid cluster,
exactly for the sequences of calls that never go ahead from an index at or behind the first invalid
cluster of the chain. -/
theorem advanceAll_transparent_iff (hq : Env.Quiet) (hn : w.nodes id = some n)
    (hs : w.sb.clusterInvalid n.startCluster = false) (hi : n.fptrIndex = 0)
    (hc : n.fptrCluster = n.startCluster) (ks : List Nat) :
    advanceAllBy exfatNextCluster id ks = advanceAll id ks ∧
    (((∃ v, advanceAll id ks w = .ok (ks.map fun k =>
        stopWalk (link w.sb w.dev n.isContiguous) w.sb.clusterInvalid k n.startCluster, v)) ∧
      ∃ r, advanceAllBy nextOfValid id ks w = .ok r) ↔
      SeeksBack (link w.sb w.dev n.isContiguous) w.sb.clusterInvalid n.startCluster 0 ks) := by
  refine ⟨advanceAllBy_next id ks, ?_⟩
  have hfptr : n.fptr = ⟨0, stopWalk (link w.sb w.dev n.isContiguous) w.sb.clusterInvalid 0
      n.startCluster⟩ := by
    rw [Node.fptr, hi, hc]
    rfl
  rw [← seekAll_iff hs, ← hfptr]
  have hvalid : Wp _ (advanceAllBy nextOfValid id ks) w _ := advanceAllBy_valid hq hn
  have hask : (∃ r, advanceAllBy nextOfValid id ks w = .ok r) ↔
      ∀ x ∈ asksAll (link w.sb w.dev n.isContiguous) w.sb.clusterInvalid n.startCluster n.fptr ks,
        w.sb.clusterInvalid x = false := by
    constructor
    · rintro ⟨⟨cs, v⟩, hrun⟩
      exact hvalid.run hrun
    · intro hall
      obtain ⟨cs, v, hrun, -⟩ := (hvalid.halts fun _ h => h hall).returns
      exact ⟨(cs, v), hrun⟩
  rw [hask]
  refine and_congr_left fun hask => ?_
  obtain ⟨cs, v, hrun, rfl⟩ := (advanceAll_seekAll (E := fun _ => False) hq hn fun x hx =>
    (clusterInvalid_false.mp (hask x hx)).1).returns
  constructor
  · rintro ⟨u, hu⟩
    rw [hrun] at hu
    exact (Prod.mk.inj (Except.ok.inj hu)).1
  · intro h
    rw [h] at hrun
    exact ⟨v, hrun⟩

end

/-- The root directory occupies `k` clusters: valid ones, linked up to the first end mark. -/
structure RootChain (w : World) (k : Nat) : Prop where
  ends : EndsAfter (fat w.sb w.dev) exfatClusterEnd k w.sb.rootdirCluster
  valid : ∀ i < k, w.sb.clusterInvalid ((fat w.sb w.dev)^[i] w.sb.rootdirCluster) = false

/-- The clusters of a terminated chain are different ones. -/
theorem RootChain.nodup (h : RootChain w k) :
    ((List.range k).map fun i => (fat w.sb w.dev)^[i] w.sb.rootdirCluster).Nodup := h.ends.nodup

/-- A terminated chain is no longer than the volume. -/
theorem RootChain.le (h : RootChain w k) : k ≤ w.sb.clusterCount := by
  have hsub : ((List.range k).map fun i => (fat w.sb w.dev)^[i] w.sb.rootdirCluster).toFinset ⊆
      Finset.Ico 2 (w.sb.clusterCount + 2) := by
    intro c hc
    simp only [List.mem_toFinset, List.mem_map, List.mem_range] at hc
    obtain ⟨i, hi, rfl⟩ := hc
    exact Finset.mem_Ico.mpr (clusterInvalid_false.mp (h.valid i hi))
  have hcard := Finset.card_le_card hsub
  rw [List.toFinset_card_of_nodup h.nodup, List.length_map, List.length_range, Nat.card_Ico] at hcard
  omega

section
variable [Env]

/-- The loop counts the clusters up to the end mark, if all are valid and no more than `n`. -/
theorem rootdirLoop_spec (hq : Env.Quiet) (n c : Nat) :
    Wp E (rootdirLoop n c) w fun r _ => ∀ k, r = some k ↔
      k ≤ n ∧ EndsAfter (fat w.sb w.dev) exfatClusterEnd k c ∧
        ∀ i < k, w.sb.clusterInvalid ((fat w.sb w.dev)^[i] c) = false := by
  induction n generalizing w c with
  | zero =>
    intro k
    refine ⟨nofun, fun h => ?_⟩
    have := h.2.1.pos
    omega
  | succ n ih =>
    simp only [rootdirLoop, wp_bind]
    rw [wp_get]
    by_cases hc : w.sb.clusterInvalid c = true
    · rw [if_pos hc]
      intro k
      refine ⟨nofun, fun h => ?_⟩
      rw [← Function.iterate_zero_apply (fat w.sb w.dev) c, h.2.2 0 h.2.1.pos] at hc
      exact absurd hc Bool.false_ne_true
    · rw [if_neg hc]
      have hv : w.sb.clusterInvalid c = false := Bool.eq_false_iff.mpr hc
      simp only [wp_bind]
      refine after_ret (exfatNextCluster_spec hq false (clusterInvalid_false.mp hv).1) fun t => ?_
      simp only [link, Bool.false_eq_true, if_false]
      by_cases hend : fat w.sb w.dev c = exfatClusterEnd
      · rw [if_pos hend]
        intro k
        constructor
        · intro hk
          obtain rfl : 1 = k := Option.some.inj hk
          refine ⟨by omega, endsAfter_succ.mpr (Or.inl ⟨rfl, hend⟩), fun i hi => ?_⟩
          obtain rfl : i = 0 := by omega
          exact hv
        · rintro ⟨-, hk, -⟩
          rw [hk.unique (endsAfter_succ.mpr (Or.inl ⟨rfl, hend⟩))]
      · rw [if_neg hend]
        simp only [wp_bind, wp_pure]
        refine (ih (w := w.ticked t) (fat w.sb w.dev c)).mono fun r u hr k => ?_
        simp only [World.ticked_sb, World.ticked_dev] at hr
        constructor
        · intro hk
          obtain ⟨j, rfl, rfl⟩ := Option.map_eq_some_iff.mp hk
          obtain ⟨hj, he, hall⟩ := (hr j).mp rfl
          refine ⟨by omega, endsAfter_succ.mpr (Or.inr ⟨hend, he⟩), fun i hi => ?_⟩
          cases i with
          | zero => exact hv
          | succ i => exact hall i (by omega)
        · rintro ⟨hk, he, hall⟩
          obtain ⟨j, rfl⟩ := Nat.exists_eq_succ_of_ne_zero he.pos.ne'
          rcases endsAfter_succ.mp he with ⟨-, h⟩ | ⟨-, h⟩
          · exact absurd h hend
          · rw [(hr j).mpr ⟨by omega, h, fun i hi => hall (i + 1) (by omega)⟩]
            rfl

/-- The size of the root directory is that of its chain; without a terminated chain of valid
clusters it is zero. Every terminated chain fits in the volume, whole or not, and a chain that comes
back to a cluster is never accepted. -/
theorem rootdirSize_exact (hq : Env.Quiet) (w : World) :
    ∃ size v, rootdirSize w = .ok (size, v) ∧
      (∀ k, RootChain w k → size = k * w.sb.clusterSize ∧ k ≤ w.sb.clusterCount) ∧
      ((∀ k, ¬RootChain w k) → size = 0) ∧
      ∀ i j, i < j →
        (fat w.sb w.dev)^[i] w.sb.rootdirCluster = (fat w.sb w.dev)^[j] w.sb.rootdirCluster →
        (∀ l, 0 < l → l ≤ j → (fat w.sb w.dev)^[l] w.sb.rootdirCluster ≠ exfatClusterEnd) →
        size = 0 := by
  have hrun : Wp (fun _ => False) rootdirSize w fun size _ =>
      (∀ k, RootChain w k → size = k * w.sb.clusterSize) ∧ ((∀ k, ¬RootChain w k) → size = 0) := by
    simp only [rootdirSize, wp_bind, wp_get]
    refine (rootdirLoop_spec hq w.sb.clusterCount w.sb.rootdirCluster).mono fun r u hr => ?_
    cases r with
    | none =>
      refine ⟨fun k hk => ?_, fun _ => rfl⟩
      exact absurd ((hr k).mpr ⟨hk.le, hk.ends, hk.valid⟩) (fun h => by cases h)
    | some l =>
      obtain ⟨-, he, hv⟩ := (hr l).mp rfl
      refine ⟨fun k hk => ?_, fun h => absurd ⟨he, hv⟩ (h l)⟩
      rw [hk.ends.unique he]
  obtain ⟨size, v, hok, hchain, hnone⟩ := hrun.returns
  refine ⟨size, v, hok, fun k hk => ⟨hchain k hk, hk.le⟩, hnone, fun i j hij heq hne => ?_⟩
  refine hnone fun k hk => ?_
  have hjk : j < k := by
    by_contra hle
    exact hne k hk.ends.pos (by omega) hk.ends.last
  exact hk.ends.injective hij hjk heq

end

/-- A file of one cluster that is linked to a free one. -/
def brokenChain : World where
  dev := Store.write (fun _ => 0) (fatOffset smallSb 2) (toLe 4 exfatClusterFree)
  sb := smallSb
  nodes := fun i => if i = 1 then some { startCluster := 2, fptrCluster := 2, size := 2048 } else none

/-- Back and forth in front of the break. -/
theorem advanceAll_transparent_brokenChain : ∃ v, @advanceAll calmEnv 1 [3, 3, 0, 5] brokenChain =
    .ok ([3, 3, 0, 5].map fun k =>
      stopWalk (link smallSb brokenChain.dev false) smallSb.clusterInvalid k 2, v) :=
  have hu : Unbroken (link smallSb brokenChain.dev false) smallSb.clusterInvalid 2 0 := by
    intro j hj
    obtain rfl : j = 0 := by omega
    decide
  ((@advanceAll_transparent_iff brokenChain { startCluster := 2, fptrCluster := 2, size := 2048 } 1
    calmEnv calmEnv_quiet rfl (by decide) rfl rfl [3, 3, 0, 5]).2.mpr
      ⟨fun _ => hu, fun h => absurd h (by decide), fun h => absurd h (by decide), fun _ => hu,
        trivial⟩).1

/-- Two calls that go ahead: the second one asks for the successor of the free cluster. -/
theorem advance_from_free_cluster :
    brokenChain.nodes 1 = some { startCluster := 2, fptrCluster := 2, size := 2048 } ∧
    @advanceAll calmEnv 1 [3, 4] brokenChain = .error (.bug "bad cluster 0x%x") :=
  ⟨rfl, rfl⟩

/-- A root directory that takes up both clusters of a volume. -/
def fullRoot : World where
  dev := (Store.write (fun _ => 0) (fatOffset smallSb 3) (toLe 4 2)).write (fatOffset smallSb 2)
    (toLe 4 exfatClusterEnd)
  sb := { smallSb with clusterCount := 2, rootdirCluster := 3 }

theorem fullRoot_chain : RootChain fullRoot 2 where
  ends := ⟨by decide, by decide, fun i hi hk => by obtain rfl : i = 1 := by omega
                                                   decide⟩
  valid := by decide

theorem rootdirSize_exact_fullRoot : ∃ v, @rootdirSize calmEnv fullRoot = .ok (1024, v) := by
  obtain ⟨size, v, hok, hchain, -, -⟩ := @rootdirSize_exact calmEnv calmEnv_quiet fullRoot
  obtain rfl : size = 1024 := (hchain 2 fullRoot_chain).1
  exact ⟨v, hok⟩

end Proofs

end Exfat
