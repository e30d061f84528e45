import Exfat.Proofs.Data

namespace Exfat
open Lib

/-! Shrinking a chain: `shrink_file` cuts the links it follows and clears the bits it passes. -/

/-- The device after `set_next_cluster`. -/
def linkFat (sb : SuperBlock) (contiguous : Bool) (d : Store) (c v : Nat) : Store :=
  if contiguous then d else d.write (fatOffset sb c) (toLe 4 v)

/-- The device after the links of some clusters were freed one after the other. -/
def freeFat (sb : SuperBlock) (contiguous : Bool) (d : Store) (D : List Nat) : Store :=
  D.foldl (fun d c => linkFat sb contiguous d c exfatClusterFree) d

/-- The bitmap after `free_cluster`. -/
def Cmap.release (m : Cmap) (c : Nat) : Cmap :=
  { m with chunk := m.chunk.map fun bits => bmapClr bits (c - 2), dirty := true }

/-- The bitmap after some clusters were freed one after the other. -/
def Cmap.releaseAll (m : Cmap) (D : List Nat) : Cmap := D.foldl Cmap.release m

/-- The device after `shrink_file` ended a chain at its first `keep` clusters. -/
def endFat (sb : SuperBlock) (contiguous : Bool) (d : Store) (L : List Nat) (keep : Nat) : Store :=
  match (L.take keep).getLast? with
  | some last => linkFat sb contiguous d last exfatClusterEnd
  | none => d

/-- The node after `shrink_file` left it `keep` clusters. -/
def Node.cropped (n : Node) (keep : Nat) : Node :=
  if keep = 0 then
    { n with startCluster := exfatClusterFree, isDirty := true, fptrIndex := 0, fptrCluster := 0 }
  else n.seek 0 n.startCluster

namespace Proofs

variable {E : Halt → Prop} {w : World} {n : Node} {L D : List Nat} {sb : SuperBlock} {d : Store}
  {b : Bool} {c x v : Nat} {bits : Nat → Bool}

/-- Sizes that `exfat_mount` checks, and the bitmap that it leaves in memory. -/
structure Mapped (w : World) (bits : Nat → Bool) : Prop where
  cluster : w.sb.sectorBits + w.sb.spcBits ≤ 25
  count : w.sb.clusterCount < 2 ^ 32
  size : w.cmap.size = w.sb.clusterCount
  chunkSize : w.cmap.chunkSize = w.sb.clusterCount
  chunk : w.cmap.chunk = some bits

theorem fat_linkFat (sb : SuperBlock) (b : Bool) (d : Store) (c v x : Nat) :
    fat sb (linkFat sb b d c v) x = if x = c ∧ b = false then v % 2 ^ 32 else fat sb d x := by
  cases b with
  | true => simp [linkFat]
  | false =>
    simp only [linkFat, Bool.false_eq_true, if_false, and_true]
    exact fat_write sb d c x v

theorem linkFat_out {p : Nat} (h : p < fatOffset sb c ∨ fatOffset sb c + 4 ≤ p) :
    linkFat sb b d c v p = d p := by
  cases b with
  | true => rfl
  | false =>
    simp only [linkFat, Bool.false_eq_true, if_false]
    exact Store.write_out d (by rw [toLe_length]; omega)

theorem link_linkFat (h : x = c → b = true) :
    link sb (linkFat sb b d c v) b x = link sb d b x := by
  cases b with
  | true => rfl
  | false =>
    have hx : x ≠ c := fun hc => absurd (h hc) (by decide)
    simp [link, fat_linkFat, hx]

@[simp] theorem freeFat_cons (sb : SuperBlock) (b : Bool) (d : Store) (c : Nat) (D : List Nat) :
    freeFat sb b d (c :: D) = freeFat sb b (linkFat sb b d c exfatClusterFree) D := rfl

@[simp] theorem freeFat_contiguous (sb : SuperBlock) (d : Store) (D : List Nat) :
    freeFat sb true d D = d := by
  induction D with
  | nil => rfl
  | cons c D ih => exact ih

/-- Freed links read as free, all others as before. -/
theorem fat_freeFat (sb : SuperBlock) (d : Store) (D : List Nat) (x : Nat) :
    fat sb (freeFat sb false d D) x = if x ∈ D then exfatClusterFree else fat sb d x := by
  induction D generalizing d with
  | nil => simp [freeFat]
  | cons c D ih =>
    rw [freeFat_cons, ih, fat_linkFat]
    by_cases hx : x ∈ D
    · simp [hx]
    · by_cases hc : x = c <;> simp [hx, hc]

/-- Freeing links changes nothing else on the device. -/
theorem freeFat_out {p : Nat} (h : ∀ c ∈ D, p < fatOffset sb c ∨ fatOffset sb c + 4 ≤ p) :
    freeFat sb b d D p = d p := by
  induction D generalizing d with
  | nil => rfl
  | cons c D ih =>
    rw [freeFat_cons, ih fun x hx => h x (by simp [hx]), linkFat_out (h c (by simp))]

@[simp] theorem releaseAll_cons (m : Cmap) (c : Nat) (D : List Nat) :
    m.releaseAll (c :: D) = (m.release c).releaseAll D := rfl

theorem releaseAll_size (m : Cmap) (D : List Nat) : (m.releaseAll D).size = m.size := by
  induction D generalizing m with
  | nil => rfl
  | cons c D ih => exact ih (m.release c)

theorem releaseAll_chunkSize (m : Cmap) (D : List Nat) :
    (m.releaseAll D).chunkSize = m.chunkSize := by
  induction D generalizing m with
  | nil => rfl
  | cons c D ih => exact ih (m.release c)

/-- Exactly the bits of the released clusters are cleared. -/
theorem releaseAll_chunk {m : Cmap} (hm : m.chunk = some bits) (hD : ∀ c ∈ D, 2 ≤ c) :
    (m.releaseAll D).chunk = some fun i => bits i && decide (i + 2 ∉ D) := by
  induction D generalizing m bits with
  | nil => simp [Cmap.releaseAll, hm]
  | cons c D ih =>
    have hc := hD c (by simp)
    rw [releaseAll_cons, ih (show (m.release c).chunk = some (bmapClr bits (c - 2)) by
      simp [Cmap.release, hm])
      fun x hx => hD x (by simp [hx])]
    congr 1
    funext i
    by_cases hi : i = c - 2
    · have hic : i + 2 = c := by omega
      simp [bmapClr, hi, show c - 2 + 2 = c by omega]
    · have hic : i + 2 ≠ c := by omega
      simp [bmapClr, hi, hic]

/-- `free_cluster` clears the bit of a valid cluster. -/
theorem freeCluster_spec (hm : Mapped w bits) (hc : w.sb.clusterInvalid c = false) :
    Wp E (freeCluster c) w (Ret () (w.withCmap (w.cmap.release c))) := by
  obtain ⟨h2, hlt⟩ := clusterInvalid_false.mp hc
  have hcount := hm.count
  have hbit : (c + 2 ^ 32 - exfatFirstDataCluster) % 2 ^ 32 = c - 2 := by
    simp only [exfatFirstDataCluster]
    omega
  have hsize : ¬c - 2 ≥ w.cmap.size := by
    rw [hm.size]
    omega
  simp only [freeCluster, wp_bind, wp_get, hbit, if_neg hsize, wp_getChunk hm.chunk, wp_setChunk]
  refine ⟨rfl, w.tick, ?_⟩
  simp only [Cmap.release, hm.chunk, Option.map_some]
  rfl

theorem Mapped.release (hm : Mapped w bits) :
    Mapped (w.withCmap (w.cmap.release c)) (bmapClr bits (c - 2)) :=
  ⟨hm.cluster, hm.count, hm.size, hm.chunkSize, by simp [Cmap.release, hm.chunk]⟩

theorem Mapped.congr {v : World} (hm : Mapped w bits) (hs : v.sb = w.sb) (hc : v.cmap = w.cmap) :
    Mapped v bits :=
  ⟨hs ▸ hm.cluster, hs ▸ hm.count, by rw [hc, hs]; exact hm.size,
    by rw [hc, hs]; exact hm.chunkSize, hc ▸ hm.chunk⟩

section
variable [Env]

theorem setNextCluster_spec (hq : Env.Quiet) (b : Bool) (c v : Nat) :
    Wp E (setNextCluster b c v) w (Ret true (w.withDev (linkFat w.sb b w.dev c v))) := by
  cases b with
  | true => exact Ret.intro _ _
  | false =>
    simp only [setNextCluster, Bool.false_eq_true, if_false, wp_bind, wp_get]
    refine after_ret (exfatPwrite_spec hq _ _) fun t => ?_
    exact ⟨rfl, t, rfl⟩

/-- The world after the loop of `shrink_file` passed some clusters. -/
def World.dropped (w : World) (b : Bool) (D : List Nat) : World :=
  (w.withDev (freeFat w.sb b w.dev D)).withCmap (w.cmap.releaseAll D)

/-- One turn of the loop of `shrink_file` at a valid cluster. -/
theorem shrinkLoop_step (hq : Env.Quiet) (hm : Mapped w bits) {k : Nat}
    {Q : Rc → World → Prop} (hc : w.sb.clusterInvalid c = false)
    (h : ∀ t, Wp E (shrinkLoop b k (link w.sb w.dev b c)) ((World.dropped w b [c]).ticked t) Q) :
    Wp E (shrinkLoop b (k + 1) c) w Q := by
  have h2 := (clusterInvalid_false.mp hc).1
  simp only [shrinkLoop, wp_bind, wp_get, hc, Bool.false_eq_true, if_false]
  refine after_ret (exfatNextCluster_spec hq b h2) fun t => ?_
  refine after_ret (setNextCluster_spec hq b c _) fun t => ?_
  simp only [if_true, wp_bind]
  refine after_ret (freeCluster_spec (hm.congr rfl rfl) hc) fun t => ?_
  exact h t

omit [Env] in
theorem World.dropped_cons (w : World) (b : Bool) (c : Nat) (D : List Nat) (t : Nat) :
    World.dropped ((World.dropped w b [c]).ticked t) b D =
      (World.dropped w b (c :: D)).ticked t := rfl

omit [Env] in
theorem Mapped.dropped (hm : Mapped w bits) (hD : ∀ c ∈ D, 2 ≤ c) :
    Mapped (World.dropped w b D) fun i => bits i && decide (i + 2 ∉ D) :=
  ⟨hm.cluster, hm.count, (releaseAll_size _ D).trans hm.size,
    (releaseAll_chunkSize _ D).trans hm.chunkSize, releaseAll_chunk hm.chunk hD⟩

/-- The loop of `shrink_file` passes valid clusters that it meets only once. -/
theorem shrinkLoop_walk (hq : Env.Quiet) (hm : Mapped w bits) {k z : Nat} {Q : Rc → World → Prop}
    (hw : Walk (link w.sb w.dev b) c (D ++ [z])) (hv : ∀ x ∈ D, w.sb.clusterInvalid x = false)
    (hn : D.Nodup) (h : ∀ t, Wp E (shrinkLoop b k z) ((World.dropped w b D).ticked t) Q) :
    Wp E (shrinkLoop b (D.length + k) c) w Q := by
  induction D generalizing w c bits with
  | nil =>
    obtain ⟨rfl, -⟩ := hw
    rw [List.length_nil, Nat.zero_add]
    exact h w.tick
  | cons x D ih =>
    rw [List.cons_append] at hw
    obtain ⟨rfl, hw⟩ := hw
    obtain ⟨hx, hn⟩ := List.nodup_cons.mp hn
    have hvx := hv x (by simp)
    rw [List.length_cons, Nat.add_right_comm]
    refine shrinkLoop_step hq hm hvx fun t => ?_
    have hm' : Mapped ((World.dropped w b [x]).ticked t) (bmapClr bits (x - 2)) :=
      hm.release.congr rfl rfl
    refine ih hm' (hw.congr fun y hy => ?_)
      (fun y hy => hv y (by simp [hy])) hn fun t' => ?_
    · rw [List.dropLast_concat] at hy
      refine (link_linkFat fun hyx => ?_).symm
      subst hyx
      exact absurd hy hx
    · rw [World.dropped_cons, World.ticked_ticked]
      exact h t'

/-- The loop of `shrink_file` frees a whole chain. -/
theorem shrinkLoop_spec (hq : Env.Quiet) (hm : Mapped w bits)
    (hw : Walk (link w.sb w.dev b) c L) (hv : ∀ x ∈ L, w.sb.clusterInvalid x = false)
    (hn : L.Nodup) : Wp E (shrinkLoop b L.length c) w (Ret .ok (World.dropped w b L)) := by
  obtain ⟨z, hz⟩ : ∃ z, Walk (link w.sb w.dev b) c (L ++ [z]) :=
    ⟨_, walk_append.mpr ⟨hw, rfl, trivial⟩⟩
  exact shrinkLoop_walk (k := 0) hq hm hz hv hn fun t => ⟨rfl, t, rfl⟩

omit [Env] in
theorem take_getLast? {k : Nat} (hk : k + 1 ≤ L.length) (hx : L[k]? = some x) :
    (L.take (k + 1)).getLast? = some x := by
  rw [List.getLast?_eq_getElem?, List.length_take, Nat.min_eq_left hk, Nat.add_sub_cancel,
    List.getElem?_take_of_lt (Nat.lt_succ_self k)]
  exact hx

/-- `shrink_file` leaves the first clusters of a chain and frees the rest. -/
theorem shrinkFile_spec (hq : Env.Quiet) {id : NodeId} {keep : Nat} (hm : Mapped w bits)
    (hn : w.nodes id = some n) (hc : Chained w.sb w.dev n L) (hk : keep < L.length) :
    Wp E (shrinkFile id L.length (L.length - keep)) w (Ret .ok
      ((World.dropped (w.withDev (endFat w.sb n.isContiguous w.dev L keep)) n.isContiguous
        (L.drop keep)).setNode id (n.cropped keep))) := by
  obtain ⟨s, hs⟩ : ∃ s, L[0]? = some s := ⟨_, List.getElem?_eq_getElem (by omega)⟩
  have hstart : n.startCluster = s := (hc.walk.get hs).symm
  have hsv := hc.ge (List.mem_of_getElem? hs)
  have hne : ¬n.startCluster = exfatClusterFree := by
    rw [hstart, exfatClusterFree]
    omega
  simp only [shrinkFile, wp_bind, wp_getNode hn, if_neg (show ¬L.length - keep = 0 by omega),
    if_neg hne, if_neg (show ¬L.length < L.length - keep by omega)]
  have hlen : (L.drop keep).length = L.length - keep := List.length_drop
  cases keep with
  | zero =>
    simp only [Nat.sub_zero, gt_iff_lt, lt_irrefl, if_false, wp_bind, wp_modifyNode hn, shrinkTail,
      wp_modifyNode_setNode, wp_getNode_setNode, List.drop_zero]
    refine after_ret (shrinkLoop_spec hq (hm.congr rfl rfl) (L := L) hc.walk hc.valid hc.nodup)
      fun t => ?_
    exact ⟨rfl, t, rfl⟩
  | succ k =>
    obtain ⟨last, hlast⟩ : ∃ x, L[k]? = some x := ⟨_, List.getElem?_eq_getElem (by omega)⟩
    obtain ⟨first, hfirst⟩ : ∃ x, L[k + 1]? = some x := ⟨_, List.getElem?_eq_getElem hk⟩
    have hvl := hc.valid last (List.mem_of_getElem? hlast)
    have hnext : link w.sb w.dev n.isContiguous last = first := hc.walk.next hlast hfirst
    have hidx : L.length - (L.length - (k + 1)) - 1 = k := by omega
    have hend : endFat w.sb n.isContiguous w.dev L (k + 1) =
        linkFat w.sb n.isContiguous w.dev last exfatClusterEnd := by
      rw [endFat, take_getLast? (by omega) hlast]
    -- the cut link is not followed any more
    have hout : last ∉ L.drop (k + 1) := by
      intro hmem
      obtain ⟨j, hj⟩ := List.mem_iff_getElem?.mp hmem
      rw [List.getElem?_drop] at hj
      have := (List.getElem?_inj (by omega) hc.nodup).mp (hlast.trans hj.symm)
      omega
    have hwalk : Walk (link w.sb (linkFat w.sb n.isContiguous w.dev last exfatClusterEnd)
        n.isContiguous) first (L.drop (k + 1)) := by
      refine (hc.walk.drop hfirst).congr fun y hy => (link_linkFat fun hyl => ?_).symm
      exact absurd (hyl ▸ List.mem_of_mem_dropLast hy) hout
    simp only [if_pos (show L.length > L.length - (k + 1) by omega), wp_bind, hidx]
    refine after_ret (exfatAdvanceCluster_spec hq hn hc hlast) fun t => ?_
    simp only [wp_get, World.ticked_sb, World.setNode_sb, hvl, Bool.false_eq_true, if_false,
      wp_bind]
    refine after_ret (exfatNextCluster_spec hq _ (hc.ge (List.mem_of_getElem? hlast))) fun t => ?_
    refine after_ret (setNextCluster_spec hq _ _ _) fun t => ?_
    simp only [if_true, shrinkTail, wp_bind]
    rw [wp_modifyNode (n := n.seek k last) (by simp)]
    simp only [wp_getNode_setNode, World.ticked_sb, World.ticked_dev, World.setNode_sb,
      World.setNode_dev, hnext, ← hlen]
    refine after_ret (shrinkLoop_spec hq (hm.congr rfl rfl) hwalk
      (fun x hx => hc.valid x (List.mem_of_mem_drop hx))
      (hc.nodup.sublist (List.drop_sublist _ _))) fun t => ?_
    refine ⟨rfl, t, ?_⟩
    rw [hend]
    simp only [World.dropped, World.setNode_setNode, World.setNode_ticked, World.setNode_withDev,
      World.setNode_withCmap, World.withDev_ticked, World.ticked_ticked, World.withDev_withDev,
      World.withDev_dev, World.setNode_dev, World.withDev_sb, World.setNode_sb, World.ticked_sb,
      World.withDev_cmap, World.setNode_cmap, World.ticked_cmap, Node.cropped,
      if_neg (Nat.succ_ne_zero k)]
    rfl

omit [Env] in
/-- Sizes of less than 2^32 clusters are counted exactly. -/
theorem bytes2clusters_eq {size : Nat} (hcl : sb.sectorBits + sb.spcBits ≤ 25)
    (h : divRoundUp size sb.clusterSize < 2 ^ 32) :
    bytes2clusters sb size = divRoundUp size sb.clusterSize := by
  have hs : sb.clusterSize ≤ 2 ^ 25 := by
    simp only [SuperBlock.clusterSize, SuperBlock.sectorSize, ← Nat.pow_add]
    exact Nat.pow_le_pow_right (by omega) hcl
  have hle := le_divRoundUp_mul size (clusterSize_pos sb)
  have hmul : divRoundUp size sb.clusterSize * sb.clusterSize ≤ (2 ^ 32 - 1) * 2 ^ 25 :=
    Nat.mul_le_mul (by omega) hs
  have h64 : (size + sb.clusterSize - 1) % 2 ^ 64 = size + sb.clusterSize - 1 :=
    Nat.mod_eq_of_lt (by omega)
  rw [bytes2clusters, h64]
  exact Nat.mod_eq_of_lt h

/-- The chain of a node has as many clusters as its size asks for, all of them allocated, and ends
with the end mark unless it is contiguous. -/
structure Exact (w : World) (bits : Nat → Bool) (n : Node) (L : List Nat) : Prop where
  chained : Chained w.sb w.dev n L
  length : L.length = divRoundUp n.size w.sb.clusterSize
  ends : n.isContiguous = false → ∀ c, L.getLast? = some c → fat w.sb w.dev c = exfatClusterEnd
  allocated : ∀ c ∈ L, bits (c - 2) = true

/-- The chain `L` of a node was cut to its first `keep` clusters. -/
structure CutTo (w v : World) (bits : Nat → Bool) (id : NodeId) (n m : Node) (L : List Nat)
    (keep : Nat) : Prop where
  node : v.nodes id = some m
  contiguous : m.isContiguous = n.isContiguous
  sb : v.sb = w.sb
  -- the chain is a prefix of the old one, and the cached pointer lies on it
  chained : Chained v.sb v.dev m (L.take keep)
  ends : n.isContiguous = false → ∀ c, (L.take keep).getLast? = some c →
    fat v.sb v.dev c = exfatClusterEnd
  empty : keep = 0 → m.startCluster = exfatClusterFree ∧ m.fptrIndex = 0 ∧
    m.fptrCluster = exfatClusterFree
  -- exactly the dropped clusters become free
  chunk : v.cmap.chunk = some fun i => bits i && decide (i + 2 ∉ L.drop keep)
  freed : n.isContiguous = false → ∀ c ∈ L.drop keep, fat v.sb v.dev c = exfatClusterFree
  fat_same : ∀ c, n.isContiguous = true ∨ c ∉ L.drop keep ∧ (L.take keep).getLast? ≠ some c →
    fat v.sb v.dev c = fat w.sb w.dev c
  -- nothing but FAT entries of the chain changes on the device
  device : ∀ p, n.isContiguous = true ∨
    (∀ c ∈ L, p < fatOffset w.sb c ∨ fatOffset w.sb c + 4 ≤ p) → v.dev p = w.dev p
  others : ∀ j, j ≠ id → v.nodes j = w.nodes j

omit [Env] in
theorem endFat_contiguous (sb : SuperBlock) (d : Store) (L : List Nat) (keep : Nat) :
    endFat sb true d L keep = d := by
  rw [endFat]
  cases (L.take keep).getLast? <;> rfl

omit [Env] in
theorem fat_endFat (sb : SuperBlock) (d : Store) (L : List Nat) (keep x : Nat) :
    fat sb (endFat sb false d L keep) x =
      if (L.take keep).getLast? = some x then exfatClusterEnd else fat sb d x := by
  rw [endFat]
  cases h : (L.take keep).getLast? with
  | none => simp
  | some last =>
    rw [fat_linkFat]
    by_cases hx : x = last
    · simp [hx]
    · simp [hx, Ne.symm hx]

omit [Env] in
theorem endFat_out {p : Nat} {keep : Nat}
    (h : ∀ c ∈ L, p < fatOffset sb c ∨ fatOffset sb c + 4 ≤ p) : endFat sb b d L keep p = d p := by
  rw [endFat]
  cases hl : (L.take keep).getLast? with
  | none => rfl
  | some last => exact linkFat_out (h last (List.mem_of_mem_take (List.mem_of_getLast? hl)))

omit [Env] in
theorem not_mem_drop_of_mem_take {k : Nat} (hn : L.Nodup) (hx : x ∈ L.take k) : x ∉ L.drop k := by
  rw [← List.take_append_drop k L] at hn
  intro hd
  exact (List.nodup_append.mp hn).2.2 x hx x hd rfl

omit [Env] in
/-- The first clusters are linked as before. -/
theorem Chained.cropped {keep : Nat} (hc : Chained sb d n L) (hk : keep ≤ L.length) :
    Chained sb (freeFat sb n.isContiguous (endFat sb n.isContiguous d L keep) (L.drop keep))
      (n.cropped keep) (L.take keep) := by
  have hb : (n.cropped keep).isContiguous = n.isContiguous := by
    rw [Node.cropped]
    split <;> rfl
  refine ⟨?_, fun c h => hc.valid c (List.mem_of_mem_take h),
    hc.nodup.sublist (List.take_sublist _ _), ?_⟩
  · rw [hb]
    cases keep with
    | zero => trivial
    | succ k =>
      rw [Node.cropped, if_neg (Nat.succ_ne_zero k), Node.seek_startCluster]
      refine (hc.walk.take (k + 1)).congr fun x hx => ?_
      cases hn : n.isContiguous with
      | true => rfl
      | false =>
        have hmem := List.mem_of_mem_dropLast hx
        have hl : (L.take (k + 1)).getLast? ≠ some x := by
          intro hl
          obtain ⟨ys, hys⟩ := List.getLast?_eq_some_iff.mp hl
          have hnd := hc.nodup.sublist (List.take_sublist (k + 1) L)
          rw [hys, List.dropLast_concat] at hx
          rw [hys] at hnd
          exact (List.nodup_append.mp hnd).2.2 x hx x (by simp) rfl
        simp [link, fat_freeFat, fat_endFat, hl, not_mem_drop_of_mem_take hc.nodup hmem]
  · intro hne
    cases keep with
    | zero => simp at hne
    | succ k =>
      obtain ⟨s, hs⟩ : ∃ s, L[0]? = some s := ⟨_, List.getElem?_eq_getElem (by omega)⟩
      rw [Node.cropped, if_neg (Nat.succ_ne_zero k), Node.seek_fptrIndex, Node.seek_fptrCluster,
        List.getElem?_take_of_lt (Nat.succ_pos k), hs, hc.walk.get hs]
      rfl

/-- The part of `exfat_truncate` that drops clusters. -/
theorem resizeChain_shrink (hq : Env.Quiet) {id : NodeId} {keep : Nat} (hm : Mapped w bits)
    (hn : w.nodes id = some n) (hc : Chained w.sb w.dev n L) (hk : keep < L.length) :
    Wp E (resizeChain id L.length keep) w fun rc v =>
      rc = .ok ∧ ∃ m, CutTo w v bits id n m L keep := by
  simp only [resizeChain, if_neg (show ¬L.length < keep by omega),
    if_pos (show L.length > keep from hk)]
  refine after_ret (shrinkFile_spec hq hm hn hc hk) fun t => ⟨rfl, n.cropped keep, ?_⟩
  have hge : ∀ c ∈ L.drop keep, 2 ≤ c := fun c h => hc.ge (List.mem_of_mem_drop h)
  have hb : (n.cropped keep).isContiguous = n.isContiguous := by
    rw [Node.cropped]
    split <;> rfl
  refine ⟨by simp, hb, rfl, hc.cropped hk.le, ?_, ?_, releaseAll_chunk hm.chunk hge, ?_, ?_, ?_,
    fun j hj => World.setNode_ne _ _ hj⟩
  · intro hf c hl
    have hd := not_mem_drop_of_mem_take hc.nodup (List.mem_of_getLast? hl)
    simp [World.dropped, hf, fat_freeFat, fat_endFat, hl, hd]
  · rintro rfl
    exact ⟨rfl, rfl, rfl⟩
  · intro hf c hd
    simp [World.dropped, hf, fat_freeFat, hd]
  · rintro c (hf | ⟨hd, hl⟩)
    · simp [World.dropped, hf, endFat_contiguous]
    · cases hf : n.isContiguous with
      | true => simp [World.dropped, endFat_contiguous]
      | false => simp [World.dropped, fat_freeFat, fat_endFat, hl, hd]
  · rintro p (hf | hp)
    · simp [World.dropped, hf, endFat_contiguous]
    · simp only [World.dropped, World.setNode_ticked, World.setNode_dev, World.ticked_dev,
        World.withCmap_dev, World.withDev_dev, World.withDev_sb]
      rw [freeFat_out fun c h => hp c (List.mem_of_mem_drop h), endFat_out hp]

omit [Env] in
/-- A chain that is long enough for a smaller size as it is. -/
theorem Exact.cutTo_self {id : NodeId} (hx : Exact w bits n L) (hm : Mapped w bits)
    (hn : w.nodes id = some n) (hl : 0 < L.length) : CutTo w w bits id n n L L.length where
  node := hn
  contiguous := rfl
  sb := rfl
  chained := by
    rw [List.take_length]
    exact hx.chained
  ends := by
    rw [List.take_length]
    exact hx.ends
  empty := fun h => absurd h (by omega)
  chunk := by simp [hm.chunk]
  freed := by simp
  fat_same := fun _ _ => rfl
  device := fun _ _ => rfl
  others := fun _ _ => rfl

omit [Env] in
/-- The size and the times of the node are no part of its chain. -/
theorem CutTo.set {v u : World} {id : NodeId} {m m' : Node} {keep : Nat}
    (h : CutTo w v bits id n m L keep) (hd : u.dev = v.dev) (hs : u.sb = v.sb)
    (hc : u.cmap = v.cmap) (hu : u.nodes id = some m') (hb : m'.isContiguous = m.isContiguous)
    (hst : m'.startCluster = m.startCluster) (hi : m'.fptrIndex = m.fptrIndex)
    (hf : m'.fptrCluster = m.fptrCluster) (ho : ∀ j, j ≠ id → u.nodes j = v.nodes j) :
    CutTo w u bits id n m' L keep where
  node := hu
  contiguous := hb.trans h.contiguous
  sb := hs.trans h.sb
  chained := by
    rw [hs, hd]
    exact h.chained.congr (fun _ _ => by rw [hb]) hst (by rw [hi, hf]; exact h.chained.fptr)
  ends := by
    rw [hs, hd]
    exact h.ends
  empty := by
    rw [hst, hi, hf]
    exact h.empty
  chunk := hc ▸ h.chunk
  freed := by
    rw [hs, hd]
    exact h.freed
  fat_same := by
    rw [hs, hd]
    exact h.fat_same
  device := hd ▸ h.device
  others := fun j hj => (ho j hj).trans (h.others j hj)

/-- A file that shrinks has no new data to erase. -/
theorem eraseNew_shrunk {id : NodeId} {erase : Bool} {start stop : Nat} (h : stop ≤ start) :
    Wp E (eraseNew id erase start stop) w (Ret .ok w) := by
  rw [eraseNew]
  split
  · simp only [eraseRange, wp_bind, wp_get, if_pos (show start ≥ stop from h), wp_pure]
    exact Ret.intro _ _
  · exact Ret.intro _ _

/-- Shrinking is exact: the node keeps the first clusters of its chain, the others are freed, and
nothing else changes but FAT entries of the chain. -/
theorem exfatTruncate_shrinks (hq : Env.Quiet) {id : NodeId} {size : Nat} (hm : Mapped w bits)
    (hn : w.nodes id = some n) (hr : n.references ≠ 0) (hx : Exact w bits n L)
    (hs : size < n.size) (erase : Bool) :
    ∃ v m, exfatTruncate id size erase w = .ok (.ok, v) ∧ m.size = size ∧
      (size = 0 → m.startCluster = exfatClusterFree ∧ m.fptrIndex = 0 ∧
        m.fptrCluster = exfatClusterFree) ∧
      CutTo w v bits id n m L (divRoundUp size w.sb.clusterSize) := by
  have hcs := clusterSize_pos w.sb
  have hlen := hx.chained.length_le
  have hcount := hm.count
  have hle : divRoundUp size w.sb.clusterSize ≤ L.length := by
    rw [hx.length]
    exact divRoundUp_mono hs.le
  have h1 : bytes2clusters w.sb n.size = L.length := by
    rw [bytes2clusters_eq hm.cluster (by rw [← hx.length]; omega), hx.length]
  have h2 := bytes2clusters_eq hm.cluster (show divRoundUp size w.sb.clusterSize < 2 ^ 32 by omega)
  have hpos : 0 < L.length := by
    rw [hx.length, divRoundUp_pos hcs]
    omega
  have hresize : Wp (fun _ => False)
      (resizeChain id L.length (divRoundUp size w.sb.clusterSize)) w fun rc v =>
        rc = .ok ∧ ∃ m, CutTo w v bits id n m L (divRoundUp size w.sb.clusterSize) := by
    rcases Nat.lt_or_eq_of_le hle with hlt | heq
    · exact resizeChain_shrink hq hm hn hx.chained hlt
    · rw [heq]
      simp only [resizeChain, lt_irrefl, if_false, wp_pure, true_and]
      exact ⟨n, hx.cutTo_self hm hn hpos⟩
  have hrun : Wp (fun _ => False) (exfatTruncate id size erase) w fun rc v => rc = .ok ∧
      ∃ m, m.size = size ∧ CutTo w v bits id n m L (divRoundUp size w.sb.clusterSize) := by
    simp only [exfatTruncate, wp_bind, wp_get, wp_getNode hn, hr, false_and, if_false,
      if_neg (show ¬n.size = size by omega), h1, h2]
    refine hresize.mono ?_
    rintro _ v ⟨rfl, m, hcut⟩
    simp only [ne_eq, not_true_eq_false, if_false, wp_bind]
    refine after_ret (eraseNew_shrunk hs.le) fun t => ?_
    simp only [not_true_eq_false, if_false, wp_bind, exfatUpdateMtime, wp_timeNow]
    rw [wp_modifyNode (n := m) (by simpa using hcut.node)]
    simp only [wp_modifyNode_setNode, wp_pure]
    exact ⟨trivial, _, rfl, hcut.set rfl rfl rfl (World.setNode_self _ _ _) rfl rfl rfl rfl
      fun j hj => World.setNode_ne _ _ hj⟩
  obtain ⟨_, v, hrun, rfl, m, hsize, hcut⟩ := hrun.returns
  refine ⟨v, m, hrun, hsize, fun h0 => hcut.empty ?_, hcut⟩
  have := (divRoundUp_pos (a := size) hcs).not
  omega

end

/-- A file of two clusters. -/
def twoClustersNode : Node :=
  { references := 1, startCluster := 2, fptrCluster := 2, size := 1024 }

/-- A file of two clusters, linked in the FAT, on a volume with the given super block. -/
def twoClusters (sb : SuperBlock) : World where
  dev := (Store.write (fun _ => 0) (fatOffset sb 2) (toLe 4 3)).write (fatOffset sb 3)
    (toLe 4 exfatClusterEnd)
  sb := sb
  cmap := { startCluster := 9, size := 8, chunk := some fun i => decide (i < 2), chunkSize := 8 }
  nodes := fun i => if i = 1 then some twoClustersNode else none
  fresh := 2

/-- The small volume with its FAT inside the first cluster. -/
def overlapSb : SuperBlock := { smallSb with fatSectorStart := 2 }

theorem twoClusters_exact {sb : SuperBlock} (h : sb = smallSb ∨ sb = overlapSb) :
    Mapped (twoClusters sb) (fun i => decide (i < 2)) ∧
      Exact (twoClusters sb) (fun i => decide (i < 2)) twoClustersNode [2, 3] := by
  have hends : ∀ c, [2, 3].getLast? = some c → c = 3 := by
    intro c hc
    simpa using hc.symm
  obtain rfl | rfl := h
  · refine ⟨⟨by decide, by decide, by decide, by decide, rfl⟩,
      ⟨⟨?_, by decide, by decide, fun _ => rfl⟩, by decide +kernel, fun _ c hc => ?_, by decide⟩⟩
    · exact ⟨rfl, by decide +kernel, trivial⟩
    · rw [hends c hc]
      decide +kernel
  · refine ⟨⟨by decide, by decide, by decide, by decide, rfl⟩,
      ⟨⟨?_, by decide, by decide, fun _ => rfl⟩, by decide +kernel, fun _ c hc => ?_, by decide⟩⟩
    · exact ⟨rfl, by decide +kernel, trivial⟩
    · rw [hends c hc]
      decide +kernel

theorem exfatTruncate_shrinks_twoClusters : ∃ v m,
    @exfatTruncate calmEnv 1 512 true (twoClusters smallSb) = .ok (.ok, v) ∧ m.size = 512 ∧
      (512 = 0 → m.startCluster = exfatClusterFree ∧ m.fptrIndex = 0 ∧
        m.fptrCluster = exfatClusterFree) ∧
      CutTo (twoClusters smallSb) v (fun i => decide (i < 2)) 1 twoClustersNode m [2, 3]
        (divRoundUp 512 smallSb.clusterSize) :=
  @exfatTruncate_shrinks _ _ _ _ calmEnv calmEnv_quiet 1 512
    (twoClusters_exact (Or.inl rfl)).1 rfl (by decide) (twoClusters_exact (Or.inl rfl)).2
    (by decide) true

/-- Where the FAT lies inside a cluster, cutting a chain changes data of that cluster. -/
theorem shrink_overwrites_cluster :
    Mapped (twoClusters overlapSb) (fun i => decide (i < 2)) ∧
    Exact (twoClusters overlapSb) (fun i => decide (i < 2)) twoClustersNode [2, 3] ∧
    ∃ rc v, @exfatTruncate calmEnv 1 512 false (twoClusters overlapSb) = .ok (rc, v) ∧
      (rc = .ok ∧ v.dev (c2oRaw overlapSb 2 + 8) ≠
        (twoClusters overlapSb).dev (c2oRaw overlapSb 2 + 8)) := by
  refine ⟨(twoClusters_exact (Or.inr rfl)).1, (twoClusters_exact (Or.inr rfl)).2, ?_⟩
  let _ := calmEnv
  obtain ⟨rc, v, hrun, hp⟩ := returns_of_check
    (m := exfatTruncate 1 512 false) (s := twoClusters overlapSb)
    (p := fun rc v => decide (rc = .ok ∧ v.dev (c2oRaw overlapSb 2 + 8) ≠
      (twoClusters overlapSb).dev (c2oRaw overlapSb 2 + 8))) (by decide +kernel)
  exact ⟨rc, v, hrun, of_decide_eq_true hp⟩

end Proofs

end Exfat
