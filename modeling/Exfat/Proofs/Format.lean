import Exfat.Proofs.Mkfs

namespace Exfat
open Lib

/-! The FAT of a new file system: has it room for every cluster, and is every entry written? -/

/-- What `erase` and `create` leave on the device. -/
def Param.formatted (p : Param) (d : Store) : Store :=
  (d.writeAll (p.places.map fun s => (s.2, List.replicate (s.1.size p) 0))).writeAll
    (p.places.map fun s => (s.2, s.1.bytes p))

/-- The FAT of a new file system has an entry for every cluster, every entry is as `erase` or
`fat_write` wrote it whatever was on the device, and no entry lies in the heap. -/
structure Param.FatHolds (p : Param) : Prop where
  room : ((initSb p).clusterCount + 2) * 4 ≤ (initSb p).fatSectorCount * p.sectorSize
  written : ∀ [Env] (w v : World), mkfs p w = .ok (true, v) →
    ∀ c < (initSb p).clusterCount + 2, fat (initSb p) v.dev c = (fatWords p).getD c 0
  slots : ∀ c, (initSb p).clusterInvalid c = false →
    fatOffset (initSb p) c + 4 ≤ c2oRaw (initSb p) exfatFirstDataCluster

namespace Proofs

variable {p : Param} {w : World} {d : Store} {c i : Nat}

section
variable [Env] {E : Halt → Prop}

/-- The postcondition of a step of mkfs: it is done in this world or has failed, and it fails only
when a request does. -/
def Done (x : World) (b : Bool) (v : World) : Prop :=
  (b = true → ∃ t, v = x.ticked t) ∧ (Env.Quiet → b = true)

theorem Done.intro (x : World) : Done x true x := ⟨fun _ => ⟨x.tick, rfl⟩, fun _ => rfl⟩

/-- The next step runs when this one is done. -/
theorem done_bind {m : M Bool} {f : Bool → M Bool} {x y : World} (hm : Wp E m w (Done x))
    (hf : ∀ v, Wp E (f false) v fun b _ => b = false)
    (ht : ∀ t, Wp E (f true) (x.ticked t) (Done y)) : Wp E (m >>= f) w (Done y) := by
  refine hm.bind fun b v hb => ?_
  cases b with
  | false =>
    refine (hf v).mono fun b' _ hb' => ?_
    exact ⟨fun h => absurd (hb'.symm.trans h) (by decide), fun hq => absurd (hb.2 hq) (by decide)⟩
  | true =>
    obtain ⟨t, rfl⟩ := hb.1 rfl
    exact ht t

theorem exfatPwrite_step (bs : List UInt8) (off : Nat) :
    Wp E (exfatPwrite bs off) w (Done (w.withDev (w.dev.write off bs))) := by
  simp only [exfatPwrite, wp_bind, wp_nextTick]
  cases hio : Env.ioFails w.tick with
  | true =>
    rw [if_pos rfl, wp_pure]
    exact ⟨fun h => absurd h (by decide), fun hq => absurd (hio.symm.trans (hq.io _)) (by decide)⟩
  | false =>
    rw [if_neg (by decide)]
    exact ⟨fun _ => ⟨_, rfl⟩, fun _ => rfl⟩

/-- `erase_object` writes zeros. -/
theorem eraseObject_done {n start size : Nat} (hn : size ≤ n * (1024 * 1024)) :
    Wp E (eraseObject n start size) w
      (Done (w.withDev (w.dev.write start (List.replicate size 0)))) := by
  induction n generalizing w start size with
  | zero =>
    obtain rfl : size = 0 := by omega
    simp only [eraseObject, wp_pure, List.replicate_zero, Store.write_nil, World.withDev_self]
    exact Done.intro w
  | succ n ih =>
    unfold eraseObject
    generalize hb : min size (1024 * 1024) = block
    refine done_bind (exfatPwrite_step _ _) (fun v => by simp) fun t => ?_
    rw [if_pos rfl]
    refine (ih (by omega)).mono fun b v hd => ?_
    have hjoin : (w.dev.write start (List.replicate block 0)).write (start + block)
        (List.replicate (size - block) 0) = w.dev.write start (List.replicate size 0) := by
      have h := w.dev.write_append start (List.replicate block 0) (List.replicate (size - block) 0)
      rwa [List.length_replicate, List.replicate_append_replicate,
        Nat.add_sub_cancel' (by omega)] at h
    refine ⟨fun h => ?_, hd.2⟩
    obtain ⟨t', rfl⟩ := hd.1 h
    refine ⟨t', ?_⟩
    simp only [World.withDev_ticked, World.withDev_dev, hjoin]
    rfl

/-- `erase` writes zeros over every object. -/
theorem eraseAll_done (os : List FsObject) (x : Nat) :
    Wp E (eraseAll p os x) w (Done (w.withDev (w.dev.writeAll
      ((place (FsObject.up p) (FsObject.size p) os x).map fun s =>
        (s.2, List.replicate (s.1.size p) 0))))) := by
  induction os generalizing w x with
  | nil => exact Done.intro w
  | cons o os ih =>
    unfold eraseAll
    refine done_bind (eraseObject_done (le_divRoundUp_mul _ (by decide))) (fun v => by simp)
      fun t => ?_
    rw [if_pos rfl]
    exact ih _

/-- `create` writes every object. -/
theorem createAll_done (os : List FsObject) (x : Nat) :
    Wp E (createAll p os x) w (Done (w.withDev (w.dev.writeAll
      ((place (FsObject.up p) (FsObject.size p) os x).map fun s => (s.2, s.1.bytes p))))) := by
  induction os generalizing w x with
  | nil => exact Done.intro w
  | cons o os ih =>
    unfold createAll
    refine done_bind (exfatPwrite_step _ _) (fun v => by simp) fun t => ?_
    rw [if_pos rfl]
    exact ih _

/-- mkfs leaves the objects at their places. -/
theorem mkfs_done (h : p.Accepted) :
    Wp E (mkfs p) w (Done (w.withDev (p.formatted w.dev))) := by
  rw [mkfs, if_neg (Nat.not_lt.mpr h.room)]
  refine done_bind (eraseAll_done objects 0) (fun v => by simp) fun t => ?_
  rw [if_neg (by decide)]
  refine done_bind (createAll_done objects 0) (fun v => by simp) fun t' => ?_
  rw [if_neg (by decide)]
  simp only [exfatFsync, wp_bind, wp_nextTick]
  change Wp E (if Env.ioFails t' then _ else _) _ _
  cases hio : Env.ioFails t' with
  | true =>
    rw [if_pos rfl]
    exact ⟨fun h => absurd h (by decide), fun hq => absurd (hio.symm.trans (hq.io _)) (by decide)⟩
  | false =>
    rw [if_neg (by decide)]
    exact ⟨fun _ => ⟨_, rfl⟩, fun _ => rfl⟩

/-- When nothing fails mkfs succeeds. -/
theorem mkfs_succeeds (hq : Env.Quiet) (h : p.Accepted) (w : World) :
    ∃ v, mkfs p w = .ok (true, v) ∧ v.dev = p.formatted w.dev := by
  obtain ⟨b, v, hrun, hd⟩ := (mkfs_done (E := fun _ => False) (w := w) h).returns
  obtain rfl := hd.2 hq
  obtain ⟨t, rfl⟩ := hd.1 rfl
  exact ⟨_, hrun, rfl⟩

end

/-- Between its start and the heap only the FAT is written. -/
theorem writeAll_places (h9 : p.sectorBits = 9) (f : FsObject → List UInt8)
    (hv : (f .vbr).length ≤ 12 * 512) (h1 : 128 * 512 ≤ i) (h2 : i < p.header * p.clusterSize) :
    d.writeAll (p.places.map fun s => (s.2, f s.1)) i = d.write (128 * 512) (f .fat) i := by
  have hle : ∀ k, p.header * p.clusterSize ≤ (p.header + k) * p.clusterSize := fun k =>
    Nat.mul_le_mul_right _ (Nat.le_add_right _ _)
  rw [places_eq h9]
  simp only [List.map_cons, List.map_nil]
  change ((((d.write 0 (f .vbr)).write (12 * 512) (f .vbr)).write (128 * 512) (f .fat)).writeAll
    [(p.header * p.clusterSize, f .cbm), _, _]) i = _
  rw [Store.writeAll_before]
  · simp only [Store.write]
    rw [if_neg (show ¬(12 * 512 ≤ i ∧ i < 12 * 512 + (f .vbr).length) by omega),
      if_neg (show ¬(0 ≤ i ∧ i < 0 + (f .vbr).length) by omega)]
  · intro s hs
    simp only [List.mem_cons, List.not_mem_nil, or_false] at hs
    have h3 := hle (FsObject.cbm.clusters p)
    have h4 := hle (FsObject.cbm.clusters p + FsObject.uct.clusters p)
    rw [← Nat.add_assoc] at h4
    rcases hs with rfl | rfl | rfl
    · exact h2
    · exact h2.trans_le h3
    · exact h2.trans_le h4

theorem initSb_length (p : Param) : (initSb p).toBytes.length = 512 := by
  have hname : (bytesOf "EXFAT   ").length = 8 := by decide
  unfold SuperBlock.toBytes initSb
  simp only [List.length_append, toLe_length, List.length_replicate, List.length_cons,
    List.length_nil, hname]

theorem vbrBytes_length (h9 : p.sectorBits = 9) : (vbrBytes p).length = 12 * 512 := by
  simp only [vbrBytes, bootSector, zeroSector, sectorSize_eq h9, List.length_append, initSb_length,
    List.length_flatten, List.map_replicate, List.sum_replicate, List.length_replicate, toLe_length,
    smul_eq_mul]

/-- A byte of the FAT of a new file system. -/
theorem formatted_fat (h9 : p.sectorBits = 9) (h1 : 128 * 512 ≤ i)
    (h2 : i < p.header * p.clusterSize) :
    p.formatted d i = ((d.write (128 * 512) (List.replicate (FsObject.fat.size p) 0)).write
      (128 * 512) (FsObject.fat.bytes p)) i := by
  have hz : (List.replicate (FsObject.vbr.size p) (0 : UInt8)).length ≤ 12 * 512 := by
    rw [List.length_replicate, size_vbr h9]
  have hzero := writeAll_places (d := d) h9 (fun o => List.replicate (o.size p) 0) hz h1 h2
  rw [Param.formatted, writeAll_places h9 (fun o => o.bytes p) (vbrBytes_length h9).le h1 h2,
    Store.write, Store.write, hzero]

theorem fatOffset_initSb (h9 : p.sectorBits = 9) (c : Nat) :
    fatOffset (initSb p) c = 128 * 512 + c * 4 := by
  have hbits : (initSb p).sectorBits = 9 := h9
  rw [fatOffset, s2o, hbits, initSb_fatStart h9]
  rfl

theorem fatWords_length (h : p.Accepted) :
    (fatWords p).length = 2 + FsObject.cbm.clusters p + FsObject.uct.clusters p + 1 := by
  have h3 : 0 < divRoundUp (FsObject.rootdir.size p) p.clusterSize := by
    rw [← FsObject.clusters, rootdir_clusters]
    decide
  simp only [fatWords, List.length_append, fatEntries_length _ (cbm_clusters_pos h),
    fatEntries_length _ (uct_clusters_pos p), fatEntries_length _ h3]
  rw [← FsObject.clusters, ← FsObject.clusters, ← FsObject.clusters, rootdir_clusters]
  rfl

theorem fatEntries_lt {length : Nat} (hb : c + divRoundUp length p.clusterSize ≤ 2 ^ 32) :
    ∀ x ∈ fatEntries p c length, x < 2 ^ 32 := by
  intro x hx
  rcases List.mem_append.mp hx with hx | hx
  · obtain ⟨k, hk, rfl⟩ := List.mem_map.mp hx
    have := List.mem_range.mp hk
    omega
  · rw [List.mem_singleton.mp hx]
    decide

theorem fatWords_lt (h : p.Accepted) : ∀ x ∈ fatWords p, x < 2 ^ 32 := by
  have hroom := heap_room h
  have hmax := (accepted_small h).2
  have h3 := rootdir_clusters p
  have hl1 := fatEntries_length (p := p) 2 (cbm_clusters_pos h)
  have hl2 := fatEntries_length (p := p) (2 + FsObject.cbm.clusters p) (uct_clusters_pos p)
  simp only [exfatLastDataCluster] at hmax
  rw [← FsObject.clusters] at hl1 hl2
  unfold FsObject.clusters at h3
  intro x hx
  simp only [fatWords, hl1, hl2, List.mem_append] at hx
  rcases hx with ((hx | hx) | hx) | hx
  · simp only [List.mem_cons, List.not_mem_nil, or_false] at hx
    omega
  · exact fatEntries_lt (by rw [← FsObject.clusters]; omega) x hx
  · refine fatEntries_lt ?_ x hx
    change 2 + FsObject.cbm.clusters p + FsObject.uct.clusters p ≤ 2 ^ 32
    omega
  · exact fatEntries_lt (by rw [h3]; omega) x hx

/-- An entry that `fat_write` writes. -/
theorem fat_written (h : p.Accepted) (hc : c < (fatWords p).length)
    (hin : 128 * 512 + (fatWords p).length * 4 ≤ p.header * p.clusterSize) :
    fat (initSb p) (p.formatted d) c = (fatWords p).getD c 0 := by
  have hlt : (fatWords p).getD c 0 < 2 ^ 32 := by
    rw [List.getD_eq_getElem _ _ hc]
    exact fatWords_lt h _ (List.getElem_mem hc)
  have hlen : (FsObject.fat.bytes p).length = 4 * (fatWords p).length := flatMap_toLe_length 4 _
  have hread : (p.formatted d).read (128 * 512 + c * 4) 4 = toLe 4 ((fatWords p).getD c 0) := by
    rw [Store.read_congr fun i h1 h2 => formatted_fat h.sector (by omega) (by omega),
      Store.read_write_in _ (by omega)]
    exact flatMap_toLe_slice 4 hc
  rw [fat, fatOffset_initSb h.sector, hread, leNat_toLe]
  exact Nat.mod_eq_of_lt hlt

/-- An entry of the FAT that `erase` covers and `fat_write` does not. -/
theorem fat_zeroed (h : p.Accepted) (hc : (fatWords p).length ≤ c)
    (hz : c < p.volumeSize / p.clusterSize)
    (hin : 128 * 512 + (c + 1) * 4 ≤ p.header * p.clusterSize) :
    fat (initSb p) (p.formatted d) c = 0 := by
  have hlen : (FsObject.fat.bytes p).length = 4 * (fatWords p).length := flatMap_toLe_length 4 _
  have hread : (p.formatted d).read (128 * 512 + c * 4) 4 = List.replicate 4 0 := by
    rw [Store.read_congr fun i h1 h2 => formatted_fat h.sector (by omega) (by omega),
      Store.read_write_out _ (by omega), Store.read_write_in _ (by simp [size_fat]; omega),
      List.drop_replicate, List.take_replicate, size_fat]
    congr 1
    omega
  rw [fat, fatOffset_initSb h.sector, hread]
  rfl

/-- An entry behind both keeps what was on the device. -/
theorem fat_kept (h : p.Accepted) (hc : (fatWords p).length ≤ c)
    (hz : p.volumeSize / p.clusterSize ≤ c)
    (hin : 128 * 512 + (c + 1) * 4 ≤ p.header * p.clusterSize) :
    fat (initSb p) (p.formatted d) c = fat (initSb p) d c := by
  have hlen : (FsObject.fat.bytes p).length = 4 * (fatWords p).length := flatMap_toLe_length 4 _
  have hread : (p.formatted d).read (128 * 512 + c * 4) 4 = d.read (128 * 512 + c * 4) 4 := by
    rw [Store.read_congr fun i h1 h2 => formatted_fat h.sector (by omega) (by omega),
      Store.read_write_out _ (by omega), Store.read_write_out _ (by simp [size_fat]; omega)]
  rw [fat, fat, fatOffset_initSb h.sector, hread]

/-- The FAT as the super block has it ends where the heap starts. -/
theorem fat_room (h : p.Accepted) :
    128 * 512 + (initSb p).fatSectorCount * p.sectorSize = p.header * p.clusterSize := by
  rw [sectorSize_eq h.sector, clusterSize_eq h.sector, Nat.mul_left_comm, ← initSb_fatCount h]
  omega

theorem heap_start (h : p.Accepted) :
    c2oRaw (initSb p) exfatFirstDataCluster = p.header * p.clusterSize := by
  have hbits : (initSb p).sectorBits = 9 := h.sector
  rw [c2oRaw, c2sRaw, Nat.sub_self, Nat.zero_mul, Nat.add_zero, s2o, hbits, initSb_heapStart h,
    clusterSize_eq h.sector, Nat.mul_assoc, Nat.mul_comm (2 ^ p.spcBits)]
  rfl

/-- Clusters larger than everything in front of the heap. -/
theorem header_one (hle : 128 * 512 + p.volumeSize / p.clusterSize * 4 ≤ p.clusterSize) :
    p.header = 1 := by
  have h1 : p.header ≤ 1 := divRoundUp_le (param_clusterSize_pos p) (by rwa [Nat.one_mul])
  have h2 : 0 < p.header := (divRoundUp_pos (param_clusterSize_pos p)).mpr (by omega)
  omega

theorem header_two (hlt : p.clusterSize < 128 * 512 + p.volumeSize / p.clusterSize * 4) :
    2 ≤ p.header := by
  by_contra hh
  have hle := le_divRoundUp_mul (128 * 512 + p.volumeSize / p.clusterSize * 4)
    (param_clusterSize_pos p)
  have hone : p.header * p.clusterSize ≤ 1 * p.clusterSize := Nat.mul_le_mul_right _ (by omega)
  rw [← Param.header] at hle
  omega

/-- In such large clusters the bitmap and the upper case table take one cluster each. -/
theorem clusters_one (h : p.Accepted)
    (hle : 128 * 512 + p.volumeSize / p.clusterSize * 4 ≤ p.clusterSize) :
    FsObject.cbm.clusters p = 1 ∧ FsObject.uct.clusters p = 1 := by
  have h1 := cbm_clusters_pos h
  have h2 := uct_clusters_pos p
  have hcount := initSb_count h
  have hlen : FsObject.uct.size p = 5836 := upcaseTable_length
  have hbits : divRoundUp (initSb p).clusterCount 8 ≤ (initSb p).clusterCount :=
    divRoundUp_le (by decide) (by omega)
  have h3 : FsObject.cbm.clusters p ≤ 1 :=
    divRoundUp_le (param_clusterSize_pos p) (by rw [cbm_size h]; omega)
  have h4 : FsObject.uct.clusters p ≤ 1 :=
    divRoundUp_le (param_clusterSize_pos p) (by rw [hlen]; omega)
  omega

/-- The words of the FAT that `fat_write` writes end before the heap. -/
theorem fatWords_room (h : p.Accepted) :
    128 * 512 + (fatWords p).length * 4 ≤ p.header * p.clusterSize := by
  have hheap := heap_room h
  have hwords := fatWords_length h
  by_cases hlt : p.clusterSize < 128 * 512 + p.volumeSize / p.clusterSize * 4
  · have htwo := header_two hlt
    have hfront := le_divRoundUp_mul (128 * 512 + p.volumeSize / p.clusterSize * 4)
      (param_clusterSize_pos p)
    rw [← Param.header] at hfront
    omega
  · have hle := Nat.le_of_not_lt hlt
    have hone := header_one hle
    obtain ⟨hcbm, huct⟩ := clusters_one h hle
    obtain ⟨k, hk⟩ : ∃ k, p.clusterSize = 512 * k := ⟨_, clusterSize_eq h.sector⟩
    rw [hone, Nat.one_mul]
    omega

theorem allocated_le (h : p.Accepted) : allocatedClusters p ≤ (initSb p).clusterCount := by
  have hheap := heap_room h
  rw [allocated_eq, initSb_count h]
  omega

theorem cbmBytes_length (p : Param) : (cbmBytes p).length = divRoundUp (allocatedClusters p) 8 := by
  rw [cbmBytes, chunkBytes_length, roundUp, Nat.mul_div_cancel _ (by decide)]

theorem cbmBytes_le (h : p.Accepted) : (cbmBytes p).length ≤ FsObject.cbm.size p := by
  rw [cbmBytes_length, cbm_size h]
  exact divRoundUp_mono (allocated_le h)

/-- No object is written over the place of the next. -/
theorem bytes_ordered (h : p.Accepted) :
    p.places.Pairwise fun s t => s.2 + (s.1.bytes p).length ≤ t.2 := by
  have hvbr : (FsObject.vbr.bytes p).length = 12 * 512 := vbrBytes_length h.sector
  have hfat : (FsObject.fat.bytes p).length = 4 * (fatWords p).length := flatMap_toLe_length 4 _
  have hroom := fatWords_room h
  have hcbm : (FsObject.cbm.bytes p).length ≤ FsObject.cbm.clusters p * p.clusterSize :=
    (cbmBytes_le h).trans (le_divRoundUp_mul _ (param_clusterSize_pos p))
  have huct : (FsObject.uct.bytes p).length ≤ FsObject.uct.clusters p * p.clusterSize :=
    le_divRoundUp_mul _ (param_clusterSize_pos p)
  rw [places_eq h.sector]
  simp only [List.pairwise_cons, List.mem_cons, List.not_mem_nil, or_false, forall_eq_or_imp,
    forall_eq, false_imp_iff, implies_true, Nat.add_mul, List.Pairwise.nil, and_true, hvbr, hfat]
  omega

theorem sizes_ordered (p : Param) :
    p.places.Pairwise fun s t => s.2 + s.1.size p ≤ t.2 := place_ordered fun o x => le_up o x

/-- A byte that an object wrote. -/
theorem formatted_in (h : p.Accepted) (hs : (o, pos) ∈ p.places) (hi : i < (o.bytes p).length) :
    p.formatted d (pos + i) = (o.bytes p).getD i 0 := by
  have hin : p.formatted d (pos + i) = (o.bytes p).getD (pos + i - pos) 0 :=
    Store.writeAll_in (w := (pos, o.bytes p)) (List.pairwise_map.mpr (bytes_ordered h))
      (List.mem_map_of_mem hs) (Nat.le_add_right pos i) (Nat.add_lt_add_left hi pos)
  rwa [Nat.add_sub_cancel_left] at hin

/-- A byte of an object's place that the object left as `erase` made it. -/
theorem formatted_after (h : p.Accepted) (hs : (o, pos) ∈ p.places) (hi : (o.bytes p).length ≤ i)
    (hl : i < o.size p) : p.formatted d (pos + i) = 0 := by
  have happart : ∀ t ∈ p.places, pos + i < t.2 ∨ t.2 + (t.1.bytes p).length ≤ pos + i := by
    intro t ht
    by_cases heq : (o, pos) = t
    · subst heq
      exact .inr (Nat.add_le_add_left hi pos)
    · have hsym : p.places.Pairwise fun s t =>
          (s.2 + s.1.size p ≤ t.2 ∧ s.2 + (s.1.bytes p).length ≤ t.2) ∨
            (t.2 + t.1.size p ≤ s.2 ∧ t.2 + (t.1.bytes p).length ≤ s.2) :=
        ((sizes_ordered p).and (bytes_ordered h)).imp .inl
      have hapart := @List.Pairwise.forall _ _ _ ⟨fun _ _ => Or.symm⟩ hsym _ hs _ ht heq
      rcases hapart with ⟨h1, -⟩ | ⟨-, h2⟩
      · exact .inl ((Nat.add_lt_add_left hl pos).trans_le h1)
      · exact .inr (h2.trans (Nat.le_add_right pos i))
  have hzero : d.writeAll (p.places.map fun s => (s.2, List.replicate (s.1.size p) 0)) (pos + i) =
      (List.replicate (o.size p) (0 : UInt8)).getD (pos + i - pos) 0 := by
    refine Store.writeAll_in (w := (pos, List.replicate (o.size p) 0)) ?_ (List.mem_map_of_mem hs)
      (Nat.le_add_right pos i) (by rwa [List.length_replicate, Nat.add_lt_add_iff_left])
    simp only [List.pairwise_map, List.length_replicate]
    exact sizes_ordered p
  rw [Param.formatted, Store.writeAll_out (List.forall_mem_map.mpr happart), hzero]
  simp

/-- Bytes that an object wrote. -/
theorem formatted_read (h : p.Accepted) (hs : (o, pos) ∈ p.places) {n : Nat}
    (hi : i + n ≤ (o.bytes p).length) :
    (p.formatted d).read (pos + i) n = ((o.bytes p).drop i).take n := by
  refine eq_of_getD ?_ fun j hj => ?_
  · rw [Store.read_length, List.length_take, List.length_drop]
    omega
  · rw [Store.read_length] at hj
    rw [Store.read_getD _ hj, Nat.add_assoc, formatted_in h hs (by omega)]
    simp only [List.getD_eq_getElem?_getD, List.getElem?_take_of_lt hj, List.getElem?_drop]

theorem initLabelEntry_length (hl : p.volumeLabel.length = exfatEnameMax + 1) :
    (initLabelEntry p).length = entrySize := by
  unfold initLabelEntry
  split
  · simp
  · simp only [List.length_append, toLe_length, flatMap_toLe_length, List.length_take, hl]
    rfl

theorem initBitmapEntry_length (p : Param) : (initBitmapEntry p).length = entrySize := by
  simp [initBitmapEntry]

theorem initUpcaseEntry_length (p : Param) : (initUpcaseEntry p).length = entrySize := by
  simp [initUpcaseEntry]

theorem rootdir_length (hl : p.volumeLabel.length = exfatEnameMax + 1) :
    (FsObject.rootdir.bytes p).length = entrySize * 3 := by
  rw [FsObject.bytes, List.length_append, List.length_append, initLabelEntry_length hl,
    initBitmapEntry_length, initUpcaseEntry_length]
  rfl

/-- The bitmap has the bits of the clusters in use, behind the bytes of `cbm_write` too. -/
theorem formatted_bit (h : p.Accepted) (hi : i / 8 < FsObject.cbm.size p) :
    (p.formatted d (getPosition p .cbm + i / 8)).toNat.testBit (i % 8) =
      decide (i < allocatedClusters p) := by
  have hplace := getPosition_mem (p := p) .cbm
  have hbyte : p.formatted d (getPosition p .cbm + i / 8) = (cbmBytes p).getD (i / 8) 0 := by
    by_cases hlt : i / 8 < (cbmBytes p).length
    · exact formatted_in h hplace hlt
    · rw [formatted_after h hplace (Nat.le_of_not_lt hlt) hi,
        List.getD_eq_default _ _ (Nat.le_of_not_lt hlt)]
  rw [hbyte]
  exact cbmBytes_bit p i

/-- The FAT on the device holds the three chains. -/
theorem formatted_links (h : p.Accepted) {s : Nat × Nat} (hs : s ∈ p.chains) (hi : i < s.2) :
    fat (initSb p) (p.formatted d) (s.1 + i) =
      if i + 1 = s.2 then exfatClusterEnd else s.1 + i + 1 := by
  have hlink := (fatWords_links h s hs).2 i hi
  obtain ⟨hlt, -⟩ := List.getElem?_eq_some_iff.mp hlink
  rw [fat_written h hlt (fatWords_room h), List.getD_eq_getElem?_getD, hlink, Option.getD_some]

/-- The FAT has room, and no entry lies in the heap, when four bytes for each cluster and two more
fit in front of the heap. -/
theorem fatHolds_of_formatted (h : p.Accepted)
    (hroom : 128 * 512 + ((initSb p).clusterCount + 2) * 4 ≤ p.header * p.clusterSize)
    (hw : ∀ d, ∀ c < (initSb p).clusterCount + 2,
      fat (initSb p) (p.formatted d) c = (fatWords p).getD c 0) : p.FatHolds where
  room := by
    have hfat := fat_room h
    omega
  written := fun w v hrun => by
    obtain ⟨t, rfl⟩ := ((mkfs_done (E := fun _ => True) h).run hrun).1 rfl
    exact hw w.dev
  slots := fun c hc => by
    have hlt := (clusterInvalid_false.mp hc).2
    rw [heap_start h, fatOffset_initSb h.sector]
    omega

/-- The FAT of a new file system holds exactly when a cluster does not hold the boot regions and the
FAT, or there are four clusters in all. -/
theorem mkfs_fat_iff (h : p.Accepted) :
    p.FatHolds ↔ p.clusterSize < 128 * 512 + p.volumeSize / p.clusterSize * 4 ∨
      p.volumeSize / p.clusterSize = 4 := by
  have hcount := initSb_count h
  have hheap := heap_room h
  have hwords := fatWords_length h
  obtain ⟨k, hk⟩ : ∃ k, p.clusterSize = 512 * k := ⟨_, clusterSize_eq h.sector⟩
  constructor
  · intro hf
    by_contra hn
    obtain ⟨hcs, hfour⟩ := not_or.mp hn
    have hle := Nat.le_of_not_lt hcs
    have hone := header_one hle
    obtain ⟨hcbm, huct⟩ := clusters_one h hle
    have hroom := fat_room h
    have hr := hf.room
    rw [hone, Nat.one_mul] at hroom
    -- the entry behind those that `erase` zeroes
    obtain ⟨v, hrun, hdev⟩ := @mkfs_succeeds p calmEnv calmEnv_quiet h { dev := fun _ => 0xff }
    have hentry := @Param.FatHolds.written p hf calmEnv _ v hrun (p.volumeSize / p.clusterSize)
      (by omega)
    rw [List.getD_eq_default _ _ (by omega)] at hentry
    have hkept : fat (initSb p) (p.formatted fun _ => 0xff) (p.volumeSize / p.clusterSize) =
        fat (initSb p) (fun _ => 0xff) (p.volumeSize / p.clusterSize) :=
      fat_kept h (by omega) le_rfl (by rw [hone, Nat.one_mul]; omega)
    have hold : ∀ off, leNat (Store.read (fun _ => 0xff) off 4) = 0xffffffff := fun off => by
      have hread : Store.read (fun _ => 0xff) off 4 = [0xff, 0xff, 0xff, 0xff] := rfl
      rw [hread]
      decide
    rw [hdev, hkept, fat, hold] at hentry
    omega
  · intro hc
    have hcase : 2 ≤ p.header ∨ p.header = 1 ∧ p.volumeSize / p.clusterSize = 4 ∧
        (fatWords p).length = 5 ∧ 128 * 512 + 5 * 4 ≤ p.clusterSize := by
      by_cases hlt : p.clusterSize < 128 * 512 + p.volumeSize / p.clusterSize * 4
      · exact .inl (header_two hlt)
      · have hle := Nat.le_of_not_lt hlt
        obtain ⟨hcbm, huct⟩ := clusters_one h hle
        have hfour := hc.resolve_left hlt
        -- the cluster size is a multiple of 512
        exact .inr ⟨header_one hle, hfour, by omega, by omega⟩
    have hfront := le_divRoundUp_mul (128 * 512 + p.volumeSize / p.clusterSize * 4)
      (param_clusterSize_pos p)
    rw [← Param.header] at hfront
    have hroom : 128 * 512 + ((initSb p).clusterCount + 2) * 4 ≤ p.header * p.clusterSize := by
      rcases hcase with htwo | ⟨hone, hfour, -, hcs⟩
      · omega
      · rw [hone, Nat.one_mul]
        omega
    refine fatHolds_of_formatted h hroom fun d c hlt => ?_
    by_cases hcw : c < (fatWords p).length
    · exact fat_written h hcw (by omega)
    · refine (fat_zeroed h (Nat.le_of_not_lt hcw) (by omega) (by omega)).trans
        (List.getD_eq_default _ _ (Nat.le_of_not_lt hcw)).symm

theorem mkfs_fat_iff_megabyte : megabyte.FatHolds :=
  (mkfs_fat_iff megabyte_accepted).mpr (.inl (by decide))

/-- A volume of two gigabytes with 256 sectors in a cluster. -/
def twoGigabytes : Param := { megabyte with spcBits := 8, volumeSize := 2 ^ 31 }

theorem twoGigabytes_accepted : twoGigabytes.Accepted where
  sector := rfl
  spc := by
    have hsetup : setupSpcBits 9 (some 8) (2 ^ 31) = pure (some 8) := by
      unfold setupSpcBits
      simp only
      rw [if_neg (by decide), if_neg (by decide)]
    exact ⟨some 8, { dev := fun _ => 0 }, { dev := fun _ => 0 }, congrFun hsetup _⟩
  room := by
    simp only [endPosition, objects, FsObject.size, upcaseTable_length]
    decide +kernel

/-- On that volume the FAT is one entry too short for the clusters. -/
theorem fat_too_short : twoGigabytes.Accepted ∧
    ¬((initSb twoGigabytes).clusterCount + 2) * 4 ≤
      (initSb twoGigabytes).fatSectorCount * twoGigabytes.sectorSize ∧
    ¬twoGigabytes.FatHolds := by
  have hshort : ¬((initSb twoGigabytes).clusterCount + 2) * 4 ≤
      (initSb twoGigabytes).fatSectorCount * twoGigabytes.sectorSize := by
    have hcount := initSb_count twoGigabytes_accepted
    have hfat := fat_room twoGigabytes_accepted
    have hmax : twoGigabytes.volumeSize / twoGigabytes.clusterSize = 16384 := by decide
    have hcs : twoGigabytes.clusterSize = 131072 := by decide
    have hone : twoGigabytes.header = 1 := by decide
    rw [hmax, hone] at hcount
    rw [hone, hcs] at hfat
    omega
  exact ⟨twoGigabytes_accepted, hshort, fun h => hshort h.room⟩

end Proofs

end Exfat
