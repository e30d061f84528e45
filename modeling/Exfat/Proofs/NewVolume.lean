import Exfat.Proofs.Checksum
import Exfat.Proofs.Flush
import Exfat.Proofs.Format
import Exfat.Proofs.Label

namespace Exfat
open Lib

/-! The bytes of a new volume, read back: the super block, the boot checksum, the link of the root
directory, its entries and what they point at. -/

namespace SuperBlock

/-- The parts of a super block on disk, in order. -/
def parts (sb : SuperBlock) : List (List UInt8) :=
  [sb.jump, sb.oemName, sb.unused1, toLe 8 sb.sectorStart, toLe 8 sb.sectorCount,
    toLe 4 sb.fatSectorStart, toLe 4 sb.fatSectorCount, toLe 4 sb.clusterSectorStart,
    toLe 4 sb.clusterCount, toLe 4 sb.rootdirCluster, toLe 4 sb.volumeSerial,
    toLe 1 sb.versionMinor, toLe 1 sb.versionMajor, toLe 2 sb.volumeState, toLe 1 sb.sectorBits,
    toLe 1 sb.spcBits, toLe 1 sb.fatCount, toLe 1 sb.driveNo, toLe 1 sb.allocatedPercent,
    sb.unused2, toLe 2 sb.bootSignature]

/-- The sizes of the parts. -/
def partSizes : List Nat := [3, 8, 53, 8, 8, 4, 4, 4, 4, 4, 4, 1, 1, 2, 1, 1, 1, 1, 1, 397, 2]

/-- Every field of a super block fits into its place on disk. -/
structure Encodable (sb : SuperBlock) : Prop where
  jump : sb.jump.length = 3
  oemName : sb.oemName.length = 8
  unused1 : sb.unused1.length = 53
  unused2 : sb.unused2.length = 397
  quads : sb.sectorStart < 256 ^ 8 ∧ sb.sectorCount < 256 ^ 8
  longs : sb.fatSectorStart < 256 ^ 4 ∧ sb.fatSectorCount < 256 ^ 4 ∧
    sb.clusterSectorStart < 256 ^ 4 ∧ sb.clusterCount < 256 ^ 4 ∧ sb.rootdirCluster < 256 ^ 4 ∧
    sb.volumeSerial < 256 ^ 4
  words : sb.volumeState < 256 ^ 2 ∧ sb.bootSignature < 256 ^ 2
  bytes : sb.versionMinor < 256 ^ 1 ∧ sb.versionMajor < 256 ^ 1 ∧ sb.sectorBits < 256 ^ 1 ∧
    sb.spcBits < 256 ^ 1 ∧ sb.fatCount < 256 ^ 1 ∧ sb.driveNo < 256 ^ 1 ∧
    sb.allocatedPercent < 256 ^ 1

end SuperBlock

/-- The checksum that `vbr_write` computes. -/
def Param.vbrSum (p : Param) : Nat :=
  (List.range 2).foldl (fun s _ => exfatVbrAddChecksum (zeroSector p) s)
    ((List.range 8).foldl (fun s _ => exfatVbrAddChecksum (bootSector p) s)
      (exfatVbrStartChecksum (initSb p).toBytes))

/-- The sectors that `vbr_write` writes. -/
def Param.vbrSectors (p : Param) : List (List UInt8) :=
  (initSb p).toBytes :: (List.replicate 8 (bootSector p) ++ (List.replicate 2 (zeroSector p) ++
    [(List.replicate (p.sectorSize / 4) (toLe 4 p.vbrSum)).flatten]))

/-- A device with a new volume: as mkfs left it, whatever the mount state and the percentage in the
super block are. -/
structure Param.Bare (p : Param) (d e : Store) : Prop where
  boot : ∃ state percent, state < 256 ^ 2 ∧ percent < 256 ^ 1 ∧
    e.read 0 512 = ((initSb p).rewrite state percent).toBytes
  rest : ∀ i, 512 ≤ i → e i = p.formatted d i

/-- The units of the label fill their array up to a zero. -/
structure Param.Stored (p : Param) : Prop where
  size : p.volumeLabel.length = exfatEnameMax + 1
  units : ∀ u ∈ p.volumeLabel, u < 0x10000
  ended : utf16Length p.volumeLabel ≤ exfatEnameMax

/-- The label is one that `readdir` makes this text of. -/
structure Param.Labelled (p : Param) (label : List UInt8) : Prop extends p.Stored where
  reads : if utf16Length p.volumeLabel = 0 then label = []
    else utf16ToUtf8 (p.volumeLabel.take exfatEnameMax) exfatUtf8EnameBufferMax exfatEnameMax =
      .ok label

/-- The serial number and the first sector have 32 and 64 bits. -/
structure Param.Narrow (p : Param) : Prop where
  serial : p.volumeSerial < 256 ^ 4
  first : p.firstSector < 256 ^ 8

namespace Proofs

variable {p : Param} {d : Store} {sb : SuperBlock} {o : FsObject} {i pos : Nat}

theorem parts_flatten (sb : SuperBlock) : sb.parts.flatten = sb.toBytes := by
  unfold SuperBlock.parts SuperBlock.toBytes
  simp only [List.flatten_cons, List.flatten_nil, List.append_nil, List.append_assoc]

/-- Where the parts start. -/
theorem parts_offset (h : sb.Encodable) (k : Nat) : ((sb.parts.take k).map List.length).sum =
    (SuperBlock.partSizes.take k).sum := by
  rw [List.map_take]
  simp only [SuperBlock.parts, SuperBlock.partSizes, List.map_cons, List.map_nil, toLe_length,
    h.jump, h.oemName, h.unused1, h.unused2]

theorem leAt_toBytes (h : sb.Encodable) (k : Nat) {off n v : Nat}
    (hk : sb.parts[k]? = some (toLe n v)) (ho : (SuperBlock.partSizes.take k).sum = off)
    (hv : v < 256 ^ n) : leAt sb.toBytes off n = v := by
  rw [← parts_flatten, leAt_part hk ((parts_offset h k).trans ho), Nat.mod_eq_of_lt hv]

theorem toBytes_slice (h : sb.Encodable) (k : Nat) {off n : Nat} {s : List UInt8}
    (hk : sb.parts[k]? = some s) (ho : (SuperBlock.partSizes.take k).sum = off)
    (hn : s.length = n) : (sb.toBytes.drop off).take n = s := by
  rw [← parts_flatten, ← hn, slice_part hk ((parts_offset h k).trans ho)]

/-- A super block is read back as it was written. -/
theorem ofBytes_toBytes (h : sb.Encodable) : SuperBlock.ofBytes sb.toBytes = sb := by
  have hjump := toBytes_slice h 0 rfl rfl h.jump
  rw [List.take_zero, List.sum_nil, List.drop_zero] at hjump
  cases sb
  simp only [SuperBlock.ofBytes, SuperBlock.mk.injEq]
  exact ⟨hjump, toBytes_slice h 1 rfl rfl h.oemName,
    toBytes_slice h 2 rfl rfl h.unused1, leAt_toBytes h 3 rfl rfl h.quads.1,
    leAt_toBytes h 4 rfl rfl h.quads.2, leAt_toBytes h 5 rfl rfl h.longs.1,
    leAt_toBytes h 6 rfl rfl h.longs.2.1, leAt_toBytes h 7 rfl rfl h.longs.2.2.1,
    leAt_toBytes h 8 rfl rfl h.longs.2.2.2.1, leAt_toBytes h 9 rfl rfl h.longs.2.2.2.2.1,
    leAt_toBytes h 10 rfl rfl h.longs.2.2.2.2.2, leAt_toBytes h 11 rfl rfl h.bytes.1,
    leAt_toBytes h 12 rfl rfl h.bytes.2.1, leAt_toBytes h 13 rfl rfl h.words.1,
    leAt_toBytes h 14 rfl rfl h.bytes.2.2.1, leAt_toBytes h 15 rfl rfl h.bytes.2.2.2.1,
    leAt_toBytes h 16 rfl rfl h.bytes.2.2.2.2.1, leAt_toBytes h 17 rfl rfl h.bytes.2.2.2.2.2.1,
    leAt_toBytes h 18 rfl rfl h.bytes.2.2.2.2.2.2, toBytes_slice h 19 rfl rfl h.unused2,
    leAt_toBytes h 20 rfl rfl h.words.2⟩

theorem spcBits_lt (h : p.Accepted) : p.spcBits < 22 := by
  have hsmall := (accepted_small h).1
  rw [clusterSize_eq h.sector] at hsmall
  by_contra hge
  have hpow : 2 ^ 22 ≤ 2 ^ p.spcBits := Nat.pow_le_pow_right (by decide) (by omega)
  omega

theorem initSb_encodable (h : p.Accepted) (hn : p.Narrow) {state percent : Nat}
    (hs : state < 256 ^ 2) (hp : percent < 256 ^ 1) :
    ((initSb p).rewrite state percent).Encodable := by
  have h22 := spcBits_lt h
  have hcount := initSb_count h
  obtain ⟨hsmall, hmax⟩ := accepted_small h
  simp only [exfatLastDataCluster] at hmax
  have hsectors : p.volumeSize / p.sectorSize < 256 ^ 8 := by
    have hcs := param_clusterSize_pos p
    have hnum : p.volumeSize / p.clusterSize < 2 ^ 32 := by omega
    have hlt : p.volumeSize < 2 ^ 32 * 2 ^ 31 :=
      ((Nat.div_lt_iff_lt_mul hcs).mp hnum).trans_le (Nat.mul_le_mul_left _ hsmall.le)
    exact (Nat.div_le_self _ _).trans_lt (hlt.trans_le (by decide))
  have hm : ∀ x : Nat, x % 2 ^ 32 < 256 ^ 4 := fun x => Nat.mod_lt x (by decide)
  refine ⟨rfl, rfl, List.length_replicate, List.length_replicate, ⟨hn.first, hsectors⟩,
    ⟨hm _, hm _, hm _, ?_, hm _, hn.serial⟩, ⟨hs, ?_⟩, ?_, ?_, ?_, ?_, ?_, ?_, hp⟩
  · change (initSb p).clusterCount < 256 ^ 4
    omega
  · change 0xaa55 < 256 ^ 2
    decide
  · change 0 < 256 ^ 1
    decide
  · change 1 < 256 ^ 1
    decide
  · change p.sectorBits < 256 ^ 1
    rw [h.sector]
    decide
  · change p.spcBits < 256 ^ 1
    omega
  · change 1 < 256 ^ 1
    decide
  · change 0x80 < 256 ^ 1
    decide

theorem vbrSectors_flatten (p : Param) : p.vbrSectors.flatten = vbrBytes p := by
  simp only [Param.vbrSectors, Param.vbrSum, vbrBytes, List.flatten_cons, List.flatten_append,
    List.flatten_nil, List.append_nil, List.append_assoc]

theorem vbrSectors_length (h9 : p.sectorBits = 9) : ∀ s ∈ p.vbrSectors, s.length = 512 := by
  have hss := sectorSize_eq h9
  have hboot : (bootSector p).length = 512 := by
    rw [bootSector, List.length_append, List.length_replicate, toLe_length, hss]
  have hzero : (zeroSector p).length = 512 := by
    rw [zeroSector, List.length_replicate, hss]
  have hsum : (List.replicate (p.sectorSize / 4) (toLe 4 p.vbrSum)).flatten.length = 512 := by
    rw [flatten_length fun s hs => by rw [List.eq_of_mem_replicate hs, toLe_length],
      List.length_replicate, hss]
  intro s hs
  rcases List.mem_cons.mp hs with hs | hs
  · exact hs ▸ initSb_length p
  rcases List.mem_append.mp hs with hs | hs
  · exact List.eq_of_mem_replicate hs ▸ hboot
  rcases List.mem_append.mp hs with hs | hs
  · exact List.eq_of_mem_replicate hs ▸ hzero
  · exact List.mem_singleton.mp hs ▸ hsum

/-- A sector of the boot region of a new volume. -/
theorem formatted_sector (h : p.Accepted) {k : Nat} (hk : k < p.vbrSectors.length) :
    (p.formatted d).read (k * 512) 512 = p.vbrSectors[k] := by
  have hplace : (FsObject.vbr, 0) ∈ p.places := by
    rw [places_eq h.sector]
    exact List.mem_cons_self
  have hlen : (FsObject.vbr.bytes p).length = p.vbrSectors.length * 512 := by
    rw [FsObject.bytes, ← vbrSectors_flatten, flatten_length (vbrSectors_length h.sector)]
  have hin : k * 512 + 512 ≤ (FsObject.vbr.bytes p).length := by
    rw [hlen, ← Nat.succ_mul]
    exact Nat.mul_le_mul_right _ hk
  have hread := formatted_read (d := d) h hplace hin
  rw [Nat.zero_add, FsObject.bytes, ← vbrSectors_flatten] at hread
  rw [hread, flatten_slice (vbrSectors_length h.sector) hk]

/-- The checksum over equal sectors. -/
theorem vbrSum_same {ss n : Nat} {s : List UInt8} (sum : Nat)
    (h : ∀ j < n, d.read ((i + j) * ss) ss = s) :
    vbrSum d ss n i sum = (List.range n).foldl (fun t _ => exfatVbrAddChecksum s t) sum := by
  induction n generalizing i sum with
  | zero => rfl
  | succ n ih =>
    have hfirst := h 0 (Nat.zero_lt_succ n)
    rw [Nat.add_zero] at hfirst
    rw [vbrSum, hfirst, ih _ fun j hj => ?_, List.range_succ_eq_map, List.foldl_cons,
      List.foldl_map]
    have hnext := h (j + 1) (Nat.succ_lt_succ hj)
    rwa [← Nat.add_assoc, Nat.add_right_comm] at hnext

theorem vbrSum_add (ss m n : Nat) (sum : Nat) :
    vbrSum d ss (m + n) i sum = vbrSum d ss n (i + m) (vbrSum d ss m i sum) := by
  induction m generalizing i sum with
  | zero => rw [Nat.zero_add, Nat.add_zero, vbrSum]
  | succ m ih => rw [Nat.succ_add, vbrSum, ih, vbrSum, Nat.add_right_comm, Nat.add_assoc]

theorem vbrSum_lt (p : Param) : p.vbrSum < 2 ^ 32 := by
  have hadd : ∀ (s : List UInt8) (n sum : Nat), sum < 2 ^ 32 →
      (List.range n).foldl (fun t _ => exfatVbrAddChecksum s t) sum < 2 ^ 32 :=
    fun s n sum hs => List.foldlRecOn (motive := fun t => t < 2 ^ 32) _ _ hs fun t ht _ _ =>
      (rotateAdd_separates 31).foldl_keeps _ ht
  exact hadd _ _ _ (hadd _ _ _ (exfatVbrStartChecksum_lt _))

/-- The checksum sector of a new volume is right. -/
theorem formatted_bootOk (h : p.Accepted) : BootOk (p.formatted d) 512 := by
  have hsector : ∀ k s, p.vbrSectors[k]? = some s → (p.formatted d).read (k * 512) 512 = s := by
    intro k s hk
    obtain ⟨hlt, hs⟩ := List.getElem?_eq_some_iff.mp hk
    exact (formatted_sector h hlt).trans hs
  have hboot : ∀ j < 8, (p.formatted d).read ((1 + j) * 512) 512 = bootSector p := by
    intro j hj
    refine hsector _ _ ?_
    rw [Nat.add_comm, Param.vbrSectors, List.getElem?_cons_succ,
      List.getElem?_append_left (by rwa [List.length_replicate]), List.getElem?_replicate_of_lt hj]
  have hzero : ∀ j < 2, (p.formatted d).read ((1 + 8 + j) * 512) 512 = zeroSector p := by
    intro j hj
    refine hsector _ _ ?_
    rw [Nat.add_assoc, Nat.add_comm, Param.vbrSectors, List.getElem?_cons_succ,
      List.getElem?_append_right (by simp), List.length_replicate, Nat.add_sub_cancel_left,
      List.getElem?_append_left (by rwa [List.length_replicate]), List.getElem?_replicate_of_lt hj]
  have hsum : bootSum (p.formatted d) 512 = p.vbrSum := by
    have hfirst := hsector 0 _ rfl
    rw [Nat.zero_mul] at hfirst
    rw [bootSum, hfirst, vbrSum_add 512 8 2, vbrSum_same _ hboot, vbrSum_same _ hzero, Param.vbrSum]
  have hlt : p.vbrSum < 256 ^ 4 := vbrSum_lt p
  intro i hi
  have hlast := hsector 11 _ rfl
  have hword : (((List.replicate (p.sectorSize / 4) (toLe 4 p.vbrSum)).flatten.drop
      (i * 4)).take 4) = toLe 4 p.vbrSum := by
    have hi' : i < (List.replicate (p.sectorSize / 4) (toLe 4 p.vbrSum)).length := by
      rwa [List.length_replicate, sectorSize_eq h.sector]
    rw [flatten_slice (fun s hs => by rw [List.eq_of_mem_replicate hs, toLe_length]) hi',
      List.getElem_replicate]
  rw [hlast, hsum, leAt, Nat.mul_comm, hword, leNat_toLe, Nat.mod_eq_of_lt hlt]

/-- A cluster of the heap. -/
theorem heap_cluster (h : p.Accepted) (k : Nat) :
    c2oRaw (initSb p) (2 + k) = (p.header + k) * p.clusterSize := by
  have hbits : (initSb p).sectorBits = 9 := h.sector
  have hspc : (initSb p).spcBits = p.spcBits := rfl
  rw [c2oRaw, c2sRaw, s2o, hbits, hspc, initSb_heapStart h, exfatFirstDataCluster,
    Nat.add_sub_cancel_left, ← Nat.add_mul, clusterSize_eq h.sector, Nat.mul_assoc,
    Nat.mul_comm (2 ^ p.spcBits)]
  rfl

/-- The clusters of the heap that are in use are valid. -/
theorem heap_valid (h : p.Accepted) {k : Nat} (hk : k < allocatedClusters p) :
    (initSb p).clusterInvalid (2 + k) = false := by
  have hle := allocated_le h
  rw [clusterInvalid_false]
  omega

theorem initSb_rootdir_eq (h : p.Accepted) : (initSb p).rootdirCluster =
    2 + (FsObject.cbm.clusters p + FsObject.uct.clusters p) := by
  rw [initSb_rootdir h, Nat.add_assoc, exfatFirstDataCluster]

/-- The root directory of a new volume has one cluster. -/
theorem fat_rootdir (h : p.Accepted) :
    fat (initSb p) (p.formatted d) (initSb p).rootdirCluster = exfatClusterEnd := by
  have hlink := formatted_links (d := d) (i := 0) h
    (s := (2 + FsObject.cbm.clusters p + FsObject.uct.clusters p, 1)) (by rw [chains_eq h]; simp)
    Nat.zero_lt_one
  rw [Nat.add_zero, if_pos rfl] at hlink
  rwa [initSb_rootdir h]

theorem uct_place (h9 : p.sectorBits = 9) :
    (FsObject.uct, (p.header + FsObject.cbm.clusters p) * p.clusterSize) ∈ p.places := by
  rw [places_eq h9]
  simp

theorem rootdir_place (h9 : p.sectorBits = 9) : (FsObject.rootdir, (p.header +
    (FsObject.cbm.clusters p + FsObject.uct.clusters p)) * p.clusterSize) ∈ p.places := by
  rw [places_eq h9, ← Nat.add_assoc]
  simp

theorem entryType_toLe {t : Nat} (ht : t < 256) (rest : List UInt8) :
    entryType (toLe 1 t ++ rest) 0 = t := by
  have hone : leAt (toLe 1 t ++ rest) (entrySize * 0) 1 = _ := leAt_one (by simp)
  rw [entryType, ← hone, Nat.mul_zero, leAt_toLe_self]
  exact Nat.mod_eq_of_lt ht

theorem heap_behind (h : p.Accepted) (k : Nat) : 512 ≤ (p.header + k) * p.clusterSize := by
  have h128 := (header_bounds h).1
  have hle : p.header * p.clusterSize ≤ (p.header + k) * p.clusterSize :=
    Nat.mul_le_mul_right _ (Nat.le_add_right _ _)
  rw [clusterSize_eq h.sector] at hle ⊢
  rw [Nat.mul_left_comm] at hle
  omega

/-- Behind the boot sector a new volume is read as mkfs left it. -/
theorem bare_read {e : Store} (hb : p.Bare d e) {off n : Nat} (ho : 512 ≤ off) :
    e.read off n = (p.formatted d).read off n :=
  Store.read_congr fun i hi _ => hb.rest i (ho.trans hi)

/-- The three entries of the root directory. -/
theorem rootdir_entries {e : Store} (h : p.Accepted) (hb : p.Bare d e)
    (hl : p.volumeLabel.length = exfatEnameMax + 1) :
    e.read (c2oRaw (initSb p) (initSb p).rootdirCluster) entrySize = initLabelEntry p ∧
    e.read (c2oRaw (initSb p) (initSb p).rootdirCluster + entrySize) entrySize =
      initBitmapEntry p ∧
    e.read (c2oRaw (initSb p) (initSb p).rootdirCluster + entrySize * 2) entrySize =
      initUpcaseEntry p := by
  have hlabel := initLabelEntry_length hl
  have hbitmap := initBitmapEntry_length p
  have hupcase := initUpcaseEntry_length p
  have hlen := rootdir_length hl
  have hread : ∀ k < 3,
      e.read (c2oRaw (initSb p) (initSb p).rootdirCluster + entrySize * k) entrySize =
        ((FsObject.rootdir.bytes p).drop (entrySize * k)).take entrySize := by
    intro k hk
    rw [initSb_rootdir_eq h, heap_cluster h,
      bare_read hb ((heap_behind h _).trans (Nat.le_add_right _ _)),
      formatted_read h (rootdir_place h.sector) (by rw [hlen]; simp only [entrySize]; omega)]
  refine ⟨(hread 0 (by decide)).trans ?_, (hread 1 (by decide)).trans ?_,
    (hread 2 (by decide)).trans ?_⟩
  · rw [FsObject.bytes, List.append_assoc, Nat.mul_zero, List.drop_zero, List.take_left' hlabel]
  · rw [FsObject.bytes, List.append_assoc, Nat.mul_one, List.drop_left' hlabel,
      List.take_left' hbitmap]
  · rw [FsObject.bytes, List.drop_left' (by rw [List.length_append, hlabel, hbitmap, Nat.mul_two]),
      ← hupcase, List.take_length]

/-- Behind the three entries the root directory is empty. -/
theorem rootdir_zeros {e : Store} (h : p.Accepted) (hb : p.Bare d e)
    (hl : p.volumeLabel.length = exfatEnameMax + 1) {off : Nat} (ho : entrySize * 3 ≤ off)
    (hin : off + entrySize ≤ p.clusterSize) :
    e.read (c2oRaw (initSb p) (initSb p).rootdirCluster + off) entrySize =
      List.replicate entrySize 0 := by
  have hlen := rootdir_length hl
  refine eq_of_getD (by simp) fun j hj => ?_
  rw [Store.read_length] at hj
  rw [List.getD_replicate _ hj, Store.read_getD _ hj, initSb_rootdir_eq h, heap_cluster h,
    Nat.add_assoc, hb.rest _ ((heap_behind h _).trans (Nat.le_add_right _ _)),
    formatted_after h (rootdir_place h.sector) (by omega)
      (show off + j < p.clusterSize by omega)]

/-- The upper case table that `readdir` reads. -/
theorem uct_read {e : Store} (h : p.Accepted) (hb : p.Bare d e) :
    e.read (c2oRaw (initSb p) (2 + FsObject.cbm.clusters p)) upcaseTable.length = upcaseTable := by
  have hread := formatted_read (d := d) (i := 0) h (uct_place h.sector) (n := upcaseTable.length)
    (by rw [FsObject.bytes, Nat.zero_add])
  rw [Nat.add_zero, FsObject.bytes, List.drop_zero, List.take_length] at hread
  rw [heap_cluster h, bare_read hb (heap_behind h _), hread]

/-- The bitmap that `readdir` reads marks the clusters in use. -/
theorem cbm_bits {e : Store} (h : p.Accepted) (hb : p.Bare d e) {n : Nat}
    (hn : divRoundUp (initSb p).clusterCount 8 ≤ n) (hi : i < (initSb p).clusterCount) :
    bitsOf (e.read (c2oRaw (initSb p) 2) n) i = decide (i < allocatedClusters p) := by
  have hpos : i / 8 < FsObject.cbm.size p := by
    rw [cbm_size h, divRoundUp]
    omega
  have hheap := heap_cluster h 0
  have hbehind := heap_behind h 0
  rw [Nat.add_zero, Nat.add_zero, ← getPosition_cbm h.sector] at hheap
  rw [Nat.add_zero, ← getPosition_cbm h.sector] at hbehind
  rw [bitsOf, Store.read_getD _ ((cbm_size h ▸ hpos).trans_le hn), hheap,
    hb.rest _ (hbehind.trans (Nat.le_add_right _ _)), formatted_bit h hpos]

theorem rewrite_length (sb : SuperBlock) (state percent : Nat) :
    (sb.rewrite state percent).toBytes.length = sb.toBytes.length := by
  unfold SuperBlock.toBytes SuperBlock.rewrite
  simp only [List.length_append, toLe_length]

theorem ofBytes_initSb (h : p.Accepted) (hn : p.Narrow) :
    SuperBlock.ofBytes (initSb p).toBytes = initSb p := by
  have hzero : ((initSb p).rewrite 0 0).Encodable :=
    initSb_encodable h hn (by decide) (by decide)
  exact ofBytes_toBytes hzero

/-- What mkfs leaves is a new volume. -/
theorem bare_formatted (h : p.Accepted) : p.Bare d (p.formatted d) where
  boot := ⟨0, 0, by decide, by decide, formatted_sector h (Nat.zero_lt_succ _)⟩
  rest := fun _ _ => rfl

/-- Another state and percentage make no other volume. -/
theorem bare_write {e : Store} (hb : p.Bare d e) {state percent : Nat} (hs : state < 256 ^ 2)
    (hp : percent < 256 ^ 1) : p.Bare d (e.write 0 ((initSb p).rewrite state percent).toBytes) where
  boot := by
    have hread := e.read_write_self 0 ((initSb p).rewrite state percent).toBytes
    rw [rewrite_length, initSb_length] at hread
    exact ⟨state, percent, hs, hp, hread⟩
  rest := fun i hi => by
    rw [Store.write_out _ (.inr (by rwa [rewrite_length, initSb_length, Nat.zero_add]))]
    exact hb.rest i hi

/-- The boot checksum of a new volume is right in every state. -/
theorem bare_bootOk {e : Store} (h : p.Accepted) (hn : p.Narrow) (hb : p.Bare d e) :
    BootOk e 512 := by
  have hl := initSb_length p
  have hkept : BootKept (p.formatted d) e 512 := by
    intro o _ hf
    by_cases ho : o < 512
    · obtain ⟨state, percent, -, -, hboot⟩ := hb.boot
      have hfirst : (p.formatted d).read 0 512 = (initSb p).toBytes :=
        formatted_sector h (Nat.zero_lt_succ _)
      have hnew := toBytes_getD hl state percent hf
      rw [ofBytes_initSb h hn, ← hboot, ← hfirst, Store.read_getD _ ho, Store.read_getD _ ho]
        at hnew
      rwa [Nat.zero_add] at hnew
    · exact hb.rest o (Nat.le_of_not_lt ho)
  exact hkept.ok le_rfl (formatted_bootOk h)

theorem bare_fat {e : Store} (h : p.Accepted) (hb : p.Bare d e) :
    fat (initSb p) e (initSb p).rootdirCluster = exfatClusterEnd := by
  have hfat := fat_rootdir (d := d) h
  rw [fat, fatOffset_initSb h.sector] at hfat ⊢
  rwa [bare_read hb (by omega)]

end Proofs

end Exfat
