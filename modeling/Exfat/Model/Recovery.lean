import Exfat.Model.Cluster

namespace Exfat
open Lib

/-! `recovery.c`: what the recovery tool computes for the volume it puts back together. -/

@[simp] def sectorSizeBytes : Nat := 512
@[simp] def sectorsPerCluster : Nat := 512

/-- `cluster_size_bytes`. -/
@[simp] def clusterSizeBytes : Nat := sectorSizeBytes * sectorsPerCluster

/-- `CLUSTER_COUNT`, the entries of the FAT. -/
def clusterCount : Nat := 0xe8db79

/-- `FAT_CLUSTER_COUNT`. -/
def fatClusterCount : Nat := clusterCount - 2

/-- `CLUSTER_HEAP_SIZE_BYTES`. -/
def clusterHeapSizeBytes : Nat := bmapSize fatClusterCount * (bitmapBits / 8)

/-- A sector, whatever record it holds. -/
abbrev Sector : Type := Vector UInt8 sectorSizeBytes

/-- `struct exfat_bios_parameter_block`: eight extended boot sectors, the OEM parameters, two zero
sectors and the checksums. -/
structure BiosParameterBlock where
  mebs : Vector Sector 8
  oemParams : Sector
  zs : Vector Sector 2
  chksum : Vector Nat 128

/-- `struct exfat_volume_boot_record`: the super block, one copy of the rest and a backup. -/
structure VolumeBootRecord where
  sb : Sector
  bpb : Vector BiosParameterBlock 2

def BiosParameterBlock.sectors (bpb : BiosParameterBlock) : List (List UInt8) :=
  bpb.mebs.toList.map Vector.toList ++ [bpb.oemParams.toList] ++ bpb.zs.toList.map Vector.toList ++
    [bpb.chksum.toList.flatMap (toLe 4)]

/-- The record as it lies on the disk. -/
def VolumeBootRecord.sectors (vbr : VolumeBootRecord) : List (List UInt8) :=
  vbr.sb.toList :: (vbr.bpb.toList.map BiosParameterBlock.sectors).flatten

/-- The bytes that `update_chksum_sector` leaves out of every sector. -/
def chksumSkips (i : Nat) : Bool := i = 106 ∨ i = 107 ∨ i = 112

/-- The loop of `update_chksum_sector` from byte `i` on. -/
def updateChksumLoop (chksum : Nat) : Nat → List UInt8 → Nat
  | _, [] => chksum
  | i, b :: buf =>
    if chksumSkips i then updateChksumLoop chksum (i + 1) buf
    else updateChksumLoop (vbrChecksumByte chksum b) (i + 1) buf

/-- `update_chksum_sector`. -/
def updateChksumSector (chksum : Nat) (buf : List UInt8) : Nat := updateChksumLoop chksum 0 buf

theorem chksum_pos : 0 < 128 := by norm_num

/-- `restore_fat`: only the first checksum word changes. -/
def restoreFat (vbr : VolumeBootRecord) : VolumeBootRecord :=
  let bpb := vbr.bpb.get 0
  let chksum := updateChksumSector (bpb.chksum.get 0) vbr.sb.toList
  let chksum := bpb.mebs.toList.foldl (fun sum meb => updateChksumSector sum meb.toList) chksum
  let bpb := { bpb with chksum := bpb.chksum.set 0 chksum chksum_pos }
  { vbr with bpb := vbr.bpb.set 0 bpb Nat.zero_lt_two }

def zeroSectorBytes : Sector := Vector.replicate _ 0

/-- The super block of `VBR` in `fsrestore.hpp`. -/
def fsrestoreSb : SuperBlock :=
  { jump := [0xeb, 0x76, 0x90], oemName := [0x45, 0x58, 0x46, 0x41, 0x54, 0x20, 0x20, 0x20]
    unused1 := List.replicate 53 0, sectorStart := 0x64028, sectorCount := 0x1d1b977b7
    fatSectorStart := 0, fatSectorCount := 0, clusterSectorStart := 0x283d8
    clusterCount := fatClusterCount, rootdirCluster := 0, volumeSerial := 0xdeadbeef
    versionMinor := 0, versionMajor := 1, volumeState := 0, sectorBits := 9, spcBits := 9
    fatCount := 1, driveNo := 0x80, allocatedPercent := 100, unused2 := List.replicate 397 0
    bootSignature := 0xaa55 }

theorem toBytes_length_eq {sb : SuperBlock} (hj : sb.jump.length = 3) (ho : sb.oemName.length = 8)
    (h1 : sb.unused1.length = 53) (h2 : sb.unused2.length = 397) :
    sb.toBytes.length = 512 := by
  unfold SuperBlock.toBytes
  simp only [List.length_append, toLe_length]
  simp only [hj, ho, h1, h2]

theorem fsrestoreSb_length : fsrestoreSb.toBytes.length = 512 :=
  toBytes_length_eq rfl rfl List.length_replicate List.length_replicate

/-- `VBR` in `fsrestore.hpp`: of the extended boot sectors only the first has its signature set. -/
def fsrestoreVbr : VolumeBootRecord :=
  let bpb : BiosParameterBlock :=
    { mebs := Vector.replicate 8 zeroSectorBytes, oemParams := zeroSectorBytes
      zs := Vector.replicate 2 zeroSectorBytes, chksum := Vector.replicate 128 0 }
  let meb := (zeroSectorBytes.set 510 0x55).set 511 0xaa
  { sb := Vector.mk fsrestoreSb.toBytes.toArray fsrestoreSb_length
    bpb := (Vector.replicate 2 bpb).set 0 { bpb with mebs := bpb.mebs.set 0 meb } Nat.zero_lt_two }

/-- `struct exfat_file_allocation_table`. -/
structure FileAllocationTable where
  entries : Nat → Nat

/-- An access to an entry; behind the last one it is out of bounds. -/
def FileAllocationTable.get (fat : FileAllocationTable) (c : Nat) : Except Halt Nat :=
  if c < clusterCount then .ok (fat.entries c) else .error .fault

def FileAllocationTable.set (fat : FileAllocationTable) (c v : Nat) :
    Except Halt FileAllocationTable :=
  if c < clusterCount then .ok ⟨fun x => if x = c then v else fat.entries x⟩ else .error .fault

/-- `init_fat`. -/
def initFat : FileAllocationTable where
  entries c :=
    if c = 0 then 0x0ffffff8
    else if c ≤ 4 then exfatClusterEnd
    else exfatClusterFree

/-- The loop of `find_next_free_cluster` over `n` entries from `c` on. -/
def findNextFreeLoop (fat : FileAllocationTable) : Nat → Nat → Except Halt (Option Nat)
  | 0, _ => .ok none
  | n + 1, c => do
    if (← fat.get c) = exfatClusterFree then .ok (some c)
    else findNextFreeLoop fat n (c + 1)

/-- `find_next_free_cluster`; `none` stands for -1. The loop is bounded by the bytes of the
table. -/
def findNextFreeCluster (fat : FileAllocationTable) : Except Halt (Option Nat) :=
  findNextFreeLoop fat (4 * clusterCount) 0

/-- The loop of `init_cluster_heap`, which links `n` more clusters behind `c`; the second part of the
result is the table it leaves. -/
def linkClusters : Nat → Nat → FileAllocationTable → Except Halt (Int × FileAllocationTable)
  | 0, c, fat => do
    let fat ← fat.set c exfatClusterEnd
    .ok (0, fat)
  | n + 1, c, fat => do
    match ← findNextFreeCluster fat with
    | none => .ok (-1, fat)
    | some next => do
      let fat ← fat.set c next
      linkClusters n next fat

/-- The clusters that `init_cluster_heap` wants for the bitmap. -/
def bmpSizeClusters (size : Nat) : Nat := size / clusterSizeBytes + size % clusterSizeBytes

/-- `init_cluster_heap`: the return value, the table and the bytes of the heap. -/
def initClusterHeap (fat : FileAllocationTable) (heap : Store) (size : Nat) :
    Except Halt (Int × FileAllocationTable × Store) := do
  -- everything counts as allocated
  let heap := heap.write 0 (List.replicate clusterHeapSizeBytes 0xff)
  let (rc, fat) ← linkClusters (bmpSizeClusters size - 1) 2 fat
  .ok (rc, fat, heap)

end Exfat
