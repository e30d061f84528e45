import Exfat.Model.Mount
import Exfat.Model.Uctc

namespace Exfat
open Lib

/-! `mkfs/`: the program that creates a file system. -/

/-- The `param` record of `main.c`. -/
structure Param where
  sectorBits : Nat
  spcBits : Nat
  volumeSize : Nat
  volumeLabel : List Nat
  volumeSerial : Nat
  firstSector : Nat
  deriving Inhabited

namespace Param

def sectorSize (p : Param) : Nat := 2 ^ p.sectorBits

def clusterSize (p : Param) : Nat := p.sectorSize * 2 ^ p.spcBits

end Param

/-- The parts of a file system, `struct fs_object`. -/
inductive FsObject where
  | vbr | fat | cbm | uct | rootdir
  deriving DecidableEq, Repr

/-- The array `objects`. -/
def objects : List FsObject := [.vbr, .vbr, .fat, .cbm, .uct, .rootdir]

/-- `get_alignment` of an object. -/
def FsObject.alignment (p : Param) : FsObject → Nat
  | .vbr => p.sectorSize
  | .fat => 128 * p.sectorSize
  | .cbm | .uct | .rootdir => p.clusterSize

/-- The loop of `get_position`. -/
def positionLoop (p : Param) (size : FsObject → Nat) (object : FsObject) :
    List FsObject → Nat → Nat
  | [], position => position
  | o :: os, position =>
    let position := roundUp position (o.alignment p)
    if o = object then position else positionLoop p size object os (position + size o)

/-- Sizes of the objects in front of the clusters bitmap. -/
def headSize (p : Param) : FsObject → Nat
  | .vbr => 12 * p.sectorSize
  | .fat => p.volumeSize / p.clusterSize * 4
  | _ => 0

/-- `get_size` of an object. -/
def FsObject.size (p : Param) : FsObject → Nat
  | .cbm =>
    -- only the objects before the bitmap decide where it starts
    divRoundUp ((p.volumeSize - positionLoop p (headSize p) .cbm objects 0) / p.clusterSize) 8
  | .uct => upcaseTable.length
  | .rootdir => p.clusterSize
  | o => headSize p o

/-- `get_position`. -/
def getPosition (p : Param) (object : FsObject) : Nat :=
  positionLoop p (FsObject.size p) object objects 0

/-- The position after the last object. -/
def endPosition (p : Param) : List FsObject → Nat → Nat
  | [], position => position
  | o :: os, position => endPosition p os (roundUp position (o.alignment p) + o.size p)

/-- `init_sb`. -/
def initSb (p : Param) : SuperBlock :=
  let clustersMax := p.volumeSize / p.clusterSize % 2 ^ 32
  let fatSectors := divRoundUp (clustersMax * 4) p.sectorSize % 2 ^ 32
  let fatSectorStart := FsObject.fat.alignment p / p.sectorSize % 2 ^ 32
  let fatSectorCount := (roundUp (fatSectorStart + fatSectors) (2 ^ p.spcBits) - fatSectorStart)
    % 2 ^ 32
  { jump := [0xeb, 0x76, 0x90]
    oemName := bytesOf "EXFAT   "
    unused1 := List.replicate 53 0
    sectorStart := p.firstSector
    sectorCount := p.volumeSize / p.sectorSize
    fatSectorStart := fatSectorStart
    fatSectorCount := fatSectorCount
    clusterSectorStart := getPosition p .cbm / p.sectorSize % 2 ^ 32
    clusterCount := clustersMax - (fatSectorStart + fatSectorCount) / 2 ^ p.spcBits
    rootdirCluster := ((getPosition p .rootdir - getPosition p .cbm) / p.clusterSize +
      exfatFirstDataCluster) % 2 ^ 32
    volumeSerial := p.volumeSerial
    versionMinor := 0
    versionMajor := 1
    volumeState := 0
    sectorBits := p.sectorBits
    spcBits := p.spcBits
    fatCount := 1
    driveNo := 0x80
    allocatedPercent := 0
    unused2 := List.replicate 397 0
    bootSignature := 0xaa55 }

/-- A sector of the extended boot region. -/
def bootSector (p : Param) : List UInt8 :=
  List.replicate (p.sectorSize - 4) 0 ++ toLe 4 0xaa550000

def zeroSector (p : Param) : List UInt8 := List.replicate p.sectorSize 0

/-- Everything `vbr_write` writes, in order. -/
def vbrBytes (p : Param) : List UInt8 :=
  let sb := (initSb p).toBytes
  let sum := exfatVbrStartChecksum sb
  let sum := (List.range 8).foldl (fun s _ => exfatVbrAddChecksum (bootSector p) s) sum
  let sum := (List.range 2).foldl (fun s _ => exfatVbrAddChecksum (zeroSector p) s) sum
  sb ++ (List.replicate 8 (bootSector p)).flatten ++ (List.replicate 2 (zeroSector p)).flatten ++
    (List.replicate (p.sectorSize / 4) (toLe 4 sum)).flatten

/-- The links `fat_write_entries` writes for an object of the given length that starts at a
cluster: every cluster is followed by the next one. -/
def fatEntries (p : Param) (cluster length : Nat) : List Nat :=
  let n := divRoundUp length p.clusterSize
  (List.range (n - 1)).map (fun i => cluster + i + 1) ++ [exfatClusterEnd]

/-- The entries `fat_write` writes. -/
def fatWords (p : Param) : List Nat :=
  let cbm := fatEntries p 2 (FsObject.cbm.size p)
  let uct := fatEntries p (2 + cbm.length) (FsObject.uct.size p)
  let rootdir := fatEntries p (2 + cbm.length + uct.length) (FsObject.rootdir.size p)
  [0xfffffff8, 0xffffffff] ++ cbm ++ uct ++ rootdir

/-- Number of clusters that the objects of the heap occupy. -/
def allocatedClusters (p : Param) : Nat :=
  divRoundUp (FsObject.cbm.size p) p.clusterSize + divRoundUp (FsObject.uct.size p) p.clusterSize +
    divRoundUp (FsObject.rootdir.size p) p.clusterSize

/-- What `cbm_write` writes. -/
def cbmBytes (p : Param) : List UInt8 :=
  chunkBytes (fun i => i < allocatedClusters p) (roundUp (allocatedClusters p) 8 / 8)

/-- `init_label_entry`. -/
def initLabelEntry (p : Param) : List UInt8 :=
  if utf16Length p.volumeLabel = 0 then
    toLe 1 (exfatEntryLabel ^^^ exfatEntryValid) ++ List.replicate 31 0
  else
    toLe 1 exfatEntryLabel ++ toLe 1 (utf16Length p.volumeLabel) ++
      (p.volumeLabel.take exfatEnameMax).flatMap (toLe 2)

/-- `init_bitmap_entry`. -/
def initBitmapEntry (p : Param) : List UInt8 :=
  toLe 1 exfatEntryBitmap ++ List.replicate 19 0 ++ toLe 4 exfatFirstDataCluster ++
    toLe 8 (FsObject.cbm.size p)

/-- `init_upcase_entry`. -/
def initUpcaseEntry (p : Param) : List UInt8 :=
  toLe 1 exfatEntryUpcase ++ List.replicate 3 0 ++
    toLe 4 (upcaseTable.foldl vbrChecksumByte 0) ++ List.replicate 12 0 ++
    toLe 4 ((getPosition p .uct - getPosition p .cbm) / p.clusterSize + exfatFirstDataCluster) ++
    toLe 8 upcaseTable.length

/-- The bytes the `write` function of an object writes, in order. -/
def FsObject.bytes (p : Param) : FsObject → List UInt8
  | .vbr => vbrBytes p
  | .fat => (fatWords p).flatMap (toLe 4)
  | .cbm => cbmBytes p
  | .uct => upcaseTable
  | .rootdir => initLabelEntry p ++ initBitmapEntry p ++ initUpcaseEntry p

section
variable [Env]

/-- The loop of `erase_object`: zeros in blocks of at most one megabyte. -/
def eraseObject : Nat → Nat → Nat → M Bool
  | 0, _, _ => pure true
  | n + 1, start, size => do
    let block := min size (1024 * 1024)
    if ← exfatPwrite (List.replicate block 0) start then
      eraseObject n (start + block) (size - block)
    else do
      exfatError "failed to erase block"
      pure false

/-- `erase`. -/
def eraseAll (p : Param) : List FsObject → Nat → M Bool
  | [], _ => pure true
  | o :: os, position => do
    let position := roundUp position (o.alignment p)
    if ← eraseObject (divRoundUp (o.size p) (1024 * 1024)) position (o.size p) then
      eraseAll p os (position + o.size p)
    else pure false

/-- `create` of `mkexfat.c`: every object writes itself at its position. -/
def createAll (p : Param) : List FsObject → Nat → M Bool
  | [], _ => pure true
  | o :: os, position => do
    let position := roundUp position (o.alignment p)
    if ← exfatPwrite (o.bytes p) position then createAll p os (position + o.size p)
    else do
      exfatError "failed to write"
      pure false

/-- `mkfs`; `true` stands for zero. -/
def mkfs (p : Param) : M Bool := do
  if endPosition p objects 0 > p.volumeSize then do
    exfatError "too small device (%"
    pure false
  else if !(← eraseAll p objects 0) then pure false
  else if !(← createAll p objects 0) then pure false
  else pure ((← exfatFsync) = .ok)

/-- The loop at the end of `setup_spc_bits`; from `1 << 31` on the shift overflows `int`. -/
def spcBitsLoop (sectorBits volumeSize : Nat) : Nat → Nat → M Nat
  | 0, _ => throw .fault
  | n + 1, i =>
    if divRoundUp volumeSize (2 ^ i) ≤ exfatLastDataCluster then pure (i - sectorBits)
    else spcBitsLoop sectorBits volumeSize n (i + 1)

/-- `setup_spc_bits`; `userDefined` is the option's value, if given. A cluster size past the range
of `int` is undefined. -/
def setupSpcBits (sectorBits : Nat) (userDefined : Option Nat) (volumeSize : Nat) :
    M (Option Nat) := do
  match userDefined with
  | some u =>
    let clusterSize := 2 ^ sectorBits * 2 ^ u
    if clusterSize ≥ 2 ^ 31 then throw .fault
    else if volumeSize / clusterSize > exfatLastDataCluster then do
      exfatError "cluster size is too small for the volume"
      pure none
    else pure (some u)
  | none =>
    if volumeSize < 256 * 1024 * 1024 then pure (some (12 - sectorBits))
    else if volumeSize < 32 * 1024 * 1024 * 1024 then pure (some (15 - sectorBits))
    else do
      let spcBits ← spcBitsLoop sectorBits volumeSize 14 17
      pure (some spcBits)

/-- `setup_volume_label`: the sixteen units of the label. -/
def setupVolumeLabel (s : Option (List UInt8)) : M (Option (List Nat)) := do
  match s with
  | none => pure (some (List.replicate (exfatEnameMax + 1) 0))
  | some s =>
    match ← nameToUtf16 s (exfatEnameMax + 1) with
    | .error _ => pure none
    | .ok units => pure (some (units ++ List.replicate (exfatEnameMax + 1 - units.length) 0))

end

end Exfat
