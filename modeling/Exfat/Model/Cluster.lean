import Exfat.Lib.Signed
import Exfat.Model.Utils

namespace Exfat
open Lib

/-! `cluster.c`, up to `exfat_truncate`. Cluster numbers are `uint32_t`. -/

/-- Sector to absolute offset. -/
def s2o (sb : SuperBlock) (sector : Nat) : Nat := sector * 2 ^ sb.sectorBits

/-- Cluster to sector, for a cluster that is at least two. -/
def c2sRaw (sb : SuperBlock) (cluster : Nat) : Nat :=
  sb.clusterSectorStart + (cluster - exfatFirstDataCluster) * 2 ^ sb.spcBits

def c2s (cluster : Nat) : M Nat := do
  if cluster < exfatFirstDataCluster then exfatBug "invalid cluster number %u"
  else pure (c2sRaw (← get).sb cluster)

/-- Absolute offset of a cluster that is at least two. -/
def c2oRaw (sb : SuperBlock) (cluster : Nat) : Nat := s2o sb (c2sRaw sb cluster)

/-- Cluster to absolute offset. -/
def exfatC2o (cluster : Nat) : M Nat := do
  let sector ← c2s cluster
  pure (s2o (← get).sb sector)

/-- Size in bytes to size in clusters, rounded upwards and narrowed to `uint32_t`. -/
def bytes2clusters (sb : SuperBlock) (bytes : Nat) : Nat :=
  ((bytes + sb.clusterSize - 1) % 2 ^ 64 / sb.clusterSize) % 2 ^ 32

/-- Device offset of the FAT entry of a cluster. -/
def fatOffset (sb : SuperBlock) (cluster : Nat) : Nat := s2o sb sb.fatSectorStart + cluster * 4

section
variable [Env]

/-- `exfat_next_cluster`; of the node it reads the contiguity flag. -/
def exfatNextCluster (contiguous : Bool) (cluster : Nat) : M Nat := do
  if cluster < exfatFirstDataCluster then exfatBug "bad cluster 0x%x"
  else if contiguous then pure ((cluster + 1) % 2 ^ 32)
  else
    match ← exfatPread 4 (fatOffset (← get).sb cluster) with
    | none => pure exfatClusterBad
    | some next => pure (leNat next)

/-- The loop of `exfat_advance_cluster`, `steps` links ahead. -/
def advanceLoop (contiguous : Bool) : Nat → Nat → M Nat
  | 0, c => pure c
  | steps + 1, c => do
    let c ← exfatNextCluster contiguous c
    if (← get).sb.clusterInvalid c then pure c
    else advanceLoop contiguous steps c

/-- `exfat_advance_cluster`: moves the node's cached file pointer to the given index. -/
def exfatAdvanceCluster (id : NodeId) (count : Nat) : M Nat := do
  let node ← getNode id
  let (index, cluster) :=
    if node.fptrIndex > count then (0, node.startCluster) else (node.fptrIndex, node.fptrCluster)
  let cluster ← advanceLoop node.isContiguous (count - index) cluster
  modifyNode id fun n => { n with fptrIndex := count, fptrCluster := cluster }
  pure cluster

end

/-- Bits per `bitmap_t`. -/
@[simp] def bitmapBits : Nat := 64

def bmapSize (count : Nat) : Nat := roundUp count bitmapBits / 8

def bmapSet (bitmap : Nat → Bool) (index : Nat) : Nat → Bool :=
  fun i => if i = index then true else bitmap i

def bmapClr (bitmap : Nat → Bool) (index : Nat) : Nat → Bool :=
  fun i => if i = index then false else bitmap i

/-- The inner loop of `find_bit_and_set`: the first clear bit among `n` bits from `c` on. -/
def findBit (bitmap : Nat → Bool) : Nat → Nat → Option Nat
  | 0, _ => none
  | n + 1, c => if bitmap c then findBit bitmap n (c + 1) else some c

/-- Is every bit of a word set? -/
def wordFull (bitmap : Nat → Bool) (i : Nat) : Bool :=
  (List.range bitmapBits).all fun k => bitmap (i * bitmapBits + k)

/-- The outer loop of `find_bit_and_set` over `n` words from word `i` on. -/
def findWord (bitmap : Nat → Bool) (start stop : Nat) : Nat → Nat → Option Nat
  | 0, _ => none
  | n + 1, i =>
    if wordFull bitmap i then findWord bitmap start stop n (i + 1)
    else
      let startBitindex := max (i * bitmapBits) start
      let endBitindex := min ((i + 1) * bitmapBits) stop
      match findBit bitmap (endBitindex - startBitindex) startBitindex with
      | some c => some c
      | none => findWord bitmap start stop n (i + 1)

/-- `find_bit_and_set`: the cluster number of the bit found, and the bitmap with it set. -/
def findBitAndSet (bitmap : Nat → Bool) (start stop : Nat) : Nat × (Nat → Bool) :=
  let startIndex := start / bitmapBits
  let endIndex := divRoundUp stop bitmapBits
  match findWord bitmap start stop (endIndex - startIndex) startIndex with
  | some c => ((c + exfatFirstDataCluster) % 2 ^ 32, bmapSet bitmap c)
  | none => (exfatClusterEnd, bitmap)

/-- The bitmap in memory; without one the access faults. -/
def getChunk : M (Nat → Bool) := do
  match (← get).cmap.chunk with
  | some chunk => pure chunk
  | none => throw .fault

def setChunk (chunk : Nat → Bool) (dirty : Bool) : M Unit :=
  modify fun w => { w with cmap := { w.cmap with chunk := some chunk, dirty := dirty } }

/-- `allocate_cluster`: first fit from the hint on, then from the beginning. -/
def allocateCluster (hint : Nat) : M Nat := do
  let w ← get
  let chunk ← getChunk
  let hint := (hint + 2 ^ 32 - exfatFirstDataCluster) % 2 ^ 32
  let hint := if hint ≥ w.cmap.chunkSize then 0 else hint
  let (cluster, chunk) := findBitAndSet chunk hint w.cmap.chunkSize
  let (cluster, chunk) :=
    if cluster = exfatClusterEnd then findBitAndSet chunk 0 hint else (cluster, chunk)
  if cluster = exfatClusterEnd then do
    setChunk chunk w.cmap.dirty
    exfatError "no free space left"
    pure exfatClusterEnd
  else do
    setChunk chunk true
    pure cluster

/-- `free_cluster`. -/
def freeCluster (cluster : Nat) : M Unit := do
  let w ← get
  let bit := (cluster + 2 ^ 32 - exfatFirstDataCluster) % 2 ^ 32
  if bit ≥ w.cmap.size then exfatBug "caller must check cluster validity (%#x, %#x)"
  else do
    let chunk ← getChunk
    setChunk (bmapClr chunk bit) true

section
variable [Env]

/-- `set_next_cluster`: contiguous chains have no links to write. -/
def setNextCluster (contiguous : Bool) (current next : Nat) : M Bool := do
  if contiguous then pure true
  else
    if ← exfatPwrite (toLe 4 next) (fatOffset (← get).sb current) then pure true
    else do
      exfatError "failed to write the next cluster %#x after %#x"
      pure false

/-- The loop of `make_noncontiguous` over `n` clusters from `c` on. -/
def makeNoncontiguous : Nat → Nat → M Bool
  | 0, _ => pure true
  | n + 1, c => do
    if ← setNextCluster false c (c + 1) then makeNoncontiguous n (c + 1) else pure false

/-- The loop of `shrink_file` that frees `difference` clusters. -/
def shrinkLoop (contiguous : Bool) : Nat → Nat → M Rc
  | 0, _ => pure .ok
  | difference + 1, previous => do
    if (← get).sb.clusterInvalid previous then do
      exfatError "invalid cluster 0x%x while freeing after shrink"
      pure (.err .eio)
    else do
      let next ← exfatNextCluster contiguous previous
      if ← setNextCluster contiguous previous exfatClusterFree then do
        freeCluster previous
        shrinkLoop contiguous difference next
      else pure (.err .eio)

/-- The end of `shrink_file`: the cached pointer is reset and the cut-off part freed. -/
def shrinkTail (id : NodeId) (difference previous : Nat) : M Rc := do
  modifyNode id fun n => { n with fptrIndex := 0, fptrCluster := n.startCluster }
  shrinkLoop (← getNode id).isContiguous difference previous

/-- `shrink_file`. -/
def shrinkFile (id : NodeId) (current difference : Nat) : M Rc := do
  let node ← getNode id
  if difference = 0 then exfatBug "zero difference passed"
  else if node.startCluster = exfatClusterFree then
    exfatBug "unable to shrink empty file (%u clusters)"
  else if current < difference then exfatBug "file underflow (%u < %u)"
  else if current > difference then do
    -- crop the file
    let last ← exfatAdvanceCluster id (current - difference - 1)
    if (← get).sb.clusterInvalid last then do
      exfatError "invalid cluster 0x%x while shrinking"
      pure (.err .eio)
    else do
      let previous ← exfatNextCluster node.isContiguous last
      if ← setNextCluster node.isContiguous last exfatClusterEnd then
        shrinkTail id difference previous
      else pure (.err .eio)
  else do
    modifyNode id fun n => { n with startCluster := exfatClusterFree, isDirty := true }
    shrinkTail id difference node.startCluster

/-- The step of `grow_file` that turns a contiguous chain into FAT links once the next cluster does
not continue it; `false` after a failed write. -/
def leaveContiguous (id : NodeId) (previous next : Nat) : M Bool := do
  let node ← getNode id
  if next ≠ (previous + 2 ^ 32 - 1) % 2 ^ 32 ∧ node.isContiguous then do
    if ← makeNoncontiguous (previous - node.startCluster) node.startCluster then do
      modifyNode id fun n => { n with isContiguous := false, isDirty := true }
      pure true
    else pure false
  else pure true

/-- The loop of `grow_file`: `n` clusters are still to be allocated after `previous`. -/
def growLoop (id : NodeId) (current : Nat) : Nat → Nat → Nat → M Rc
  | 0, _, previous => do
    let node ← getNode id
    if ← setNextCluster node.isContiguous previous exfatClusterEnd then pure .ok
    else pure (.err .eio)
  | n + 1, allocated, previous => do
    let next ← allocateCluster ((previous + 1) % 2 ^ 32)
    if (← get).sb.clusterInvalid next then do
      if allocated ≠ 0 then do
        let _ ← shrinkFile id (current + allocated) allocated
        pure (.err .enospc)
      else pure (.err .enospc)
    else
      if ← leaveContiguous id previous next then do
        let node ← getNode id
        if ← setNextCluster node.isContiguous previous next then
          growLoop id current n (allocated + 1) next
        else pure (.err .eio)
      else pure (.err .eio)

/-- `grow_file`. -/
def growFile (id : NodeId) (current difference : Nat) : M Rc := do
  let node ← getNode id
  if difference = 0 then exfatBug "zero clusters count passed"
  else if node.startCluster ≠ exfatClusterFree then do
    -- get the last cluster of the file
    let previous ← exfatAdvanceCluster id ((current + 2 ^ 32 - 1) % 2 ^ 32)
    if (← get).sb.clusterInvalid previous then do
      exfatError "invalid cluster 0x%x while growing"
      pure (.err .eio)
    else growLoop id current difference 0 previous
  else if node.fptrIndex ≠ 0 then exfatBug "non-zero pointer index (%u)"
  else do
    -- the file has no clusters, allocate the first one for it
    let previous ← allocateCluster 0
    if (← get).sb.clusterInvalid previous then pure (.err .enospc)
    else do
      modifyNode id fun n =>
        { n with fptrCluster := previous, startCluster := previous, isContiguous := true }
      growLoop id current (difference - 1) 1 previous

/-- `erase_raw`: writes zeros. -/
def eraseRaw (size offset : Nat) : M Bool := do
  if ← exfatPwrite (List.replicate size 0) offset then pure true
  else do
    exfatError "failed to erase %zu bytes at %"
    pure false

/-- The loop of `erase_range` over `n` whole clusters after `cluster`. -/
def eraseLoop (contiguous : Bool) : Nat → Nat → M Rc
  | 0, _ => pure .ok
  | n + 1, cluster => do
    let cluster ← exfatNextCluster contiguous cluster
    if (← get).sb.clusterInvalid cluster then exfatBug "invalid cluster 0x%x after allocation"
    else
      if ← eraseRaw (← get).sb.clusterSize (← exfatC2o cluster) then
        eraseLoop contiguous n cluster
      else pure (.err .eio)

/-- `erase_range`. -/
def eraseRange (id : NodeId) (start stop : Nat) : M Rc := do
  let clusterSize := (← get).sb.clusterSize
  if start ≥ stop then pure .ok
  else do
    let clusterBoundary := (start / clusterSize + 1) * clusterSize
    let cluster ← exfatAdvanceCluster id (start / clusterSize % 2 ^ 32)
    if (← get).sb.clusterInvalid cluster then do
      exfatError "invalid cluster 0x%x while erasing"
      pure (.err .eio)
    else do
      let offset ← exfatC2o cluster
      -- erase from the beginning to the closest cluster boundary, then whole clusters
      if ← eraseRaw (min clusterBoundary stop - start) (offset + start % clusterSize) then
        eraseLoop (← getNode id).isContiguous (divRoundUp (stop - clusterBoundary) clusterSize)
          cluster
      else pure (.err .eio)

/-- `exfat_update_mtime`. -/
def exfatUpdateMtime (id : NodeId) : M Unit := do
  let now ← timeNow
  modifyNode id fun n => { n with mtime := now, isDirty := true }

/-- `exfat_update_atime`. -/
def exfatUpdateAtime (id : NodeId) : M Unit := do
  let now ← timeNow
  modifyNode id fun n => { n with atime := now, isDirty := true }

/-- The part of `exfat_truncate` that changes the number of clusters. -/
def resizeChain (id : NodeId) (c1 c2 : Nat) : M Rc :=
  if c1 < c2 then growFile id c1 (c2 - c1)
  else if c1 > c2 then shrinkFile id c1 (c1 - c2)
  else pure .ok

/-- The part of `exfat_truncate` that erases the new data if it is asked to. -/
def eraseNew (id : NodeId) (erase : Bool) (start stop : Nat) : M Rc :=
  if erase then eraseRange id start stop else pure .ok

/-- `exfat_truncate`. -/
def exfatTruncate (id : NodeId) (size : Nat) (erase : Bool) : M Rc := do
  let sb := (← get).sb
  let node ← getNode id
  let c1 := bytes2clusters sb node.size
  let c2 := bytes2clusters sb size
  if node.references = 0 ∧ node.parent.isSome then
    exfatBug "no references, node changes can be lost"
  else if node.size = size then pure .ok
  else do
    let rc ← resizeChain id c1 c2
    if rc ≠ .ok then pure rc
    else do
      let rc ← eraseNew id erase node.size size
      if rc ≠ .ok then pure rc
      else do
        exfatUpdateMtime id
        modifyNode id fun n => { n with size := size, isDirty := true }
        pure .ok

end

/-! The address arithmetic once more, in the types of the source: `off_t` is signed and has 64 bits,
`int` is signed and has 32, `size_t` has 64 bits, and clusters and sectors on the disk have 32. `none`
stands for an overflow of a signed type, and for the cluster numbers that `c2s` calls a bug. -/

def s2oSigned (sb : SuperBlock) (sector : Int) : Option Int := signedShl 64 sector sb.sectorBits

def c2sSigned (sb : SuperBlock) (cluster : Nat) : Option Int := do
  if cluster < exfatFirstDataCluster then none
  else
    let ahead ← signedShl 64 (cluster - exfatFirstDataCluster : Nat) sb.spcBits
    signed 64 (sb.clusterSectorStart + ahead)

/-- `exfat_c2o`. -/
def c2oSigned (sb : SuperBlock) (cluster : Nat) : Option Int := do
  let sector ← c2sSigned sb cluster
  s2oSigned sb sector

def s2cSigned (sb : SuperBlock) (sector : Int) : Option Nat := do
  let ahead ← signed 64 (sector - sb.clusterSectorStart)
  let index ← signedShr 64 ahead sb.spcBits
  let cluster ← signed 64 (index + exfatFirstDataCluster)
  pure (cluster % 2 ^ 32).toNat

/-- The offset in the FAT that `exfat_next_cluster` and `set_next_cluster` compute. The sum is one of
type `size_t`, and is stored as an `off_t`. -/
def fatOffsetSigned (sb : SuperBlock) (cluster : Nat) : Option Int := do
  let fat ← s2oSigned sb sb.fatSectorStart
  pure (Int.bmod ((fat + cluster * 4) % 2 ^ 64) (2 ^ 64))

/-- `CLUSTER_SIZE`, an `int`. -/
def clusterSizeSigned (sb : SuperBlock) : Option Int := do
  let sectorSize ← signedShl 32 1 sb.sectorBits
  signedShl 32 sectorSize sb.spcBits

end Exfat
