import Exfat.Model.Cluster

namespace Exfat
open Lib

/-! `io.c`: reading and writing the data of a node. -/

section
variable [Env]

/-- The loop of `exfat_generic_pread`; the fuel is the number of bytes that remain. -/
def preadLoop (contiguous : Bool) : Nat → Nat → Nat → Nat → List UInt8 →
    M (Except Errno (List UInt8))
  | 0, _, _, _, buf => pure (.ok buf)
  | fuel + 1, cluster, loffset, remainder, buf =>
    if remainder = 0 then pure (.ok buf)
    else do
      let sb := (← get).sb
      if sb.clusterInvalid cluster then do
        exfatError "invalid cluster 0x%x while reading"
        pure (.error .eio)
      else do
        let lsize := min (sb.clusterSize - loffset) remainder
        match ← exfatPread lsize ((← exfatC2o cluster) + loffset) with
        | none => do
          exfatError "failed to read cluster %#x"
          pure (.error .eio)
        | some bs => do
          let cluster ← exfatNextCluster contiguous cluster
          preadLoop contiguous fuel cluster 0 (remainder - lsize) (buf ++ bs)

/-- `exfat_generic_pread`: the bytes read, as many as the return value says. -/
def exfatGenericPread (id : NodeId) (size offset : Nat) : M (Except Errno (List UInt8)) := do
  let node ← getNode id
  if offset ≥ node.size then pure (.ok [])
  else if size = 0 then pure (.ok [])
  else do
    let clusterSize := (← get).sb.clusterSize
    let cluster ← exfatAdvanceCluster id (offset / clusterSize % 2 ^ 32)
    if (← get).sb.clusterInvalid cluster then do
      exfatError "invalid cluster 0x%x while reading"
      pure (.error .eio)
    else do
      let remainder := min size (node.size - offset)
      match ← preadLoop node.isContiguous remainder cluster (offset % clusterSize) remainder [] with
      | .error e => pure (.error e)
      | .ok buf => do
        let w ← get
        if !node.isDir ∧ w.ro = 0 ∧ !w.noatime then do
          exfatUpdateAtime id
          pure (.ok buf)
        else pure (.ok buf)

/-- The loop of `exfat_generic_pwrite` over the bytes not written yet. -/
def pwriteLoop (contiguous : Bool) : Nat → Nat → Nat → List UInt8 → M Rc
  | 0, _, _, _ => pure .ok
  | fuel + 1, cluster, loffset, buf =>
    if buf.isEmpty then pure .ok
    else do
      let sb := (← get).sb
      if sb.clusterInvalid cluster then do
        exfatError "invalid cluster 0x%x while writing"
        pure (.err .eio)
      else do
        let lsize := min (sb.clusterSize - loffset) buf.length
        if ← exfatPwrite (buf.take lsize) ((← exfatC2o cluster) + loffset) then do
          let cluster ← exfatNextCluster contiguous cluster
          pwriteLoop contiguous fuel cluster 0 (buf.drop lsize)
        else do
          exfatError "failed to write cluster %#x"
          pure (.err .eio)

/-- The part of `exfat_generic_pwrite` that extends a file that ends too early. -/
def extendTo (id : NodeId) (size stop : Nat) (erase : Bool) : M Rc :=
  if stop > size then exfatTruncate id stop erase else pure .ok

/-- `exfat_generic_pwrite`: `ok` stands for the return value `size`. -/
def exfatGenericPwrite (id : NodeId) (buffer : List UInt8) (offset : Nat) : M Rc := do
  let node ← getNode id
  -- offset and size are added as 64-bit values
  let rc ← extendTo id node.size offset true
  if rc ≠ .ok then pure rc
  else do
    let node ← getNode id
    let stop := (offset + buffer.length) % 2 ^ 64
    let rc ← extendTo id node.size stop false
    if rc ≠ .ok then pure rc
    else if buffer.isEmpty then pure .ok
    else do
      let clusterSize := (← get).sb.clusterSize
      let cluster ← exfatAdvanceCluster id (offset / clusterSize % 2 ^ 32)
      if (← get).sb.clusterInvalid cluster then do
        exfatError "invalid cluster 0x%x while writing"
        pure (.err .eio)
      else do
        let node ← getNode id
        let rc ← pwriteLoop node.isContiguous buffer.length cluster (offset % clusterSize) buffer
        if rc ≠ .ok then pure rc
        else if node.isDir then pure .ok
        else do
          exfatUpdateMtime id
          pure .ok

end

end Exfat
