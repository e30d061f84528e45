import Exfat.Model.Mount

namespace Exfat
open Lib

/-! `fsck/main.c`. -/

section
variable [Env]

/-- The loop of `nodeck` over the clusters that are left; `ok` is the result so far. -/
def nodeckLoop (id : NodeId) (contiguous : Bool) : Nat → Nat → Bool → M Bool
  | 0, _, ok => pure ok
  | clusters + 1, c, ok => do
    if (← get).sb.clusterInvalid c then do
      let _ ← exfatGetName (← getNode id).name
      exfatError "file '%s' has invalid cluster 0x%x"
      pure false
    else do
      let chunk ← getChunk
      let allocated := chunk (c - exfatFirstDataCluster)
      if !allocated then do
        let _ ← exfatGetName (← getNode id).name
        exfatError "cluster 0x%x of file '%s' is not allocated"
      let c ← exfatNextCluster contiguous c
      nodeckLoop id contiguous clusters c (ok && allocated)

/-- `nodeck`; `true` stands for zero. -/
def nodeck (id : NodeId) : M Bool := do
  let node ← getNode id
  let clusters := divRoundUp node.size (← get).sb.clusterSize % 2 ^ 32
  nodeckLoop id node.isContiguous clusters node.startCluster true

mutual

/-- `dirck`; the fuel bounds the recursion. -/
def dirck : Nat → List UInt8 → M Unit
  | 0, _ => throw .fuel
  | fuel + 1, path => do
    match ← exfatLookup path with
    | .error _ => exfatBug "directory '%s' is not found"
    | .ok parent => do
      if !(← getNode parent).isDir then exfatBug "'%s' is not a directory (%#hx)"
      else if !(← nodeck parent) then exfatPutNode parent
      else if !(← mallocOk) then do
        exfatPutNode parent
        exfatError "out of memory"
      else do
        let rc ← exfatOpendir parent
        if rc ≠ .ok then exfatPutNode parent
        else do
          dirckLoop fuel path (← children parent)
          exfatClosedir parent
          let _ ← exfatFlushNode parent
          exfatPutNode parent

/-- The loop of `dirck` over the children of the directory. -/
def dirckLoop : Nat → List UInt8 → List NodeId → M Unit
  | _, _, [] => pure ()
  | 0, _, _ :: _ => throw .fuel
  | fuel + 1, path, node :: rest => do
    exfatGetNode node
    let name ← exfatGetName (← getNode node).name
    if (← getNode node).isDir then dirck fuel (path ++ [slash] ++ name)
    else do
      let _ ← nodeck node
    let _ ← exfatFlushNode node
    exfatPutNode node
    dirckLoop fuel path rest

end

/-- `fsck`: mounts, checks every directory from the root on, unmounts. `true` when the check
finished. -/
def fsck (fuel : Nat) (options : List UInt8) : M Bool := do
  if (← exfatMount options) ≠ .ok then pure false
  else do
    let _ ← exfatCountFreeClusters
    dirck fuel []
    exfatUnmount
    pure true

end

end Exfat
