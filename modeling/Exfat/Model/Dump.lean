import Exfat.Model.Mount

namespace Exfat
open Lib

/-! `dump/main.c`, and the part of `cluster.c` that only it calls. -/

/-- Sector to cluster; the difference is a signed 64-bit number. -/
def s2c (sb : SuperBlock) (sector : Nat) : Nat :=
  ((((sector : Int) - sb.clusterSectorStart) / 2 ^ sb.spcBits + exfatFirstDataCluster) % 2 ^ 32).toNat

/-- The bit of a cluster; the index is a 32-bit number. -/
def bmapGetCluster (chunk : Nat → Bool) (cluster : Nat) : Bool :=
  chunk ((cluster + 2 ^ 32 - exfatFirstDataCluster) % 2 ^ 32)

/-- The first loop of `find_used_clusters` over `n` clusters from `a` on. -/
def firstUsed (chunk : Nat → Bool) : Nat → Nat → Nat
  | 0, a => a
  | n + 1, a => if bmapGetCluster chunk a then a else firstUsed chunk n (a + 1)

/-- The second loop of `find_used_clusters`: the last used cluster, or the end it was given. -/
def lastUsed (chunk : Nat → Bool) : Nat → Nat → Nat
  | 0, b => b
  | n + 1, b => if bmapGetCluster chunk b then lastUsed chunk n (b + 1) else b - 1

/-- `find_used_clusters` after cluster `b`; `none` stands for one. -/
def findUsedClusters (sb : SuperBlock) (chunk : Nat → Bool) (b : Nat) : Option (Nat × Nat) :=
  let stop := sb.clusterCount
  let start := (b + 1) % 2 ^ 32
  let a := firstUsed chunk (stop - start) start
  if a ≥ stop then none else some (a, lastUsed chunk (stop - a) a)

/-- `exfat_find_used_sectors`: the range after the range from `a` to `b`; `none` stands for one. -/
def exfatFindUsedSectors (a b : Nat) : M (Option (Nat × Nat)) := do
  let sb := (← get).sb
  let chunk ← getChunk
  let cb := if a = 0 ∧ b = 0 then exfatFirstDataCluster - 1 else s2c sb b
  match findUsedClusters sb chunk cb with
  | none => pure none
  | some (ca, cb) => do
    let first ← if a ≠ 0 ∨ b ≠ 0 then c2s ca else pure a
    let last ← c2s cb
    pure (some (first, last + (sb.clusterSize - 1) / sb.sectorSize))

/-- The loop of `dump_sectors`: the ranges it prints. -/
def dumpSectors : Nat → Nat → Nat → M (List (Nat × Nat))
  | 0, _, _ => throw .fuel
  | fuel + 1, a, b => do
    match ← exfatFindUsedSectors a b with
    | none => pure []
    | some (a, b) => do
      let ranges ← dumpSectors fuel a b
      pure ((a, b) :: ranges)

section
variable [Env]

/-- The loop of `dump_file_fragments`: does the chain hold the file, and the fragments printed. -/
def fragmentsLoop (contiguous : Bool) : Nat → Nat → Nat → Nat → Nat → M (Bool × List (Nat × Nat))
  | 0, _, _, _, _ => pure (true, [])
  | fuel + 1, cluster, start, size, remainder =>
    if remainder = 0 then pure (true, [])
    else do
      let sb := (← get).sb
      if sb.clusterInvalid cluster then do
        exfatError "'%s' has invalid cluster %#x"
        pure (false, [])
      else do
        let lsize := min sb.clusterSize remainder
        let size := size + lsize
        let remainder := remainder - lsize
        let next ← exfatNextCluster contiguous cluster
        if next ≠ (cluster + 1) % 2 ^ 32 ∨ remainder = 0 then do
          -- next cluster is not contiguous or this is the end of the file
          let offset ← exfatC2o start
          let (ok, rest) ← fragmentsLoop contiguous fuel next next 0 remainder
          pure (ok, (offset, size) :: rest)
        else fragmentsLoop contiguous fuel next start size remainder

/-- The part of `dump_file_fragments` between the lookup and the unmount. A size past the range of
`off_t` is negative. -/
def printFragments (id : NodeId) : M (Bool × List (Nat × Nat)) := do
  let node ← getNode id
  let remainder := if node.size < 2 ^ 63 then node.size else 0
  fragmentsLoop node.isContiguous remainder node.startCluster node.startCluster 0 remainder

/-- `dump_file_fragments`; `true` stands for zero. -/
def dumpFileFragments (path : List UInt8) : M (Bool × List (Nat × Nat)) := do
  if (← exfatMount (bytesOf "ro")) ≠ .ok then pure (false, [])
  else
    match ← exfatLookup path with
    | .error _ => do
      exfatUnmount
      exfatError "'%s': %s"
      pure (false, [])
    | .ok node => do
      let result ← printFragments node
      exfatPutNode node
      exfatUnmount
      pure result

end

end Exfat
