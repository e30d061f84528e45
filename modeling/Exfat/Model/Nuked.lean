import Exfat.Model.Node

namespace Exfat
open Lib

/-! `nuked/main.c`: the scan of a cluster for entry sets. What goes to the standard error stream is
left out, what is read for it is not. -/

/-- A line of the log; names are in the bytes of `namebuf`. -/
inductive LogLine where
  | fde (ofs : Nat)
  | efl (ofs : Nat) (namebuf : List UInt8)
  | efi (ofs : Nat)
  | efn (ofs : Nat) (namebuf : List UInt8)
  deriving DecidableEq, Repr

/-- A byte of the buffer; outside of it the access is out of bounds. -/
def byteAt (buf : List UInt8) (i : Nat) : Except Halt Nat :=
  if i < buf.length then .ok (buf.getD i 0).toNat else .error .fault

/-- The bytes of the `n` entries that `ptr` points to. -/
def entriesAt (buf : List UInt8) (ptr n : Nat) : Except Halt (List UInt8) :=
  if ptr + entrySize * n ≤ buf.length then .ok ((buf.drop ptr).take (entrySize * n))
  else .error .fault

/-- `cluster_ofs`, in the arithmetic of `size_t`: `cluster_end` lies `clusterSize` bytes behind the
start of the buffer. -/
def clusterOfs (clusterSize clusterOfsBegin ptr : Nat) : Nat :=
  (((ptr : Int) - clusterSize + clusterOfsBegin) % 2 ^ 64).toNat

/-- `sizeof(namebuf)`. -/
@[simp] def namebufSize : Nat := exfatEnameMax + 1

/-- A loop that copies `n` units of a name, from unit `i` on: of a unit only the low byte is kept. -/
def copyName (buf : List UInt8) (ptr : Nat) : Nat → Nat → List UInt8 → Except Halt (List UInt8)
  | 0, _, namebuf => .ok namebuf
  | n + 1, i, namebuf => do
    let low ← byteAt buf (ptr + 2 + 2 * i)
    let _ ← byteAt buf (ptr + 2 + 2 * i + 1)
    if i < namebufSize then copyName buf ptr n (i + 1) (namebuf.set i (UInt8.ofNat low))
    else .error .fault

/-- `%s` reads an array up to its first zero, and out of bounds if there is none. -/
def printArray (namebuf : List UInt8) : Except Halt (List UInt8) :=
  if 0 ∈ namebuf then .ok namebuf else .error .fault

/-- Where `cluster_search_file_directory_entries` stands, and the lines it has written. -/
structure ClusterSearch where
  clusterPtr : Nat := 0
  fileDirectoryEntry : Option Nat := none
  subcount : Nat := 0
  log : List LogLine := []

/-- Whether the types of the first three entries of a set stand at `ptr`. -/
def fileTypesAt (buf : List UInt8) (ptr : Nat) : Except Halt Bool := do
  if (← byteAt buf ptr) ≠ exfatEntryFile then .ok false
  else if (← byteAt buf (ptr + entrySize)) ≠ exfatEntryFileInfo then .ok false
  else .ok ((← byteAt buf (ptr + 2 * entrySize)) = exfatEntryFileName)

/-- The loop body of `cluster_search_file_directory_entries` outside of a set. -/
def searchStep (buf : List UInt8) (clusterSize clusterOfsBegin : Nat) (s : ClusterSearch) :
    Except Halt ClusterSearch := do
  let ptr := s.clusterPtr
  let next := { s with clusterPtr := ptr + 1 }
  if ← fileTypesAt buf ptr then do
    let entry ← entriesAt buf ptr 1
    let continuations := leAt entry 1 1
    if 2 ≤ continuations ∧ continuations ≤ 18 then do
      let chksum := exfatCalcChecksum (← entriesAt buf ptr (continuations + 1))
      if chksum = leAt entry 2 2 then
        .ok
          { clusterPtr := ptr + entrySize, fileDirectoryEntry := some ptr
            subcount := continuations
            log := s.log ++ [.fde (clusterOfs clusterSize clusterOfsBegin ptr)] }
      else .ok next
    else .ok next
  else .ok next

/-- What is logged of an entry inside a set. -/
def logEntry (buf : List UInt8) (clusterSize clusterOfsBegin ptr : Nat) :
    Except Halt (List LogLine) := do
  let ofs := clusterOfs clusterSize clusterOfsBegin ptr
  let entry ← entriesAt buf ptr 1
  let type := entryType entry 0
  if type = exfatEntryLabel then do
    let namebuf ← copyName buf ptr (leAt entry 1 1) 0 (List.replicate namebufSize 0)
    .ok [.efl ofs (← printArray namebuf)]
  else if type = exfatEntryFileInfo then .ok [.efi ofs]
  else if type = exfatEntryFileName then do
    let namebuf ← copyName buf ptr exfatEnameMax 0 (List.replicate namebufSize 0)
    .ok [.efn ofs (← printArray namebuf)]
  else .ok []

/-- The loop body of `cluster_search_file_directory_entries`. -/
def clusterSearchStep (buf : List UInt8) (clusterSize clusterOfsBegin : Nat) (s : ClusterSearch) :
    Except Halt ClusterSearch := do
  match s.fileDirectoryEntry with
  | none => searchStep buf clusterSize clusterOfsBegin s
  | some _ =>
    if s.subcount = 0 then .ok { s with fileDirectoryEntry := none }
    else do
      let lines ← logEntry buf clusterSize clusterOfsBegin s.clusterPtr
      .ok
        { s with
          clusterPtr := s.clusterPtr + entrySize
          subcount := s.subcount - 1
          log := s.log ++ lines }

/-- The loop of `cluster_search_file_directory_entries`, which looks for sets in the first
`clusterSize` bytes of the buffer. -/
def clusterSearchLoop (buf : List UInt8) (clusterSize clusterOfsBegin : Nat) :
    Nat → ClusterSearch → Except Halt ClusterSearch
  | 0, _ => .error .fuel
  | fuel + 1, s =>
    if s.clusterPtr + 2 * entrySize < clusterSize then do
      let s ← clusterSearchStep buf clusterSize clusterOfsBegin s
      clusterSearchLoop buf clusterSize clusterOfsBegin fuel s
    else .ok s

/-- `cluster_search_file_directory_entries` for a buffer that it may read as a whole: the lines it
writes. -/
def clusterSearchFileDirectoryEntries (fuel : Nat) (buf : List UInt8) (clusterOfsBegin : Nat) :
    Except Halt (List LogLine) := do
  let s ← clusterSearchLoop buf buf.length clusterOfsBegin fuel {}
  .ok s.log

end Exfat
