import Exfat.Model.Node

namespace Exfat
open Lib

/-! `fsrestore.cpp`: the name of a file, read back from the record that a scan logged. -/

/-- `sizeof(struct exfat_node_entry)`: the file entry, the info entry, the first name entry and
sixteen more. -/
@[simp] def nodeEntrySize : Nat := (3 + 16) * entrySize

/-- `struct exfat_node_entry`. -/
structure NodeEntry where
  bytes : List UInt8
  size : bytes.length = nodeEntrySize

/-- The member `fde`. -/
def NodeEntry.fde (entry : NodeEntry) : List UInt8 := entry.bytes.take entrySize

/-- An access to `u_continuations`. -/
def NodeEntry.uContinuation (entry : NodeEntry) (c : Nat) : Except Halt (List UInt8) :=
  if c < 16 then .ok ((entry.bytes.drop (entrySize * (3 + c))).take entrySize) else .error .fault

/-- Writes `units` where `pfname_utf16` points: behind the units already in `fname_utf16`. -/
def putUnits (fname units : List Nat) : Except Halt (List Nat) :=
  if fname.length + units.length ≤ exfatNameMax then .ok (fname ++ units) else .error .fault

/-- The loop of `_processFileDirectoryEntry` over `n` continuations from `c` on. -/
def assembleName (entry : NodeEntry) : Nat → Nat → List Nat → Except Halt (List Nat)
  | 0, _, fname => .ok fname
  | n + 1, c, fname => do
    let cont ← entry.uContinuation c
    if entryType cont 0 = exfatEntryFileName then do
      let fname ← putUnits fname (nameUnits cont 0)
      assembleName entry n (c + 1) fname
    else assembleName entry n (c + 1) fname

/-- `_processFileDirectoryEntry`: the units in `fname_utf16` and what their conversion returns, or
`none` for a directory. Behind the units written stands what was in memory before. -/
def processFileDirectoryEntry (memory : List UInt16) (entry : NodeEntry) :
    Except Halt (Option (List Nat × Except Errno (List UInt8))) :=
  if leAt entry.fde 4 2 &&& exfatAttribDir ≠ 0 then .ok none
  else do
    let fname ← assembleName entry (leAt entry.fde 1 1 - 2) 0 []
    let fname ← putUnits fname [0]
    -- the size is given in bytes, though it counts units
    let res := utf16ToUtf8 (fname ++ memory.map UInt16.toNat) exfatUtf8EnameBufferMax
      (2 * exfatNameMax)
    .ok (some (fname, res))

/-- `_processFileDirectoryEntryCb`: the record read from a device, or `none` when the read fails or is
short. -/
def processFileDirectoryEntryCb (dev : List UInt8) (diskOffset : Nat) : Option NodeEntry :=
  let rd := (dev.drop diskOffset).take nodeEntrySize
  if h : rd.length = nodeEntrySize then some ⟨rd, h⟩ else none

end Exfat
