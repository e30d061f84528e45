import Exfat.Model.Io

namespace Exfat
open Lib

/-! `repair.c`. -/

/-- The loop of `exfat_ask_to_fix` over the lines of standard input; at its end the answer is
no. -/
def askLoop : List Answer → Bool × List Answer
  | [] => (false, [])
  | .yes :: rest => (true, rest)
  | .no :: rest => (false, rest)
  | .other :: rest => askLoop rest

def exfatAskToFix : M Bool := do
  let w ← get
  match w.repair with
  | .no => pure false
  | .yes => pure true
  | .ask => do
    let (answer, rest) := askLoop w.stdin
    set { w with stdin := rest }
    pure answer

def countFixed : M Unit := modify fun w => { w with errorsFixed := w.errorsFixed + 1 }

section
variable [Env]

/-- `exfat_fix_invalid_vbr_checksum`: the sector with every word set, or `none` on failure. -/
def exfatFixInvalidVbrChecksum (vbrChecksum : Nat) : M (Option (List UInt8)) := do
  let sectorSize := (← get).sb.sectorSize
  let sector := (List.replicate (sectorSize / 4) (toLe 4 vbrChecksum)).flatten
  if ← exfatPwrite sector (11 * sectorSize) then do
    countFixed
    pure (some sector)
  else do
    exfatError "failed to write correct VBR checksum"
    pure none

/-- `exfat_fix_invalid_node_checksum`: the flush will write a new checksum. -/
def exfatFixInvalidNodeChecksum (id : NodeId) : M Bool := do
  modifyNode id fun n => { n with isDirty := true }
  countFixed
  pure true

/-- An entry with the valid bit of its type cleared. -/
def clearValid (entry : List UInt8) : List UInt8 :=
  setAt entry 0 [entry.getD 0 0 &&& 0x7f]

/-- `exfat_fix_unknown_entry`. -/
def exfatFixUnknownEntry (dir : NodeId) (entry : List UInt8) (offset : Nat) : M Bool := do
  if (← exfatGenericPwrite dir (clearValid entry) offset) = .ok then do
    countFixed
    pure true
  else pure false

end

end Exfat
