import Exfat.Model.Utf

namespace Exfat
open Lib

/-! `utils.c`: names and checksums. -/

/-- `exfat_get_name`: a name that has no UTF-8 form is taken for an internal bug. -/
def exfatGetName (name : List Nat) : M (List UInt8) :=
  match utf16ToUtf8 name exfatUtf8NameBufferMax exfatNameMax with
  | .ok buffer => pure buffer
  | .error _ => do
    -- utf16_to_utf8 has reported why
    exfatError "illegal UTF-16 sequence"
    exfatBug "failed to convert name to UTF-8"

def addChecksumByte (sum : Nat) (byte : UInt8) : Nat :=
  ((sum <<< 15 ||| sum >>> 1) + byte.toNat) % 2 ^ 16

def addChecksumBytes (sum : Nat) (buffer : List UInt8) : Nat := buffer.foldl addChecksumByte sum

/-- `exfat_start_checksum`: the checksum field itself is skipped. -/
def exfatStartChecksum (entry : List UInt8) : Nat :=
  addChecksumBytes 0 (entry.take 2 ++ (entry.drop 4).take (entrySize - 4))

/-- `exfat_calc_checksum` over an array of entries. -/
def exfatCalcChecksum (entries : List UInt8) : Nat :=
  addChecksumBytes (exfatStartChecksum entries) (entries.drop entrySize)

def vbrChecksumByte (sum : Nat) (byte : UInt8) : Nat :=
  ((sum <<< 31 ||| sum >>> 1) + byte.toNat) % 2 ^ 32

/-- `exfat_vbr_start_checksum`: volume_state and allocated_percent are skipped. -/
def exfatVbrStartChecksum (sector : List UInt8) : Nat :=
  (sector.take 0x6a ++ (sector.drop 0x6c).take 4 ++ sector.drop 0x71).foldl vbrChecksumByte 0

def exfatVbrAddChecksum (sector : List UInt8) (sum : Nat) : Nat :=
  sector.foldl vbrChecksumByte sum

def nameHashUnit (upcase : Nat → Nat) (hash : Nat) (c : Nat) : Nat :=
  let c := upcase c
  let hash := ((hash <<< 15 ||| hash >>> 1) + (c &&& 0xff)) % 2 ^ 16
  ((hash <<< 15 ||| hash >>> 1) + c >>> 8) % 2 ^ 16

/-- `exfat_calc_name_hash`. -/
def exfatCalcNameHash (upcase : Nat → Nat) (name : List Nat) (length : Nat) : Nat :=
  (name.take length).foldl (nameHashUnit upcase) 0

end Exfat
