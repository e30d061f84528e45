import Exfat.Model.Mount
import Exfat.Model.Nuked
import Exfat.Model.Recovery

namespace Exfat
open Lib

/-! The log of a scan: the lines that `log_dir_entries` of `nuked/main.c` prints, and how
`fsrestore.cpp` reads them back. -/

def newline : UInt8 := 0x0a

/-- A digit that `%x` prints. -/
def hexDigit (d : Nat) : UInt8 := UInt8.ofNat (if d < 10 then 0x30 + d else 0x57 + d)

/-- `%08x` and `%016zx`: the last `k` digits of a number, which here are all of them. -/
def hexText : Nat → Nat → List UInt8
  | 0, _ => []
  | k + 1, n => hexText k (n / 16) ++ [hexDigit (n % 16)]

/-- What `%s` prints of an array. -/
def cString (buf : List UInt8) : List UInt8 := buf.takeWhile (· ≠ 0)

/-- `FDE_LOG_FMT`, `EFL_LOG_FMT`, `EFI_LOG_FMT` and `EFN_LOG_FMT`. -/
def LogLine.text : LogLine → List UInt8
  | .fde ofs => bytesOf "FDE " ++ hexText 16 ofs ++ [newline]
  | .efl ofs namebuf => bytesOf "EFL " ++ hexText 16 ofs ++ bytesOf " " ++ cString namebuf ++ [newline]
  | .efi ofs => bytesOf "EFI " ++ hexText 16 ofs ++ [newline]
  | .efn ofs namebuf => bytesOf "EFN " ++ hexText 16 ofs ++ bytesOf " " ++ cString namebuf ++ [newline]

/-- A record that `log_dir_entries` prints, itself or by the search of a cluster. -/
inductive ScanRecord where
  | entry (line : LogLine)
  | cluster (c ofs : Nat)
  | badCluster (c ofs : Nat)
  deriving DecidableEq, Repr

def ScanRecord.text : ScanRecord → List UInt8
  | .entry line => line.text
  | .cluster c ofs =>
    bytesOf "CLUSTER " ++ hexText 8 c ++ bytesOf " OFFSET " ++ hexText 16 ofs ++ [newline]
  | .badCluster c ofs =>
    bytesOf "BAD_CLUSTER " ++ hexText 8 c ++ bytesOf " OFFSET " ++ hexText 16 ofs ++ [newline]

/-- A device as a scan sees it: its bytes, and how each of the reads goes. A read fails, or returns no
more than so many bytes and one. -/
structure ScanDevice where
  bytes : List UInt8
  outcome : Nat → Option Nat

/-- The read number `i`, at `pos`; `none` stands for -1. -/
def ScanDevice.read (dev : ScanDevice) (i pos : Nat) : Option (List UInt8) :=
  (dev.outcome i).map fun most => (dev.bytes.drop pos).take (min (most + 1) clusterSizeBytes)

@[simp] def startOffsetCluster : Nat := 0x00adb000
@[simp] def startOffsetBytes : Nat := startOffsetCluster * clusterSizeBytes

/-- Where `log_dir_entries` stands: the reads so far, the next cluster, the place in the device,
`cluster_buf`, whether the end was reached, and what was printed. -/
structure DirLog where
  reads : Nat := 0
  c : Nat := startOffsetCluster
  pos : Nat := startOffsetBytes
  clusterBuf : List UInt8
  eof : Bool := false
  log : List ScanRecord := []

/-- The loop body of `log_dir_entries`. -/
def logDirEntriesStep (dev : ScanDevice) (s : DirLog) : Except Halt DirLog :=
  let clusterOfs := s.c * clusterSizeBytes
  let next := { s with reads := s.reads + 1, c := (s.c + 1) % 2 ^ 32 }
  if s.eof then .ok s
  else
    match dev.read s.reads s.pos with
    | none =>
      .ok
        { next with
          pos := clusterOfs + clusterSizeBytes
          log := s.log ++ [.badCluster s.c clusterOfs] }
    | some [] => .ok { s with eof := true }
    | some rd => do
      let clusterBuf := rd ++ s.clusterBuf.drop rd.length
      let search ← clusterSearchLoop clusterBuf rd.length clusterOfs (2 * clusterBuf.length + 1) {}
      let lines := search.log.map ScanRecord.entry
      let cluster := if s.c % 0x1000 = 0 then [ScanRecord.cluster s.c clusterOfs] else []
      .ok
        { next with
          pos := s.pos + rd.length
          clusterBuf := clusterBuf
          log := s.log ++ lines ++ cluster }

/-- `log_dir_entries` after `n` rounds of its loop; `memory` is what `cluster_buf` held before. -/
def logDirEntries (dev : ScanDevice) (memory : Vector UInt8 clusterSizeBytes) :
    Nat → Except Halt DirLog
  | 0 => .ok { clusterBuf := memory.toList }
  | n + 1 => do
    let s ← logDirEntries dev memory n
    logDirEntriesStep dev s

/-- What was printed. -/
def DirLog.stdout (s : DirLog) : List UInt8 := s.log.flatMap ScanRecord.text

/-- `std::getline` to the end of a text; `line` is what was read of a line. -/
def getlines (line : List UInt8) : List UInt8 → List (List UInt8)
  | [] => if line.isEmpty then [] else [line]
  | b :: text => if b = newline then line :: getlines [] text else getlines (line ++ [b]) text

/-- `operator>>` for a string: the next word and what follows it. -/
def extractWord (s : List UInt8) : Option (List UInt8 × List UInt8) :=
  let s := s.dropWhile isSpace
  if s.isEmpty then none else some (s.takeWhile (!isSpace ·), s.dropWhile (!isSpace ·))

def hexValue (b : UInt8) : Option Nat :=
  if 0x30 ≤ b ∧ b ≤ 0x39 then some (b.toNat - 0x30)
  else if 0x41 ≤ b ∧ b ≤ 0x46 then some (b.toNat - 0x37)
  else if 0x61 ≤ b ∧ b ≤ 0x66 then some (b.toNat - 0x57)
  else none

/-- The value of the digits that a text starts with, and what follows them. -/
def hexDigits : List UInt8 → Nat → Nat × List UInt8
  | [], acc => (acc, [])
  | b :: bs, acc =>
    match hexValue b with
    | some d => hexDigits bs (acc * 16 + d)
    | none => (acc, b :: bs)

/-- A sign, and whether it is a minus. -/
def extractSign : List UInt8 → Bool × List UInt8
  | 0x2d :: s => (true, s)
  | 0x2b :: s => (false, s)
  | s => (false, s)

/-- `0x` in front of a number. -/
def skipHexMark : List UInt8 → List UInt8
  | 0x30 :: 0x78 :: s => s
  | 0x30 :: 0x58 :: s => s
  | s => s

/-- `operator>>` for `size_t` under `std::hex`; without a digit it fails, and so it does with more
than 64 bits. -/
def extractHex (s : List UInt8) : Option (Nat × List UInt8) :=
  let (negative, s) := extractSign (s.dropWhile isSpace)
  let s := skipHexMark s
  let (value, rest) := hexDigits s 0
  if (s.head?.bind hexValue).isSome ∧ value < 2 ^ 64 then
    some (if negative then (2 ^ 64 - value) % 2 ^ 64 else value, rest)
  else none

/-- The branches of `_processLine`: `none` for an unknown format, otherwise the offset of a file, if
the line has one. -/
def lineOffset (line : List UInt8) : Option (Option Nat) := do
  let (lineIdent, rest) ← extractWord line
  if lineIdent = bytesOf "CLUSTER" then do
    let (_, rest) ← extractHex rest
    let (_, rest) ← extractWord rest
    let _ ← extractHex rest
    pure none
  else if lineIdent = bytesOf "FDE" then do
    let (nodeOffset, _) ← extractHex rest
    pure (some nodeOffset)
  else if lineIdent = bytesOf "EFI" then pure none
  else if lineIdent = bytesOf "EFN" then pure none
  else none

/-- The exception that `_processLine` throws. -/
structure UnknownLineFormat where
  lineNo : Nat
  line : List UInt8
  deriving DecidableEq, Repr

/-- `_processLine`: the offset it passes to `_processFileDirectoryEntry`, if any. -/
def processLine (line : List UInt8) (lineNo : Nat) : Except UnknownLineFormat (Option Nat) :=
  match lineOffset line with
  | some ofs => .ok ofs
  | none => .error ⟨lineNo, line⟩

/-- How a rebuild ends: the offsets that were passed on, and the exception, if one ended it. -/
structure Rebuilt where
  offsets : List Nat := []
  exception : Option UnknownLineFormat := none
  deriving DecidableEq, Repr

/-- The loop of `rebuildFromScanLogfile` behind line `lineNo`. -/
def rebuildLoop (lineNo : Nat) : List (List UInt8) → Rebuilt
  | [] => {}
  | line :: rest =>
    match processLine line (lineNo + 1) with
    | .error ex => { exception := some ex }
    | .ok ofs =>
      let rebuilt := rebuildLoop (lineNo + 1) rest
      { rebuilt with offsets := ofs.toList ++ rebuilt.offsets }

/-- `rebuildFromScanLogfile`; what is done with an offset is left out. -/
def rebuildFromScanLogfile (logfile : List UInt8) : Rebuilt := rebuildLoop 0 (getlines [] logfile)

end Exfat
