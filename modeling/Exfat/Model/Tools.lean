import Exfat.Model.Dump
import Exfat.Model.Fsck
import Exfat.Model.Fuse

namespace Exfat
open Lib

/-! The programs over the library: `dump/main.c`, `label/main.c` and `fsck/main.c` from their parsed
command lines on. -/

/-- What a conversion of `printf` gets. -/
inductive Arg where
  | num (n : Nat)
  | text (s : List UInt8)
  deriving DecidableEq, Repr

/-- A call of `printf`: its format and arguments. -/
abbrev Line : Type := String × List Arg

/-- `print_generic_info`. -/
def printGenericInfo (sb : SuperBlock) : List Line :=
  [("Volume serial number      0x%08x\n", [.num sb.volumeSerial]),
    ("FS version                       %hhu.%hhu\n", [.num sb.versionMajor, .num sb.versionMinor]),
    ("Sector size               %10u\n", [.num sb.sectorSize]),
    ("Cluster size              %10u\n", [.num sb.clusterSize])]

/-- `print_sector_info`. -/
def printSectorInfo (sb : SuperBlock) : List Line :=
  [("Sectors count             %10\n", [.num sb.sectorCount])]

/-- `print_cluster_info`. -/
def printClusterInfo (sb : SuperBlock) : List Line :=
  [("Clusters count            %10u\n", [.num sb.clusterCount])]

/-- `print_other_info`. -/
def printOtherInfo (sb : SuperBlock) : List Line :=
  [("First sector              %10\n", [.num sb.sectorStart]),
    ("FAT first sector          %10u\n", [.num sb.fatSectorStart]),
    ("FAT sectors count         %10u\n", [.num sb.fatSectorCount]),
    ("First cluster sector      %10u\n", [.num sb.clusterSectorStart]),
    ("Root directory cluster    %10u\n", [.num sb.rootdirCluster]),
    ("Volume state                  0x%04hx\n", [.num sb.volumeState]),
    ("FATs count                %10hhu\n", [.num sb.fatCount]),
    ("Drive number                    0x%02hhx\n", [.num sb.driveNo]),
    ("Allocated space           %9hhu%%\n", [.num sb.allocatedPercent])]

section
variable [Env]

/-- `exfat_close`. -/
def exfatClose : M Rc := do
  let t ← nextTick
  if Env.ioFails t then do
    exfatError "failed to close device: %s"
    pure (.err .eio)
  else pure .ok

/-- `dump_sb`: the exit code and what was printed. The position of a device just opened is zero. -/
def dumpSb : M (Nat × List Line) := do
  match ← exfatOpen .ro with
  | none => pure (1, [])
  | some _ =>
    match ← exfatPread 512 0 with
    | none => do
      let _ ← exfatClose
      exfatError "failed to read from '%s'"
      pure (1, [])
    | some bs => do
      let sb := SuperBlock.ofBytes bs
      if sb.oemName ≠ bytesOf "EXFAT   " then do
        let _ ← exfatClose
        exfatError "exFAT file system is not found on '%s'"
        pure (1, [])
      else do
        let _ ← exfatClose
        pure (0, printGenericInfo sb ++ printSectorInfo sb ++ printClusterInfo sb ++
          printOtherInfo sb)

/-- The lines of `dump_full` before the used sectors. -/
def fullLines (sb : SuperBlock) (label : List UInt8) (freeClusters : Nat) : List Line :=
  [("Volume label         %15s\n", [.text label])] ++ printGenericInfo sb ++ printSectorInfo sb ++
    [("Free sectors              %10\n", [.num (freeClusters * 2 ^ sb.spcBits % 2 ^ 64)])] ++
    printClusterInfo sb ++ [("Free clusters             %10u\n", [.num freeClusters])] ++
    printOtherInfo sb

/-- `dump_sectors`, as printed. -/
def sectorLines (ranges : List (Nat × Nat)) : List Line :=
  ("Used sectors ", []) :: ranges.map (fun r => (" %-%", [.num r.1, .num r.2])) ++ [("\n", [])]

/-- `dump_full`. -/
def dumpFull (fuel : Nat) (usedSectors : Bool) : M (Nat × List Line) := do
  if (← exfatMount (bytesOf "ro")) ≠ .ok then pure (1, [])
  else do
    let freeClusters ← exfatCountFreeClusters
    let w ← get
    let lines := fullLines w.sb w.label freeClusters
    if usedSectors then do
      let ranges ← dumpSectors fuel 0 0
      exfatUnmount
      pure (0, lines ++ sectorLines ranges)
    else do
      exfatUnmount
      pure (0, lines)

/-- `main` of `dumpexfat`: a file path comes before `-s`, and `-s` before `-u`. -/
def dumpexfat (fuel : Nat) (sbOnly usedSectors : Bool) (filePath : Option (List UInt8)) :
    M (Nat × List Line) :=
  match filePath with
  | some path => do
    let (ok, fragments) ← dumpFileFragments path
    pure (if ok then 0 else 1, fragments.map fun f => ("% %\n", [.num f.1, .num f.2]))
  | none => if sbOnly then dumpSb else dumpFull fuel usedSectors

/-- `main` of `exfatlabel`, with the label to set if there is one. -/
def exfatlabel (label : Option (List UInt8)) : M (Nat × List Line) :=
  match label with
  | some label => do
    if (← exfatMount []) ≠ .ok then pure (1, [])
    else do
      let rc ← exfatSetLabel label
      exfatUnmount
      pure (if rc ≠ .ok then 1 else 0, [])
  | none => do
    if (← exfatMount (bytesOf "ro")) ≠ .ok then pure (1, [])
    else do
      let label := (← get).label
      exfatUnmount
      pure (0, [("%s\n", [.text label])])

/-- The flags of `exfatfsck` that choose what to repair. -/
inductive FsckFlag where
  | a | n | p | y
  deriving DecidableEq, Repr

/-- The mount options of `main` of `exfatfsck`: the last flag counts. -/
def fsckOptions (isatty : Bool) (flags : List FsckFlag) : List UInt8 :=
  flags.foldl (fun _ flag => if flag = .n then bytesOf "repair=0,ro" else bytesOf "repair=2")
    (if isatty then bytesOf "repair=1" else bytesOf "repair=0")

/-- `main` of `exfatfsck`: its exit code. -/
def exfatfsck (fuel : Nat) (isatty : Bool) (flags : List FsckFlag) : M Nat := do
  let _ ← fsck fuel (fsckOptions isatty flags)
  pure (if (← get).errors ≠ 0 then 1 else 0)

end

end Exfat
