import Exfat.Lib.Bytes

namespace Exfat
open Lib

/-! Constants and records of `exfatfs.h` and `exfat.h`. -/

@[simp] def exfatNameMax : Nat := 255
@[simp] def exfatEnameMax : Nat := 15
@[simp] def exfatUtf8NameBufferMax : Nat := exfatNameMax * 3 + 1
@[simp] def exfatUtf8EnameBufferMax : Nat := exfatEnameMax * 3 + 1

@[simp] def exfatFirstDataCluster : Nat := 2
@[simp] def exfatLastDataCluster : Nat := 0xfffffff6
@[simp] def exfatClusterFree : Nat := 0
@[simp] def exfatClusterBad : Nat := 0xfffffff7
@[simp] def exfatClusterEnd : Nat := 0xffffffff

@[simp] def exfatStateMounted : Nat := 2

@[simp] def exfatEntryValid : Nat := 0x80
@[simp] def exfatEntryBitmap : Nat := 0x81
@[simp] def exfatEntryUpcase : Nat := 0x82
@[simp] def exfatEntryLabel : Nat := 0x83
@[simp] def exfatEntryFile : Nat := 0x85
@[simp] def exfatEntryFileInfo : Nat := 0xc0
@[simp] def exfatEntryFileName : Nat := 0xc1
@[simp] def exfatEntryFileTail : Nat := 0xe0

@[simp] def exfatAttribDir : Nat := 0x10
@[simp] def exfatAttribArch : Nat := 0x20

@[simp] def exfatFlagAlways1 : Nat := 1
@[simp] def exfatFlagContiguous : Nat := 2

@[simp] def exfatUpcaseChars : Nat := 0x10000

/-- Size of `struct exfat_entry`. -/
@[simp] def entrySize : Nat := 32

def divRoundUp (x d : Nat) : Nat := (x + d - 1) / d
def roundUp (x d : Nat) : Nat := divRoundUp x d * d

/-- Error codes; the code returns their negatives. -/
inductive Errno where
  | enoent | eio | enomem | eexist | enotdir | eisdir | einval | enospc | enametoolong
  | enotempty | eilseq
  deriving DecidableEq, Repr

/-- The `int` a function returns: zero or a negative error code. -/
inductive Rc where
  | ok
  | err (e : Errno)
  deriving DecidableEq, Repr

/-- `struct exfat_super_block`, in the order of its fields on disk. -/
structure SuperBlock where
  jump : List UInt8
  oemName : List UInt8
  unused1 : List UInt8
  sectorStart : Nat
  sectorCount : Nat
  fatSectorStart : Nat
  fatSectorCount : Nat
  clusterSectorStart : Nat
  clusterCount : Nat
  rootdirCluster : Nat
  volumeSerial : Nat
  versionMinor : Nat
  versionMajor : Nat
  volumeState : Nat
  sectorBits : Nat
  spcBits : Nat
  fatCount : Nat
  driveNo : Nat
  allocatedPercent : Nat
  unused2 : List UInt8
  bootSignature : Nat
  deriving DecidableEq, Repr, Inhabited

namespace SuperBlock

def ofBytes (bs : List UInt8) : SuperBlock where
  jump := bs.take 3
  oemName := (bs.drop 3).take 8
  unused1 := (bs.drop 0x0b).take 53
  sectorStart := leAt bs 0x40 8
  sectorCount := leAt bs 0x48 8
  fatSectorStart := leAt bs 0x50 4
  fatSectorCount := leAt bs 0x54 4
  clusterSectorStart := leAt bs 0x58 4
  clusterCount := leAt bs 0x5c 4
  rootdirCluster := leAt bs 0x60 4
  volumeSerial := leAt bs 0x64 4
  versionMinor := leAt bs 0x68 1
  versionMajor := leAt bs 0x69 1
  volumeState := leAt bs 0x6a 2
  sectorBits := leAt bs 0x6c 1
  spcBits := leAt bs 0x6d 1
  fatCount := leAt bs 0x6e 1
  driveNo := leAt bs 0x6f 1
  allocatedPercent := leAt bs 0x70 1
  unused2 := (bs.drop 0x71).take 397
  bootSignature := leAt bs 0x1fe 2

def toBytes (sb : SuperBlock) : List UInt8 :=
  sb.jump ++ sb.oemName ++ sb.unused1 ++ toLe 8 sb.sectorStart ++ toLe 8 sb.sectorCount ++
    toLe 4 sb.fatSectorStart ++ toLe 4 sb.fatSectorCount ++ toLe 4 sb.clusterSectorStart ++
    toLe 4 sb.clusterCount ++ toLe 4 sb.rootdirCluster ++ toLe 4 sb.volumeSerial ++
    toLe 1 sb.versionMinor ++ toLe 1 sb.versionMajor ++ toLe 2 sb.volumeState ++
    toLe 1 sb.sectorBits ++ toLe 1 sb.spcBits ++ toLe 1 sb.fatCount ++ toLe 1 sb.driveNo ++
    toLe 1 sb.allocatedPercent ++ sb.unused2 ++ toLe 2 sb.bootSignature

/-- `SECTOR_SIZE`. -/
def sectorSize (sb : SuperBlock) : Nat := 2 ^ sb.sectorBits

/-- `CLUSTER_SIZE`. -/
def clusterSize (sb : SuperBlock) : Nat := sb.sectorSize * 2 ^ sb.spcBits

/-- `CLUSTER_INVALID`. -/
def clusterInvalid (sb : SuperBlock) (c : Nat) : Bool :=
  c < exfatFirstDataCluster || sb.clusterCount ≤ c - exfatFirstDataCluster

end SuperBlock

/-- Nodes are addressed by number; the pointers of `struct exfat_node` hold such numbers. -/
abbrev NodeId := Nat

/-- `struct exfat_node`. `name` holds the 256 units of the array. -/
structure Node where
  parent : Option NodeId := none
  child : Option NodeId := none
  next : Option NodeId := none
  prev : Option NodeId := none
  references : Int := 0
  fptrIndex : Nat := 0
  fptrCluster : Nat := 0
  entryOffset : Nat := 0
  startCluster : Nat := 0
  attrib : Nat := 0
  continuations : Nat := 0
  isContiguous : Bool := false
  isCached : Bool := false
  isDirty : Bool := false
  isUnlinked : Bool := false
  size : Nat := 0
  mtime : Int := 0
  atime : Int := 0
  name : List Nat := []
  deriving DecidableEq, Repr, Inhabited

/-- The test `attrib & EXFAT_ATTRIB_DIR`. -/
def Node.isDir (n : Node) : Bool := n.attrib &&& exfatAttribDir != 0

inductive Repair where
  | no | ask | yes
  deriving DecidableEq, Repr, Inhabited

inductive Mode where
  | ro | rw | any
  deriving DecidableEq, Repr, Inhabited

/-- The `cmap` part of `struct exfat`: the allocation bitmap in memory. Bit `i` stands for
cluster `i + 2`; bits past `chunkSize` are the padding of the last word. -/
structure Cmap where
  startCluster : Nat := 0
  size : Nat := 0
  chunk : Option (Nat → Bool) := none
  chunkSize : Nat := 0
  dirty : Bool := false
  deriving Inhabited

/-- A line read from standard input by `exfat_ask_to_fix`. -/
inductive Answer where
  | yes | no | other
  deriving DecidableEq, Repr

/-- Everything a call can read and change: the device, `struct exfat`, the nodes on the heap,
the error counters, what is left on standard input, and the number of requests made so far. -/
structure World where
  dev : Store
  sb : SuperBlock := default
  upcase : Option (Nat → Nat) := none
  root : NodeId := 0
  cmap : Cmap := {}
  -- `ef->label`: the C string it holds, and what follows its terminator (zeros behind the list)
  label : List UInt8 := []
  labelRest : List UInt8 := []
  ro : Int := 0
  noatime : Bool := false
  repair : Repair := .no
  nodes : NodeId → Option Node := fun _ => none
  fresh : NodeId := 0
  errors : Nat := 0
  errorsFixed : Nat := 0
  stdin : List Answer := []
  tick : Nat := 0

/-- The bytes of `ef->label`, up to zeros behind them. -/
def World.labelBuffer (w : World) : List UInt8 := w.label ++ 0 :: w.labelRest

/-- A C string copied to `ef->label`. -/
def World.copyLabel (w : World) (label : List UInt8) : World :=
  { w with label := label, labelRest := w.labelBuffer.drop (label.length + 1) }

/-- The first bytes of `ef->label` written over, none of them by a terminator. -/
def World.startLabel (w : World) (bytes : List UInt8) : World :=
  let buffer := bytes ++ w.labelBuffer.drop bytes.length
  { w with
    label := buffer.takeWhile (· ≠ 0)
    labelRest := (buffer.dropWhile (· ≠ 0)).drop 1 }

/-- The world outside: which requests fail, what the clock shows, how the device opens. -/
class Env where
  ioFails : Nat → Bool
  mallocFails : Nat → Bool
  now : Nat → Int
  timezone : Int
  devSize : Nat
  opensRw : Bool
  opensRo : Bool

/-- No device request and no allocation fails. -/
structure Env.Quiet [Env] : Prop where
  io : ∀ t, Env.ioFails t = false
  malloc : ∀ t, Env.mallocFails t = false

/-- Why a call did not return: `exfat_bug`, an access through a null or dangling pointer, or
a loop that did not end within the given fuel. -/
inductive Halt where
  | bug (format : String)
  | fault
  | fuel
  deriving DecidableEq, Repr

abbrev M (α : Type) : Type := Prog World Halt α

def exfatBug {α : Type} (format : String) : M α := throw (.bug format)

/-- Reports an error: only the counter is kept. -/
def exfatError (_format : String) : M Unit := modify fun w => { w with errors := w.errors + 1 }

/-- Warnings are not counted. -/
def exfatWarn (_format : String) : M Unit := pure ()

def World.setNode (w : World) (i : NodeId) (n : Node) : World :=
  { w with nodes := fun j => if j = i then some n else w.nodes j }

def getNode (i : NodeId) : M Node := do
  match (← get).nodes i with
  | some n => pure n
  | none => throw .fault

def modifyNode (i : NodeId) (f : Node → Node) : M Unit := do
  let n ← getNode i
  modify fun w => w.setNode i (f n)

/-- `p->field` through a pointer that may be null. -/
def deref (p : Option NodeId) : M NodeId :=
  match p with
  | some i => pure i
  | none => throw .fault

def freeNode (i : NodeId) : M Unit :=
  modify fun w => { w with nodes := fun j => if j = i then none else w.nodes j }

/-- Takes the next tick of the world outside. -/
def nextTick : M Nat := do
  let w ← get
  set { w with tick := w.tick + 1 }
  pure w.tick

section Device
variable [Env]

/-- `exfat_pread` on the device; `none` stands for a negative return. -/
def exfatPread (n off : Nat) : M (Option (List UInt8)) := do
  let t ← nextTick
  if Env.ioFails t then pure none
  else pure (some ((← get).dev.read off n))

/-- `exfat_pwrite` on the device; `false` stands for a negative return. -/
def exfatPwrite (bs : List UInt8) (off : Nat) : M Bool := do
  let t ← nextTick
  if Env.ioFails t then pure false
  else do
    modify fun w => { w with dev := w.dev.write off bs }
    pure true

/-- `time(NULL)`. -/
def timeNow : M Int := do
  let t ← nextTick
  pure (Env.now t)

/-- Does the next `malloc` succeed? -/
def mallocOk : M Bool := do
  let t ← nextTick
  pure (!Env.mallocFails t)

end Device

end Exfat
