import Exfat.Model.Dir
import Exfat.Model.Mount

namespace Exfat
open Lib

/-! `fuse/main.c`: the handlers FUSE calls. An open file is the node in `fi->fh`; the path of a handler
is the byte string before its terminator. -/

/-- The fields of `struct exfat` that only the front end reads. -/
structure Access where
  dmask : Int
  fmask : Int
  uid : Nat
  gid : Nat
  deriving DecidableEq, Repr

def sIfdir : Nat := 0o040000
def sIfreg : Nat := 0o100000

/-- `0777 & ~mask`. -/
def permissions (mask : Int) : Nat := 0o777 - (mask % 0o1000).toNat

/-- The fields of `struct stat` that are set. -/
structure Stat where
  mode : Nat
  nlink : Nat
  uid : Nat
  gid : Nat
  size : Int
  blocks : Nat
  mtime : Int
  atime : Int
  ctime : Int
  deriving DecidableEq, Repr

/-- The conversion from `uint64_t` to `off_t`. -/
def toOff (x : Nat) : Int := ((x : Int) + 2 ^ 63) % 2 ^ 64 - 2 ^ 63

/-- `exfat_stat`. -/
def exfatStat (access : Access) (id : NodeId) : M Stat := do
  let clusterSize := (← get).sb.clusterSize
  let node ← getNode id
  pure
    { mode := if node.isDir then sIfdir ||| permissions access.dmask
        else sIfreg ||| permissions access.fmask
      nlink := 1
      uid := access.uid
      gid := access.gid
      size := toOff node.size
      blocks := ((node.size + clusterSize - 1) % 2 ^ 64 / clusterSize * clusterSize) % 2 ^ 64 / 512
      mtime := node.mtime
      atime := node.atime
      ctime := node.mtime }

/-- `exfat_utimes`. -/
def exfatUtimes (id : NodeId) (atime mtime : Int) : M Unit :=
  modifyNode id fun n => { n with atime := atime, mtime := mtime, isDirty := true }

/-- A call of `filler`: the name and, but for `.` and `..`, the attributes. -/
abbrev Dirent : Type := List UInt8 × Option Stat

section
variable [Env]

/-- `fuse_exfat_getattr`. -/
def fuseExfatGetattr (access : Access) (path : List UInt8) : M (Except Errno Stat) := do
  match ← exfatLookup path with
  | .error e => pure (.error e)
  | .ok node => do
    let stbuf ← exfatStat access node
    exfatPutNode node
    pure (.ok stbuf)

/-- `fuse_exfat_truncate`. -/
def fuseExfatTruncate (path : List UInt8) (size : Nat) : M Rc := do
  match ← exfatLookup path with
  | .error e => pure (.err e)
  | .ok node => do
    let rc ← exfatTruncate node size true
    if rc ≠ .ok then do
      let _ ← exfatFlushNode node -- ignore return code
      exfatPutNode node
      pure rc
    else do
      let rc ← exfatFlushNode node
      exfatPutNode node
      pure rc

/-- The loop of `fuse_exfat_readdir`. -/
def fillLoop (access : Access) : Nat → Iterator → M (List Dirent)
  | 0, _ => throw .fuel
  | fuel + 1, it => do
    match ← exfatReaddir it with
    | (none, _) => pure []
    | (some node, it) => do
      let name ← exfatGetName (← getNode node).name
      let stbuf ← exfatStat access node
      exfatPutNode node
      let rest ← fillLoop access fuel it
      pure ((name, some stbuf) :: rest)

/-- `fuse_exfat_readdir`: the return code and what was filled in. -/
def fuseExfatReaddir (access : Access) (path : List UInt8) : M (Rc × List Dirent) := do
  match ← exfatLookup path with
  | .error e => pure (.err e, [])
  | .ok parent => do
    if !(← getNode parent).isDir then do
      exfatPutNode parent
      exfatError "'%s' is not a directory (%#hx)"
      pure (.err .enotdir, [])
    else do
      let dots : List Dirent := [([dot], none), ([dot, dot], none)]
      let rc ← exfatOpendir parent
      if rc ≠ .ok then do
        exfatPutNode parent
        exfatError "failed to open directory '%s'"
        pure (rc, dots)
      else do
        let entries ← fillLoop access ((← get).fresh + 1) ⟨parent, none⟩
        exfatClosedir parent
        exfatPutNode parent
        pure (.ok, dots ++ entries)

/-- `fuse_exfat_open`: the node that `set_node` keeps in `fi->fh`. -/
def fuseExfatOpen (path : List UInt8) : M (Except Errno NodeId) := exfatLookup path

/-- `fuse_exfat_create`. -/
def fuseExfatCreate (path : List UInt8) : M (Except Errno NodeId) := do
  match ← exfatMknod path with
  | .err e => pure (.error e)
  | .ok => exfatLookup path

/-- `fuse_exfat_release`. -/
def fuseExfatRelease (node : NodeId) : M Unit := do
  let _ ← exfatFlushNode node
  exfatPutNode node

/-- `fuse_exfat_flush`. -/
def fuseExfatFlush (node : NodeId) : M Rc := exfatFlushNode node

/-- `fuse_exfat_fsync`. -/
def fuseExfatFsync : M Rc := do
  let rc ← exfatFlushNodes
  if rc ≠ .ok then pure rc
  else do
    let rc ← exfatFlush
    if rc ≠ .ok then pure rc else exfatFsync

/-- `fuse_exfat_read`. -/
def fuseExfatRead (node : NodeId) (size offset : Nat) : M (Except Errno (List UInt8)) :=
  exfatGenericPread node size offset

/-- `fuse_exfat_write`. -/
def fuseExfatWrite (node : NodeId) (buffer : List UInt8) (offset : Nat) : M Rc :=
  exfatGenericPwrite node buffer offset

/-- `fuse_exfat_unlink` and `fuse_exfat_rmdir`, which differ in the call that removes the node. -/
def fuseRemove (remove : NodeId → M Rc) (path : List UInt8) : M Rc := do
  match ← exfatLookup path with
  | .error e => pure (.err e)
  | .ok node => do
    let rc ← remove node
    exfatPutNode node
    if rc ≠ .ok then pure rc else exfatCleanupNode node

/-- `fuse_exfat_unlink`. -/
def fuseExfatUnlink (path : List UInt8) : M Rc := fuseRemove exfatUnlink path

/-- `fuse_exfat_rmdir`. -/
def fuseExfatRmdir (path : List UInt8) : M Rc := fuseRemove exfatRmdir path

/-- `fuse_exfat_mknod`. -/
def fuseExfatMknod (path : List UInt8) : M Rc := exfatMknod path

/-- `fuse_exfat_mkdir`. -/
def fuseExfatMkdir (path : List UInt8) : M Rc := exfatMkdir path

/-- `fuse_exfat_rename`. -/
def fuseExfatRename (oldPath newPath : List UInt8) : M Rc := exfatRename oldPath newPath

/-- `fuse_exfat_utimens`. -/
def fuseExfatUtimens (path : List UInt8) (atime mtime : Int) : M Rc := do
  match ← exfatLookup path with
  | .error e => pure (.err e)
  | .ok node => do
    exfatUtimes node atime mtime
    let rc ← exfatFlushNode node
    exfatPutNode node
    pure rc

end

/-- `struct statvfs`. -/
structure Statvfs where
  bsize : Nat
  frsize : Nat
  blocks : Nat
  bavail : Nat
  bfree : Nat
  namemax : Nat
  files : Nat
  favail : Nat
  ffree : Nat
  deriving DecidableEq, Repr

section
variable [Env]

/-- `fuse_exfat_statfs`. -/
def fuseExfatStatfs : M Statvfs := do
  let sb := (← get).sb
  let free ← exfatCountFreeClusters
  pure
    { bsize := sb.clusterSize
      frsize := sb.clusterSize
      blocks := sb.sectorCount / 2 ^ sb.spcBits
      bavail := free
      bfree := free
      namemax := exfatNameMax
      files := sb.clusterCount
      favail := free / 2 ^ sb.spcBits
      ffree := free }

/-- `fuse_exfat_destroy`. -/
def fuseExfatDestroy : M Unit := exfatUnmount

end

end Exfat
