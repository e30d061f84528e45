import Exfat.Lib.Search
import Exfat.Model.Dir

namespace Exfat
open Lib

/-! `mount.c`. Option strings are byte strings without their terminator. -/

def comma : UInt8 := 0x2c
def equalSign : UInt8 := 0x3d

/-- The loop of `get_option`; `previous` is the byte before the current position, if any. -/
def getOptionLoop (name : List UInt8) : Option UInt8 → List UInt8 → Option (List UInt8)
  | _, [] => none
  | previous, c :: cs =>
    if name.isPrefixOf (c :: cs) ∧ (previous = none ∨ previous = some comma) ∧
        ((c :: cs).drop name.length).head? = some equalSign then
      some ((c :: cs).drop (name.length + 1))
    else getOptionLoop name (some c) cs

/-- `get_option`: the text after `name=`. -/
def getOption (options name : List UInt8) : Option (List UInt8) := getOptionLoop name none options

/-- The loop of `match_option`. -/
def matchOptionLoop (name : List UInt8) : Option UInt8 → List UInt8 → Bool
  | _, [] => false
  | previous, c :: cs =>
    let rest := (c :: cs).drop name.length
    if name.isPrefixOf (c :: cs) ∧ (previous = none ∨ previous = some comma) ∧
        (rest.head? = some comma ∨ rest = []) then true
    else matchOptionLoop name (some c) cs

/-- `match_option`. -/
def matchOption (options name : List UInt8) : Bool := matchOptionLoop name none options

/-! The same searches as they are written, from one result of `strstr` to the next. A pointer into the
option string is a place in it; the byte behind the last one is the terminator. -/

/-- `p == options || p[-1] == ','`. -/
def startsOption (options : List UInt8) (p : Nat) : Bool := p = 0 ∨ options[p - 1]? = some comma

/-- `get_option`, by `strstr`. -/
def getOptionStrstr (options name : List UInt8) : Option (List UInt8) :=
  let length := name.length
  let found (p : Nat) : Option (List UInt8) :=
    if startsOption options p ∧ options[p + length]? = some equalSign then
      some (options.drop (p + length + 1))
    else none
  searchLoop name found options (options.length + 1) 0

/-- `match_option`, by `strstr`. -/
def matchOptionStrstr (options name : List UInt8) : Bool :=
  let length := name.length
  let found (p : Nat) : Option Unit :=
    if startsOption options p ∧
        (options[p + length]? = some comma ∨ options[p + length]? = none) then some ()
    else none
  (searchLoop name found options (options.length + 1) 0).isSome

def isSpace (b : UInt8) : Bool := b = 0x20 ∨ (0x09 ≤ b ∧ b ≤ 0x0d)

/-- The value of the digits a text starts with. -/
def digits (base : Nat) : List UInt8 → Nat → Nat
  | [], acc => acc
  | b :: bs, acc =>
    if 0x30 ≤ b.toNat ∧ b.toNat < 0x30 + base then digits base bs (acc * base + (b.toNat - 0x30))
    else acc

/-- `strtol` for bases up to ten, saturating at the limits of `long`. -/
def strtol (s : List UInt8) (base : Nat) : Int :=
  match s.dropWhile isSpace with
  | 0x2d :: ds => max (-(digits base ds 0 : Int)) (-2 ^ 63)
  | 0x2b :: ds => min (digits base ds 0 : Int) (2 ^ 63 - 1)
  | ds => min (digits base ds 0 : Int) (2 ^ 63 - 1)

/-- `get_int_option`. -/
def getIntOption (options name : List UInt8) (base : Nat) (default : Int) : Int :=
  match getOption options name with
  | none => default
  | some p => toInt32 (strtol p base)

def bytesOf (s : String) : List UInt8 := s.toList.map fun c => UInt8.ofNat c.toNat

/-- The part of `parse_options` that the rest of the library reads. -/
def parseOptions (options : List UInt8) : M Unit :=
  modify fun w =>
    { w with
      noatime := matchOption options (bytesOf "noatime")
      repair :=
        if getIntOption options (bytesOf "repair") 10 0 = 1 then .ask
        else if getIntOption options (bytesOf "repair") 10 0 = 2 then .yes
        else .no }

section
variable [Env]

/-- The loop of `rootdir_size`: the number of clusters, or `none` after an error. -/
def rootdirLoop : Nat → Nat → M (Option Nat)
  | 0, _ => do
    exfatError "root directory cannot occupy all %d clusters"
    pure none
  | n + 1, cluster => do
    if (← get).sb.clusterInvalid cluster then do
      exfatError "bad cluster %#x while reading root directory"
      pure none
    else do
      let next ← exfatNextCluster false cluster
      if next = exfatClusterEnd then pure (some 1)
      else do
        let rest ← rootdirLoop n next
        pure (rest.map (· + 1))

/-- `rootdir_size`: zero after an error. -/
def rootdirSize : M Nat := do
  let sb := (← get).sb
  match ← rootdirLoop sb.clusterCount sb.rootdirCluster with
  | none => pure 0
  | some clusters => pure (clusters * sb.clusterSize)

/-- The loop of `verify_vbr_checksum` over `n` sectors from sector `i` on. -/
def vbrSumLoop (sectorSize : Nat) : Nat → Nat → Nat → M (Option Nat)
  | 0, _, sum => pure (some sum)
  | n + 1, i, sum => do
    match ← exfatPread sectorSize (i * sectorSize) with
    | none => do
      exfatError "failed to read VBR sector"
      pure none
    | some sector => vbrSumLoop sectorSize n (i + 1) (exfatVbrAddChecksum sector sum)

/-- The last loop of `verify_vbr_checksum` over `n` words from word `i` on; a repair replaces the
sector that the remaining words are read from. -/
def vbrCheckLoop (sum : Nat) : Nat → Nat → List UInt8 → M Bool
  | 0, _, _ => pure true
  | n + 1, i, sector => do
    if leAt sector (4 * i) 4 ≠ sum then do
      exfatError "invalid VBR checksum 0x%x (expected 0x%x)"
      if ← exfatAskToFix then
        match ← exfatFixInvalidVbrChecksum sum with
        | none => pure false
        | some sector => vbrCheckLoop sum n (i + 1) sector
      else pure false
    else vbrCheckLoop sum n (i + 1) sector

/-- `verify_vbr_checksum`. -/
def verifyVbrChecksum : M Bool := do
  let sectorSize := (← get).sb.sectorSize
  match ← exfatPread sectorSize 0 with
  | none => do
    exfatError "failed to read boot sector"
    pure false
  | some sector =>
    match ← vbrSumLoop sectorSize 10 1 (exfatVbrStartChecksum sector) with
    | none => pure false
    | some sum =>
      match ← exfatPread sectorSize (11 * sectorSize) with
      | none => do
        exfatError "failed to read VBR checksum sector"
        pure false
      | some sector => vbrCheckLoop sum (sectorSize / 4) 0 sector

/-- `exfat_fsync`. -/
def exfatFsync : M Rc := do
  let t ← nextTick
  if Env.ioFails t then do
    exfatError "fsync failed: %s"
    pure (.err .eio)
  else pure .ok

/-- `commit_super_block`. -/
def commitSuperBlock : M Bool := do
  if ← exfatPwrite (← get).sb.toBytes 0 then
    pure ((← exfatFsync) = .ok)
  else do
    exfatError "failed to write super block"
    pure false

/-- `prepare_super_block`; `true` stands for zero. -/
def prepareSuperBlock : M Bool := do
  let w ← get
  if w.ro ≠ 0 then pure true
  else do
    set { w with sb := { w.sb with volumeState := w.sb.volumeState ||| exfatStateMounted } }
    commitSuperBlock

mutual

/-- `reset_cache`; the fuel bounds the depth of the walk. -/
def resetCache : Nat → NodeId → M Unit
  | 0, _ => throw .fuel
  | fuel + 1, id => do
    resetLoop fuel id
    modifyNode id fun n => { n with isCached := false }
    let node ← getNode id
    if node.references ≠ 0 then do
      let _ ← exfatGetName node.name
      exfatWarn "non-zero reference counter (%d) for '%s'"
    if id ≠ (← get).root ∧ node.isDirty then do
      let _ ← exfatGetName node.name
      exfatBug "node '%s' is dirty"
    else putAll id (node.references.toNat + 1)

/-- The first loop of `reset_cache`: frees the children one by one. -/
def resetLoop : Nat → NodeId → M Unit
  | 0, _ => throw .fuel
  | fuel + 1, id => do
    match (← getNode id).child with
    | none => pure ()
    | some p => do
      resetCache fuel p
      treeDetach p
      freeNode p
      resetLoop fuel id

/-- The last loop of `reset_cache`: puts the node while it has references. -/
def putAll (id : NodeId) : Nat → M Unit
  | 0 => throw .fuel
  | fuel + 1 => do
    if (← getNode id).references ≠ 0 then do
      exfatPutNode id
      putAll id fuel

end

/-- `exfat_reset_cache`. -/
def exfatResetCache : M Unit := do
  let w ← get
  resetCache (2 * w.fresh + 2) w.root

/-- `exfat_free`. -/
def exfatFree : M Unit := do
  let t ← nextTick
  if Env.ioFails t then exfatError "failed to close device: %s"
  modify fun w =>
    { w with
      upcase := none
      cmap := { w.cmap with chunk := none }
      nodes := fun j => if j = w.root then none else w.nodes j }

/-- `exfat_open`: the mode the device was opened in, or `none`. -/
def exfatOpen (mode : Mode) : M (Option Mode) := do
  let opened :=
    match mode with
    | .ro => if Env.opensRo then some .ro else none
    | .rw => if Env.opensRw then some .rw else none
    | .any => if Env.opensRw then some .rw else if Env.opensRo then some .ro else none
  match opened with
  | some m => pure (some m)
  | none => do
    exfatError "failed to open '%s': %s"
    pure none

/-- Ends a mount that failed before the root directory was read. -/
def mountFail (format : String) (e : Errno) : M Rc := do
  exfatError format
  exfatFree
  pure (.err e)

/-- The last checks of `exfat_mount`, after the root directory was read. -/
def mountFinish (rc : Rc) : M Bool := do
  if rc ≠ .ok then pure false
  else if (← get).upcase.isNone then do
    exfatError "upcase table is not found"
    pure false
  else if (← get).cmap.chunk.isNone then do
    exfatError "clusters bitmap is not found"
    pure false
  else prepareSuperBlock

/-- The end of `exfat_mount`: the root directory is read and the volume marked as mounted. -/
def mountRoot : M Rc := do
  let w ← get
  let root := w.root
  exfatGetNode root
  let rc ← exfatCacheDirectory root
  if ← mountFinish rc then pure .ok
  else do
    exfatPutNode root
    exfatResetCache
    exfatFree
    pure (.err .eio)

/-- `exfat_mount` from the allocation of the root node on. -/
def mountTree : M Rc := do
  if !(← mallocOk) then mountFail "failed to allocate root node" .enomem
  else do
    let w ← get
    let root := w.fresh
    set { (w.setNode root
      { attrib := exfatAttribDir, startCluster := w.sb.rootdirCluster,
        fptrCluster := w.sb.rootdirCluster, name := padName [] }) with
      root := root, fresh := root + 1 }
    let size ← rootdirSize
    modifyNode root fun n => { n with size := size }
    if size = 0 then do
      exfatFree
      pure (.err .eio)
    else mountRoot

/-- The checks of `exfat_mount` on the super block. -/
def mountChecks : M Rc := do
  let sb := (← get).sb
  if sb.oemName ≠ bytesOf "EXFAT   " then mountFail "exFAT file system is not found" .eio
  else if sb.sectorBits < 9 then mountFail "too small sector size: 2^%hhd" .eio
  else if sb.sectorBits + sb.spcBits > 25 then
    mountFail "too big cluster size: 2^(%hhd+%hhd)" .eio
  else if !(← mallocOk) then mountFail "failed to allocate zero sector" .enomem
  else if !(← verifyVbrChecksum) then do
    exfatFree
    pure (.err .eio)
  else if sb.versionMajor ≠ 1 ∨ sb.versionMinor ≠ 0 then
    mountFail "unsupported exFAT version: %hhu.%hhu" .eio
  else if sb.fatCount ≠ 1 then mountFail "unsupported FAT count: %hhu" .eio
  else if sb.clusterCount * sb.clusterSize > Env.devSize then
    mountFail "file system in clusters is larger than device" .eio
  else mountTree

/-- `exfat_mount`. -/
def exfatMount (options : List UInt8) : M Rc := do
  modify fun w =>
    { w with
      sb := default, upcase := none, cmap := {}, label := [], ro := 0
      noatime := false, repair := .no }
  parseOptions options
  let mode :=
    if matchOption options (bytesOf "ro") then Mode.ro
    else if matchOption options (bytesOf "ro_fallback") then .any
    else .rw
  match ← exfatOpen mode with
  | none => pure (.err .eio)
  | some opened => do
    if opened = .ro then
      modify fun w => { w with ro := if mode = .any then -1 else 1 }
    if !(← mallocOk) then mountFail "failed to allocate memory for the super block" .enomem
    else
      match ← exfatPread 512 0 with
      | none => mountFail "failed to read boot sector" .eio
      | some bs => do
        modify fun w => { w with sb := SuperBlock.ofBytes bs }
        mountChecks

/-- `exfat_count_free_clusters`. -/
def exfatCountFreeClusters : M Nat := do
  let chunk ← getChunk
  pure ((List.range (← get).cmap.size).countP fun i => !chunk i)

/-- `finalize_super_block`. -/
def finalizeSuperBlock : M Unit := do
  let w ← get
  if w.ro ≠ 0 then pure ()
  else do
    let state := w.sb.volumeState &&& (2 ^ 16 - 1 - exfatStateMounted)
    -- some implementations set the percentage to 0xff and never update it
    let percent ←
      if w.sb.allocatedPercent = 0xff then pure w.sb.allocatedPercent
      else do
        let free ← exfatCountFreeClusters
        let total := w.sb.clusterCount
        pure ((((total + 2 ^ 32 - free) * 100 + total / 2) % 2 ^ 32 / total) % 2 ^ 8)
    set { w with sb := { w.sb with volumeState := state, allocatedPercent := percent } }
    let _ ← commitSuperBlock -- ignore return code

/-- `exfat_unmount`. -/
def exfatUnmount : M Unit := do
  let _ ← exfatFlushNodes -- ignore return code
  let _ ← exfatFlush -- ignore return code
  exfatPutNode (← get).root
  exfatResetCache
  finalizeSuperBlock
  exfatFree

end

end Exfat
