import Exfat.Model.Repair
import Exfat.Model.Time

namespace Exfat
open Lib

/-! `node.c`: entry sets, the directory reader, the node cache and flushing. An array of entries
is the byte string it occupies: entry `i` starts at byte `32 * i`. -/

/-- `exfat_get_node`. -/
def exfatGetNode (id : NodeId) : M Unit :=
  modifyNode id fun n => { n with references := n.references + 1 }

/-- `exfat_put_node`. -/
def exfatPutNode (id : NodeId) : M Unit := do
  modifyNode id fun n => { n with references := n.references - 1 }
  let node ← getNode id
  if node.references < 0 then do
    let _ ← exfatGetName node.name
    exfatBug "reference counter of '%s' is below zero"
  else if node.references = 0 ∧ id ≠ (← get).root ∧ node.isDirty then do
    let _ ← exfatGetName node.name
    exfatWarn "dirty node '%s' with zero references"

/-- The children of a directory in list order: the walk `p = dir->child; p; p = p->next`. -/
def siblings : Nat → Option NodeId → M (List NodeId)
  | _, none => pure []
  | 0, some _ => throw .fuel
  | fuel + 1, some p => do
    let node ← getNode p
    let rest ← siblings fuel node.next
    pure (p :: rest)

def children (dir : NodeId) : M (List NodeId) := do
  let node ← getNode dir
  siblings ((← get).fresh + 1) node.child

/-- The type byte of entry `i`. -/
def entryType (entries : List UInt8) (i : Nat) : Nat := (entries.getD (entrySize * i) 0).toNat

def entryTypes (entries : List UInt8) (n : Nat) : List Nat := (List.range n).map (entryType entries)

/-- The transition table of `check_entries`; `none` is `EXFAT_ENTRY_NONE`. -/
def entryFollows (previous current : Option Nat) : Bool :=
  match previous with
  | none => current = some exfatEntryFile
  | some p =>
    if p = exfatEntryFile then current = some exfatEntryFileInfo
    else if p = exfatEntryFileInfo then current = some exfatEntryFileName
    else if p = exfatEntryFileName then
      match current with
      | none => true
      | some c => c = exfatEntryFileName || exfatEntryFileTail ≤ c
    else if exfatEntryFileTail ≤ p ∧ p ≤ 0xff then
      match current with
      | none => true
      | some c => exfatEntryFileTail ≤ c
    else false

/-- The loop of `check_entries` on the types that are left. -/
def checkTypes : Option Nat → List Nat → Bool
  | previous, [] => entryFollows previous none
  | previous, t :: ts => entryFollows previous (some t) && checkTypes (some t) ts

def checkEntries (entries : List UInt8) (n : Nat) : M Bool := do
  if checkTypes none (entryTypes entries n) then pure true
  else do
    exfatError "unexpected entry type %#x after %#x at %d/%d"
    pure false

/-- `n` little-endian 16-bit units. -/
def le16s : Nat → List UInt8 → List Nat
  | 0, _ => []
  | n + 1, bs => leNat (bs.take 2) :: le16s n (bs.drop 2)

/-- A name padded with zeros to the size of the array. -/
def padName (units : List Nat) : List Nat :=
  units ++ List.replicate (exfatNameMax + 1 - units.length) 0

/-- The units of the name entry `i` of a set. -/
def nameUnits (entries : List UInt8) (i : Nat) : List Nat :=
  le16s exfatEnameMax (entries.drop (entrySize * i + 2))

/-- `init_node_name` from the `n` entries that follow the first two. -/
def initNodeName (entries : List UInt8) (n : Nat) : List Nat :=
  padName ((List.range n).flatMap fun i => nameUnits entries (2 + i))

section
variable [Env]

/-- `read_entries`. -/
def readEntries (dir : NodeId) (n offset : Nat) : M (Except Errno (List UInt8)) := do
  let node ← getNode dir
  if !node.isDir then exfatBug "attempted to read entries from a file"
  else
    match ← exfatGenericPread dir (entrySize * n) offset with
    | .error _ => pure (.error .eio)
    | .ok bs =>
      if bs.length = entrySize * n then pure (.ok bs)
      else if bs.isEmpty then pure (.error .enoent)
      else do
        exfatError "read %zd bytes instead of %zu bytes"
        pure (.error .eio)

/-- `write_entries`. -/
def writeEntries (dir : NodeId) (entries : List UInt8) (offset : Nat) : M Rc := do
  let node ← getNode dir
  if !node.isDir then exfatBug "attempted to write entries into a file"
  else
    match ← exfatGenericPwrite dir entries offset with
    | .ok => pure .ok
    | .err _ => pure (.err .eio)

/-- `allocate_node`: the zeroed node, or `none`. -/
def allocateNode : M (Option NodeId) := do
  if ← mallocOk then do
    let w ← get
    set { (w.setNode w.fresh { name := padName [] }) with fresh := w.fresh + 1 }
    pure (some w.fresh)
  else do
    exfatError "failed to allocate node"
    pure none

/-- `init_node_meta1` of a node being filled in. -/
def initNodeMeta1 (id : NodeId) (meta1 : List UInt8) : M Unit := do
  modifyNode id fun n => { n with attrib := leAt meta1 4 2, continuations := leAt meta1 1 1 }
  let mtime ← exfatExfat2unix (leAt meta1 14 2) (leAt meta1 12 2) (leAt meta1 21 1)
  -- there is no centiseconds field for atime
  let atime ← exfatExfat2unix (leAt meta1 18 2) (leAt meta1 16 2) 0
  modifyNode id fun n => { n with mtime := mtime, atime := atime }

/-- `init_node_meta2`. -/
def initNodeMeta2 (id : NodeId) (meta2 : List UInt8) : M Unit :=
  modifyNode id fun n =>
    { n with
      size := leAt meta2 24 8
      startCluster := leAt meta2 20 4
      fptrCluster := leAt meta2 20 4
      isContiguous := leAt meta2 1 1 &&& exfatFlagContiguous != 0 }

/-- One check of `check_node`: when it fails the error names the node. -/
def nodeCheck (id : NodeId) (failed : Bool) (format : String) : M Bool := do
  if failed then do
    let _ ← exfatGetName (← getNode id).name
    exfatError format
    pure false
  else pure true

/-- The checksum check of `check_node`, with the repair it offers. -/
def checkSum (id : NodeId) (actualChecksum : Nat) (meta1 : List UInt8) : M Bool := do
  if ← nodeCheck id (actualChecksum ≠ leAt meta1 2 2) "'%s' has invalid checksum (%#hx != %#hx)"
  then pure true
  else if ← exfatAskToFix then exfatFixInvalidNodeChecksum id
  else pure false

/-- `check_node`. -/
def checkNode (id : NodeId) (actualChecksum : Nat) (meta1 meta2 : List UInt8) : M Bool := do
  let sb := (← get).sb
  let node ← getNode id
  let clustersHeapSize := sb.clusterCount * sb.clusterSize
  let sumOk ← checkSum id actualChecksum meta1
  let validOk ← nodeCheck id (leAt meta2 8 8 > node.size)
    "'%s' has valid size greater than size"
  let emptyOk ← nodeCheck id (node.size = 0 ∧ node.startCluster ≠ exfatClusterFree)
    "'%s' is empty but start cluster is %#x"
  let startOk ← nodeCheck id (node.size > 0 ∧ sb.clusterInvalid node.startCluster)
    "'%s' points to invalid cluster %#x"
  let heapOk ← nodeCheck id (node.size > clustersHeapSize)
    "'%s' is larger than clusters heap"
  let flagOk ← nodeCheck id (node.size = 0 ∧ node.isContiguous)
    "'%s' is empty but marked as contiguous (%#hx)"
  let dirOk ← nodeCheck id (node.isDir ∧ node.size % sb.clusterSize ≠ 0)
    "'%s' directory size is not divisible by %d"
  pure (sumOk && validOk && emptyOk && startOk && heapOk && flagOk && dirOk)

/-- `parse_file_entries`. -/
def parseFileEntries (id : NodeId) (entries : List UInt8) (n : Nat) : M Rc := do
  if !(← checkEntries entries n) then pure (.err .eio)
  else
    let meta1 := entries
    let meta2 := entries.drop entrySize
    let continuations := leAt meta1 1 1
    let mandatoryEntries := 2 + divRoundUp (leAt meta2 3 1) exfatEnameMax
    if continuations < 2 then do
      exfatError "too few continuations (%hhu)"
      pure (.err .eio)
    else if leAt meta2 1 1 &&& (0xff - (exfatFlagAlways1 + exfatFlagContiguous)) ≠ 0 then do
      exfatError "unknown flags in meta2 (%#hhx)"
      pure (.err .eio)
    else if continuations < mandatoryEntries - 1 then do
      exfatError "too few continuations (%hhu < %d)"
      pure (.err .eio)
    else do
      initNodeMeta1 id meta1
      initNodeMeta2 id meta2
      modifyNode id fun nd => { nd with name := initNodeName entries (mandatoryEntries - 2) }
      if ← checkNode id (exfatCalcChecksum entries) meta1 meta2 then pure .ok
      else pure (.err .eio)

/-- `parse_file_entry`: the new node and the offset of the next entry. -/
def parseFileEntry (parent : NodeId) (offset n : Nat) : M (Except Errno (NodeId × Nat)) := do
  match ← readEntries parent n offset with
  | .error e => pure (.error e)
  | .ok entries =>
    match ← allocateNode with
    | none => pure (.error .enomem)
    | some id => do
      modifyNode id fun nd => { nd with entryOffset := offset }
      match ← parseFileEntries id entries n with
      | .err e => do
        freeNode id
        pure (.error e)
      | .ok => pure (.ok (id, offset + entrySize * n))

end

/-- The loop of `decompress_upcase` on what is left of the source. -/
def decompressLoop : List Nat → Nat → (Nat → Nat) → (Nat → Nat)
  | [], _, output => output
  | [ch], oi, output =>
    if oi < exfatUpcaseChars then fun c => if c = oi then ch else output c else output
  | ch :: run :: rest, oi, output =>
    if oi < exfatUpcaseChars then
      if ch = 0xffff then decompressLoop rest (oi + run) output
      else decompressLoop (run :: rest) (oi + 1) (fun c => if c = oi then ch else output c)
    else output

/-- `decompress_upcase`. -/
def decompressUpcase (source : List Nat) : Nat → Nat := decompressLoop source 0 id

/-- The bits of a bitmap read from the device. -/
def bitsOf (bs : List UInt8) (i : Nat) : Bool := (bs.getD (i / 8) 0).toNat.testBit (i % 8)

section
variable [Env]

/-- The upper case table entry of `readdir`. -/
def readdirUpcase (entry : List UInt8) : M Rc := do
  let w ← get
  let startCluster := leAt entry 20 4
  let upcaseSize := leAt entry 24 8
  if w.upcase.isSome then pure .ok
  else if w.sb.clusterInvalid startCluster then do
    exfatError "invalid cluster 0x%x in upcase table"
    pure (.err .eio)
  else if upcaseSize = 0 ∨ upcaseSize > exfatUpcaseChars * 2 ∨ upcaseSize % 2 ≠ 0 then do
    exfatError "bad upcase table size (%"
    pure (.err .eio)
  else if !(← mallocOk) then do
    exfatError "failed to allocate upcase table (%"
    pure (.err .enomem)
  else
    match ← exfatPread upcaseSize (← exfatC2o startCluster) with
    | none => do
      exfatError "failed to read upper case table "
      pure (.err .eio)
    | some comp =>
      if !(← mallocOk) then do
        exfatError "failed to allocate decompressed upcase table"
        pure (.err .enomem)
      else do
        modify fun w => { w with upcase := some (decompressUpcase (le16s (upcaseSize / 2) comp)) }
        pure .ok

/-- The clusters bitmap entry of `readdir`. -/
def readdirBitmap (entry : List UInt8) : M Rc := do
  let startCluster := leAt entry 20 4
  modify fun w => { w with cmap := { w.cmap with startCluster := startCluster } }
  let sb := (← get).sb
  if sb.clusterInvalid startCluster then do
    exfatError "invalid cluster 0x%x in clusters bitmap"
    pure (.err .eio)
  else do
    modify fun w => { w with cmap := { w.cmap with size := sb.clusterCount } }
    if leAt entry 24 8 < (sb.clusterCount + 8 - 1) % 2 ^ 32 / 8 then do
      exfatError "invalid clusters bitmap size"
      pure (.err .eio)
    else do
      modify fun w => { w with cmap := { w.cmap with chunkSize := sb.clusterCount } }
      if !(← mallocOk) then do
        modify fun w => { w with cmap := { w.cmap with chunk := none } }
        exfatError "failed to allocate clusters bitmap chunk "
        pure (.err .enomem)
      else
        match ← exfatPread (bmapSize sb.clusterCount) (← exfatC2o startCluster) with
        | none => do
          -- the new buffer has no defined contents
          modify fun w => { w with cmap := { w.cmap with chunk := some fun _ => false } }
          exfatError "failed to read clusters bitmap "
          pure (.err .eio)
        | some bs => do
          modify fun w => { w with cmap := { w.cmap with chunk := some (bitsOf bs) } }
          pure .ok

/-- The volume label entry of `readdir`. -/
def readdirLabel (entry : List UInt8) : M Rc := do
  if leAt entry 1 1 > exfatEnameMax then do
    exfatError "too long label (%hhu chars)"
    pure (.err .eio)
  else
    let units := le16s exfatEnameMax (entry.drop 2)
    match utf16ToUtf8 units exfatUtf8EnameBufferMax exfatEnameMax with
    | .error _ => do
      -- the characters before the bad one are in the label by now
      modify fun w => w.startLabel (utf16ToUtf8Start units exfatUtf8EnameBufferMax exfatEnameMax)
      exfatError "illegal UTF-16 sequence"
      pure (.err .eio)
    | .ok label => do
      modify fun w => w.copyLabel label
      pure .ok

/-- The entries `readdir` does not know. -/
def readdirDefault (parent : NodeId) (entry : List UInt8) (offset : Nat) : M Rc := do
  if entryType entry 0 &&& exfatEntryValid = 0 then pure .ok -- a deleted entry
  else do
    exfatError "unknown entry type %#hhx"
    if ← exfatAskToFix then
      if ← exfatFixUnknownEntry parent entry offset then pure .ok else pure (.err .eio)
    else pure (.err .eio)

/-- The entries of `readdir` that make no node. -/
def readdirOther (parent : NodeId) (entry : List UInt8) (offset : Nat) : M Rc :=
  let type := entryType entry 0
  if type = exfatEntryUpcase then readdirUpcase entry
  else if type = exfatEntryBitmap then readdirBitmap entry
  else if type = exfatEntryLabel then readdirLabel entry
  else readdirDefault parent entry offset

/-- `readdir`: the next node of a directory at or after an offset, and where to go on. -/
def readdir (parent : NodeId) : Nat → Nat → M (Except Errno (NodeId × Nat))
  | 0, _ => throw .fuel
  | fuel + 1, offset => do
    match ← readEntries parent 1 offset with
    | .error e => pure (.error e)
    | .ok entry =>
      if entryType entry 0 = exfatEntryFile then
        parseFileEntry parent offset (1 + leAt entry 1 1)
      else do
        match ← readdirOther parent entry offset with
        | .err e => pure (.error e)
        | .ok => readdir parent fuel (offset + entrySize)

/-- More iterations than a directory has entries. -/
def dirFuel (dir : NodeId) : M Nat := do
  pure ((← getNode dir).size / entrySize + 2)

/-- Makes a node follow the last child of a directory, or be its first. -/
def follow (dir node : NodeId) (current : Option NodeId) : M Unit :=
  match current with
  | some c => do
    modifyNode c fun n => { n with next := some node }
    modifyNode node fun n => { n with prev := some c }
  | none => modifyNode dir fun n => { n with child := some node }

/-- Links a new node behind the last child of a directory. -/
def linkLast (dir node : NodeId) (current : Option NodeId) : M Unit := do
  modifyNode node fun n => { n with parent := some dir }
  follow dir node current

/-- The loop of `exfat_cache_directory`: links nodes until `readdir` reports an error. -/
def cacheLoop (dir : NodeId) : Nat → Option NodeId → Nat → M Errno
  | 0, _, _ => throw .fuel
  | fuel + 1, current, offset => do
    match ← readdir dir (← dirFuel dir) offset with
    | .error e => pure e
    | .ok (node, offset) => do
      linkLast dir node current
      cacheLoop dir fuel (some node) offset

/-- Frees a list of nodes. -/
def freeNodes : List NodeId → M Unit
  | [] => pure ()
  | i :: is => do
    freeNode i
    freeNodes is

/-- `exfat_cache_directory`. -/
def exfatCacheDirectory (dir : NodeId) : M Rc := do
  if (← getNode dir).isCached then pure .ok
  else do
    let rc ← cacheLoop dir (← dirFuel dir) none 0
    if rc ≠ .enoent then do
      -- rollback
      freeNodes (← children dir)
      modifyNode dir fun n => { n with child := none }
      pure (.err rc)
    else do
      modifyNode dir fun n => { n with isCached := true }
      pure .ok

end

/-- The part of `tree_attach` that moves the children there are behind the new one. -/
def pushBack (node : NodeId) (child : Option NodeId) : M Unit :=
  match child with
  | some c => do
    modifyNode c fun n => { n with prev := some node }
    modifyNode node fun n => { n with next := some c }
  | none => pure ()

/-- `tree_attach`. -/
def treeAttach (dir node : NodeId) : M Unit := do
  modifyNode node fun n => { n with parent := some dir }
  pushBack node (← getNode dir).child
  modifyNode dir fun n => { n with child := some node }

/-- The part of `tree_detach` that leads the list past a node. -/
def skipForward (node : Node) : M Unit :=
  match node.prev with
  | some p => modifyNode p fun n => { n with next := node.next }
  | none => do
    -- the first node in the list
    let parent ← deref node.parent
    modifyNode parent fun n => { n with child := node.next }

/-- The same for the backward pointers. -/
def skipBackward (node : Node) : M Unit :=
  match node.next with
  | some q => modifyNode q fun n => { n with prev := node.prev }
  | none => pure ()

/-- `tree_detach`. -/
def treeDetach (id : NodeId) : M Unit := do
  let node ← getNode id
  skipForward node
  skipBackward node
  modifyNode id fun n => { n with parent := none, prev := none, next := none }

section
variable [Env]

/-- The bytes of the bitmap in memory, as written to disk. -/
def bitByte (chunk : Nat → Bool) (k : Nat) : UInt8 :=
  UInt8.ofNat (Nat.ofBits fun j : Fin 8 => chunk (8 * k + j))

def chunkBytes (chunk : Nat → Bool) (n : Nat) : List UInt8 := (List.range n).map (bitByte chunk)

/-- `exfat_flush`. -/
def exfatFlush : M Rc := do
  let w ← get
  if w.cmap.dirty then do
    let chunk ← getChunk
    let offset ← exfatC2o w.cmap.startCluster
    if ← exfatPwrite (chunkBytes chunk (bmapSize w.cmap.chunkSize)) offset then do
      setChunk chunk false
      pure .ok
    else do
      exfatError "failed to write clusters bitmap"
      pure (.err .eio)
  else pure .ok

/-- The entry set of a node with its attributes, times, size, start cluster and contiguity
written into the first two entries; the checksum comes last. -/
def flushEntries (node : Node) (entries : List UInt8) : List UInt8 :=
  let (mdate, mtime, mtimeCs) := exfatUnix2exfat node.mtime
  let (adate, atime, _) := exfatUnix2exfat node.atime
  let entries := setAt entries 4 (toLe 2 node.attrib)
  let entries := setAt entries 14 (toLe 2 mdate)
  let entries := setAt entries 12 (toLe 2 mtime)
  let entries := setAt entries 21 (toLe 1 mtimeCs)
  let entries := setAt entries 18 (toLe 2 adate)
  let entries := setAt entries 16 (toLe 2 atime)
  let entries := setAt entries (32 + 24) (toLe 8 node.size)
  let entries := setAt entries (32 + 8) (toLe 8 node.size)
  let entries := setAt entries (32 + 20) (toLe 4 node.startCluster)
  -- empty files must not be marked as contiguous
  let flags := if node.size ≠ 0 ∧ node.isContiguous then exfatFlagAlways1 + exfatFlagContiguous
    else exfatFlagAlways1
  let entries := setAt entries (32 + 1) (toLe 1 flags)
  setAt entries 2 (toLe 2 (exfatCalcChecksum entries))

/-- `exfat_flush_node`. -/
def exfatFlushNode (id : NodeId) : M Rc := do
  let node ← getNode id
  if !node.isDirty then pure .ok
  else if (← get).ro ≠ 0 then exfatBug "unable to flush node to read-only FS"
  else
    match node.parent with
    | none => pure .ok -- do not flush unlinked node
    | some parent => do
      let n := 1 + node.continuations
      match ← readEntries parent n node.entryOffset with
      | .error e => pure (.err e)
      | .ok entries =>
        if !(← checkEntries entries n) then pure (.err .eio)
        else do
          let rc ← writeEntries parent (flushEntries node entries) node.entryOffset
          if rc ≠ .ok then pure rc
          else do
            modifyNode id fun n => { n with isDirty := false }
            exfatFlush

mutual

/-- `flush_nodes`: the children first, then the node. The fuel bounds the depth. -/
def flushNodes : Nat → NodeId → M Rc
  | 0, _ => throw .fuel
  | fuel + 1, id => do
    let rc ← flushList fuel (← children id)
    if rc ≠ .ok then pure rc else exfatFlushNode id

/-- The loop of `flush_nodes` over a list of children. -/
def flushList : Nat → List NodeId → M Rc
  | _, [] => pure .ok
  | 0, _ :: _ => throw .fuel
  | fuel + 1, p :: ps => do
    let rc ← flushNodes fuel p
    if rc ≠ .ok then pure rc else flushList fuel ps

end

/-- `exfat_flush_nodes`; the fuel exceeds the length of every path through the tree. -/
def exfatFlushNodes : M Rc := do
  let w ← get
  flushNodes (2 * w.fresh + 2) w.root

end

end Exfat
