import Exfat.Model.Lookup

namespace Exfat
open Lib

/-! `node.c`: creating, removing and renaming, and the volume label. -/

section
variable [Env]

/-- `exfat_cleanup_node`. -/
def exfatCleanupNode (id : NodeId) : M Rc := do
  let node ← getNode id
  if node.references ≠ 0 then exfatBug "unable to cleanup a node with %d references"
  else if node.isUnlinked then do
    -- free all clusters and the node itself, also on error
    let rc ← exfatTruncate id 0 true
    freeNode id
    pure rc
  else pure .ok

/-- An array of `n` entries with the valid bit of every type cleared. -/
def eraseTypes (entries : List UInt8) : List UInt8 :=
  entries.mapIdx fun i b => if i % entrySize = 0 then b &&& 0x7f else b

/-- `erase_entries`. -/
def eraseEntries (dir : NodeId) (n offset : Nat) : M Rc := do
  match ← readEntries dir n offset with
  | .error e => pure (.err e)
  | .ok entries => writeEntries dir (eraseTypes entries) offset

/-- `erase_node`. -/
def eraseNode (id : NodeId) : M Rc := do
  let node ← getNode id
  let parent ← deref node.parent
  exfatGetNode parent
  let rc ← eraseEntries parent (1 + node.continuations) node.entryOffset
  if rc ≠ .ok then do
    exfatPutNode parent
    pure rc
  else do
    let rc ← exfatFlushNode parent
    exfatPutNode parent
    pure rc

/-- The loop of `shrink_directory`: `none` when an entry follows the deleted one, otherwise the
child with the greatest offset. -/
def lastNode (deletedOffset : Nat) : List Node → Option Node → Option (Option Node)
  | [], last => some last
  | node :: rest, last =>
    if deletedOffset < node.entryOffset then none
    else
      match last with
      | none => lastNode deletedOffset rest (some node)
      | some l =>
        lastNode deletedOffset rest (some (if l.entryOffset < node.entryOffset then node else l))

/-- Number of entries a directory needs to hold everything up to a last child. -/
def entriesUpTo : Option Node → Nat
  | none => 0
  | some last =>
    last.entryOffset / entrySize + 2 + divRoundUp (utf16Length last.name) exfatEnameMax

def getNodes : List NodeId → M (List Node)
  | [] => pure []
  | i :: is => do
    let n ← getNode i
    let ns ← getNodes is
    pure (n :: ns)

/-- `shrink_directory`. -/
def shrinkDirectory (dir : NodeId) (deletedOffset : Nat) : M Rc := do
  let node ← getNode dir
  if !node.isDir then exfatBug "attempted to shrink a file"
  else if !node.isCached then exfatBug "attempted to shrink uncached directory"
  else do
    match lastNode deletedOffset (← getNodes (← children dir)) none with
    | none => pure .ok -- no way to shrink this directory
    | some last =>
      let clusterSize := (← get).sb.clusterSize
      let newSize := roundUp (entriesUpTo last * entrySize) clusterSize
      -- directory always has at least 1 cluster
      let newSize := if newSize = 0 then clusterSize else newSize
      if newSize = node.size then pure .ok
      else exfatTruncate dir newSize true

/-- `delete`. -/
def delete (id : NodeId) : M Rc := do
  let node ← getNode id
  let parent ← deref node.parent
  exfatGetNode parent
  let rc ← eraseNode id
  if rc ≠ .ok then do
    exfatPutNode parent
    pure rc
  else do
    treeDetach id
    let rc ← shrinkDirectory parent node.entryOffset
    modifyNode id fun n => { n with isUnlinked := true }
    if rc ≠ .ok then do
      let _ ← exfatFlushNode parent
      exfatPutNode parent
      pure rc
    else do
      exfatUpdateMtime parent
      let rc ← exfatFlushNode parent
      exfatPutNode parent
      pure rc

/-- `exfat_unlink`. -/
def exfatUnlink (id : NodeId) : M Rc := do
  if (← getNode id).isDir then pure (.err .eisdir) else delete id

/-- `exfat_rmdir`. -/
def exfatRmdir (id : NodeId) : M Rc := do
  if !(← getNode id).isDir then pure (.err .enotdir)
  else do
    -- check that directory is empty
    let rc ← exfatCacheDirectory id
    if rc ≠ .ok then pure rc
    else if (← getNode id).child.isSome then pure (.err .enotempty)
    else delete id

/-- `check_slot`: only the root directory has entries without nodes. -/
def checkSlot (dir : NodeId) (offset n : Nat) : M Rc := do
  if dir ≠ (← get).root then pure .ok
  else
    match ← readEntries dir n offset with
    | .error e => pure (.err e)
    | .ok entries =>
      if (entryTypes entries n).any fun t => t &&& exfatEntryValid ≠ 0 then pure (.err .einval)
      else pure .ok

/-- Entry `i` belongs to some child: the bitmap `dmap` of `find_slot`. -/
def slotTaken (nodes : List Node) (i : Nat) : Bool :=
  nodes.any fun p =>
    p.entryOffset / entrySize ≤ i && i < p.entryOffset / entrySize + 1 + p.continuations

/-- How the search of `find_slot` ended. -/
inductive Search where
  | found (offset : Nat)
  | failed (e : Errno)
  | exhausted (contiguous offset : Nat)

/-- The search loop of `find_slot` at entry `i` of `total`. After an occupied slot it backs up to
the entry after the one the slot started with. -/
def slotLoop (dir : NodeId) (dmap : Nat → Bool) (total n : Nat) :
    Nat → Nat → Nat → Nat → M Search
  | 0, _, _, _ => throw .fuel
  | fuel + 1, i, contiguous, offset =>
    if i ≥ total then pure (.exhausted contiguous offset)
    else if dmap i then slotLoop dir dmap total n fuel (i + 1) 0 offset
    else
      let offset := if contiguous = 0 then i * entrySize else offset
      let contiguous := contiguous + 1
      if contiguous = n then do
        match ← checkSlot dir offset n with
        | .ok => pure (.found offset)
        | .err .eio => pure (.failed .eio)
        | .err .einval => slotLoop dir dmap total n fuel (i - (contiguous - 1) + 1) 0 offset
        | .err _ => slotLoop dir dmap total n fuel (i + 1) contiguous offset
      else slotLoop dir dmap total n fuel (i + 1) contiguous offset

/-- `find_slot`: the return code and the offset of the slot. -/
def findSlot (dir : NodeId) (n : Nat) : M (Rc × Nat) := do
  let node ← getNode dir
  if !node.isCached then exfatBug "directory is not cached"
  else if !(← mallocOk) then do
    exfatError "failed to allocate directory bitmap (%"
    pure (.err .enomem, 0)
  else do
    let dmap := slotTaken (← getNodes (← children dir))
    let total := node.size / entrySize
    match ← slotLoop dir dmap total n ((total + 1) * (n + 1) + 1) 0 0 0 with
    | .found offset => pure (.ok, offset)
    | .failed e => pure (.err e, 0)
    | .exhausted contiguous offset => do
      -- no suitable slots found, extend the directory
      let node ← getNode dir
      let offset := if contiguous = 0 then node.size else offset
      let rc ← exfatTruncate dir
        (roundUp (node.size + entrySize * (n - contiguous)) (← get).sb.clusterSize) true
      pure (rc, offset)

/-- `DIV_ROUND_UP(utf16_length(name), EXFAT_ENAME_MAX)`. -/
def nameEntries (name : List Nat) : Nat := divRoundUp (utf16Length name) exfatEnameMax

/-- Name entry `i` of a name. -/
def nameEntry (name : List Nat) (i : Nat) : List UInt8 :=
  [UInt8.ofNat exfatEntryFileName, 0] ++
    ((name.drop (i * exfatEnameMax)).take exfatEnameMax).flatMap (toLe 2)

/-- The name entries of a set. -/
def nameTail (name : List Nat) : List UInt8 :=
  (List.range (nameEntries name)).flatMap (nameEntry name)

/-- An entry set with its checksum filled in. -/
def withChecksum (entries : List UInt8) : List UInt8 :=
  setAt entries 2 (toLe 2 (exfatCalcChecksum entries))

/-- The entries `commit_entry` writes. -/
def commitEntries (upcase : Nat → Nat) (name : List Nat) (attrib : Nat) (now : Int) :
    List UInt8 :=
  let (date, time, cs) := exfatUnix2exfat now
  let length := utf16Length name
  let meta1 := toLe 1 exfatEntryFile ++ toLe 1 (1 + nameEntries name) ++ toLe 2 0 ++
    toLe 2 attrib ++ toLe 2 0 ++ toLe 2 time ++ toLe 2 date ++ toLe 2 time ++ toLe 2 date ++
    toLe 2 time ++ toLe 2 date ++ toLe 1 cs ++ toLe 1 cs ++ toLe 10 0
  let meta2 := toLe 1 exfatEntryFileInfo ++ toLe 1 exfatFlagAlways1 ++ toLe 1 0 ++
    toLe 1 length ++ toLe 2 (exfatCalcNameHash upcase name length) ++ toLe 2 0 ++ toLe 8 0 ++
    toLe 4 0 ++ toLe 4 exfatClusterFree ++ toLe 8 0
  withChecksum (meta1 ++ meta2 ++ nameTail name)

/-- `commit_entry`. -/
def commitEntry (dir : NodeId) (name : List Nat) (offset attrib : Nat) : M Rc := do
  let now ← timeNow
  let entries := commitEntries (← getUpcase) name attrib now
  let rc ← writeEntries dir entries offset
  if rc ≠ .ok then pure rc
  else
    match ← allocateNode with
    | none => pure (.err .enomem)
    | some id => do
      modifyNode id fun n =>
        { n with entryOffset := offset, name := padName (name.take (utf16Length name)) }
      initNodeMeta1 id entries
      initNodeMeta2 id (entries.drop entrySize)
      treeAttach dir id
      pure .ok

/-- `create` in the directory, beside the node and under the name that `exfat_split` found. -/
def createIn (attrib : Nat) : NodeId × Option NodeId × List Nat → M Rc
  | (dir, some existing, _) => do
    exfatPutNode existing
    exfatPutNode dir
    pure (.err .eexist)
  | (dir, none, name) => do
    let (rc, offset) ← findSlot dir (2 + nameEntries name)
    if rc ≠ .ok then do
      exfatPutNode dir
      pure rc
    else do
      let rc ← commitEntry dir name offset attrib
      if rc ≠ .ok then do
        exfatPutNode dir
        pure rc
      else do
        exfatUpdateMtime dir
        let rc ← exfatFlushNode dir
        exfatPutNode dir
        pure rc

/-- `create`. -/
def create (path : List UInt8) (attrib : Nat) : M Rc := do
  match ← exfatSplit path with
  | .error e => pure (.err e)
  | .ok target => createIn attrib target

/-- `exfat_mknod`. -/
def exfatMknod (path : List UInt8) : M Rc := create path exfatAttribArch

/-- The end of `exfat_mkdir` after a failure: the new directory is removed again. -/
def mkdirUndo (node : NodeId) (rc : Rc) : M Rc := do
  let _ ← delete node
  exfatPutNode node
  pure rc

/-- `exfat_mkdir` after `create`: a directory always has at least one cluster. -/
def mkdirFinish (path : List UInt8) (rc : Rc) : M Rc := do
  if rc ≠ .ok then pure rc
  else
    match ← exfatLookup path with
    | .error _ => pure .ok
    | .ok node => do
      let rc ← exfatTruncate node (← get).sb.clusterSize true
      if rc ≠ .ok then mkdirUndo node rc
      else do
        let rc ← exfatFlushNode node
        if rc ≠ .ok then mkdirUndo node rc
        else do
          exfatPutNode node
          pure .ok

/-- `exfat_mkdir`. -/
def exfatMkdir (path : List UInt8) : M Rc := do
  let rc ← create path exfatAttribDir
  mkdirFinish path rc

/-- The entries `rename_entry` writes, made from the first two entries of the old set. -/
def renameEntries (upcase : Nat → Nat) (entries : List UInt8) (name : List Nat) : List UInt8 :=
  let length := utf16Length name
  let entries := setAt entries 1 (toLe 1 (1 + nameEntries name))
  let entries := setAt entries (32 + 3) (toLe 1 length)
  let entries := setAt entries (32 + 4) (toLe 2 (exfatCalcNameHash upcase name length))
  withChecksum (entries ++ nameTail name)

/-- `rename_entry`. -/
def renameEntry (dir id : NodeId) (name : List Nat) (newOffset : Nat) : M Rc := do
  let node ← getNode id
  let parent ← deref node.parent
  match ← readEntries parent 2 node.entryOffset with
  | .error e => pure (.err e)
  | .ok entries => do
    let upcase ← getUpcase
    let rc ← eraseNode id
    if rc ≠ .ok then pure rc
    else do
      modifyNode id fun n =>
        { n with entryOffset := newOffset, continuations := 1 + nameEntries name }
      let rc ← writeEntries dir (renameEntries upcase entries name) newOffset
      if rc ≠ .ok then pure rc
      else do
        modifyNode id fun n => { n with name := name }
        treeDetach id
        treeAttach dir id
        pure .ok

/-- Is a node on the way from a directory up to the root? -/
def isAncestor (id : NodeId) : Nat → Option NodeId → M Bool
  | _, none => pure false
  | 0, some _ => throw .fuel
  | fuel + 1, some p => do
    if id = p then pure true else isAncestor id fuel (← getNode p).parent

/-- The removal of another node that has the new name: only a node of the same kind is replaced. -/
def removeExisting (id existing : NodeId) : M Rc := do
  let node ← getNode id
  if (← getNode existing).isDir then
    if node.isDir then exfatRmdir existing else pure (.err .enotdir)
  else
    if !node.isDir then exfatUnlink existing else pure (.err .eisdir)

/-- The part of `exfat_rename` that removes an existing target; `ok` when the name is free. -/
def removeTarget (id existing : NodeId) : M Rc := do
  if existing = id then do
    exfatPutNode existing
    pure .ok
  else do
    let rc ← removeExisting id existing
    exfatPutNode existing
    if rc ≠ .ok then do
      -- free clusters even if something went wrong
      let _ ← exfatCleanupNode existing
      pure rc
    else exfatCleanupNode existing

/-- Is the target directory the node to be renamed or inside it? -/
def targetInside (id dir : NodeId) : M Bool := do
  if (← getNode id).isDir then isAncestor id ((← get).fresh + 1) (some dir) else pure false

/-- `exfat_put_node` on a node that may be missing. -/
def putExisting (existing : Option NodeId) : M Unit :=
  match existing with
  | some e => exfatPutNode e
  | none => pure ()

/-- Makes the new name free. -/
def clearTarget (id : NodeId) (existing : Option NodeId) : M Rc :=
  match existing with
  | some e => removeTarget id e
  | none => pure .ok

/-- The paths of `exfat_rename`: the node, its new directory, the node that has the new name and the
new name, with a reference on every node. -/
def renamePaths (oldPath newPath : List UInt8) :
    M (Except Errno (NodeId × NodeId × Option NodeId × List Nat)) := do
  match ← exfatLookup oldPath with
  | .error e => pure (.error e)
  | .ok id =>
    match ← exfatSplit newPath with
    | .error e => do
      exfatPutNode id
      pure (.error e)
    | .ok (dir, existing, name) => pure (.ok (id, dir, existing, name))

/-- The end of `exfat_rename`. -/
def renamePut (id dir : NodeId) (rc : Rc) : M Rc := do
  exfatPutNode dir
  exfatPutNode id
  pure rc

/-- `exfat_rename` once the new name is free. -/
def renameMove (id dir : NodeId) (name : List Nat) : M Rc := do
  let (rc, offset) ← findSlot dir (2 + nameEntries name)
  if rc ≠ .ok then renamePut id dir rc
  else do
    let rc ← renameEntry dir id name offset
    if rc ≠ .ok then renamePut id dir rc
    else do
      let rc ← exfatFlushNode dir
      renamePut id dir rc

/-- `exfat_rename` after the paths were looked up. -/
def renameNode : NodeId × NodeId × Option NodeId × List Nat → M Rc
  | (id, dir, existing, name) => do
    -- check that target is not a subdirectory of the source
    if ← targetInside id dir then do
      putExisting existing
      renamePut id dir (.err .einval)
    else do
      let rc ← clearTarget id existing
      if rc ≠ .ok then renamePut id dir rc else renameMove id dir name

/-- `exfat_rename`. -/
def exfatRename (oldPath newPath : List UInt8) : M Rc := do
  match ← renamePaths oldPath newPath with
  | .error e => pure (.err e)
  | .ok target => renameNode target

/-- `find_label`. -/
def findLabel : Nat → Nat → M (Except Errno Nat)
  | 0, _ => throw .fuel
  | fuel + 1, offset => do
    match ← readEntries (← get).root 1 offset with
    | .error e => pure (.error e)
    | .ok entry =>
      if entryType entry 0 = exfatEntryLabel then pure (.ok offset)
      else findLabel fuel (offset + entrySize)

/-- The entry `exfat_set_label` writes. -/
def labelEntry (units : List Nat) : List UInt8 :=
  let length := utf16Length units
  let type := if length = 0 then exfatEntryLabel ^^^ exfatEntryValid else exfatEntryLabel
  let name := (units ++ List.replicate (exfatEnameMax + 1 - units.length) 0).take exfatEnameMax
  toLe 1 type ++ toLe 1 length ++ name.flatMap (toLe 2)

/-- Where `exfat_set_label` writes: over the label there is, or into a free slot. -/
def labelSlot (root : NodeId) : M (Rc × Nat) := do
  match ← findLabel (← dirFuel root) 0 with
  | .ok offset => pure (.ok, offset)
  | .error .enoent => findSlot root 1
  | .error e => pure (.err e, 0)

/-- `exfat_set_label`. -/
def exfatSetLabel (label : List UInt8) : M Rc := do
  match ← nameToUtf16 label (exfatEnameMax + 1) with
  | .error e => pure (.err e)
  | .ok units => do
    let root := (← get).root
    let (rc, offset) ← labelSlot root
    if rc ≠ .ok then pure rc
    else do
      let rc ← writeEntries root (labelEntry units) offset
      if rc ≠ .ok then pure rc
      else do
        modify fun w => w.copyLabel label
        pure .ok

end

end Exfat
