import Exfat.Model.Types

namespace Exfat
open Lib

/-! `bptree.c`: the recovery tool's tree of directory entries, stored level by level in an array. -/

/-- `BPTREE_CHILD_NODES`. -/
@[simp] def bptreeChildNodes : Nat := 8

/-- The loop of `alloc_bptree_heap` over `n` levels; sizes are 64-bit values. -/
def heapSizeLoop : Nat → Nat → Nat → Nat
  | 0, _, heapSize => heapSize
  | n + 1, levelSize, heapSize =>
    let levelSize := levelSize * bptreeChildNodes % 2 ^ 64
    heapSizeLoop n levelSize ((heapSize + levelSize) % 2 ^ 64)

/-- The size that `alloc_bptree_heap` computes. -/
def allocHeapSize (levels : Nat) : Nat := heapSizeLoop (levels - 1) 1 1

/-- The loop of `get_bptree_entry_heap_offset`: the offset and the size of the next level. -/
def heapOffsetLoop : Nat → Nat → Nat → Nat × Nat
  | 0, heapOffset, levelSize => (heapOffset, levelSize)
  | height + 1, heapOffset, levelSize =>
    heapOffsetLoop height ((heapOffset + levelSize) % 2 ^ 32) (levelSize * bptreeChildNodes % 2 ^ 32)

/-- `get_bptree_entry_heap_offset`; the offset inside the level is not used. -/
def getBptreeEntryHeapOffset (height _levelOffset : Nat) : Nat :=
  let (heapOffset, levelSize) := heapOffsetLoop height 0 1
  (heapOffset + levelSize) % 2 ^ 32

/-- The loop of `get_bptree_entry_height_and_index`; `none` if it did not end within the fuel. -/
def heightAndIndexLoop : Nat → Nat → Nat → Nat → Option (Nat × Nat)
  | 0, _, _, _ => none
  | fuel + 1, heapOffset, levelSize, height =>
    if heapOffset > 0 then
      heightAndIndexLoop fuel ((heapOffset + 2 ^ 32 - levelSize) % 2 ^ 32)
        (levelSize * bptreeChildNodes % 2 ^ 32) ((height + 1) % 2 ^ 8)
    else some (height, (2 ^ 32 - heapOffset) % 2 ^ 32)

/-- `get_bptree_entry_height_and_index`. -/
def getBptreeEntryHeightAndIndex (fuel heapOffset : Nat) : Option (Nat × Nat) :=
  heightAndIndexLoop fuel heapOffset 1 0

/-- The members of `struct bptree_node` that are used: the directory entry, its offset on the disk
and the links of the tree. -/
structure BptreeNode where
  entry : List UInt8 := List.replicate 32 0
  offset : Nat := 0
  parentNode : Nat := 0
  childNodes : Vector Nat 8 := Vector.replicate 8 0

/-- `struct bptree`. -/
structure Bptree where
  heap : Nat → BptreeNode
  treeHeight : Nat
  heapSize : Nat
  maxHeight : Nat

/-- `make_bptree`: everything but the root is zero. -/
def makeBptree (height : Nat) (rootDirectory : List UInt8) (rootDirectoryOffset : Nat) : Bptree where
  heap j := if j = 0 then { entry := rootDirectory, offset := rootDirectoryOffset } else {}
  treeHeight := height
  heapSize := allocHeapSize height
  maxHeight := 0

abbrev TreeM (α : Type) : Type := Prog Bptree Halt α

/-- An element of the heap; behind the last one the access is out of bounds. -/
def getHeap (j : Nat) : TreeM BptreeNode := do
  let t ← get
  if j < t.heapSize then pure (t.heap j) else throw .fault

def setHeap (j : Nat) (n : BptreeNode) : TreeM Unit := do
  let t ← get
  if j < t.heapSize then set { t with heap := fun x => if x = j then n else t.heap x }
  else throw .fault

def modifyHeap (j : Nat) (f : BptreeNode → BptreeNode) : TreeM Unit := do
  let n ← getHeap j
  setHeap j (f n)

/-- `memmove` of `count` elements inside the heap. -/
def moveHeap (target source count : Nat) : TreeM Unit := do
  let t ← get
  if count = 0 then pure ()
  else if target + count ≤ t.heapSize ∧ source + count ≤ t.heapSize then
    set { t with
      heap := fun x =>
        if target ≤ x ∧ x < target + count then t.heap (source + (x - target)) else t.heap x }
  else throw .fault

/-- Child `c` of an element. -/
def BptreeNode.child (n : BptreeNode) (c : Nat) : Nat := n.childNodes.toList.getD c 0

def BptreeNode.setChild (n : BptreeNode) (c v : Nat) : BptreeNode :=
  { n with childNodes := n.childNodes.setIfInBounds c v }

/-- The loop of the pivot that finds and updates the child pointer of a node's parent, over `n`
children from `c` on. -/
def updateParent (node old new : Nat) : Nat → Nat → TreeM Unit
  | 0, _ => pure ()
  | n + 1, c => do
    let parent := (← getHeap node).parentNode
    if (← getHeap parent).child c = old then modifyHeap parent fun x => x.setChild c new
    else updateParent node old new n (c + 1)

/-- The loop of the pivot that updates the parent pointers of a node's children. -/
def updateChildren (node new : Nat) : Nat → Nat → TreeM Unit
  | 0, _ => pure ()
  | n + 1, c => do
    let child := (← getHeap node).child c
    if child ≠ 0 then do
      modifyHeap child fun x => { x with parentNode := new }
      updateChildren node new n (c + 1)
    else updateChildren node new n (c + 1)

/-- The part of the pivot that moves a node down to a free place and stores the new pair in the
old one. -/
def moveDown (node heapOffset : Nat) (entry : List UInt8) (entryOffset : Nat) : TreeM Nat := do
  setHeap heapOffset (← getHeap node)
  updateParent node node heapOffset bptreeChildNodes 0
  updateChildren node heapOffset bptreeChildNodes 0
  modifyHeap node fun x => { x with entry := entry, offset := entryOffset }
  pure node

/-- The loop of the pivot that looks for the next empty node. It ends with the heap offset of a node
that was moved, or with the place and the height it has found. -/
def pivotLoop (node height : Nat) (entry : List UInt8) (entryOffset : Nat) :
    Nat → Nat → Nat → TreeM (Nat ⊕ Nat × Nat)
  | 0, _, _ => throw .fuel
  | fuel + 1, heapOffset, heapOffsetHeight => do
    let heapOffset := (heapOffset + 1) % 2 ^ 32
    if (← getHeap heapOffset).offset ≠ 0 then
      match getBptreeEntryHeightAndIndex (fuel + 1) heapOffset with
      | none => throw .fuel
      | some (heapOffsetHeight, _) => do
        if heapOffsetHeight ≥ (← get).treeHeight then
          throw (.bug "dynamically resizing the bptree is not currently supported")
        else if heapOffsetHeight > height then do
          let out ← moveDown node heapOffset entry entryOffset
          pure (.inl out)
        else pivotLoop node height entry entryOffset fuel heapOffset heapOffsetHeight
    else pure (.inr (heapOffset, heapOffsetHeight))

/-- The pivot: it ends the call, or makes room and goes on. -/
def pivot (fuel node height levelOffset : Nat) (entry : List UInt8) (entryOffset : Nat) :
    TreeM (Option Nat) := do
  let heapOffset := getBptreeEntryHeapOffset height levelOffset
  match ← pivotLoop node height entry entryOffset fuel heapOffset height with
  | .inl out => pure (some out)
  | .inr (heapOffset, heapOffsetHeight) =>
    if heapOffsetHeight = height then do
      -- the number of elements is the place of the node
      moveHeap heapOffset node node
      pure none
    else do
      modify fun t => { t with maxHeight := (t.maxHeight + 1) % 2 ^ 8 }
      pure none

/-- The part of `insert_bptree_node` that stores the pair below a node with a free slot `i`. -/
def storeChild (node height levelOffset i : Nat) (entry : List UInt8) (entryOffset : Nat) :
    TreeM Nat := do
  let heapOffset := getBptreeEntryHeapOffset height levelOffset
  let out := getBptreeEntryHeapOffset ((height + 1) % 2 ^ 8)
    (levelOffset * bptreeChildNodes % 2 ^ 32)
  modifyHeap node fun x => x.setChild i out
  modifyHeap out fun x =>
    { x with entry := entry, offset := entryOffset, parentNode := heapOffset }
  pure out

/-- The loops of `insert_bptree_node`: the inner one is at child `i` of a node, the outer one starts
again at child 0. -/
def insertLoop (entry : List UInt8) (entryOffset : Nat) :
    Nat → Nat → Nat → Nat → Nat → TreeM Nat
  | 0, _, _, _, _ => throw .fuel
  | fuel + 1, node, height, levelOffset, i =>
    if i ≥ bptreeChildNodes then insertLoop entry entryOffset fuel node height levelOffset 0
    else do
      let child := (← getHeap node).child i
      if child = 0 then storeChild node height levelOffset i entry entryOffset
      else do
        let c ← getHeap child
        if entryOffset > c.offset then
          insertLoop entry entryOffset fuel node height ((levelOffset + 1) % 2 ^ 32) (i + 1)
        else if entryOffset < c.offset then do
          let done ←
            if height ≥ (← get).maxHeight then
              pivot (fuel + 1) node height levelOffset entry entryOffset
            else pure none
          match done with
          | some out => pure out
          | none =>
            let next := (← getHeap node).child i
            insertLoop entry entryOffset fuel next ((height + 1) % 2 ^ 8)
              (levelOffset * bptreeChildNodes % 2 ^ 32) 0
        else insertLoop entry entryOffset fuel node height levelOffset (i + 1)

/-- `insert_bptree_node`: the heap offset it hands out. -/
def insertBptreeNode (fuel : Nat) (entry : List UInt8) (entryOffset : Nat) : TreeM Nat :=
  insertLoop entry entryOffset fuel 0 0 0 0

end Exfat
