import Exfat.Model.Node

namespace Exfat
open Lib

/-! `lookup.c`. A path is the byte string before its terminator. -/

/-- The upper case table; without one the access faults. -/
def getUpcase : M (Nat → Nat) := do
  match (← get).upcase with
  | some upcase => pure upcase
  | none => throw .fault

def compareChar (upcase : Nat → Nat) (a b : Nat) : Int := (upcase a : Int) - (upcase b : Int)

/-- `compare_name`; both arrays hold a terminator. -/
def compareName (upcase : Nat → Nat) : List Nat → List Nat → Int
  | a :: as, b :: bs =>
    if a ≠ 0 ∧ b ≠ 0 then
      let rc := compareChar upcase a b
      if rc ≠ 0 then rc else compareName upcase as bs
    else compareChar upcase a b
  | as, bs => compareChar upcase (as.headD 0) (bs.headD 0)

/-- `utf8_to_utf16` as the callers see it: a failure has been reported. -/
def nameToUtf16 (name : List UInt8) (outsize : Nat) : M (Except Errno (List Nat)) :=
  match utf8ToUtf16 name outsize with
  | .ok units => pure (.ok units)
  | .error e => do
    exfatError "illegal UTF-8 sequence"
    pure (.error e)

section
variable [Env]

/-- `exfat_opendir`. -/
def exfatOpendir (dir : NodeId) : M Rc := do
  exfatGetNode dir
  let rc ← exfatCacheDirectory dir
  if rc ≠ .ok then exfatPutNode dir
  pure rc

/-- `exfat_closedir`. -/
def exfatClosedir (dir : NodeId) : M Unit := exfatPutNode dir

/-- `struct exfat_iterator`. -/
structure Iterator where
  parent : NodeId
  current : Option NodeId

/-- `exfat_readdir`: the next child, with one more reference, and the iterator after it. -/
def exfatReaddir (it : Iterator) : M (Option NodeId × Iterator) := do
  let next ← match it.current with
    | none => pure (← getNode it.parent).child
    | some current => pure (← getNode current).next
  match next with
  | none => pure (none, { it with current := none })
  | some node => do
    exfatGetNode node
    pure (some node, { it with current := some node })

/-- The loop of `lookup_name` over the children; the node found keeps its reference. -/
def lookupLoop (buffer : List Nat) : List NodeId → M (Option NodeId)
  | [] => pure none
  | p :: ps => do
    exfatGetNode p
    if compareName (← getUpcase) buffer (← getNode p).name = 0 then pure (some p)
    else do
      exfatPutNode p
      lookupLoop buffer ps

/-- `lookup_name`. -/
def lookupName (parent : NodeId) (name : List UInt8) : M (Except Errno NodeId) := do
  match ← nameToUtf16 name (exfatNameMax + 1) with
  | .error e => pure (.error e)
  | .ok buffer =>
    match ← exfatOpendir parent with
    | .err e => pure (.error e)
    | .ok => do
      let found ← lookupLoop buffer (← children parent)
      exfatClosedir parent
      match found with
      | some node => pure (.ok node)
      | none => pure (.error .enoent)

end

/-- The byte `/`. -/
def slash : UInt8 := 0x2f

/-- The byte `.`. -/
def dot : UInt8 := 0x2e

/-- `get_comp`: the next component of a path and what follows it. -/
def getComp (path : List UInt8) : List UInt8 × List UInt8 :=
  let comp := path.dropWhile (· = slash)
  (comp.takeWhile (· ≠ slash), comp.dropWhile (· ≠ slash))

/-- `is_last_comp` of what follows a component. -/
def isLastComp (rest : List UInt8) : Bool := (getComp rest).1.isEmpty

/-- `is_allowed`. -/
def isAllowed (comp : List UInt8) : Bool :=
  comp.all fun b =>
    let c := b.toNat
    !((1 ≤ c ∧ c ≤ 0x1f) || [0x2f, 0x5c, 0x3a, 0x2a, 0x3f, 0x22, 0x3c, 0x3e, 0x7c].contains c)

section
variable [Env]

/-- The loop of `exfat_lookup`; each component takes at least one byte of the path. -/
def lookupPath : Nat → NodeId → List UInt8 → M (Except Errno NodeId)
  | 0, parent, _ => pure (.ok parent)
  | fuel + 1, parent, path =>
    let (comp, rest) := getComp path
    if comp.isEmpty then pure (.ok parent)
    else if comp = [dot] then lookupPath fuel parent rest
    else do
      match ← lookupName parent comp with
      | .error e => do
        exfatPutNode parent
        pure (.error e)
      | .ok node => do
        exfatPutNode parent
        lookupPath fuel node rest

/-- `exfat_lookup`: the node found, with one more reference. -/
def exfatLookup (path : List UInt8) : M (Except Errno NodeId) := do
  let root := (← get).root
  exfatGetNode root
  lookupPath (path.length + 1) root path

/-- The loop of `exfat_split`: the directory, the node if there is one, and the name. -/
def splitPath : Nat → NodeId → List UInt8 → M (Except Errno (NodeId × Option NodeId × List Nat))
  | 0, _, _ => exfatBug "impossible"
  | fuel + 1, parent, path =>
    let (comp, rest) := getComp path
    if comp.isEmpty then exfatBug "impossible"
    else if comp = [dot] then splitPath fuel parent rest
    else if isLastComp rest then
      if !isAllowed comp then do
        -- contains characters that are not allowed
        exfatPutNode parent
        pure (.error .enoent)
      else do
        match ← nameToUtf16 comp (exfatNameMax + 1) with
        | .error e => do
          exfatPutNode parent
          pure (.error e)
        | .ok name =>
          match ← lookupName parent comp with
          | .ok node => pure (.ok (parent, some node, padName name))
          | .error .enoent => pure (.ok (parent, none, padName name))
          | .error e => do
            exfatPutNode parent
            pure (.error e)
    else do
      match ← lookupName parent comp with
      | .error e => do
        exfatPutNode parent
        pure (.error e)
      | .ok node => do
        exfatPutNode parent
        splitPath fuel node rest

/-- `exfat_split`. -/
def exfatSplit (path : List UInt8) : M (Except Errno (NodeId × Option NodeId × List Nat)) := do
  let root := (← get).root
  exfatGetNode root
  splitPath (path.length + 1) root path

end

end Exfat
