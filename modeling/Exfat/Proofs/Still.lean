import Exfat.Proofs.Basic

namespace Exfat
open Lib

/-! What calls leave alone, whatever the device holds: the skeleton of the tree. -/

/-- The part of a node that the tree and the directories' slots are made of. -/
def Node.skel (n : Node) : Node :=
  { n with
    references := 0, fptrIndex := 0, fptrCluster := 0, startCluster := 0, isContiguous := false
    isDirty := false, mtime := 0, atime := 0 }

/-- The skeleton with the references. -/
def Node.frame (n : Node) : Node := { n.skel with references := n.references }

/-- The halt of `exfat_put_node`. -/
def belowZero : Halt := .bug "reference counter of '%s' is below zero"

namespace Proofs

theorem skel_eq_iff {m n : Node} : m.skel = n.skel ↔
    m.parent = n.parent ∧ m.child = n.child ∧ m.next = n.next ∧ m.prev = n.prev ∧
      m.entryOffset = n.entryOffset ∧ m.attrib = n.attrib ∧ m.continuations = n.continuations ∧
      m.isCached = n.isCached ∧ m.isUnlinked = n.isUnlinked ∧ m.size = n.size ∧ m.name = n.name := by
  simp [Node.skel]

theorem skel_size {m n : Node} (h : m.skel = n.skel) : m.size = n.size :=
  (skel_eq_iff.mp h).2.2.2.2.2.2.2.2.2.1

/-- The tree and the slots of every directory are the same. -/
structure Calm (w v : World) : Prop where
  skel : ∀ i, (v.nodes i).map Node.skel = (w.nodes i).map Node.skel
  fresh : w.fresh ≤ v.fresh
  root : v.root = w.root
  upcase : ∀ u, w.upcase = some u → v.upcase = some u
  sb : v.sb = w.sb

theorem Calm.refl (w : World) : Calm w w := ⟨fun _ => rfl, le_rfl, rfl, fun _ h => h, rfl⟩

theorem Calm.trans (w v u : World) (h : Calm w v) (h' : Calm v u) : Calm w u :=
  ⟨fun i => (h'.skel i).trans (h.skel i), h.fresh.trans h'.fresh, h'.root.trans h.root,
    fun u hu => h'.upcase u (h.upcase u hu), h'.sb.trans h.sb⟩

/-- Nodes correspond to each other. -/
theorem Calm.node {w v : World} (h : Calm w v) {i : NodeId} {n : Node} (hn : w.nodes i = some n) :
    ∃ m, v.nodes i = some m ∧ m.skel = n.skel := by
  have hs := h.skel i
  rw [hn] at hs
  cases hm : v.nodes i with
  | none => rw [hm] at hs; cases hs
  | some m => exact ⟨m, rfl, by rw [hm] at hs; exact Option.some.inj hs⟩

/-- The references are the same as well. -/
structure Still (w v : World) : Prop where
  frame : ∀ i, (v.nodes i).map Node.frame = (w.nodes i).map Node.frame
  fresh : w.fresh ≤ v.fresh
  root : v.root = w.root
  upcase : ∀ u, w.upcase = some u → v.upcase = some u
  sb : v.sb = w.sb

theorem Still.refl (w : World) : Still w w := ⟨fun _ => rfl, le_rfl, rfl, fun _ h => h, rfl⟩

theorem Still.trans (w v u : World) (h : Still w v) (h' : Still v u) : Still w u :=
  ⟨fun i => (h'.frame i).trans (h.frame i), h.fresh.trans h'.fresh, h'.root.trans h.root,
    fun u hu => h'.upcase u (h.upcase u hu), h'.sb.trans h.sb⟩

theorem Still.calm {w v : World} (h : Still w v) : Calm w v := by
  refine ⟨fun i => ?_, h.fresh, h.root, h.upcase, h.sb⟩
  have hf := congrArg (Option.map Node.skel) (h.frame i)
  rwa [Option.map_map, Option.map_map] at hf

/-- Every halt is allowed but the one of `exfat_put_node`. -/
class Lenient (E : Halt → Prop) : Prop where
  halt : ∀ e, e ≠ belowZero → E e

instance : Lenient fun _ => True := ⟨fun _ _ => trivial⟩

instance : Lenient (· ≠ belowZero) := ⟨fun _ h => h⟩

variable {α β : Type} {m : M α} {E : Halt → Prop}

theorem still_pure (a : α) : Safe E Still (pure a : M α) := safe_pure Still.refl a

theorem still_bind {f : α → M β} (hm : Safe E Still m) (hf : ∀ a, Safe E Still (f a)) :
    Safe E Still (m >>= f) := safe_bind Still.trans hm hf

theorem still_ite {c : Prop} [Decidable c] {m n : M α} (hm : Safe E Still m) (hn : Safe E Still n) :
    Safe E Still (if c then m else n) := safe_ite hm hn

theorem still_get : Safe E Still (get : M World) := safe_get Still.refl

theorem still_error (s : String) : Safe E Still (exfatError s) := fun _ =>
  ⟨fun _ => rfl, le_rfl, rfl, fun _ h => h, rfl⟩

theorem still_warn (s : String) : Safe E Still (exfatWarn s) := still_pure ()

theorem still_setChunk (bits : Nat → Bool) (b : Bool) : Safe E Still (setChunk bits b) := fun _ =>
  ⟨fun _ => rfl, le_rfl, rfl, fun _ h => h, rfl⟩

theorem still_nextTick : Safe E Still nextTick := fun _ => ⟨fun _ => rfl, le_rfl, rfl, fun _ h => h, rfl⟩

/-- What is modified is neither a node nor one of the fields that stay. -/
theorem still_modify {f : World → World}
    (h : ∀ w, (f w).nodes = w.nodes ∧ (f w).fresh = w.fresh ∧ (f w).root = w.root ∧
      (f w).upcase = w.upcase ∧ (f w).sb = w.sb) : Safe E Still (modify f : M PUnit) := by
  intro w
  obtain ⟨hnodes, hfresh, hroot, hupcase, hsb⟩ := h w
  exact ⟨fun i => by rw [hnodes], hfresh.ge, hroot, fun u hu => hupcase.trans hu, hsb⟩

variable [Lenient E]

theorem lenient_fault : E .fault := Lenient.halt _ nofun

theorem lenient_fuel : E .fuel := Lenient.halt _ nofun

theorem lenient_bug {s : String} (hs : s ≠ "reference counter of '%s' is below zero") :
    E (.bug s) := Lenient.halt _ fun h => hs (Halt.bug.inj h)

theorem still_fault : Safe E Still (throw .fault : M α) := safe_throw lenient_fault

theorem still_fuel : Safe E Still (throw .fuel : M α) := safe_throw lenient_fuel

theorem still_bug (s : String) (hs : s ≠ "reference counter of '%s' is below zero") :
    Safe E Still (exfatBug s : M α) := safe_throw (lenient_bug hs)

theorem still_getNode (i : NodeId) : Safe E Still (getNode i) := by
  intro w
  rw [wp_getNode_iff lenient_fault]
  exact fun n _ => .refl w

theorem still_modifyNode (i : NodeId) {f : Node → Node} (hf : ∀ n, (f n).frame = n.frame) :
    Safe E Still (modifyNode i f) := by
  intro w
  rw [wp_modifyNode_iff lenient_fault]
  intro n hn
  refine ⟨fun j => ?_, le_rfl, rfl, fun _ h => h, rfl⟩
  by_cases hj : j = i
  · subst hj
    rw [World.setNode_self, hn, Option.map_some, Option.map_some, hf]
  · rw [World.setNode_ne _ _ hj]

theorem still_getChunk : Safe E Still getChunk := by
  refine still_bind still_get fun w => ?_
  split
  · exact still_pure _
  · exact still_fault

theorem still_getUpcase : Safe E Still getUpcase := by
  refine still_bind still_get fun w => ?_
  split
  · exact still_pure _
  · exact still_fault

theorem still_deref (p : Option NodeId) : Safe E Still (deref p) := by
  unfold deref
  split
  · exact still_pure _
  · exact still_fault

theorem still_exfatGetName (name : List Nat) : Safe E Still (exfatGetName name) := by
  unfold exfatGetName
  split
  · exact still_pure _
  · exact still_bind (still_error _) fun _ => still_bug _ (by simp)

theorem still_c2o (c : Nat) : Safe E Still (exfatC2o c) := by
  unfold exfatC2o c2s
  refine still_bind ?_ fun _ => still_bind still_get fun _ => still_pure _
  split
  · exact still_bug _ (by simp)
  · exact still_bind still_get fun _ => still_pure _

theorem still_siblings (fuel : Nat) (p : Option NodeId) : Safe E Still (siblings fuel p) := by
  induction fuel generalizing p with
  | zero => cases p <;> first | exact still_pure _ | exact still_fuel
  | succ fuel ih =>
    cases p with
    | none => exact still_pure _
    | some p => exact still_bind (still_getNode p) fun n => still_bind (ih _) fun _ => still_pure _

theorem still_children (dir : NodeId) : Safe E Still (children dir) :=
  still_bind (still_getNode dir) fun _ => still_bind still_get fun _ => still_siblings _ _

theorem still_getNodes (is : List NodeId) : Safe E Still (getNodes is) := by
  induction is with
  | nil => exact still_pure _
  | cons i is ih =>
    exact still_bind (still_getNode i) fun _ => still_bind ih fun _ => still_pure _

omit [Lenient E] in
theorem still_nameToUtf16 (name : List UInt8) (k : Nat) : Safe E Still (nameToUtf16 name k) := by
  unfold nameToUtf16
  split
  · exact still_pure _
  · exact still_bind (still_error _) fun _ => still_pure _

theorem still_allocateCluster (hint : Nat) : Safe E Still (allocateCluster hint) :=
  still_bind still_get fun _ => still_bind still_getChunk fun _ => still_ite
    (still_bind (still_setChunk _ _) fun _ => still_bind (still_error _) fun _ => still_pure _)
    (still_bind (still_setChunk _ _) fun _ => still_pure _)

theorem still_freeCluster (c : Nat) : Safe E Still (freeCluster c) :=
  still_bind still_get fun _ => still_ite (still_bug _ (by simp))
    (still_bind still_getChunk fun _ => still_setChunk _ _)

omit [Lenient E] in
theorem still_checkEntries (e : List UInt8) (n : Nat) : Safe E Still (checkEntries e n) :=
  still_ite (still_pure _) (still_bind (still_error _) fun _ => still_pure _)

theorem still_isAncestor (id : NodeId) (fuel : Nat) (p : Option NodeId) :
    Safe E Still (isAncestor id fuel p) := by
  induction fuel generalizing p with
  | zero => cases p <;> first | exact still_pure _ | exact still_fuel
  | succ fuel ih =>
    cases p with
    | none => exact still_pure _
    | some p => exact still_ite (still_pure _) (still_bind (still_getNode p) fun _ => ih _)

section
variable [Env]

omit [Lenient E] in
theorem still_pread (n off : Nat) : Safe E Still (exfatPread n off) := by
  refine still_bind still_nextTick fun t => ?_
  split
  · exact still_pure _
  · exact still_bind still_get fun _ => still_pure _

omit [Lenient E] in
theorem still_pwrite (bs : List UInt8) (off : Nat) : Safe E Still (exfatPwrite bs off) := by
  refine still_bind still_nextTick fun t => ?_
  split
  · exact still_pure _
  · exact still_bind (fun _ => ⟨fun _ => rfl, le_rfl, rfl, fun _ h => h, rfl⟩) fun _ => still_pure _

omit [Lenient E] in
theorem still_mallocOk : Safe E Still mallocOk := still_bind still_nextTick fun _ => still_pure _

omit [Lenient E] in
theorem still_timeNow : Safe E Still timeNow := still_bind still_nextTick fun _ => still_pure _

theorem still_nextCluster (b : Bool) (c : Nat) : Safe E Still (exfatNextCluster b c) := by
  unfold exfatNextCluster
  split
  · exact still_bug _ (by simp)
  · split
    · exact still_pure _
    · refine still_bind still_get fun _ => still_bind (still_pread _ _) fun r => ?_
      split <;> exact still_pure _

theorem still_advanceLoop (b : Bool) (k c : Nat) : Safe E Still (advanceLoop b k c) := by
  induction k generalizing c with
  | zero => exact still_pure _
  | succ k ih =>
    refine still_bind (still_nextCluster b c) fun c => still_bind still_get fun w => ?_
    split
    · exact still_pure _
    · exact ih c

theorem still_advanceCluster (id : NodeId) (k : Nat) : Safe E Still (exfatAdvanceCluster id k) :=
  still_bind (still_getNode id) fun _ => still_bind (still_advanceLoop _ _ _) fun _ =>
    still_bind (still_modifyNode id fun _ => rfl) fun _ => still_pure _

theorem still_updateMtime (id : NodeId) : Safe E Still (exfatUpdateMtime id) :=
  still_bind still_timeNow fun _ => still_modifyNode id fun _ => rfl

theorem still_updateAtime (id : NodeId) : Safe E Still (exfatUpdateAtime id) :=
  still_bind still_timeNow fun _ => still_modifyNode id fun _ => rfl

omit [Lenient E] in
theorem still_setNextCluster (b : Bool) (c x : Nat) : Safe E Still (setNextCluster b c x) :=
  still_ite (still_pure _) (still_bind still_get fun _ => still_bind (still_pwrite _ _) fun _ =>
    still_ite (still_pure _) (still_bind (still_error _) fun _ => still_pure _))

omit [Lenient E] in
theorem still_makeNoncontiguous (k c : Nat) : Safe E Still (makeNoncontiguous k c) := by
  induction k generalizing c with
  | zero => exact still_pure _
  | succ k ih =>
    exact still_bind (still_setNextCluster _ _ _) fun _ => still_ite (ih _) (still_pure _)

theorem still_shrinkLoop (b : Bool) (k c : Nat) : Safe E Still (shrinkLoop b k c) := by
  induction k generalizing c with
  | zero => exact still_pure _
  | succ k ih =>
    exact still_bind still_get fun _ => still_ite (still_bind (still_error _) fun _ => still_pure _)
      (still_bind (still_nextCluster _ _) fun _ => still_bind (still_setNextCluster _ _ _) fun _ =>
        still_ite (still_bind (still_freeCluster _) fun _ => ih _) (still_pure _))

theorem still_shrinkTail (id : NodeId) (k c : Nat) : Safe E Still (shrinkTail id k c) :=
  still_bind (still_modifyNode id fun _ => rfl) fun _ => still_bind (still_getNode id) fun _ =>
    still_shrinkLoop _ _ _

theorem still_shrinkFile (id : NodeId) (c k : Nat) : Safe E Still (shrinkFile id c k) :=
  still_bind (still_getNode id) fun _ => still_ite (still_bug _ (by simp)) <|
    still_ite (still_bug _ (by simp)) <| still_ite (still_bug _ (by simp)) <| still_ite
      (still_bind (still_advanceCluster _ _) fun _ => still_bind still_get fun _ => still_ite
        (still_bind (still_error _) fun _ => still_pure _)
        (still_bind (still_nextCluster _ _) fun _ => still_bind (still_setNextCluster _ _ _) fun _ =>
          still_ite (still_shrinkTail _ _ _) (still_pure _)))
      (still_bind (still_modifyNode id fun _ => rfl) fun _ => still_shrinkTail _ _ _)

theorem still_leaveContiguous (id : NodeId) (p x : Nat) : Safe E Still (leaveContiguous id p x) :=
  still_bind (still_getNode id) fun _ => still_ite (still_bind (still_makeNoncontiguous _ _) fun _ =>
    still_ite (still_bind (still_modifyNode id fun _ => rfl) fun _ => still_pure _) (still_pure _))
    (still_pure _)

theorem still_growLoop (id : NodeId) (c k a p : Nat) : Safe E Still (growLoop id c k a p) := by
  induction k generalizing a p with
  | zero =>
    exact still_bind (still_getNode id) fun _ => still_bind (still_setNextCluster _ _ _) fun _ =>
      still_ite (still_pure _) (still_pure _)
  | succ k ih =>
    exact still_bind (still_allocateCluster _) fun _ => still_bind still_get fun _ => still_ite
      (still_ite (still_bind (still_shrinkFile _ _ _) fun _ => still_pure _) (still_pure _))
      (still_bind (still_leaveContiguous _ _ _) fun _ => still_ite
        (still_bind (still_getNode id) fun _ => still_bind (still_setNextCluster _ _ _) fun _ =>
          still_ite (ih _ _) (still_pure _)) (still_pure _))

theorem still_growFile (id : NodeId) (c k : Nat) : Safe E Still (growFile id c k) :=
  still_bind (still_getNode id) fun _ => still_ite (still_bug _ (by simp)) <| still_ite
    (still_bind (still_advanceCluster _ _) fun _ => still_bind still_get fun _ => still_ite
      (still_bind (still_error _) fun _ => still_pure _) (still_growLoop _ _ _ _ _)) <|
    still_ite (still_bug _ (by simp)) (still_bind (still_allocateCluster _) fun _ =>
      still_bind still_get fun _ => still_ite (still_pure _)
        (still_bind (still_modifyNode id fun _ => rfl) fun _ => still_growLoop _ _ _ _ _))

omit [Lenient E] in
theorem still_eraseRaw (k off : Nat) : Safe E Still (eraseRaw k off) :=
  still_bind (still_pwrite _ _) fun _ => still_ite (still_pure _)
    (still_bind (still_error _) fun _ => still_pure _)

theorem still_eraseLoop (b : Bool) (k c : Nat) : Safe E Still (eraseLoop b k c) := by
  induction k generalizing c with
  | zero => exact still_pure _
  | succ k ih =>
    exact still_bind (still_nextCluster _ _) fun _ => still_bind still_get fun _ =>
      still_ite (still_bug _ (by simp)) (still_bind still_get fun _ => still_bind (still_c2o _) fun _ =>
        still_bind (still_eraseRaw _ _) fun _ => still_ite (ih _) (still_pure _))

theorem still_eraseRange (id : NodeId) (a b : Nat) : Safe E Still (eraseRange id a b) :=
  still_bind still_get fun _ => still_ite (still_pure _) (still_bind (still_advanceCluster _ _) fun _ =>
    still_bind still_get fun _ => still_ite (still_bind (still_error _) fun _ => still_pure _)
      (still_bind (still_c2o _) fun _ => still_bind (still_eraseRaw _ _) fun _ => still_ite
        (still_bind (still_getNode id) fun _ => still_eraseLoop _ _ _) (still_pure _)))

theorem still_resizeChain (id : NodeId) (a b : Nat) : Safe E Still (resizeChain id a b) :=
  still_ite (still_growFile _ _ _) (still_ite (still_shrinkFile _ _ _) (still_pure _))

theorem still_eraseNew (id : NodeId) (b : Bool) (x y : Nat) : Safe E Still (eraseNew id b x y) :=
  still_ite (still_eraseRange _ _ _) (still_pure _)

theorem still_preadLoop (b : Bool) (k c lo r : Nat) (buf : List UInt8) :
    Safe E Still (preadLoop b k c lo r buf) := by
  induction k generalizing c lo r buf with
  | zero => exact still_pure _
  | succ k ih =>
    refine still_ite (still_pure _) (still_bind still_get fun _ => still_ite
      (still_bind (still_error _) fun _ => still_pure _) (still_bind (still_c2o _) fun _ =>
        still_bind (still_pread _ _) fun r => ?_))
    split
    · exact still_bind (still_error _) fun _ => still_pure _
    · exact still_bind (still_nextCluster _ _) fun _ => ih _ _ _ _

theorem still_genericPread (id : NodeId) (k off : Nat) : Safe E Still (exfatGenericPread id k off) := by
  refine still_bind (still_getNode id) fun _ => still_ite (still_pure _) (still_ite (still_pure _)
    (still_bind still_get fun _ => still_bind (still_advanceCluster _ _) fun _ => still_bind still_get
      fun _ => still_ite (still_bind (still_error _) fun _ => still_pure _)
        (still_bind (still_preadLoop _ _ _ _ _ _) fun r => ?_)))
  split
  · exact still_pure _
  · exact still_bind still_get fun _ => still_ite
      (still_bind (still_updateAtime _) fun _ => still_pure _) (still_pure _)

theorem still_pwriteLoop (b : Bool) (k c lo : Nat) (buf : List UInt8) :
    Safe E Still (pwriteLoop b k c lo buf) := by
  induction k generalizing c lo buf with
  | zero => exact still_pure _
  | succ k ih =>
    exact still_ite (still_pure _) (still_bind still_get fun _ => still_ite
      (still_bind (still_error _) fun _ => still_pure _) (still_bind (still_c2o _) fun _ =>
        still_bind (still_pwrite _ _) fun r => still_ite
          (still_bind (still_nextCluster _ _) fun _ => ih _ _ _)
          (still_bind (still_error _) fun _ => still_pure _)))

theorem still_flush : Safe E Still exfatFlush :=
  still_bind still_get fun _ => still_ite (still_bind still_getChunk fun _ =>
    still_bind (still_c2o _) fun _ => still_bind (still_pwrite _ _) fun _ => still_ite
      (still_bind (still_setChunk _ _) fun _ => still_pure _)
      (still_bind (still_error _) fun _ => still_pure _)) (still_pure _)

theorem still_readEntries (dir : NodeId) (n off : Nat) : Safe E Still (readEntries dir n off) := by
  refine still_bind (still_getNode dir) fun _ => still_ite (still_bug _ (by simp))
    (still_bind (still_genericPread _ _ _) fun r => ?_)
  split
  · exact still_pure _
  · exact still_ite (still_pure _) (still_ite (still_pure _)
      (still_bind (still_error _) fun _ => still_pure _))

theorem still_checkSlot (dir : NodeId) (off n : Nat) : Safe E Still (checkSlot dir off n) := by
  refine still_bind still_get fun _ => still_ite (still_pure _)
    (still_bind (still_readEntries _ _ _) fun r => ?_)
  split
  · exact still_pure _
  · exact still_ite (still_pure _) (still_pure _)

theorem still_slotLoop (dir : NodeId) (dmap : Nat → Bool) (total n k i c off : Nat) :
    Safe E Still (slotLoop dir dmap total n k i c off) := by
  induction k generalizing i c off with
  | zero => exact still_fuel
  | succ k ih =>
    refine still_ite (still_pure _) (still_ite (ih _ _ _) (still_ite
      (still_bind (still_checkSlot _ _ _) fun r => ?_) (ih _ _ _)))
    split
    · exact still_pure _
    · exact still_pure _
    · exact ih _ _ _
    · exact ih _ _ _

end

end Proofs

end Exfat
