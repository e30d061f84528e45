import Exfat.Proofs.Cache

namespace Exfat
open Lib

/-! Calls that write to directories and resize them: the places of the nodes, their names and their
references stay as they are. -/

/-- The part of a node that `exfat_truncate` leaves alone as well. -/
def Node.stand (n : Node) : Node := { n.frame with size := 0 }

namespace Proofs

/-- Only sizes changed, and what `Still` leaves open. -/
structure Steady (w v : World) : Prop where
  stand : ∀ i, (v.nodes i).map Node.stand = (w.nodes i).map Node.stand
  fresh : w.fresh ≤ v.fresh
  root : v.root = w.root
  upcase : ∀ u, w.upcase = some u → v.upcase = some u

theorem Steady.refl (w : World) : Steady w w := ⟨fun _ => rfl, le_rfl, rfl, fun _ h => h⟩

theorem Steady.trans (w v u : World) (h : Steady w v) (h' : Steady v u) : Steady w u :=
  ⟨fun i => (h'.stand i).trans (h.stand i), h.fresh.trans h'.fresh, h'.root.trans h.root,
    fun u hu => h'.upcase u (h.upcase u hu)⟩

theorem Still.steady {w v : World} (h : Still w v) : Steady w v := by
  refine ⟨fun i => ?_, h.fresh, h.root, h.upcase⟩
  have hf := congrArg (Option.map Node.stand) (h.frame i)
  rwa [Option.map_map, Option.map_map] at hf

variable {α β : Type} {m : M α} {E : Halt → Prop}

theorem steady_of (h : Safe E Still m) : Safe E Steady m := h.mono fun _ _ => Still.steady

theorem steady_pure (a : α) : Safe E Steady (pure a : M α) := safe_pure Steady.refl a

theorem steady_bind {f : α → M β} (hm : Safe E Steady m) (hf : ∀ a, Safe E Steady (f a)) :
    Safe E Steady (m >>= f) := safe_bind Steady.trans hm hf

variable [Lenient E]

theorem steady_modifyNode (i : NodeId) {f : Node → Node} (hf : ∀ n, (f n).stand = n.stand) :
    Safe E Steady (modifyNode i f) := by
  intro w
  rw [wp_modifyNode_iff lenient_fault]
  intro n hn
  refine ⟨fun j => ?_, le_rfl, rfl, fun _ h => h⟩
  by_cases hj : j = i
  · subst hj
    rw [World.setNode_self, hn, Option.map_some, Option.map_some, hf]
  · rw [World.setNode_ne _ _ hj]

variable [Env]

theorem steady_truncate (id : NodeId) (size : Nat) (erase : Bool) :
    Safe E Steady (exfatTruncate id size erase) :=
  steady_bind (steady_of still_get) fun _ => steady_bind (steady_of (still_getNode id)) fun _ =>
    safe_ite (steady_of (still_bug _ (by simp))) <| safe_ite (steady_pure _) <|
      steady_bind (steady_of (still_resizeChain _ _ _)) fun _ => safe_ite (steady_pure _) <|
        steady_bind (steady_of (still_eraseNew _ _ _ _)) fun _ => safe_ite (steady_pure _) <|
          steady_bind (steady_of (still_updateMtime _)) fun _ =>
            steady_bind (steady_modifyNode id fun _ => rfl) fun _ => steady_pure _

theorem steady_extendTo (id : NodeId) (size stop : Nat) (erase : Bool) :
    Safe E Steady (extendTo id size stop erase) :=
  safe_ite (steady_truncate _ _ _) (steady_pure _)

theorem steady_genericPwrite (id : NodeId) (buf : List UInt8) (off : Nat) :
    Safe E Steady (exfatGenericPwrite id buf off) :=
  steady_bind (steady_of (still_getNode id)) fun _ => steady_bind (steady_extendTo _ _ _ _) fun _ =>
    safe_ite (steady_pure _) <| steady_bind (steady_of (still_getNode id)) fun _ =>
      steady_bind (steady_extendTo _ _ _ _) fun _ => safe_ite (steady_pure _) <|
        safe_ite (steady_pure _) <| steady_of <| still_bind still_get fun _ =>
          still_bind (still_advanceCluster _ _) fun _ => still_bind still_get fun _ =>
            still_ite (still_bind (still_error _) fun _ => still_pure _) <|
              still_bind (still_getNode _) fun _ => still_bind (still_pwriteLoop _ _ _ _ _) fun _ =>
                still_ite (still_pure _) <| still_ite (still_pure _) <|
                  still_bind (still_updateMtime _) fun _ => still_pure _

theorem steady_writeEntries (dir : NodeId) (entries : List UInt8) (off : Nat) :
    Safe E Steady (writeEntries dir entries off) := by
  refine steady_bind (steady_of (still_getNode dir)) fun _ =>
    safe_ite (steady_of (still_bug _ (by simp))) <|
    steady_bind (steady_genericPwrite _ _ _) fun r => ?_
  cases r with
  | ok => exact steady_pure _
  | err e => exact steady_pure _

theorem steady_eraseEntries (dir : NodeId) (n off : Nat) :
    Safe E Steady (eraseEntries dir n off) := by
  refine steady_bind (steady_of (still_readEntries _ _ _)) fun r => ?_
  cases r with
  | error e => exact steady_pure _
  | ok entries => exact steady_writeEntries _ _ _

theorem steady_flushNode (id : NodeId) : Safe E Steady (exfatFlushNode id) := by
  refine steady_bind (steady_of (still_getNode id)) fun n => safe_ite (steady_pure _) <|
    steady_bind (steady_of still_get) fun _ => safe_ite (steady_of (still_bug _ (by simp))) ?_
  cases n.parent with
  | none => exact steady_pure _
  | some parent =>
    refine steady_bind (steady_of (still_readEntries _ _ _)) fun r => ?_
    cases r with
    | error e => exact steady_pure _
    | ok entries =>
      exact steady_bind (steady_of (still_checkEntries _ _)) fun _ => safe_ite (steady_pure _) <|
        steady_bind (steady_writeEntries _ _ _) fun _ => safe_ite (steady_pure _) <|
          steady_of <| still_bind (still_modifyNode id fun _ => rfl) fun _ => still_flush

theorem steady_readdirOther (dir : NodeId) (entry : List UInt8) (off : Nat) :
    Safe E Steady (readdirOther dir entry off) := by
  refine safe_ite (steady_of (still_readdirUpcase _)) <| safe_ite (steady_of (still_readdirBitmap _)) <|
    safe_ite (steady_of (still_readdirLabel _)) <| safe_ite (steady_pure _) <|
      steady_bind (steady_of (still_error _)) fun _ => steady_bind (steady_of still_askToFix) fun _ =>
        safe_ite (steady_bind ?_ fun _ => safe_ite (steady_pure _) (steady_pure _)) (steady_pure _)
  exact steady_bind (steady_genericPwrite _ _ _) fun _ => safe_ite
    (steady_of (still_bind (still_modify fun _ =>
      ⟨rfl, rfl, rfl, rfl, rfl⟩) fun _ => still_pure _)) (steady_pure _)

theorem steady_findSlot (dir : NodeId) (n : Nat) : Safe E Steady (findSlot dir n) := by
  refine steady_bind (steady_of (still_getNode dir)) fun _ =>
    safe_ite (steady_of (still_bug _ (by simp))) <|
    steady_bind (steady_of still_mallocOk) fun _ => safe_ite
      (steady_of (still_bind (still_error _) fun _ => still_pure _)) <|
      steady_bind (steady_of (still_children dir)) fun _ =>
        steady_bind (steady_of (still_getNodes _)) fun _ =>
          steady_bind (steady_of (still_slotLoop _ _ _ _ _ _ _ _)) fun r => ?_
  cases r with
  | found offset => exact steady_pure _
  | failed e => exact steady_pure _
  | exhausted c o =>
    exact steady_bind (steady_of (still_getNode dir)) fun _ =>
      steady_bind (steady_of still_get) fun _ =>
        steady_bind (steady_truncate _ _ _) fun _ => steady_pure _

theorem steady_shrinkDirectory (dir : NodeId) (off : Nat) :
    Safe E Steady (shrinkDirectory dir off) := by
  refine steady_bind (steady_of (still_getNode dir)) fun _ =>
    safe_ite (steady_of (still_bug _ (by simp))) <|
    safe_ite (steady_of (still_bug _ (by simp))) <| steady_bind (steady_of (still_children dir)) fun _ =>
      steady_bind (steady_of (still_getNodes _)) fun _ => ?_
  split
  · exact steady_pure _
  · exact steady_bind (steady_of still_get) fun _ => safe_ite (steady_pure _) (steady_truncate _ _ _)

theorem still_findLabel (fuel off : Nat) : Safe E Still (findLabel fuel off) := by
  induction fuel generalizing off with
  | zero => exact still_fuel
  | succ fuel ih =>
    refine still_bind still_get fun _ => still_bind (still_readEntries _ _ _) fun r => ?_
    cases r with
    | error e => exact still_pure _
    | ok entry => exact still_ite (still_pure _) (ih _)

theorem steady_labelSlot (root : NodeId) : Safe E Steady (labelSlot root) := by
  refine steady_bind (steady_of (still_bind (still_getNode root) fun _ => still_pure _)) fun _ =>
    steady_bind (steady_of (still_findLabel _ _)) fun r => ?_
  split
  · exact steady_pure _
  · exact steady_findSlot _ _
  · exact steady_pure _

theorem steady_setLabel (label : List UInt8) : Safe E Steady (exfatSetLabel label) := by
  refine steady_bind (steady_of (still_nameToUtf16 _ _)) fun r => ?_
  cases r with
  | error e => exact steady_pure _
  | ok units =>
    exact steady_bind (steady_of still_get) fun _ => steady_bind (steady_labelSlot _) fun _ =>
      safe_ite (steady_pure _) <| steady_bind (steady_writeEntries _ _ _) fun _ =>
        safe_ite (steady_pure _) (steady_of (still_bind (still_modify fun _ =>
      ⟨rfl, rfl, rfl, rfl, rfl⟩) fun _ => still_pure _))

end Proofs

end Exfat
