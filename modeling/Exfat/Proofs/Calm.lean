import Exfat.Proofs.Still

namespace Exfat
open Lib

/-! Calls that may take and put references but leave the tree alone. -/

namespace Proofs

variable {α β : Type} {m : M α}

/-- What leaves the references alone leaves the tree alone. -/
theorem calm_of (h : Frame Still m) : Frame Calm m := h.mono fun _ _ => Still.calm

theorem calm_pure (a : α) : Frame Calm (pure a : M α) := safe_pure Calm.refl a

theorem calm_bind {f : α → M β} (hm : Frame Calm m) (hf : ∀ a, Frame Calm (f a)) :
    Frame Calm (m >>= f) := safe_bind Calm.trans hm hf

theorem calm_ite {c : Prop} [Decidable c] {m n : M α} (hm : Frame Calm m) (hn : Frame Calm n) :
    Frame Calm (if c then m else n) := safe_ite hm hn

theorem calm_get : Frame Calm (get : M World) := safe_get Calm.refl

theorem calm_error (s : String) : Frame Calm (exfatError s) := calm_of (still_error s)

theorem calm_getNode (i : NodeId) : Frame Calm (getNode i) := calm_of (still_getNode i)

theorem calm_modifyNode (i : NodeId) {f : Node → Node} (hf : ∀ n, (f n).skel = n.skel) :
    Frame Calm (modifyNode i f) := by
  intro w
  rw [wp_modifyNode_iff trivial]
  intro n hn
  refine ⟨fun j => ?_, le_rfl, rfl, fun _ h => h, rfl⟩
  by_cases hj : j = i
  · subst hj
    rw [World.setNode_self, hn, Option.map_some, Option.map_some, hf]
  · rw [World.setNode_ne _ _ hj]

theorem calm_deref (p : Option NodeId) : Frame Calm (deref p) := calm_of (still_deref p)

theorem calm_c2o (c : Nat) : Frame Calm (exfatC2o c) := calm_of (still_c2o c)

theorem calm_getNodeRef (i : NodeId) : Frame Calm (exfatGetNode i) :=
  calm_modifyNode i fun _ => rfl

theorem calm_putNode (i : NodeId) : Frame Calm (exfatPutNode i) := by
  unfold exfatPutNode
  refine calm_bind (calm_modifyNode i fun _ => rfl) fun _ => calm_bind (calm_getNode i) fun n => ?_
  split
  · exact calm_bind (calm_of (still_exfatGetName _)) fun _ => safe_throw trivial
  · refine calm_bind calm_get fun w => ?_
    split
    · exact calm_bind (calm_of (still_exfatGetName _)) fun _ => calm_of (still_warn _)
    · exact calm_pure _

section
variable [Env]

theorem calm_mallocOk : Frame Calm mallocOk := calm_of still_mallocOk

theorem calm_nextCluster (b : Bool) (c : Nat) : Frame Calm (exfatNextCluster b c) :=
  calm_of (still_nextCluster b c)

theorem calm_advanceCluster (id : NodeId) (k : Nat) : Frame Calm (exfatAdvanceCluster id k) :=
  calm_of (still_advanceCluster id k)

theorem calm_updateMtime (id : NodeId) : Frame Calm (exfatUpdateMtime id) :=
  calm_of (still_updateMtime id)

theorem calm_updateAtime (id : NodeId) : Frame Calm (exfatUpdateAtime id) :=
  calm_of (still_updateAtime id)

theorem calm_resizeChain (id : NodeId) (a b : Nat) : Frame Calm (resizeChain id a b) :=
  calm_of (still_resizeChain id a b)

theorem calm_eraseNew (id : NodeId) (b : Bool) (x y : Nat) : Frame Calm (eraseNew id b x y) :=
  calm_of (still_eraseNew id b x y)

theorem calm_pwriteLoop (b : Bool) (k c lo : Nat) (buf : List UInt8) :
    Frame Calm (pwriteLoop b k c lo buf) := calm_of (still_pwriteLoop b k c lo buf)

theorem calm_flush : Frame Calm exfatFlush := calm_of still_flush

theorem calm_readEntries (dir : NodeId) (n off : Nat) : Frame Calm (readEntries dir n off) :=
  calm_of (still_readEntries dir n off)

theorem calm_slotLoop (dir : NodeId) (dmap : Nat → Bool) (total n k i c off : Nat) :
    Frame Calm (slotLoop dir dmap total n k i c off) :=
  calm_of (still_slotLoop dir dmap total n k i c off)

end

end Proofs

end Exfat
