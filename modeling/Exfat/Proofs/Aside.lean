import Exfat.Proofs.Listing

namespace Exfat
open Lib

/-! What reading the nodes of a directory leaves alone. -/

namespace Proofs

/-- The bitmap, the upper case table and the label are the same, without repair nothing was repaired,
and a directory that was not marked as cached still is not. -/
structure Aside (dir : NodeId) (w v : World) : Prop where
  cmap : v.cmap = w.cmap
  upcase : v.upcase = w.upcase
  label : v.labelBuffer = w.labelBuffer
  repair : v.repair = w.repair
  fixed : w.repair = .no → v.errorsFixed = w.errorsFixed
  dev : v.dev = w.dev
  sb : v.sb = w.sb
  uncached : (∀ n, w.nodes dir = some n → n.isCached = false) →
    ∀ n, v.nodes dir = some n → n.isCached = false

variable {α β : Type} {m : M α} {dir : NodeId} {w v : World}

theorem Aside.refl (dir : NodeId) (w : World) : Aside dir w w :=
  ⟨rfl, rfl, rfl, rfl, fun _ => rfl, rfl, rfl, id⟩

theorem Aside.trans (w v u : World) (h : Aside dir w v) (h' : Aside dir v u) : Aside dir w u :=
  ⟨h'.cmap.trans h.cmap, h'.upcase.trans h.upcase, h'.label.trans h.label,
    h'.repair.trans h.repair, fun hr => (h'.fixed (h.repair.trans hr)).trans (h.fixed hr),
    h'.dev.trans h.dev, h'.sb.trans h.sb, fun hw => h'.uncached (h.uncached hw)⟩

theorem aside_pure (a : α) : Frame (Aside dir) (pure a : M α) := safe_pure (Aside.refl dir) a

theorem aside_bind {f : α → M β} (hm : Frame (Aside dir) m) (hf : ∀ a, Frame (Aside dir) (f a)) :
    Frame (Aside dir) (m >>= f) := safe_bind Aside.trans hm hf

theorem aside_ite {c : Prop} [Decidable c] {m n : M α} (hm : Frame (Aside dir) m)
    (hn : Frame (Aside dir) n) : Frame (Aside dir) (if c then m else n) := safe_ite hm hn

theorem aside_get : Frame (Aside dir) (get : M World) := safe_get (Aside.refl dir)

theorem aside_throw (e : Halt) : Frame (Aside dir) (throw e : M α) := safe_throw trivial

theorem aside_error (s : String) : Frame (Aside dir) (exfatError s) := fun _ =>
  ⟨rfl, rfl, rfl, rfl, fun _ => rfl, rfl, rfl, id⟩

theorem aside_nextTick : Frame (Aside dir) nextTick :=
  fun _ => ⟨rfl, rfl, rfl, rfl, fun _ => rfl, rfl, rfl, id⟩

theorem aside_getNode (i : NodeId) : Frame (Aside dir) (getNode i) := by
  intro w
  rw [wp_getNode_iff trivial]
  exact fun n _ => .refl dir w

theorem aside_modifyNode (i : NodeId) {f : Node → Node} (hf : ∀ n, (f n).isCached = n.isCached) :
    Frame (Aside dir) (modifyNode i f) := by
  intro w
  rw [wp_modifyNode_iff trivial]
  intro n hn
  refine ⟨rfl, rfl, rfl, rfl, fun _ => rfl, rfl, rfl, fun hw m hm => ?_⟩
  rw [World.setNode_nodes] at hm
  split at hm
  · rename_i hd
    cases hm
    rw [hf]
    exact hw n (hd ▸ hn)
  · exact hw m hm

theorem aside_freeNode (i : NodeId) : Frame (Aside dir) (freeNode i) := by
  intro w
  rw [wp_freeNode]
  refine ⟨rfl, rfl, rfl, rfl, fun _ => rfl, rfl, rfl, fun hw m hm => ?_⟩
  by_cases hd : dir = i
  · simp [hd] at hm
  · simp only [hd, if_false] at hm
    exact hw m hm

theorem aside_freeNodes (is : List NodeId) : Frame (Aside dir) (freeNodes is) := by
  induction is with
  | nil => exact aside_pure _
  | cons i is ih => exact aside_bind (aside_freeNode i) fun _ => ih

theorem aside_siblings (fuel : Nat) (p : Option NodeId) : Frame (Aside dir) (siblings fuel p) := by
  induction fuel generalizing p with
  | zero => cases p <;> first | exact aside_pure _ | exact aside_throw _
  | succ fuel ih =>
    cases p with
    | none => exact aside_pure _
    | some p => exact aside_bind (aside_getNode p) fun n => aside_bind (ih _) fun _ => aside_pure _

theorem aside_children (d : NodeId) : Frame (Aside dir) (children d) :=
  aside_bind (aside_getNode d) fun _ => aside_bind aside_get fun _ => aside_siblings _ _

theorem aside_linkLast (d node : NodeId) (current : Option NodeId) :
    Frame (Aside dir) (linkLast d node current) := by
  refine aside_bind (aside_modifyNode node fun _ => rfl) fun _ => ?_
  cases current with
  | none => exact aside_modifyNode d fun _ => rfl
  | some c =>
    exact aside_bind (aside_modifyNode c fun _ => rfl) fun _ => aside_modifyNode node fun _ => rfl

theorem aside_exfatGetName (name : List Nat) : Frame (Aside dir) (exfatGetName name) := by
  unfold exfatGetName
  split
  · exact aside_pure _
  · exact aside_bind (aside_error _) fun _ => aside_throw _

theorem aside_nodeCheck (id : NodeId) (b : Bool) (s : String) :
    Frame (Aside dir) (nodeCheck id b s) :=
  aside_ite (aside_bind (aside_getNode id) fun _ => aside_bind (aside_exfatGetName _) fun _ =>
    aside_bind (aside_error s) fun _ => aside_pure _) (aside_pure _)

theorem aside_checkSum (id : NodeId) (k : Nat) (meta1 : List UInt8) :
    Frame (Aside dir) (checkSum id k meta1) := by
  refine aside_bind (aside_nodeCheck _ _ _) fun _ => aside_ite (aside_pure _) fun w => ?_
  have hdirty : Frame (Aside dir) (modifyNode id fun n => { n with isDirty := true }) :=
    aside_modifyNode id fun _ => rfl
  simp only [exfatAskToFix, exfatFixInvalidNodeChecksum, countFixed, wp_bind, wp_get]
  cases hr : w.repair with
  | no => exact .refl dir w
  | yes =>
    simp only [wp_pure, if_true, wp_bind]
    refine (hdirty w).mono fun _ v hv => ?_
    exact ⟨hv.cmap, hv.upcase, hv.label, hv.repair, fun h => by simp [hr] at h, hv.dev, hv.sb,
      hv.uncached⟩
  | ask =>
    simp only [wp_bind, wp_pure]
    split
    · simp only [wp_bind]
      refine (hdirty _).mono fun _ v hv => ?_
      exact ⟨hv.cmap, hv.upcase, hv.label, hv.repair.trans hr.symm, fun h => by simp [hr] at h,
        hv.dev, hv.sb, hv.uncached⟩
    · exact ⟨rfl, rfl, rfl, hr.symm, fun _ => rfl, rfl, rfl, fun h => h⟩

theorem aside_checkNode (id : NodeId) (k : Nat) (meta1 meta2 : List UInt8) :
    Frame (Aside dir) (checkNode id k meta1 meta2) :=
  aside_bind aside_get fun _ => aside_bind (aside_getNode id) fun _ =>
    aside_bind (aside_checkSum _ _ _) fun _ => aside_bind (aside_nodeCheck _ _ _) fun _ =>
    aside_bind (aside_nodeCheck _ _ _) fun _ => aside_bind (aside_nodeCheck _ _ _) fun _ =>
    aside_bind (aside_nodeCheck _ _ _) fun _ => aside_bind (aside_nodeCheck _ _ _) fun _ =>
    aside_bind (aside_nodeCheck _ _ _) fun _ => aside_pure _

theorem aside_c2o (c : Nat) : Frame (Aside dir) (exfatC2o c) := by
  unfold exfatC2o c2s
  refine aside_bind ?_ fun _ => aside_bind aside_get fun _ => aside_pure _
  split
  · exact aside_throw _
  · exact aside_bind aside_get fun _ => aside_pure _

theorem aside_checkEntries (e : List UInt8) (n : Nat) : Frame (Aside dir) (checkEntries e n) :=
  aside_ite (aside_pure _) (aside_bind (aside_error _) fun _ => aside_pure _)

section
variable [Env]

theorem aside_pread (n off : Nat) : Frame (Aside dir) (exfatPread n off) := by
  refine aside_bind aside_nextTick fun t => ?_
  split
  · exact aside_pure _
  · exact aside_bind aside_get fun _ => aside_pure _

theorem aside_nextCluster (b : Bool) (c : Nat) : Frame (Aside dir) (exfatNextCluster b c) := by
  refine aside_ite (aside_throw _) (aside_ite (aside_pure _) (aside_bind aside_get fun _ =>
    aside_bind (aside_pread _ _) fun r => ?_))
  cases r with
  | none => exact aside_pure _
  | some bs => exact aside_pure _

theorem aside_advanceLoop (b : Bool) (k c : Nat) : Frame (Aside dir) (advanceLoop b k c) := by
  induction k generalizing c with
  | zero => exact aside_pure _
  | succ k ih =>
    exact aside_bind (aside_nextCluster b c) fun c => aside_bind aside_get fun w =>
      aside_ite (aside_pure _) (ih c)

theorem aside_advanceCluster (id : NodeId) (k : Nat) :
    Frame (Aside dir) (exfatAdvanceCluster id k) :=
  aside_bind (aside_getNode id) fun _ => aside_bind (aside_advanceLoop _ _ _) fun _ =>
    aside_bind (aside_modifyNode id fun _ => rfl) fun _ => aside_pure _

theorem aside_preadLoop (b : Bool) (k c lo r : Nat) (buf : List UInt8) :
    Frame (Aside dir) (preadLoop b k c lo r buf) := by
  induction k generalizing c lo r buf with
  | zero => exact aside_pure _
  | succ k ih =>
    refine aside_ite (aside_pure _) (aside_bind aside_get fun _ => aside_ite
      (aside_bind (aside_error _) fun _ => aside_pure _) (aside_bind (aside_c2o _) fun _ =>
        aside_bind (aside_pread _ _) fun r => ?_))
    cases r with
    | none => exact aside_bind (aside_error _) fun _ => aside_pure _
    | some bs => exact aside_bind (aside_nextCluster _ _) fun _ => ih _ _ _ _

theorem aside_genericPread (id : NodeId) (k off : Nat) :
    Frame (Aside dir) (exfatGenericPread id k off) := by
  refine aside_bind (aside_getNode id) fun _ => aside_ite (aside_pure _) (aside_ite (aside_pure _)
    (aside_bind aside_get fun _ => aside_bind (aside_advanceCluster _ _) fun _ => aside_bind aside_get
      fun _ => aside_ite (aside_bind (aside_error _) fun _ => aside_pure _)
        (aside_bind (aside_preadLoop _ _ _ _ _ _) fun r => ?_)))
  cases r with
  | error e => exact aside_pure _
  | ok buf =>
    exact aside_bind aside_get fun _ => aside_ite (aside_bind (aside_bind
      (aside_bind aside_nextTick fun _ => aside_pure _) fun _ => aside_modifyNode id fun _ => rfl)
        fun _ => aside_pure _) (aside_pure _)

theorem aside_readEntries (d : NodeId) (n off : Nat) : Frame (Aside dir) (readEntries d n off) := by
  refine aside_bind (aside_getNode d) fun _ => aside_ite (aside_throw _)
    (aside_bind (aside_genericPread _ _ _) fun r => ?_)
  cases r with
  | error e => exact aside_pure _
  | ok bs =>
    exact aside_ite (aside_pure _) (aside_ite (aside_pure _)
      (aside_bind (aside_error _) fun _ => aside_pure _))

theorem aside_allocateNode : Frame (Aside dir) allocateNode := by
  refine aside_bind (aside_bind aside_nextTick fun _ => aside_pure _) fun ok => aside_ite
    (fun w => ⟨rfl, rfl, rfl, rfl, fun _ => rfl, rfl, rfl, fun hw n hn => ?_⟩)
    (aside_bind (aside_error _) fun _ => aside_pure _)
  have hn' : (w.setNode w.fresh { name := padName [] }).nodes dir = some n := hn
  rw [World.setNode_nodes] at hn'
  split at hn'
  · cases hn'
    rfl
  · exact hw n hn'

theorem aside_exfat2unix (date time cs : Nat) :
    Frame (Aside dir) (exfatExfat2unix date time cs) :=
  aside_ite (aside_bind (aside_error _) fun _ => aside_pure _)
    (aside_ite (aside_bind (aside_error _) fun _ => aside_pure _)
      (aside_ite (aside_bind (aside_error _) fun _ => aside_pure _) (aside_pure _)))

theorem aside_parseFileEntries (id : NodeId) (entries : List UInt8) (n : Nat) :
    Frame (Aside dir) (parseFileEntries id entries n) := by
  refine aside_bind (aside_checkEntries _ _) fun _ => aside_ite (aside_pure _) ?_
  refine aside_ite (aside_bind (aside_error _) fun _ => aside_pure _)
    (aside_ite (aside_bind (aside_error _) fun _ => aside_pure _)
      (aside_ite (aside_bind (aside_error _) fun _ => aside_pure _) ?_))
  refine aside_bind (aside_bind (aside_modifyNode id fun _ => rfl) fun _ =>
    aside_bind (aside_exfat2unix _ _ _) fun _ => aside_bind (aside_exfat2unix _ _ _) fun _ =>
      aside_modifyNode id fun _ => rfl) fun _ => ?_
  exact aside_bind (aside_modifyNode id fun _ => rfl) fun _ =>
    aside_bind (aside_modifyNode id fun _ => rfl) fun _ => aside_bind (aside_checkNode _ _ _ _) fun _ =>
      aside_ite (aside_pure _) (aside_pure _)

theorem aside_parseFileEntry (parent : NodeId) (off n : Nat) :
    Frame (Aside dir) (parseFileEntry parent off n) := by
  refine aside_bind (aside_readEntries _ _ _) fun r => ?_
  cases r with
  | error e => exact aside_pure _
  | ok entries =>
    refine aside_bind aside_allocateNode fun node => ?_
    cases node with
    | none => exact aside_pure _
    | some id =>
      refine aside_bind (aside_modifyNode id fun _ => rfl) fun _ =>
        aside_bind (aside_parseFileEntries _ _ _) fun rc => ?_
      cases rc with
      | err e => exact aside_bind (aside_freeNode id) fun _ => aside_pure _
      | ok => exact aside_pure _

end

end Proofs

end Exfat
