import Exfat.Model.Tools
import Exfat.Proofs.Cache

namespace Exfat
open Lib

/-! A volume that was mounted read-only without repairs: nothing on it is ever dirty, and the device
stays as it was. -/

namespace Proofs

/-- A read-only mount of the device `d` with nothing to write. -/
structure Idle (d : Store) (w : World) : Prop where
  dev : w.dev = d
  ro : w.ro ≠ 0
  repair : w.repair = .no
  bitmap : w.cmap.dirty = false
  clean : ∀ i n, w.nodes i = some n → n.isDirty = false

/-- The aborts that a dirty node leads to on a read-only mount. -/
def DirtyHalt (e : Halt) : Prop :=
  e = .bug "unable to flush node to read-only FS" ∨ e = .bug "node '%s' is dirty"

/-- Every run leaves an idle volume idle, and no node is found dirty. -/
def Inert {α : Type} (m : M α) : Prop := ∀ d, Keep (fun e => ¬DirtyHalt e) (Idle d) m

variable {α β : Type} {m n : M α} {d : Store} {w : World}

theorem inert_pure (a : α) : Inert (pure a : M α) := fun _ => keep_pure a

theorem inert_get : Inert (get : M World) := fun _ => keep_get

theorem inert_bind {f : α → M β} (hm : Inert m) (hf : ∀ a, Inert (f a)) : Inert (m >>= f) :=
  fun d => keep_bind (hm d) fun a => hf a d

theorem inert_ite {c : Prop} [Decidable c] (hm : c → Inert m) (hn : ¬c → Inert n) :
    Inert (if c then m else n) := fun d => keep_ite (fun h => hm h d) fun h => hn h d

theorem inert_halt {e : Halt} (he : ¬DirtyHalt e) : Inert (throw e : M α) := fun _ => keep_throw he

theorem inert_fuel : Inert (throw .fuel : M α) := inert_halt (by simp [DirtyHalt])

theorem inert_fault : Inert (throw .fault : M α) := inert_halt (by simp [DirtyHalt])

theorem inert_bug {s : String} (hs : s ≠ "unable to flush node to read-only FS")
    (hs' : s ≠ "node '%s' is dirty") : Inert (exfatBug s : M α) :=
  inert_halt (by simp [DirtyHalt, hs, hs'])

theorem Idle.same {v : World} (h : Idle d w) (hd : v.dev = w.dev) (hr : v.ro = w.ro)
    (hp : v.repair = w.repair) (hc : v.cmap.dirty = w.cmap.dirty)
    (hn : ∀ i n, v.nodes i = some n → n.isDirty = true → ∃ m, w.nodes i = some m ∧ m.isDirty = true) :
    Idle d v := by
  refine ⟨hd.trans h.dev, hr ▸ h.ro, hp.trans h.repair, hc.trans h.bitmap, fun i n hi => ?_⟩
  by_contra hb
  obtain ⟨m, hm, hmd⟩ := hn i n hi (by simpa using hb)
  rw [h.clean i m hm] at hmd
  cases hmd

theorem inert_modify {f : World → World} (hd : ∀ w, (f w).dev = w.dev ∧ (f w).ro = w.ro ∧
    (f w).repair = w.repair ∧ (f w).cmap.dirty = w.cmap.dirty ∧ (f w).nodes = w.nodes) :
    Inert (modify f) := by
  intro d w h
  obtain ⟨h1, h2, h3, h4, h5⟩ := hd w
  exact h.same h1 h2 h3 h4 fun i n hi hn => ⟨n, h5 ▸ hi, hn⟩

theorem inert_error (s : String) : Inert (exfatError s) :=
  inert_modify fun _ => ⟨rfl, rfl, rfl, rfl, rfl⟩

theorem inert_nextTick : Inert nextTick :=
  fun _ _ h => h.same rfl rfl rfl rfl fun _ n hi hn => ⟨n, hi, hn⟩

theorem inert_fail {s : String} (a : α) : Inert (do exfatError s; pure a : M α) :=
  inert_bind (inert_error s) fun _ => inert_pure a

theorem inert_getNode (i : NodeId) : Inert (getNode i) := by
  intro d w h
  rw [wp_getNode_iff (by simp [DirtyHalt])]
  exact fun _ _ => h

theorem Idle.setNode {i : NodeId} {n : Node} (h : Idle d w) (hn : n.isDirty = false) :
    Idle d (w.setNode i n) := by
  refine h.same rfl rfl rfl rfl fun j m hj hm => ?_
  rw [World.setNode_nodes] at hj
  split at hj
  · cases hj
    rw [hn] at hm
    cases hm
  · exact ⟨m, hj, hm⟩

theorem inert_modifyNode (i : NodeId) {f : Node → Node} (hf : ∀ n, (f n).isDirty = n.isDirty) :
    Inert (modifyNode i f) := by
  intro d w h
  rw [wp_modifyNode_iff (by simp [DirtyHalt])]
  exact fun n hn => h.setNode ((hf n).trans (h.clean i n hn))

theorem inert_freeNode (i : NodeId) : Inert (freeNode i) := by
  intro d w h
  rw [wp_freeNode]
  refine h.same rfl rfl rfl rfl fun j m hj hm => ?_
  by_cases hji : j = i
  · simp [hji] at hj
  · simp only [hji, if_false] at hj
    exact ⟨m, hj, hm⟩

theorem inert_freeNodes (is : List NodeId) : Inert (freeNodes is) := by
  induction is with
  | nil => exact inert_pure _
  | cons i is ih => exact inert_bind (inert_freeNode i) fun _ => ih

/-- Nothing is repaired: the answer is no. -/
theorem inert_ask {m n : M α} (hn : Inert n) : Inert (do if ← exfatAskToFix then m else n) := by
  intro d w h
  simp only [exfatAskToFix, wp_bind, wp_get, h.repair, wp_pure, Bool.false_eq_true, if_false]
  exact hn d w h

theorem inert_siblings (fuel : Nat) (p : Option NodeId) : Inert (siblings fuel p) := by
  induction fuel generalizing p with
  | zero =>
    cases p with
    | none => exact inert_pure _
    | some p => exact inert_fuel
  | succ fuel ih =>
    cases p with
    | none => exact inert_pure _
    | some p => exact inert_bind (inert_getNode p) fun n => inert_bind (ih _) fun _ => inert_pure _

theorem inert_children (dir : NodeId) : Inert (children dir) :=
  inert_bind (inert_getNode dir) fun _ => inert_bind inert_get fun _ => inert_siblings _ _

theorem inert_exfatGetName (name : List Nat) : Inert (exfatGetName name) := by
  unfold exfatGetName
  split
  · exact inert_pure _
  · exact inert_bind (inert_error _) fun _ => inert_bug (by simp) (by simp)

theorem inert_deref (p : Option NodeId) : Inert (deref p) := by
  cases p with
  | none => exact inert_fault
  | some i => exact inert_pure i

theorem inert_getChunk : Inert getChunk := by
  refine inert_bind inert_get fun w => ?_
  cases w.cmap.chunk with
  | none => exact inert_fault
  | some chunk => exact inert_pure _

theorem inert_getUpcase : Inert getUpcase := by
  refine inert_bind inert_get fun w => ?_
  cases w.upcase with
  | none => exact inert_fault
  | some upcase => exact inert_pure _

theorem inert_nameToUtf16 (name : List UInt8) (k : Nat) : Inert (nameToUtf16 name k) := by
  unfold nameToUtf16
  split
  · exact inert_pure _
  · exact inert_fail _

theorem inert_c2s (c : Nat) : Inert (c2s c) :=
  inert_ite (fun _ => inert_bug (by simp) (by simp)) fun _ =>
    inert_bind inert_get fun _ => inert_pure _

theorem inert_c2o (c : Nat) : Inert (exfatC2o c) :=
  inert_bind (inert_c2s c) fun _ => inert_bind inert_get fun _ => inert_pure _

theorem inert_exfatGetNode (i : NodeId) : Inert (exfatGetNode i) := inert_modifyNode i fun _ => rfl

theorem inert_exfatPutNode (i : NodeId) : Inert (exfatPutNode i) :=
  inert_bind (inert_modifyNode i fun _ => rfl) fun _ => inert_bind (inert_getNode i) fun _ =>
    inert_ite (fun _ => inert_bind (inert_exfatGetName _) fun _ => inert_bug (by simp) (by simp))
      fun _ => inert_bind inert_get fun _ =>
        inert_ite (fun _ => inert_bind (inert_exfatGetName _) fun _ => inert_pure _)
          fun _ => inert_pure _

theorem inert_checkEntries (entries : List UInt8) (k : Nat) : Inert (checkEntries entries k) :=
  inert_ite (fun _ => inert_pure _) fun _ => inert_fail _

theorem inert_nodeCheck (id : NodeId) (b : Bool) (s : String) : Inert (nodeCheck id b s) :=
  inert_ite (fun _ => inert_bind (inert_getNode id) fun _ =>
    inert_bind (inert_exfatGetName _) fun _ => inert_fail _) fun _ => inert_pure _

theorem inert_readdirLabel (entry : List UInt8) : Inert (readdirLabel entry) := by
  refine inert_ite (fun _ => inert_fail _) fun _ => ?_
  dsimp only
  split
  · exact inert_bind (inert_modify fun _ => ⟨rfl, rfl, rfl, rfl, rfl⟩) fun _ => inert_fail _
  · exact inert_bind (inert_modify fun _ => ⟨rfl, rfl, rfl, rfl, rfl⟩) fun _ => inert_pure _

theorem inert_linkLast (dir node : NodeId) (current : Option NodeId) :
    Inert (linkLast dir node current) := by
  refine inert_bind (inert_modifyNode node fun _ => rfl) fun _ => ?_
  cases current with
  | none => exact inert_modifyNode dir fun _ => rfl
  | some c =>
    exact inert_bind (inert_modifyNode c fun _ => rfl) fun _ => inert_modifyNode node fun _ => rfl

theorem inert_dirFuel (dir : NodeId) : Inert (dirFuel dir) :=
  inert_bind (inert_getNode dir) fun _ => inert_pure _

theorem inert_lookupLoop (buffer : List Nat) (ids : List NodeId) :
    Inert (lookupLoop buffer ids) := by
  induction ids with
  | nil => exact inert_pure _
  | cons p ps ih =>
    exact inert_bind (inert_exfatGetNode p) fun _ => inert_bind inert_getUpcase fun _ =>
      inert_bind (inert_getNode p) fun _ => inert_ite (fun _ => inert_pure _) fun _ =>
        inert_bind (inert_exfatPutNode p) fun _ => ih

theorem inert_exfatReaddir (it : Iterator) : Inert (exfatReaddir it) := by
  unfold exfatReaddir
  cases it.current with
  | none =>
    refine inert_bind (inert_getNode it.parent) fun n => inert_bind (inert_pure _) fun next => ?_
    cases next with
    | none => exact inert_pure _
    | some node => exact inert_bind (inert_exfatGetNode node) fun _ => inert_pure _
  | some i =>
    refine inert_bind (inert_getNode i) fun n => inert_bind (inert_pure _) fun next => ?_
    cases next with
    | none => exact inert_pure _
    | some node => exact inert_bind (inert_exfatGetNode node) fun _ => inert_pure _

/-- A wrong checksum is reported, and the node stays clean. -/
theorem inert_checkSum (id : NodeId) (k : Nat) (meta1 : List UInt8) :
    Inert (checkSum id k meta1) :=
  inert_bind (inert_nodeCheck _ _ _) fun _ => inert_ite (fun _ => inert_pure _) fun _ =>
    inert_ask (inert_pure _)

theorem inert_checkNode (id : NodeId) (k : Nat) (meta1 meta2 : List UInt8) :
    Inert (checkNode id k meta1 meta2) :=
  inert_bind inert_get fun _ => inert_bind (inert_getNode id) fun _ =>
    inert_bind (inert_checkSum _ _ _) fun _ => inert_bind (inert_nodeCheck _ _ _) fun _ =>
    inert_bind (inert_nodeCheck _ _ _) fun _ => inert_bind (inert_nodeCheck _ _ _) fun _ =>
    inert_bind (inert_nodeCheck _ _ _) fun _ => inert_bind (inert_nodeCheck _ _ _) fun _ =>
    inert_bind (inert_nodeCheck _ _ _) fun _ => inert_pure _

section
variable [Env]

theorem inert_mallocOk : Inert mallocOk := inert_bind inert_nextTick fun _ => inert_pure _

theorem inert_pread (k off : Nat) : Inert (exfatPread k off) :=
  inert_bind inert_nextTick fun _ => inert_ite (fun _ => inert_pure _) fun _ =>
    inert_bind inert_get fun _ => inert_pure _

theorem inert_nextCluster (b : Bool) (c : Nat) : Inert (exfatNextCluster b c) := by
  refine inert_ite (fun _ => inert_bug (by simp) (by simp)) fun _ => inert_ite (fun _ => inert_pure _)
    fun _ => inert_bind inert_get fun _ => inert_bind (inert_pread _ _) fun r => ?_
  cases r with
  | none => exact inert_pure _
  | some bs => exact inert_pure _

theorem inert_advanceLoop (b : Bool) (k c : Nat) : Inert (advanceLoop b k c) := by
  induction k generalizing c with
  | zero => exact inert_pure _
  | succ k ih =>
    exact inert_bind (inert_nextCluster b c) fun c => inert_bind inert_get fun _ =>
      inert_ite (fun _ => inert_pure _) fun _ => ih c

theorem inert_advanceCluster (id : NodeId) (k : Nat) : Inert (exfatAdvanceCluster id k) :=
  inert_bind (inert_getNode id) fun _ => inert_bind (inert_advanceLoop _ _ _) fun _ =>
    inert_bind (inert_modifyNode id fun _ => rfl) fun _ => inert_pure _

theorem inert_preadLoop (b : Bool) (k c lo r : Nat) (buf : List UInt8) :
    Inert (preadLoop b k c lo r buf) := by
  induction k generalizing c lo r buf with
  | zero => exact inert_pure _
  | succ k ih =>
    refine inert_ite (fun _ => inert_pure _) fun _ => inert_bind inert_get fun _ =>
      inert_ite (fun _ => inert_fail _) fun _ => inert_bind (inert_c2o _) fun _ =>
        inert_bind (inert_pread _ _) fun r => ?_
    cases r with
    | none => exact inert_fail _
    | some bs => exact inert_bind (inert_nextCluster _ _) fun _ => ih _ _ _ _

/-- Reading from a read-only mount does not touch the access time. -/
theorem inert_genericPread (id : NodeId) (k off : Nat) : Inert (exfatGenericPread id k off) := by
  refine inert_bind (inert_getNode id) fun node => inert_ite (fun _ => inert_pure _) fun _ =>
    inert_ite (fun _ => inert_pure _) fun _ => inert_bind inert_get fun _ =>
      inert_bind (inert_advanceCluster _ _) fun _ => inert_bind inert_get fun _ =>
        inert_ite (fun _ => inert_fail _) fun _ => inert_bind (inert_preadLoop _ _ _ _ _ _)
          fun r => ?_
  cases r with
  | error e => exact inert_pure _
  | ok buf =>
    intro d w h
    simp only [wp_bind, wp_get, h.ro, false_and, and_false, if_false, wp_pure]
    exact h

theorem inert_readEntries (dir : NodeId) (k off : Nat) : Inert (readEntries dir k off) := by
  refine inert_bind (inert_getNode dir) fun _ => inert_ite
    (fun _ => inert_bug (by simp) (by simp)) fun _ => inert_bind (inert_genericPread _ _ _) fun r => ?_
  cases r with
  | error e => exact inert_pure _
  | ok bs =>
    exact inert_ite (fun _ => inert_pure _) fun _ => inert_ite (fun _ => inert_pure _)
      fun _ => inert_fail _

theorem inert_allocateNode : Inert allocateNode := by
  refine inert_bind inert_mallocOk fun ok => inert_ite (fun _ => ?_) fun _ => inert_fail _
  intro d w h
  have hnode : Idle d (w.setNode w.fresh { name := padName [] }) := h.setNode rfl
  exact hnode.same rfl rfl rfl rfl fun _ n hi hn => ⟨n, hi, hn⟩

theorem inert_exfat2unix (date time cs : Nat) : Inert (exfatExfat2unix date time cs) :=
  inert_ite (fun _ => inert_fail _) fun _ => inert_ite (fun _ => inert_fail _) fun _ =>
    inert_ite (fun _ => inert_fail _) fun _ => inert_pure _

theorem inert_initNodeMeta1 (id : NodeId) (meta1 : List UInt8) : Inert (initNodeMeta1 id meta1) :=
  inert_bind (inert_modifyNode id fun _ => rfl) fun _ => inert_bind (inert_exfat2unix _ _ _) fun _ =>
    inert_bind (inert_exfat2unix _ _ _) fun _ => inert_modifyNode id fun _ => rfl

theorem inert_parseFileEntries (id : NodeId) (entries : List UInt8) (k : Nat) :
    Inert (parseFileEntries id entries k) :=
  inert_bind (inert_checkEntries _ _) fun _ => inert_ite (fun _ => inert_pure _) fun _ =>
    inert_ite (fun _ => inert_fail _) fun _ => inert_ite (fun _ => inert_fail _) fun _ =>
      inert_ite (fun _ => inert_fail _) fun _ => inert_bind (inert_initNodeMeta1 id _) fun _ =>
        inert_bind (inert_modifyNode id fun _ => rfl) fun _ =>
          inert_bind (inert_modifyNode id fun _ => rfl) fun _ =>
            inert_bind (inert_checkNode _ _ _ _) fun _ =>
              inert_ite (fun _ => inert_pure _) fun _ => inert_pure _

theorem inert_parseFileEntry (parent : NodeId) (off k : Nat) :
    Inert (parseFileEntry parent off k) := by
  refine inert_bind (inert_readEntries _ _ _) fun r => ?_
  cases r with
  | error e => exact inert_pure _
  | ok entries =>
    refine inert_bind inert_allocateNode fun node => ?_
    cases node with
    | none => exact inert_pure _
    | some id =>
      refine inert_bind (inert_modifyNode id fun _ => rfl) fun _ =>
        inert_bind (inert_parseFileEntries _ _ _) fun rc => ?_
      cases rc with
      | err e => exact inert_bind (inert_freeNode id) fun _ => inert_pure _
      | ok => exact inert_pure _

theorem inert_readdirUpcase (entry : List UInt8) : Inert (readdirUpcase entry) := by
  refine inert_bind inert_get fun _ => inert_ite (fun _ => inert_pure _) fun _ =>
    inert_ite (fun _ => inert_fail _) fun _ => inert_ite (fun _ => inert_fail _) fun _ =>
      inert_bind inert_mallocOk fun _ => inert_ite (fun _ => inert_fail _) fun _ =>
        inert_bind (inert_c2o _) fun _ => inert_bind (inert_pread _ _) fun r => ?_
  cases r with
  | none => exact inert_fail _
  | some comp =>
    exact inert_bind inert_mallocOk fun _ => inert_ite (fun _ => inert_fail _) fun _ =>
      inert_bind (inert_modify fun _ => ⟨rfl, rfl, rfl, rfl, rfl⟩) fun _ => inert_pure _

theorem inert_readdirBitmap (entry : List UInt8) : Inert (readdirBitmap entry) := by
  refine inert_bind (inert_modify fun _ => ⟨rfl, rfl, rfl, rfl, rfl⟩) fun _ =>
    inert_bind inert_get fun _ => inert_ite (fun _ => inert_fail _) fun _ =>
      inert_bind (inert_modify fun _ => ⟨rfl, rfl, rfl, rfl, rfl⟩) fun _ =>
        inert_ite (fun _ => inert_fail _) fun _ =>
          inert_bind (inert_modify fun _ => ⟨rfl, rfl, rfl, rfl, rfl⟩) fun _ =>
            inert_bind inert_mallocOk fun _ => inert_ite (fun _ =>
              inert_bind (inert_modify fun _ => ⟨rfl, rfl, rfl, rfl, rfl⟩) fun _ => inert_fail _)
              fun _ => inert_bind (inert_c2o _) fun _ => inert_bind (inert_pread _ _) fun r => ?_
  cases r with
  | none =>
    exact inert_bind (inert_modify fun _ => ⟨rfl, rfl, rfl, rfl, rfl⟩) fun _ => inert_fail _
  | some bs =>
    exact inert_bind (inert_modify fun _ => ⟨rfl, rfl, rfl, rfl, rfl⟩) fun _ => inert_pure _

/-- An entry of unknown type is reported and left as it is. -/
theorem inert_readdirDefault (parent : NodeId) (entry : List UInt8) (off : Nat) :
    Inert (readdirDefault parent entry off) :=
  inert_ite (fun _ => inert_pure _) fun _ => inert_bind (inert_error _) fun _ =>
    inert_ask (inert_pure _)

theorem inert_readdirOther (parent : NodeId) (entry : List UInt8) (off : Nat) :
    Inert (readdirOther parent entry off) :=
  inert_ite (fun _ => inert_readdirUpcase entry) fun _ => inert_ite
    (fun _ => inert_readdirBitmap entry) fun _ => inert_ite (fun _ => inert_readdirLabel entry)
      fun _ => inert_readdirDefault parent entry off

theorem inert_readdir (parent : NodeId) (fuel off : Nat) : Inert (readdir parent fuel off) := by
  induction fuel generalizing off with
  | zero => exact inert_fuel
  | succ fuel ih =>
    refine inert_bind (inert_readEntries _ _ _) fun r => ?_
    cases r with
    | error e => exact inert_pure _
    | ok entry =>
      refine inert_ite (fun _ => inert_parseFileEntry _ _ _) fun _ =>
        inert_bind (inert_readdirOther _ _ _) fun rc => ?_
      cases rc with
      | err e => exact inert_pure _
      | ok => exact ih _

theorem inert_cacheLoop (dir : NodeId) (fuel : Nat) (current : Option NodeId) (off : Nat) :
    Inert (cacheLoop dir fuel current off) := by
  induction fuel generalizing current off with
  | zero => exact inert_fuel
  | succ fuel ih =>
    refine inert_bind (inert_dirFuel dir) fun _ => inert_bind (inert_readdir _ _ _) fun r => ?_
    cases r with
    | error e => exact inert_pure _
    | ok next => exact inert_bind (inert_linkLast _ _ _) fun _ => ih _ _

theorem inert_cacheDirectory (dir : NodeId) : Inert (exfatCacheDirectory dir) :=
  inert_bind (inert_getNode dir) fun _ => inert_ite (fun _ => inert_pure _) fun _ =>
    inert_bind (inert_dirFuel dir) fun _ => inert_bind (inert_cacheLoop _ _ _ _) fun _ =>
      inert_ite (fun _ => inert_bind (inert_children dir) fun _ =>
        inert_bind (inert_freeNodes _) fun _ => inert_bind (inert_modifyNode dir fun _ => rfl)
          fun _ => inert_pure _)
        fun _ => inert_bind (inert_modifyNode dir fun _ => rfl) fun _ => inert_pure _

theorem inert_opendir (dir : NodeId) : Inert (exfatOpendir dir) :=
  inert_bind (inert_exfatGetNode dir) fun _ => inert_bind (inert_cacheDirectory dir) fun _ =>
    inert_ite (fun _ => inert_bind (inert_exfatPutNode dir) fun _ => inert_pure _)
      fun _ => inert_pure _

theorem inert_lookupName (parent : NodeId) (name : List UInt8) :
    Inert (lookupName parent name) := by
  refine inert_bind (inert_nameToUtf16 _ _) fun r => ?_
  cases r with
  | error e => exact inert_pure _
  | ok buffer =>
    refine inert_bind (inert_opendir parent) fun rc => ?_
    cases rc with
    | err e => exact inert_pure _
    | ok =>
      refine inert_bind (inert_children parent) fun _ => inert_bind (inert_lookupLoop _ _)
        fun found => inert_bind (inert_exfatPutNode parent) fun _ => ?_
      cases found with
      | none => exact inert_pure _
      | some node => exact inert_pure _

theorem inert_lookupPath (fuel : Nat) (parent : NodeId) (path : List UInt8) :
    Inert (lookupPath fuel parent path) := by
  induction fuel generalizing parent path with
  | zero => exact inert_pure _
  | succ fuel ih =>
    refine inert_ite (fun _ => inert_pure _) fun _ => inert_ite (fun _ => ih _ _) fun _ =>
      inert_bind (inert_lookupName _ _) fun r => ?_
    cases r with
    | error e => exact inert_bind (inert_exfatPutNode parent) fun _ => inert_pure _
    | ok node => exact inert_bind (inert_exfatPutNode parent) fun _ => ih _ _

theorem inert_lookup (path : List UInt8) : Inert (exfatLookup path) :=
  inert_bind inert_get fun _ => inert_bind (inert_exfatGetNode _) fun _ => inert_lookupPath _ _ _

/-- There is nothing to flush. -/
theorem inert_flushNode (id : NodeId) : Inert (exfatFlushNode id) := by
  intro d w h
  simp only [exfatFlushNode, wp_bind]
  rw [wp_getNode_iff (by simp [DirtyHalt])]
  intro n hn
  simp only [h.clean id n hn, Bool.not_false, if_true, wp_pure]
  exact h

theorem inert_flush : Inert exfatFlush := by
  intro d w h
  simp only [exfatFlush, wp_bind, wp_get, h.bitmap, Bool.false_eq_true, if_false, wp_pure]
  exact h

theorem inert_flushTree (fuel : Nat) :
    (∀ id, Inert (flushNodes fuel id)) ∧ ∀ ids, Inert (flushList fuel ids) := by
  induction fuel with
  | zero =>
    refine ⟨fun _ => inert_fuel, fun ids => ?_⟩
    cases ids with
    | nil => exact inert_pure _
    | cons p ps => exact inert_fuel
  | succ fuel ih =>
    refine ⟨fun id => inert_bind (inert_children id) fun _ => inert_bind (ih.2 _) fun _ =>
      inert_ite (fun _ => inert_pure _) fun _ => inert_flushNode id, fun ids => ?_⟩
    cases ids with
    | nil => exact inert_pure _
    | cons p ps =>
      exact inert_bind (ih.1 p) fun _ => inert_ite (fun _ => inert_pure _) fun _ => ih.2 ps

theorem inert_exfatFlushNodes : Inert exfatFlushNodes :=
  inert_bind inert_get fun _ => (inert_flushTree _).1 _

end

end Proofs

end Exfat
