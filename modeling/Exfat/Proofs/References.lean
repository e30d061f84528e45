import Exfat.Proofs.Balance

namespace Exfat
open Lib

/-! The references every call takes and gives back. -/

/-- The reference on the node a lookup found. -/
def given : Except Errno NodeId → NodeId → Int
  | .error _ => 0
  | .ok id => Proofs.hold id

/-- The reference on a node that may be missing. -/
def holdOpt : Option NodeId → NodeId → Int
  | none => 0
  | some id => Proofs.hold id

/-- The references on what `exfat_split` returns. -/
def givenSplit : Except Errno (NodeId × Option NodeId × List Nat) → NodeId → Int
  | .error _ => 0
  | .ok (dir, existing, _) => Proofs.hold dir + holdOpt existing

/-- The calls of a caller outside the library. -/
inductive Request where
  | mknod (path : List UInt8)
  | mkdir (path : List UInt8)
  | rename (oldPath newPath : List UInt8)
  | unlink (id : NodeId)
  | rmdir (id : NodeId)
  | cleanup (id : NodeId)
  | setLabel (label : List UInt8)
  | lookup (path : List UInt8)
  | split (path : List UInt8)
  | opendir (dir : NodeId)
  | readdir (it : Iterator)
  | closedir (dir : NodeId)
  | put (id : NodeId)

/-- The references a call takes over from its caller. -/
def Request.takes : Request → NodeId → Int
  | .closedir dir => Proofs.hold dir
  | .put id => Proofs.hold id
  | _ => 0

/-- A call, and the references it leaves to its caller. -/
def Request.run [Env] : Request → M (NodeId → Int)
  | .mknod path => do
    let _ ← exfatMknod path
    pure 0
  | .mkdir path => do
    let _ ← exfatMkdir path
    pure 0
  | .rename oldPath newPath => do
    let _ ← exfatRename oldPath newPath
    pure 0
  | .unlink id => do
    let _ ← exfatUnlink id
    pure 0
  | .rmdir id => do
    let _ ← exfatRmdir id
    pure 0
  | .cleanup id => do
    let _ ← exfatCleanupNode id
    pure 0
  | .setLabel label => do
    let _ ← exfatSetLabel label
    pure 0
  | .lookup path => do
    let found ← exfatLookup path
    pure (given found)
  | .split path => do
    let target ← exfatSplit path
    pure (givenSplit target)
  | .opendir dir => do
    let rc ← exfatOpendir dir
    pure (if rc = .ok then Proofs.hold dir else 0)
  | .readdir it => do
    let (next, _) ← exfatReaddir it
    pure (holdOpt next)
  | .closedir dir => do
    exfatClosedir dir
    pure 0
  | .put id => do
    exfatPutNode id
    pure 0

/-- Runs of calls that return, by a caller that holds `k` at the start, and what it holds at the
end: it puts back only what it has. -/
inductive History [Env] (w : World) (k : NodeId → Int) : World → (NodeId → Int) → Prop where
  | start : History w k w k
  | call {v u : World} {held g : NodeId → Int} (r : Request) : History w k v held →
    r.takes ≤ held → r.run v = .ok (g, u) → History w k u (held - r.takes + g)

namespace Proofs

variable {w v u : World} {dir i d : NodeId} {n m : Node} {C : List NodeId}

/-- Only links changed: no uncached directory got a child, and no node an uncached parent. -/
structure Settles (w v : World) : Prop where
  links : Relinked w v
  child : ∀ d, w.Uncached d → childOf v.nodes d = childOf w.nodes d
  parent : ∀ i d, parentOf v.nodes i = some d →
    parentOf w.nodes i = some d ∨ d < w.fresh ∧ ¬w.Uncached d

theorem Settles.refl (w : World) : Settles w w := ⟨.refl w, fun _ _ => rfl, fun _ _ => Or.inl⟩

theorem Relinked.fresh (h : Relinked w v) : v.fresh = w.fresh := by rw [h.rest]

theorem Settles.sound (h : Settles w v) (hs : Sound C w) : Sound C v := by
  obtain ⟨hm, hc⟩ := hs
  refine ⟨⟨h.links.bound hm.bound, fun d hd => ?_, fun i d hi => ?_⟩, fun d hd => ?_⟩
  · have hu := h.links.uncached.mp hd
    rw [h.child d hu]
    exact hm.bare d hu
  · rw [h.links.fresh]
    have hw : d < w.fresh ∧ ¬w.Uncached d := (h.parent i d hi).elim (hm.below i d) id
    exact ⟨hw.1, fun hu => hw.2 (h.links.uncached.mp hu)⟩
  · have hb := congrArg (Option.map Node.isCached) (h.links.body d)
    rw [Option.map_map, Option.map_map] at hb
    exact hb.trans (hc d hd)

section
variable {E : Halt → Prop} [Lenient E]

/-- A step that changes the links of one node. -/
theorem Settles.modifyNode (h : Settles w v) {f : Node → Node} (hb : ∀ n, (f n).body = n.body)
    (hc : ∀ n, w.Uncached i → (f n).child = n.child)
    (hp : ∀ n d, (f n).parent = some d → n.parent = some d ∨ d < w.fresh ∧ ¬w.Uncached d) :
    Wp E (modifyNode i f) v fun _ u => Settles w u := by
  refine wp_relink lenient_fault hb fun n u hn _ hvu _ h1 _ _ h4 => ?_
  refine ⟨h.links.trans hvu, fun d hd => ?_, fun j d hj => ?_⟩
  · rw [h4, Function.update_apply]
    split
    · rename_i hdi
      subst hdi
      rw [hc n hd, ← childOf_eq hn]
      exact h.child d hd
    · exact h.child d hd
  · rw [h1, Function.update_apply] at hj
    split at hj
    · rename_i hji
      subst hji
      rcases hp n d hj with hn' | hd
      · exact h.parent j d ((parentOf_eq hn).trans hn')
      · exact .inr hd
    · exact h.parent j d hj

/-- `tree_attach` to a directory that is not uncached. -/
theorem treeAttach_settles (hlt : dir < w.fresh) (hd : ¬w.Uncached dir) :
    Wp E (treeAttach dir i) w fun _ v => Settles w v := by
  simp only [treeAttach, wp_bind]
  have hown : Wp E (modifyNode i fun n => { n with parent := some dir }) w fun _ v =>
      Settles w v := by
    refine (Settles.refl w).modifyNode (fun _ => rfl) (fun _ _ => rfl) fun n d he => ?_
    obtain rfl := Option.some.inj he
    exact .inr ⟨hlt, hd⟩
  refine hown.mono fun _ v hv => ?_
  rw [wp_getNode_iff lenient_fault]
  intro m _
  have hpush : Wp E (pushBack i m.child) v fun _ u => Settles w u := by
    unfold pushBack
    cases m.child with
    | none => exact hv
    | some c =>
      simp only [wp_bind]
      have hprev : Wp E (modifyNode c fun n => { n with prev := some i }) v fun _ u =>
          Settles w u := hv.modifyNode (fun _ => rfl) (fun _ _ => rfl) fun _ _ => .inl
      exact hprev.mono fun _ u hu => hu.modifyNode (fun _ => rfl) (fun _ _ => rfl) fun _ _ => .inl
  exact hpush.mono fun _ u hu =>
    hu.modifyNode (fun _ => rfl) (fun _ hun => absurd hun hd) fun _ _ => .inl

/-- `tree_detach` of any node. -/
theorem treeDetach_settles (h : Mounted w) : Wp E (treeDetach i) w fun _ v => Settles w v := by
  simp only [treeDetach, wp_bind]
  rw [wp_getNode_iff lenient_fault]
  intro n hn
  have hskip : Wp E (skipForward n) w fun _ v => Settles w v := by
    unfold skipForward
    cases n.prev with
    | some p => exact (Settles.refl w).modifyNode (fun _ => rfl) (fun _ _ => rfl) fun _ _ => .inl
    | none =>
      cases hp : n.parent with
      | none => exact lenient_fault
      | some d =>
        have hd := (h.below i d ((parentOf_eq hn).trans hp)).2
        simp only [deref, wp_bind, wp_pure]
        exact (Settles.refl w).modifyNode (fun _ => rfl) (fun _ hu => absurd hu hd) fun _ _ => .inl
  refine hskip.mono fun _ v hv => ?_
  have hback : Wp E (skipBackward n) v fun _ u => Settles w u := by
    unfold skipBackward
    cases n.next with
    | some q => exact hv.modifyNode (fun _ => rfl) (fun _ _ => rfl) fun _ _ => .inl
    | none => exact hv
  refine hback.mono fun _ u hu => hu.modifyNode (fun _ => rfl) (fun _ _ => rfl) fun _ _ he => ?_
  cases he

end

theorem hold_nonneg (i : NodeId) : 0 ≤ hold i := by
  rw [hold, Pi.single_nonneg]
  exact Int.one_nonneg

section
variable [Env] {e : NodeId → Int}

omit [Env] in
theorem add_hold_nonneg (he : 0 ≤ e) (i : NodeId) : 0 ≤ e + hold i := add_nonneg he (hold_nonneg i)

theorem balance_cache (dir : NodeId) : Balance [] e (exfatCacheDirectory dir) fun _ => e := by
  intro s hs _
  refine (exfatCacheDirectory_counts hs.1 dir).mono fun _ t ht => ?_
  refine ⟨⟨ht.1, nofun⟩, ?_⟩
  rw [ht.2, sub_add_cancel]

/-- `exfat_opendir` holds the directory it opened. -/
theorem balance_opendir (he : 0 ≤ e) (dir : NodeId) :
    Balance [] e (exfatOpendir dir) fun rc => if rc = .ok then e + hold dir else e := by
  refine balance_bind (balance_get dir) fun _ => balance_bind (balance_cache dir) fun rc => ?_
  cases rc with
  | ok => exact balance_pure _ rfl
  | err x => exact balance_return he dir rfl _ rfl

omit [Env] in
theorem balance_lookupLoop (he : 0 ≤ e) (buffer : List Nat) (ids : List NodeId) :
    Balance C e (lookupLoop buffer ids) fun found => e + holdOpt found := by
  induction ids with
  | nil => exact balance_pure _ (add_zero e).symm
  | cons p ps ih =>
    refine balance_bind (balance_get p) fun _ => balance_bind (balance_still still_getUpcase) fun u =>
      balance_bind (balance_still (still_getNode p)) fun n => balance_ite (fun _ => ?_) fun _ => ?_
    · exact balance_pure _ rfl
    · exact balance_bind (balance_put he p rfl) fun _ => ih

theorem balance_lookupName (he : 0 ≤ e) (parent : NodeId) (name : List UInt8) :
    Balance [] e (lookupName parent name) fun r => e + given r := by
  refine balance_bind (balance_still (still_nameToUtf16 _ _)) fun r => ?_
  cases r with
  | error x => exact balance_pure _ (add_zero e).symm
  | ok buffer =>
    refine balance_bind (balance_opendir he parent) fun rc => ?_
    cases rc with
    | err x => exact balance_pure _ (add_zero e).symm
    | ok =>
      refine balance_bind (balance_still (still_children parent)) fun ids =>
        balance_bind (balance_lookupLoop (add_hold_nonneg he parent) buffer ids) fun found => ?_
      cases found with
      | none =>
        exact balance_return he parent (add_zero _) _ (add_zero e).symm
      | some i =>
        exact balance_return (add_hold_nonneg he i) parent (add_right_comm _ _ _) _ rfl

theorem balance_lookupPath (he : 0 ≤ e) (fuel : Nat) (parent : NodeId) (path : List UInt8) :
    Balance [] (e + hold parent) (lookupPath fuel parent path) fun r => e + given r := by
  induction fuel generalizing parent path with
  | zero => exact balance_pure _ rfl
  | succ fuel ih =>
    refine balance_ite (fun _ => balance_pure _ rfl) fun _ =>
      balance_ite (fun _ => ih parent _) fun _ =>
        balance_bind (balance_lookupName (add_hold_nonneg he parent) parent _) fun r => ?_
    cases r with
    | error x =>
      exact balance_return he parent (add_zero _) _ (add_zero e).symm
    | ok node =>
      refine balance_bind (balance_put (add_hold_nonneg he node) parent (add_right_comm _ _ _))
        fun _ => ih node _

/-- `exfat_lookup` holds the node it found. -/
theorem balance_lookup (he : 0 ≤ e) (path : List UInt8) :
    Balance [] e (exfatLookup path) fun r => e + given r :=
  balance_bind (balance_still still_get) fun _ => balance_bind (balance_get _) fun _ =>
    balance_lookupPath he _ _ path

theorem balance_splitPath (he : 0 ≤ e) (fuel : Nat) (parent : NodeId) (path : List UInt8) :
    Balance [] (e + hold parent) (splitPath fuel parent path) fun r => e + givenSplit r := by
  induction fuel generalizing parent path with
  | zero => exact balance_bug _ (by simp)
  | succ fuel ih =>
    have hp := add_hold_nonneg he parent
    refine balance_ite (fun _ => balance_bug _ (by simp)) fun _ =>
      balance_ite (fun _ => ih parent _) fun _ => balance_ite (fun _ => ?_) fun _ => ?_
    · refine balance_ite (fun _ => balance_return he parent rfl _ (add_zero e).symm) fun _ =>
        balance_bind (balance_still (still_nameToUtf16 _ _)) fun r => ?_
      cases r with
      | error x => exact balance_return he parent rfl _ (add_zero e).symm
      | ok name =>
        refine balance_bind (balance_lookupName hp parent _) fun r => ?_
        split
        · exact balance_pure _ (add_assoc _ _ _)
        · exact balance_pure _ (add_assoc _ _ _)
        · exact balance_return he parent (add_zero _) _ (add_zero e).symm
    · refine balance_bind (balance_lookupName hp parent _) fun r => ?_
      cases r with
      | error x => exact balance_return he parent (add_zero _) _ (add_zero e).symm
      | ok node =>
        exact balance_bind (balance_put (add_hold_nonneg he node) parent (add_right_comm _ _ _))
          fun _ => ih node _

/-- `exfat_split` holds the directory and the node that has the name. -/
theorem balance_split (he : 0 ≤ e) (path : List UInt8) :
    Balance [] e (exfatSplit path) fun r => e + givenSplit r :=
  balance_bind (balance_still still_get) fun _ => balance_bind (balance_get _) fun _ =>
    balance_splitPath he _ _ path

omit [Env] in
theorem balance_detach (id : NodeId) : Balance C e (treeDetach id) fun _ => e := by
  intro s hs _
  refine (treeDetach_settles hs.1).mono fun _ t ht => ⟨ht.sound hs, ?_⟩
  rw [ht.links.counts, sub_add_cancel]

omit [Env] in
theorem balance_attach (hd : dir ∈ C) (id : NodeId) :
    Balance C e (treeAttach dir id) fun _ => e := by
  intro s hs _
  have hc := hs.2 dir hd
  have hlt : dir < s.fresh := by
    by_contra hge
    rw [Cached, hs.1.bound dir (Nat.le_of_not_lt hge)] at hc
    cases hc
  have hun : ¬s.Uncached dir := by
    rw [World.Uncached, hc]
    simp
  refine (treeAttach_settles hlt hun).mono fun _ t ht => ⟨ht.sound hs, ?_⟩
  rw [ht.links.counts, sub_add_cancel]

theorem balance_eraseNode (he : 0 ≤ e) (id : NodeId) :
    Balance C e (eraseNode id) fun _ => e :=
  balance_bind (balance_still (still_getNode id)) fun _ => balance_bind (balance_still (still_deref _))
    fun p => balance_bind (balance_get p) fun _ => balance_bind (balance_steady
      (steady_eraseEntries _ _ _)) fun _ => balance_ite (fun _ => balance_return he p rfl _ rfl)
        fun _ => balance_bind (balance_steady (steady_flushNode p)) fun _ =>
          balance_return he p rfl _ rfl

theorem balance_delete (he : 0 ≤ e) (id : NodeId) : Balance C e (delete id) fun _ => e := by
  refine balance_bind (balance_still (still_getNode id)) fun n =>
    balance_bind (balance_still (still_deref _)) fun p => balance_bind (balance_get p) fun _ =>
      balance_bind (balance_eraseNode (add_hold_nonneg he p) id) fun _ =>
        balance_ite (fun _ => balance_return he p rfl _ rfl) fun _ => ?_
  refine balance_bind (balance_detach id) fun _ =>
    balance_bind (balance_steady (steady_shrinkDirectory p _)) fun _ =>
      balance_bind (balance_modifyNode id fun _ => ⟨rfl, rfl, rfl, rfl⟩) fun _ =>
        balance_ite (fun _ => ?_) fun _ => ?_
  · exact balance_bind (balance_steady (steady_flushNode p)) fun _ => balance_return he p rfl _ rfl
  · exact balance_bind (balance_still (still_updateMtime p)) fun _ =>
      balance_bind (balance_steady (steady_flushNode p)) fun _ => balance_return he p rfl _ rfl

theorem balance_unlink (he : 0 ≤ e) (id : NodeId) : Balance C e (exfatUnlink id) fun _ => e :=
  balance_bind (balance_still (still_getNode id)) fun _ =>
    balance_ite (fun _ => balance_pure _ rfl) fun _ => balance_delete he id

theorem balance_rmdir (he : 0 ≤ e) (id : NodeId) : Balance [] e (exfatRmdir id) fun _ => e :=
  balance_bind (balance_still (still_getNode id)) fun _ =>
    balance_ite (fun _ => balance_pure _ rfl) fun _ => balance_bind (balance_cache id) fun _ =>
      balance_ite (fun _ => balance_pure _ rfl) fun _ =>
        balance_bind (balance_still (still_getNode id)) fun _ =>
          balance_ite (fun _ => balance_pure _ rfl) fun _ => balance_delete he id

/-- `exfat_cleanup_node` frees a node without references only. -/
theorem balance_cleanupNode (id : NodeId) : Balance [] e (exfatCleanupNode id) fun _ => e := by
  intro s hs _
  simp only [exfatCleanupNode, wp_bind]
  rw [wp_getNode_iff lenient_fault]
  intro n hn
  split
  · rw [wp_exfatBug]
    exact lenient_bug (E := (· ≠ belowZero)) (by simp)
  rename_i hzero
  split
  · simp only [wp_bind]
    refine (steady_truncate id 0 true s).mono fun rc t ht => ?_
    rw [wp_freeNode, wp_pure]
    have hfewer : ∀ j, (if j = id then none else t.nodes j) = none ∨
        (if j = id then none else t.nodes j) = t.nodes j := fun j => ite_eq_or_eq _ _ _
    refine ⟨⟨((hs.alike ht.alike).1).fewer hfewer rfl, fun _ h => by cases h⟩, ?_⟩
    rw [sub_add_cancel, ← ht.counts]
    funext j
    by_cases hj : j = id
    · have ht0 : refs t id = 0 := by
        rw [ht.counts, refs_eq hn]
        exact not_not.mp hzero
      rw [hj, ht0]
      exact refs_none (if_pos rfl)
    · simp only [refs, if_neg hj]
  · exact ⟨hs, (sub_add_cancel _ _).symm⟩

omit [Env] in
/-- A new node is not in the tree. -/
theorem Sound.spawned (h : Sound C w) (hn : n.parent = none) (hc : n.child = none)
    (hr : n.references = 0) :
    Sound C { (w.setNode w.fresh n) with fresh := w.fresh + 1 } ∧
      refs { (w.setNode w.fresh n) with fresh := w.fresh + 1 } = refs w := by
  obtain ⟨hm, hC⟩ := h
  have hnone : w.nodes w.fresh = none := hm.bound _ le_rfl
  have hnodes : ∀ j, j ≠ w.fresh → (w.setNode w.fresh n).nodes j = w.nodes j := fun j hj =>
    World.setNode_ne _ _ hj
  refine ⟨⟨⟨fun i hi => ?_, fun d hd => ?_, fun i d hi => ?_⟩, fun d hd => ?_⟩, funext fun j => ?_⟩
  · exact (hnodes i (Nat.lt_of_succ_le hi).ne').trans (hm.bound i (Nat.le_of_succ_le hi))
  · change childOf (w.setNode w.fresh n).nodes d = none
    rw [childOf_setNode]
    split
    · exact hc
    · rename_i hdf
      exact hm.bare d ((congrArg (Option.map Node.isCached) (hnodes d hdf)).symm.trans hd)
  · change parentOf (w.setNode w.fresh n).nodes i = some d at hi
    rw [parentOf_setNode, hn] at hi
    split at hi
    · cases hi
    · obtain ⟨hlt, hd⟩ := hm.below i d hi
      refine ⟨Nat.lt_succ_of_lt hlt, fun hu => hd ?_⟩
      exact (congrArg (Option.map Node.isCached) (hnodes d hlt.ne)).symm.trans hu
  · have hd' := hC d hd
    have hdf : d ≠ w.fresh := by
      rintro rfl
      rw [Cached, hnone] at hd'
      cases hd'
    exact (congrArg (Option.map Node.isCached) (hnodes d hdf)).trans hd'
  · by_cases hj : j = w.fresh
    · rw [hj, refs_none hnone]
      exact (refs_eq (World.setNode_self _ _ _)).trans hr
    · exact congrArg (fun o => (o.map Node.references).getD 0) (hnodes j hj)

theorem balance_allocateNode : Balance C e allocateNode fun _ => e := by
  refine balance_bind (balance_still still_mallocOk) fun b => balance_ite (fun _ => ?_) fun _ => ?_
  · intro s hs _
    simp only [wp_bind, wp_get, wp_set, wp_pure]
    obtain ⟨ht, hr⟩ := hs.spawned (n := { name := padName [] }) rfl rfl rfl
    refine ⟨ht, ?_⟩
    rw [hr, sub_add_cancel]
  · exact balance_bind (balance_still (still_error _)) fun _ => balance_pure _ rfl

theorem still_exfat2unix {E : Halt → Prop} (date time cs : Nat) :
    Safe E Still (exfatExfat2unix date time cs) :=
  still_ite (still_bind (still_error _) fun _ => still_pure _)
    (still_ite (still_bind (still_error _) fun _ => still_pure _)
      (still_ite (still_bind (still_error _) fun _ => still_pure _) (still_pure _)))

theorem balance_initNodeMeta1 (id : NodeId) (meta1 : List UInt8) :
    Balance C e (initNodeMeta1 id meta1) fun _ => e :=
  balance_bind (balance_modifyNode id fun _ => ⟨rfl, rfl, rfl, rfl⟩) fun _ =>
    balance_bind (balance_still (still_exfat2unix _ _ _)) fun _ =>
      balance_bind (balance_still (still_exfat2unix _ _ _)) fun _ =>
        balance_modifyNode id fun _ => ⟨rfl, rfl, rfl, rfl⟩

omit [Env] in
theorem balance_initNodeMeta2 (id : NodeId) (meta2 : List UInt8) :
    Balance C e (initNodeMeta2 id meta2) fun _ => e :=
  balance_modifyNode id fun _ => ⟨rfl, rfl, rfl, rfl⟩

/-- `find_slot` returns only when the directory is cached. -/
theorem balance_findSlot {β : Type} {f : Rc × Nat → M β} {g : β → NodeId → Int} (k : Nat)
    (hf : ∀ r, Balance [dir] e (f r) g) : Balance [] e (findSlot dir k >>= f) g := by
  have hcached : ∀ s, Wp (fun _ => True) (findSlot dir k) s fun _ _ => Cached s dir := by
    intro s
    simp only [findSlot, wp_bind]
    rw [wp_getNode_iff trivial]
    intro n hn
    cases hc : n.isCached with
    | false => trivial
    | true =>
      refine wp_const ?_
      rw [Cached, hn, Option.map_some, hc]
  have htrade : Trade (· ≠ belowZero) refs (Sound []) e (findSlot dir k) (fun _ => Sound [dir])
      fun _ => e := by
    intro s hs _
    refine ((steady_findSlot dir k s).both (hcached s)).mono ?_
    rintro r t ⟨ht, hd⟩
    refine ⟨⟨(hs.alike ht.alike).1, fun j hj => ?_⟩, ?_⟩
    · obtain rfl := List.mem_singleton.mp hj
      exact (ht.alike.cached j).trans hd
    · rw [ht.counts, sub_add_cancel]
  exact htrade.bind fun r => (hf r).conseq (fun _ => id) fun _ _ hs => ⟨hs.1, nofun⟩

theorem balance_commitEntry (hd : dir ∈ C) (name : List Nat) (offset attrib : Nat) :
    Balance C e (commitEntry dir name offset attrib) fun _ => e := by
  refine balance_bind (balance_still still_timeNow) fun _ =>
    balance_bind (balance_still still_getUpcase) fun u =>
      balance_bind (balance_steady (steady_writeEntries _ _ _)) fun rc =>
        balance_ite (fun _ => balance_pure _ rfl) fun _ =>
          balance_bind balance_allocateNode fun r => ?_
  cases r with
  | none => exact balance_pure _ rfl
  | some id =>
    exact balance_bind (balance_modifyNode id fun _ => ⟨rfl, rfl, rfl, rfl⟩) fun _ =>
      balance_bind (balance_initNodeMeta1 id _) fun _ => balance_bind (balance_initNodeMeta2 id _)
        fun _ => balance_bind (balance_attach hd id) fun _ => balance_pure _ rfl

theorem balance_createIn (he : 0 ≤ e) (attrib : Nat)
    (target : NodeId × Option NodeId × List Nat) :
    Balance [] (e + givenSplit (.ok target)) (createIn attrib target) fun _ => e := by
  obtain ⟨dir, existing, name⟩ := target
  cases existing with
  | some i =>
    refine balance_bind (balance_put (add_hold_nonneg he dir) i (add_assoc _ _ _).symm) fun _ => ?_
    exact balance_return he dir rfl _ rfl
  | none =>
    have hd : e + givenSplit (.ok (dir, none, name)) = e + hold dir :=
      congrArg (e + ·) (add_zero (hold dir))
    refine balance_findSlot _ fun r => balance_ite (fun _ => ?_) fun _ =>
      balance_bind (balance_commitEntry (List.mem_singleton.mpr rfl) name _ attrib) fun rc =>
        balance_ite (fun _ => ?_) fun _ => ?_
    · exact balance_return he dir hd _ rfl
    · exact balance_return he dir hd _ rfl
    · exact balance_bind (balance_still (still_updateMtime dir)) fun _ =>
        balance_bind (balance_steady (steady_flushNode dir)) fun _ =>
          balance_return he dir hd _ rfl

theorem balance_create (he : 0 ≤ e) (path : List UInt8) (attrib : Nat) :
    Balance [] e (create path attrib) fun _ => e := by
  refine balance_bind (balance_split he path) fun r => ?_
  cases r with
  | error x => exact balance_pure _ (add_zero e)
  | ok target => exact balance_createIn he attrib target

theorem balance_mkdirUndo (he : 0 ≤ e) (node : NodeId) (rc : Rc) :
    Balance C (e + hold node) (mkdirUndo node rc) fun _ => e :=
  balance_bind (balance_delete (add_hold_nonneg he node) node) fun _ =>
    balance_return he node rfl _ rfl

theorem balance_mkdirFinish (he : 0 ≤ e) (path : List UInt8) (rc : Rc) :
    Balance [] e (mkdirFinish path rc) fun _ => e := by
  refine balance_ite (fun _ => balance_pure _ rfl) fun _ =>
    balance_bind (balance_lookup he path) fun r => ?_
  cases r with
  | error x => exact balance_pure _ (add_zero e)
  | ok node =>
    exact balance_bind (balance_still still_get) fun _ =>
      balance_bind (balance_steady (steady_truncate _ _ _)) fun rc =>
        balance_ite (fun _ => balance_mkdirUndo he node _) fun _ =>
          balance_bind (balance_steady (steady_flushNode node)) fun rc =>
            balance_ite (fun _ => balance_mkdirUndo he node _) fun _ =>
              balance_return he node rfl _ rfl

theorem balance_mkdir (he : 0 ≤ e) (path : List UInt8) :
    Balance [] e (exfatMkdir path) fun _ => e :=
  balance_bind (balance_create he path exfatAttribDir) fun rc => balance_mkdirFinish he path rc

theorem balance_renameEntry (he : 0 ≤ e) (hd : dir ∈ C) (id : NodeId) (name : List Nat)
    (offset : Nat) : Balance C e (renameEntry dir id name offset) fun _ => e := by
  refine balance_bind (balance_still (still_getNode id)) fun n =>
    balance_bind (balance_still (still_deref _)) fun p =>
      balance_bind (balance_still (still_readEntries _ _ _)) fun r => ?_
  cases r with
  | error x => exact balance_pure _ rfl
  | ok entries =>
    refine balance_bind (balance_still still_getUpcase) fun u =>
      balance_bind (balance_eraseNode he id) fun rc =>
        balance_ite (fun _ => balance_pure _ rfl) fun _ =>
          balance_bind (balance_modifyNode id fun _ => ⟨rfl, rfl, rfl, rfl⟩) fun _ =>
            balance_bind (balance_steady (steady_writeEntries _ _ _)) fun rc =>
              balance_ite (fun _ => balance_pure _ rfl) fun _ => ?_
    exact balance_bind (balance_modifyNode id fun _ => ⟨rfl, rfl, rfl, rfl⟩) fun _ =>
      balance_bind (balance_detach id) fun _ => balance_bind (balance_attach hd id) fun _ =>
        balance_pure _ rfl

theorem balance_removeExisting (he : 0 ≤ e) (id existing : NodeId) :
    Balance [] e (removeExisting id existing) fun _ => e :=
  balance_bind (balance_still (still_getNode id)) fun _ =>
    balance_bind (balance_still (still_getNode existing)) fun _ => balance_ite
      (fun _ => balance_ite (fun _ => balance_rmdir he existing) fun _ => balance_pure _ rfl)
      fun _ => balance_ite (fun _ => balance_unlink he existing) fun _ => balance_pure _ rfl

theorem balance_removeTarget (he : 0 ≤ e) (id existing : NodeId) :
    Balance [] (e + hold existing) (removeTarget id existing) fun _ => e := by
  refine balance_ite (fun _ => balance_return he existing rfl _ rfl) fun _ =>
    balance_bind (balance_removeExisting (add_hold_nonneg he existing) id existing) fun rc =>
      balance_bind (balance_put he existing rfl) fun _ => balance_ite (fun _ => ?_) fun _ => ?_
  · exact balance_bind (balance_cleanupNode existing) fun _ => balance_pure _ rfl
  · exact balance_cleanupNode existing

theorem balance_clearTarget (he : 0 ≤ e) (id : NodeId) (existing : Option NodeId) :
    Balance [] (e + holdOpt existing) (clearTarget id existing) fun _ => e := by
  cases existing with
  | none => exact balance_pure _ (add_zero e)
  | some i => exact balance_removeTarget he id i

omit [Env] in
theorem balance_putExisting (he : 0 ≤ e) (existing : Option NodeId) :
    Balance C (e + holdOpt existing) (putExisting existing) fun _ => e := by
  cases existing with
  | none => exact balance_pure _ (add_zero e)
  | some i => exact balance_put he i rfl

omit [Env] in
theorem balance_targetInside (id dir : NodeId) : Balance C e (targetInside id dir) fun _ => e :=
  balance_bind (balance_still (still_getNode id)) fun _ => balance_ite
    (fun _ => balance_bind (balance_still still_get) fun _ => balance_still (still_isAncestor _ _ _))
    fun _ => balance_pure _ rfl

/-- The references `exfat_rename` has on what its paths name. -/
def pathsHeld : Except Errno (NodeId × NodeId × Option NodeId × List Nat) → NodeId → Int
  | .error _ => 0
  | .ok (id, dir, existing, _) => hold id + hold dir + holdOpt existing

theorem balance_renamePaths (he : 0 ≤ e) (oldPath newPath : List UInt8) :
    Balance [] e (renamePaths oldPath newPath) fun r => e + pathsHeld r := by
  refine balance_bind (balance_lookup he oldPath) fun r => ?_
  cases r with
  | error x => exact balance_pure _ rfl
  | ok id =>
    refine balance_bind (balance_split (add_hold_nonneg he id) newPath) fun r => ?_
    cases r with
    | error x => exact balance_return he id (add_zero _) _ (add_zero e).symm
    | ok target =>
      refine balance_pure _ ?_
      simp only [givenSplit, pathsHeld, add_assoc]

omit [Env] in
theorem balance_renamePut (he : 0 ≤ e) (id dir : NodeId) (rc : Rc) :
    Balance C (e + hold id + hold dir) (renamePut id dir rc) fun _ => e :=
  balance_bind (balance_put (add_hold_nonneg he id) dir rfl) fun _ => balance_return he id rfl _ rfl

theorem balance_renameMove (he : 0 ≤ e) (id dir : NodeId) (name : List Nat) :
    Balance [] (e + hold id + hold dir) (renameMove id dir name) fun _ => e :=
  have hheld := add_hold_nonneg (add_hold_nonneg he id) dir
  balance_findSlot _ fun _ => balance_ite (fun _ => balance_renamePut he id dir _) fun _ =>
    balance_bind (balance_renameEntry hheld (List.mem_singleton.mpr rfl) id name _) fun _ =>
      balance_ite (fun _ => balance_renamePut he id dir _) fun _ =>
        balance_bind (balance_steady (steady_flushNode dir)) fun _ => balance_renamePut he id dir _

theorem balance_renameNode (he : 0 ≤ e) (target : NodeId × NodeId × Option NodeId × List Nat) :
    Balance [] (e + pathsHeld (.ok target)) (renameNode target) fun _ => e := by
  obtain ⟨id, dir, existing, name⟩ := target
  have hheld := add_hold_nonneg (add_hold_nonneg he id) dir
  have hsum : e + pathsHeld (.ok (id, dir, existing, name)) =
      e + hold id + hold dir + holdOpt existing := by
    simp only [pathsHeld, add_assoc]
  rw [hsum]
  refine balance_bind (balance_targetInside id dir) fun _ => balance_ite (fun _ => ?_) fun _ => ?_
  · exact balance_bind (balance_putExisting hheld existing) fun _ => balance_renamePut he id dir _
  · exact balance_bind (balance_clearTarget hheld id existing) fun _ =>
      balance_ite (fun _ => balance_renamePut he id dir _) fun _ => balance_renameMove he id dir name

theorem balance_rename (he : 0 ≤ e) (oldPath newPath : List UInt8) :
    Balance [] e (exfatRename oldPath newPath) fun _ => e := by
  refine balance_bind (balance_renamePaths he oldPath newPath) fun r => ?_
  cases r with
  | error x => exact balance_pure _ (add_zero e)
  | ok target => exact balance_renameNode he target

omit [Env] in
theorem balance_readdir (it : Iterator) :
    Balance C e (exfatReaddir it) fun r => e + holdOpt r.1 := by
  have hrest : ∀ next : Option NodeId, Balance C e
      (match next with
        | none => pure (none, { it with current := none })
        | some node => do
          exfatGetNode node
          pure (some node, { it with current := some node }))
      fun r => e + holdOpt r.1 := by
    intro next
    cases next with
    | none => exact balance_pure _ (add_zero e).symm
    | some node => exact balance_bind (balance_get node) fun _ => balance_pure _ rfl
  unfold exfatReaddir
  cases it.current with
  | none => exact balance_bind (balance_still (still_getNode it.parent)) fun n => hrest n.child
  | some i => exact balance_bind (balance_still (still_getNode i)) fun n => hrest n.next

/-- What a call takes over and what it leaves. -/
theorem balance_request (r : Request) : Balance [] r.takes r.run id := by
  cases r with
  | mknod path => exact balance_bind (balance_create le_rfl path _) fun _ => balance_pure _ rfl
  | mkdir path => exact balance_bind (balance_mkdir le_rfl path) fun _ => balance_pure _ rfl
  | rename p q => exact balance_bind (balance_rename le_rfl p q) fun _ => balance_pure _ rfl
  | unlink i => exact balance_bind (balance_unlink le_rfl i) fun _ => balance_pure _ rfl
  | rmdir i => exact balance_bind (balance_rmdir le_rfl i) fun _ => balance_pure _ rfl
  | cleanup i => exact balance_bind (balance_cleanupNode i) fun _ => balance_pure _ rfl
  | setLabel label =>
    exact balance_bind (balance_steady (steady_setLabel label)) fun _ => balance_pure _ rfl
  | lookup path =>
    exact balance_bind (balance_lookup le_rfl path) fun r => balance_pure _ (zero_add _)
  | split path => exact balance_bind (balance_split le_rfl path) fun r => balance_pure _ (zero_add _)
  | opendir dir =>
    refine balance_bind (balance_opendir le_rfl dir) fun rc => balance_pure _ ?_
    simp only [zero_add, id]
  | readdir it => exact balance_bind (balance_readdir it) fun r => balance_pure _ (zero_add _)
  | closedir dir => exact balance_return le_rfl dir (zero_add _).symm _ rfl
  | put i => exact balance_return le_rfl i (zero_add _).symm _ rfl

omit [Env] in
theorem holdOpt_nonneg (o : Option NodeId) : 0 ≤ holdOpt o := by
  cases o with
  | none => exact le_rfl
  | some i => exact hold_nonneg i

/-- A caller never owes references. -/
theorem request_nonneg (r : Request) (w : World) : Wp (fun _ => True) r.run w fun g _ => 0 ≤ g := by
  have hany : ∀ {α : Type} {m : M α} {g : α → NodeId → Int}, (∀ a, 0 ≤ g a) →
      Wp (fun _ => True) (m >>= fun a => pure (g a)) w fun g _ => 0 ≤ g := by
    intro α m g hg
    rw [wp_bind]
    exact (wp_const trivial).mono fun a _ _ => hg a
  cases r with
  | lookup path =>
    refine hany fun found => ?_
    cases found with
    | error x => exact le_rfl
    | ok i => exact hold_nonneg i
  | split path =>
    refine hany fun target => ?_
    cases target with
    | error x => exact le_rfl
    | ok t => exact add_nonneg (hold_nonneg _) (holdOpt_nonneg _)
  | opendir dir =>
    refine hany fun rc => ?_
    split
    · exact hold_nonneg dir
    · exact le_rfl
  | readdir it => exact hany fun r => holdOpt_nonneg r.1
  | mknod | mkdir | rename | unlink | rmdir | cleanup | setLabel | closedir | put =>
    exact hany fun _ => le_rfl

theorem request_counts (h : Mounted w) (r : Request) (hr : r.takes ≤ refs w) :
    Wp (· ≠ belowZero) r.run w fun g v => Mounted v ∧ refs v = refs w - r.takes + g :=
  (balance_request r w ⟨h, nofun⟩ hr).mono fun _ _ ht => ⟨ht.1.1, ht.2⟩

theorem history_counts {k held : NodeId → Int} (h : Mounted w) (hk : 0 ≤ k) (hw : k ≤ refs w)
    (hv : History w k v held) : Mounted v ∧ 0 ≤ held ∧ refs v = refs w - k + held := by
  induction hv with
  | start => exact ⟨h, hk, (sub_add_cancel _ _).symm⟩
  | call r _ htakes hrun ih =>
    obtain ⟨hm, hheld, hrefs⟩ := ih
    have hle := htakes.trans (hrefs ▸ le_add_of_nonneg_left (sub_nonneg.mpr hw))
    obtain ⟨⟨hu, hcounts⟩, hg⟩ := ((request_counts hm r hle).both (request_nonneg r _)).run hrun
    refine ⟨hu, add_nonneg (sub_nonneg.mpr htakes) hg, ?_⟩
    rw [hcounts, hrefs]
    abel

/-- Every call, on every path that returns, leaves the references of all nodes as they were, but for
those it took over and those on what it found; and over any run of calls by a caller that puts back
only what it holds no count falls below zero. -/
theorem references_balance (h : Mounted w) {k : NodeId → Int} (hk : 0 ≤ k) (hw : k ≤ refs w) :
    (∀ r : Request, r.takes ≤ refs w →
      Wp (· ≠ belowZero) r.run w fun g v => Mounted v ∧ refs v = refs w - r.takes + g) ∧
    ∀ v held, History w k v held → refs v = refs w - k + held ∧
      ∀ r : Request, r.takes ≤ held → r.run v ≠ .error belowZero := by
  refine ⟨fun r hr => request_counts h r hr, fun v held hv => ?_⟩
  obtain ⟨hm, -, hrefs⟩ := history_counts h hk hw hv
  refine ⟨hrefs, fun r hr hrun => ?_⟩
  have hle := hr.trans (hrefs ▸ le_add_of_nonneg_left (sub_nonneg.mpr hw))
  exact (wp_error hrun).mp (request_counts hm r hle) rfl

end

theorem references_balance_family : refs (family (fun _ => 0) id letterDir) = 0 ∧
    ∀ v held, @History calmEnv (family (fun _ => 0) id letterDir) 0 v held → refs v = held ∧
      ∀ r : Request, r.takes ≤ held → @Request.run calmEnv r v ≠ .error belowZero := by
  have hrefs : refs (family (fun _ => 0) id letterDir) = 0 := by
    funext i
    match i with
    | 0 => rfl
    | 1 => rfl
    | _ + 2 => rfl
  refine ⟨hrefs, fun v held hv => ?_⟩
  obtain ⟨hcounts, hrun⟩ := (@references_balance _ calmEnv (family_tree _ _ _).mounted 0 le_rfl
    hrefs.ge).2 v held hv
  refine ⟨?_, hrun⟩
  rwa [hrefs, sub_zero, zero_add] at hcounts

end Proofs

end Exfat
