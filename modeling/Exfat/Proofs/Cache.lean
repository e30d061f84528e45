import Exfat.Proofs.Siblings

namespace Exfat
open Lib

/-! Reading a directory into the tree: what `readdir` adds to it, and the trees while a directory is
read and when it was. -/

/-- The part of a node that a directory lists: its parent, slots, kind, size and name. -/
def Node.face (n : Node) : Node :=
  { n.skel with child := none, next := none, prev := none, isCached := false }

/-- The world after some nodes were freed. -/
def World.freed (w : World) (L : List NodeId) : World :=
  { w with nodes := fun j => if j ∈ L then none else w.nodes j }

namespace Proofs

theorem face_eq_iff {m n : Node} : m.face = n.face ↔
    m.parent = n.parent ∧ m.entryOffset = n.entryOffset ∧ m.attrib = n.attrib ∧
      m.continuations = n.continuations ∧ m.isUnlinked = n.isUnlinked ∧ m.size = n.size ∧
      m.name = n.name := by
  simp [Node.face, Node.skel]

theorem face_of_skel {m n : Node} (h : m.skel = n.skel) : m.face = n.face := by
  rw [Node.face, Node.face, h]

/-- Only what `parse_file_entries` fills in of one node changed. -/
structure Filled (id : NodeId) (w v : World) : Prop where
  others : ∀ i, i ≠ id → v.nodes i = w.nodes i
  same : ∀ n, w.nodes id = some n → ∃ m, v.nodes id = some m ∧ m.parent = n.parent ∧
    m.child = n.child ∧ m.next = n.next ∧ m.prev = n.prev ∧ m.isCached = n.isCached ∧
    m.isUnlinked = n.isUnlinked ∧ m.entryOffset = n.entryOffset ∧ m.references = n.references
  fresh : v.fresh = w.fresh
  root : v.root = w.root
  upcase : v.upcase = w.upcase
  sb : v.sb = w.sb

theorem Filled.refl (id : NodeId) (w : World) : Filled id w w :=
  ⟨fun _ _ => rfl, fun n hn => ⟨n, hn, rfl, rfl, rfl, rfl, rfl, rfl, rfl, rfl⟩, rfl, rfl, rfl, rfl⟩

theorem Filled.trans (id : NodeId) (w v u : World) (h : Filled id w v) (h' : Filled id v u) :
    Filled id w u := by
  refine ⟨fun i hi => (h'.others i hi).trans (h.others i hi), fun n hn => ?_,
    h'.fresh.trans h.fresh, h'.root.trans h.root, h'.upcase.trans h.upcase, h'.sb.trans h.sb⟩
  obtain ⟨m, hm, h1, h2, h3, h4, h5, h6, h7, h8⟩ := h.same n hn
  obtain ⟨k, hk, k1, k2, k3, k4, k5, k6, k7, k8⟩ := h'.same m hm
  exact ⟨k, hk, k1.trans h1, k2.trans h2, k3.trans h3, k4.trans h4, k5.trans h5, k6.trans h6,
    k7.trans h7, k8.trans h8⟩

section
variable {id : NodeId} {α β : Type} {m : M α} {E : Halt → Prop}

theorem filled_pure (a : α) : Safe E (Filled id) (pure a : M α) := safe_pure (Filled.refl id) a

theorem filled_bind {f : α → M β} (hm : Safe E (Filled id) m) (hf : ∀ a, Safe E (Filled id) (f a)) :
    Safe E (Filled id) (m >>= f) := safe_bind (Filled.trans id) hm hf

theorem filled_ite {c : Prop} [Decidable c] {m n : M α} (hm : Safe E (Filled id) m)
    (hn : Safe E (Filled id) n) : Safe E (Filled id) (if c then m else n) := safe_ite hm hn

theorem filled_get : Safe E (Filled id) (get : M World) := safe_get (Filled.refl id)

theorem filled_error (s : String) : Safe E (Filled id) (exfatError s) := fun _ =>
  ⟨fun _ _ => rfl, fun n hn => ⟨n, hn, rfl, rfl, rfl, rfl, rfl, rfl, rfl, rfl⟩, rfl, rfl, rfl, rfl⟩

theorem filled_countFixed : Safe E (Filled id) countFixed := fun _ =>
  ⟨fun _ _ => rfl, fun n hn => ⟨n, hn, rfl, rfl, rfl, rfl, rfl, rfl, rfl, rfl⟩, rfl, rfl, rfl, rfl⟩

variable [Lenient E]

theorem filled_getNode (i : NodeId) : Safe E (Filled id) (getNode i) := by
  intro w
  rw [wp_getNode_iff lenient_fault]
  exact fun n _ => .refl id w

theorem filled_modifyNode {f : Node → Node} (hf : ∀ n, (f n).parent = n.parent ∧
    (f n).child = n.child ∧ (f n).next = n.next ∧ (f n).prev = n.prev ∧
    (f n).isCached = n.isCached ∧ (f n).isUnlinked = n.isUnlinked ∧
    (f n).entryOffset = n.entryOffset ∧ (f n).references = n.references) :
    Safe E (Filled id) (modifyNode id f) := by
  intro w
  rw [wp_modifyNode_iff lenient_fault]
  intro n hn
  refine ⟨fun i hi => World.setNode_ne _ _ hi, fun n' hn' => ?_, rfl, rfl, rfl, rfl⟩
  obtain rfl := Option.some.inj (hn.symm.trans hn')
  exact ⟨f n, World.setNode_self _ _ _, hf n⟩

theorem filled_exfatGetName (name : List Nat) : Safe E (Filled id) (exfatGetName name) := by
  unfold exfatGetName
  split
  · exact filled_pure _
  · exact filled_bind (filled_error _) fun _ => safe_throw (lenient_bug (by simp))

theorem filled_nodeCheck (b : Bool) (s : String) : Safe E (Filled id) (nodeCheck id b s) :=
  filled_ite (filled_bind (filled_getNode _) fun _ => filled_bind (filled_exfatGetName _) fun _ =>
    filled_bind (filled_error _) fun _ => filled_pure _) (filled_pure _)

omit [Lenient E] in
theorem filled_askToFix : Safe E (Filled id) exfatAskToFix := by
  intro w
  simp only [exfatAskToFix, wp_bind, wp_get]
  cases w.repair with
  | no => exact .refl id w
  | yes => exact .refl id w
  | ask =>
    exact ⟨fun _ _ => rfl, fun n hn => ⟨n, hn, rfl, rfl, rfl, rfl, rfl, rfl, rfl, rfl⟩, rfl, rfl, rfl, rfl⟩

omit [Lenient E] in
theorem filled_exfat2unix [Env] (date time cs : Nat) :
    Safe E (Filled id) (exfatExfat2unix date time cs) :=
  filled_ite (filled_bind (filled_error _) fun _ => filled_pure _)
    (filled_ite (filled_bind (filled_error _) fun _ => filled_pure _)
      (filled_ite (filled_bind (filled_error _) fun _ => filled_pure _) (filled_pure _)))

omit [Lenient E] in
theorem filled_checkEntries (e : List UInt8) (n : Nat) : Safe E (Filled id) (checkEntries e n) :=
  filled_ite (filled_pure _) (filled_bind (filled_error _) fun _ => filled_pure _)

theorem filled_checkSum (k : Nat) (meta1 : List UInt8) : Safe E (Filled id) (checkSum id k meta1) :=
  filled_bind (filled_nodeCheck _ _) fun _ => filled_ite (filled_pure _)
    (filled_bind filled_askToFix fun _ => filled_ite
      (filled_bind (filled_modifyNode fun _ => ⟨rfl, rfl, rfl, rfl, rfl, rfl, rfl, rfl⟩) fun _ =>
        filled_bind filled_countFixed fun _ => filled_pure _) (filled_pure _))

theorem filled_checkNode (k : Nat) (meta1 meta2 : List UInt8) :
    Safe E (Filled id) (checkNode id k meta1 meta2) :=
  filled_bind filled_get fun _ => filled_bind (filled_getNode _) fun _ =>
    filled_bind (filled_checkSum _ _) fun _ => filled_bind (filled_nodeCheck _ _) fun _ =>
    filled_bind (filled_nodeCheck _ _) fun _ => filled_bind (filled_nodeCheck _ _) fun _ =>
    filled_bind (filled_nodeCheck _ _) fun _ => filled_bind (filled_nodeCheck _ _) fun _ =>
    filled_bind (filled_nodeCheck _ _) fun _ => filled_pure _

theorem filled_initNodeMeta1 [Env] (meta1 : List UInt8) :
    Safe E (Filled id) (initNodeMeta1 id meta1) :=
  filled_bind (filled_modifyNode fun _ => ⟨rfl, rfl, rfl, rfl, rfl, rfl, rfl, rfl⟩) fun _ =>
    filled_bind (filled_exfat2unix _ _ _) fun _ => filled_bind (filled_exfat2unix _ _ _) fun _ =>
      filled_modifyNode fun _ => ⟨rfl, rfl, rfl, rfl, rfl, rfl, rfl, rfl⟩

theorem filled_initNodeMeta2 (meta2 : List UInt8) :
    Safe E (Filled id) (initNodeMeta2 id meta2) :=
  filled_modifyNode fun _ => ⟨rfl, rfl, rfl, rfl, rfl, rfl, rfl, rfl⟩

theorem filled_parseFileEntries [Env] (entries : List UInt8) (n : Nat) :
    Safe E (Filled id) (parseFileEntries id entries n) := by
  refine filled_bind (filled_checkEntries _ _) fun _ => filled_ite (filled_pure _) ?_
  refine filled_ite (filled_bind (filled_error _) fun _ => filled_pure _)
    (filled_ite (filled_bind (filled_error _) fun _ => filled_pure _)
      (filled_ite (filled_bind (filled_error _) fun _ => filled_pure _) ?_))
  exact filled_bind (filled_initNodeMeta1 _) fun _ => filled_bind (filled_initNodeMeta2 _) fun _ =>
    filled_bind (filled_modifyNode fun _ => ⟨rfl, rfl, rfl, rfl, rfl, rfl, rfl, rfl⟩) fun _ =>
      filled_bind (filled_checkNode _ _ _) fun _ => filled_ite (filled_pure _) (filled_pure _)

end

/-- A node outside the tree that is neither cached nor unlinked. -/
structure Loose (n : Node) : Prop where
  parent : n.parent = none
  child : n.child = none
  next : n.next = none
  prev : n.prev = none
  cached : n.isCached = false
  unlinked : n.isUnlinked = false

/-- One new node came into being, outside the tree. -/
structure Spawned (id : NodeId) (w v : World) : Prop where
  others : ∀ i, i ≠ id → (v.nodes i).map Node.skel = (w.nodes i).map Node.skel
  node : ∃ n, v.nodes id = some n ∧ Loose n
  old : w.fresh ≤ id
  fresh : id < v.fresh
  root : v.root = w.root
  upcase : ∀ u, w.upcase = some u → v.upcase = some u

theorem Calm.spawned {w v u : World} {id : NodeId} (h : Calm w v) (h' : Spawned id v u) :
    Spawned id w u :=
  ⟨fun i hi => (h'.others i hi).trans (h.skel i), h'.node, h.fresh.trans h'.old, h'.fresh,
    h'.root.trans h.root, fun x hx => h'.upcase x (h.upcase x hx)⟩

variable [Env] {w v : World} {kids : NodeId → List NodeId} {dir : NodeId}

/-- `parse_file_entry` makes a new node or leaves the tree alone. -/
theorem parseFileEntry_spec (hb : ∀ i, w.fresh ≤ i → w.nodes i = none) (offset n : Nat) :
    Wp (fun _ => True) (parseFileEntry dir offset n) w fun r v =>
      (∀ e, r = .error e → Calm w v) ∧ ∀ id o, r = .ok (id, o) → Spawned id w v := by
  simp only [parseFileEntry, wp_bind]
  apply (calm_readEntries _ _ _ w).mono
  intro r v hv
  cases r with
  | error e => exact ⟨fun _ _ => hv, fun _ _ h => by cases h⟩
  | ok entries =>
    simp only [allocateNode, wp_bind]
    apply (calm_mallocOk v).mono
    intro b u hu
    have hwu := Calm.trans _ _ _ hv hu
    cases b with
    | false =>
      simp only [Bool.false_eq_true, if_false, wp_bind, wp_exfatError, wp_pure]
      exact ⟨fun _ _ => Calm.trans _ _ _ hwu ⟨fun _ => rfl, le_rfl, rfl, fun _ h => h, rfl⟩,
        fun _ _ h => by cases h⟩
    | true =>
      have hnu : u.nodes u.fresh = none := by
        have hs := hwu.skel u.fresh
        rw [hb _ hwu.fresh] at hs
        exact Option.map_eq_none_iff.mp hs
      simp only [if_true, wp_bind, wp_get, wp_set, wp_pure]
      rw [wp_modifyNode (n := { name := padName [] }) (by simp [World.setNode])]
      apply (filled_parseFileEntries _ _ _).mono
      intro rc x hx
      cases rc with
      | err e =>
        simp only [wp_bind, wp_freeNode, wp_pure]
        refine ⟨fun _ _ => Calm.trans _ _ _ hwu ⟨fun i => ?_, ?_, hx.root, ?_, hx.sb⟩,
          fun _ _ h => by cases h⟩
        · dsimp only
          split
          · rename_i hi
            rw [hi, hnu]
          · rename_i hi
            rw [hx.others i hi, World.setNode_ne _ _ hi, World.setNode_ne _ _ hi]
        · have hf := hx.fresh
          simp only [World.setNode_fresh] at hf
          show u.fresh ≤ x.fresh
          rw [hf]
          exact Nat.le_succ _
        · intro t ht
          exact hx.upcase.trans ht
      | ok =>
        refine ⟨(fun _ h => by cases h), ?_⟩
        rintro id o ⟨⟩
        refine hwu.spawned ⟨fun i hi => ?_, ?_, le_rfl, ?_, hx.root, ?_⟩
        · rw [hx.others i hi, World.setNode_ne _ _ hi]
          simp only
          rw [World.setNode_ne _ _ hi]
        · obtain ⟨m, hm, h1, h2, h3, h4, h5, h6, -⟩ := hx.same _ (World.setNode_self _ _ _)
          exact ⟨m, hm, h1, h2, h3, h4, h5, h6⟩
        · have hf := hx.fresh
          simp only [World.setNode_fresh] at hf
          rw [hf]
          exact Nat.lt_succ_self _
        · intro t ht
          exact hx.upcase.trans ht

section
variable {E : Halt → Prop}

omit [Env] in
theorem still_askToFix : Safe E Still exfatAskToFix := by
  intro w
  simp only [exfatAskToFix, wp_bind, wp_get]
  cases w.repair with
  | no => exact .refl w
  | yes => exact .refl w
  | ask => exact ⟨fun _ => rfl, le_rfl, rfl, fun _ h => h, rfl⟩

omit [Env] in
theorem still_readdirLabel (entry : List UInt8) : Safe E Still (readdirLabel entry) := by
  refine still_ite (still_bind (still_error _) fun _ => still_pure _) ?_
  dsimp only
  split
  · exact still_bind (still_modify fun _ => ⟨rfl, rfl, rfl, rfl, rfl⟩) fun _ =>
      still_bind (still_error _) fun _ => still_pure _
  · exact still_bind (still_modify fun _ => ⟨rfl, rfl, rfl, rfl, rfl⟩) fun _ => still_pure _

variable [Lenient E]

theorem still_readdirUpcase (entry : List UInt8) : Safe E Still (readdirUpcase entry) := by
  intro w
  simp only [readdirUpcase, wp_bind, wp_get]
  split
  · exact .refl w
  · rename_i hup
    have hnone : w.upcase = none := Option.not_isSome_iff_eq_none.mp hup
    -- the table is only ever set when there was none
    have hset : ∀ {v}, Still w v → ∀ f : Nat → Nat, Still w { v with upcase := some f } :=
      fun hv f => ⟨hv.frame, hv.fresh, hv.root, fun u hu => (by rw [hnone] at hu; cases hu), hv.sb⟩
    split
    · exact still_bind (still_error _) (fun _ => still_pure _) w
    · split
      · exact still_bind (still_error _) (fun _ => still_pure _) w
      · simp only [wp_bind]
        apply (still_mallocOk w).mono
        intro b v hv
        split
        · simp only [wp_bind, wp_exfatError, wp_pure]
          exact Still.trans _ _ _ hv (still_error (E := E) "" v)
        · simp only [wp_bind]
          apply (still_c2o _ v).mono
          intro o u hu
          apply (still_pread _ _ u).mono
          intro r x hx
          have hwx := Still.trans _ _ _ hv (Still.trans _ _ _ hu hx)
          cases r with
          | none =>
            simp only [wp_bind, wp_exfatError, wp_pure]
            exact Still.trans _ _ _ hwx (still_error (E := E) "" x)
          | some comp =>
            simp only [wp_bind]
            apply (still_mallocOk x).mono
            intro b y hy
            have hwy := Still.trans _ _ _ hwx hy
            split
            · simp only [wp_bind, wp_exfatError, wp_pure]
              exact Still.trans _ _ _ hwy (still_error (E := E) "" y)
            · simp only [wp_bind, wp_modify, wp_pure]
              exact hset hwy _

theorem still_readdirBitmap (entry : List UInt8) : Safe E Still (readdirBitmap entry) := by
  have hcmap : ∀ f : World → Cmap, Safe E Still
      (modify fun w => { w with cmap := f w } : M PUnit) :=
    fun f => still_modify fun _ => ⟨rfl, rfl, rfl, rfl, rfl⟩
  refine still_bind (hcmap _) fun _ => still_bind still_get fun _ => still_ite
    (still_bind (still_error _) fun _ => still_pure _) (still_bind (hcmap _) fun _ => still_ite
      (still_bind (still_error _) fun _ => still_pure _) (still_bind (hcmap _) fun _ =>
        still_bind still_mallocOk fun _ => still_ite (still_bind (hcmap _) fun _ =>
          still_bind (still_error _) fun _ => still_pure _) (still_bind (still_c2o _) fun _ =>
            still_bind (still_pread _ _) fun r => ?_)))
  cases r with
  | none => exact still_bind (hcmap _) fun _ => still_bind (still_error _) fun _ => still_pure _
  | some bs => exact still_bind (hcmap _) fun _ => still_pure _

end

omit [Env] in
theorem clearValid_length {entry : List UInt8} (h : 0 < entry.length) :
    (clearValid entry).length = entry.length := setAt_length (by simpa using Nat.succ_le_of_lt h)

/-- An entry that makes no node leaves the tree alone. -/
theorem readdirOther_calm {entry : List UInt8} {offset : Nat} {n : Node}
    (hn : w.nodes dir = some n) (hl : 0 < entry.length) (ho : offset + entry.length ≤ n.size) :
    Wp (fun _ => True) (readdirOther dir entry offset) w fun _ v => Calm w v := by
  unfold readdirOther
  dsimp only
  split
  · exact calm_of (still_readdirUpcase entry) w
  · split
    · exact calm_of (still_readdirBitmap entry) w
    · split
      · exact calm_of (still_readdirLabel entry) w
      · unfold readdirDefault
        split
        · exact .refl w
        · simp only [wp_bind, wp_exfatError]
          apply (calm_of still_askToFix _).mono
          intro b v hv
          have hwv := Calm.trans _ _ _ (calm_error "" w) hv
          split
          · obtain ⟨m, hm, hsk⟩ := hwv.node hn
            have hsize := skel_size hsk
            have hcl := clearValid_length hl
            simp only [exfatFixUnknownEntry, wp_bind]
            apply (genericPwrite_calm hm (by omega)).mono
            intro rc u hu
            have hwu := Calm.trans _ _ _ hwv hu
            split
            · exact Calm.trans _ _ _ hwu ⟨fun _ => rfl, le_rfl, rfl, fun _ h => h, rfl⟩
            · exact hwu
          · exact hwv

/-- `readdir` makes one new node or leaves the tree alone. -/
theorem readdir_spec (hb : ∀ i, w.fresh ≤ i → w.nodes i = none) (fuel offset : Nat) :
    Wp (fun _ => True) (readdir dir fuel offset) w fun r v =>
      (∀ e, r = .error e → Calm w v) ∧ ∀ id o, r = .ok (id, o) → Spawned id w v := by
  induction fuel generalizing w offset with
  | zero => trivial
  | succ fuel ih =>
    simp only [readdir, wp_bind]
    apply (readEntries_calm dir 1 offset).mono
    rintro r v ⟨hv, hr, -⟩
    have hbv : ∀ i, v.fresh ≤ i → v.nodes i = none := by
      intro i hi
      have hs := hv.skel i
      rw [hb i (hv.fresh.trans hi)] at hs
      exact Option.map_eq_none_iff.mp hs
    cases r with
    | error e => exact ⟨fun _ _ => hv, fun _ _ h => by cases h⟩
    | ok entry =>
      obtain ⟨hl, n, hn, -, hin⟩ := hr entry rfl
      obtain ⟨m, hm, hsk⟩ := hv.node hn
      have hsize := skel_size hsk
      have hin1 := hin Nat.one_pos
      simp only [entrySize] at hl hin1
      dsimp only
      split
      · apply (parseFileEntry_spec hbv _ _).mono
        rintro r u ⟨h1, h2⟩
        exact ⟨fun e he => Calm.trans _ _ _ hv (h1 e he), fun id o ho => hv.spawned (h2 id o ho)⟩
      · simp only [wp_bind]
        apply (readdirOther_calm hm (by omega) (by omega)).mono
        intro rc u hu
        have hwu := Calm.trans _ _ _ hv hu
        cases rc with
        | err e => exact ⟨fun _ _ => hwu, fun _ _ h => by cases h⟩
        | ok =>
          have hbu : ∀ i, u.fresh ≤ i → u.nodes i = none := by
            intro i hi
            have hs := hwu.skel i
            rw [hb i (hwu.fresh.trans hi)] at hs
            exact Option.map_eq_none_iff.mp hs
          apply (ih hbu _).mono
          rintro r x ⟨h1, h2⟩
          exact ⟨fun e he => Calm.trans _ _ _ hwu (h1 e he),
            fun id o ho => hwu.spawned (h2 id o ho)⟩

omit [Env] in
/-- A new node outside the tree leaves the lists alone. -/
theorem Tree.spawned {id : NodeId} (h : Tree w kids) (hs : Spawned id w v) : Tree v kids := by
  obtain ⟨n, hn, hl⟩ := hs.node
  have hid : w.nodes id = none := h.bound id hs.old
  have hplace : ∀ i, i ≠ id → (v.nodes i).map Node.place = (w.nodes i).map Node.place := by
    intro i hi
    have hj := congrArg (Option.map Node.place) (hs.others i hi)
    rwa [Option.map_map, Option.map_map] at hj
  have hlinks : parentOf v.nodes = parentOf w.nodes ∧ childOf v.nodes = childOf w.nodes ∧
      nextOf v.nodes = nextOf w.nodes ∧ prevOf v.nodes = prevOf w.nodes := by
    refine ⟨funext fun j => ?_, funext fun j => ?_, funext fun j => ?_, funext fun j => ?_⟩ <;>
    · by_cases hj : j = id
      · subst hj
        simp [parentOf, childOf, nextOf, prevOf, hn, hid, hl.parent, hl.child, hl.next, hl.prev]
      · have hj' := hplace j hj
        cases hv : v.nodes j <;> cases hw : w.nodes j <;>
          simp_all [parentOf, childOf, nextOf, prevOf, Node.place]
  obtain ⟨hpar, hchild, hnext, hprev⟩ := hlinks
  have hback : ∀ {j m}, j ≠ id → v.nodes j = some m → ∃ n, w.nodes j = some n ∧ m.skel = n.skel := by
    intro j m hj hm
    have hsk := hs.others j hj
    rw [hm] at hsk
    obtain ⟨n, hn, he⟩ := Option.map_eq_some_iff.mp hsk.symm
    exact ⟨n, hn, he.symm⟩
  refine
    { bound := fun i hi => ?_
      root := ?_
      list := fun d => by rw [hnext, hprev, hchild]; exact h.list d
      nodup := h.nodup
      kid := fun d i => by rw [hpar]; exact h.kid d i
      loose := fun i hi => by rw [hprev, hnext]; exact h.loose i (hpar ▸ hi)
      cached := ?_
      unlinked := ?_ }
  · have hlt := hs.old.trans_lt hs.fresh
    have hsk := hs.others i (Nat.ne_of_gt (hs.fresh.trans_le hi))
    rw [h.bound i (hlt.le.trans hi)] at hsk
    exact Option.map_eq_none_iff.mp hsk
  · obtain ⟨r, h1, h2, h3⟩ := h.root
    have hne : w.root ≠ id := by
      intro he
      rw [he, hid] at h1
      cases h1
    have hsk := hs.others w.root hne
    rw [h1] at hsk
    obtain ⟨m, hm, hmr⟩ := Option.map_eq_some_iff.mp hsk
    rw [skel_eq_iff] at hmr
    exact ⟨m, hs.root ▸ hm, hmr.1.trans h2, hmr.2.2.2.2.2.2.2.2.1.trans h3⟩
  · intro d m hm hc
    by_cases hd : d = id
    · subst hd
      rw [Option.some.inj (hm.symm.trans hn), hl.cached] at hc
      cases hc
    · obtain ⟨k, hk, he⟩ := hback hd hm
      rw [skel_eq_iff] at he
      rw [Node.isDir, he.2.2.2.2.2.1]
      exact h.cached d k hk (he.2.2.2.2.2.2.2.1 ▸ hc)
  · intro d m hm hu
    by_cases hd : d = id
    · subst hd
      rw [Option.some.inj (hm.symm.trans hn), hl.unlinked] at hu
      cases hu
    · obtain ⟨k, hk, he⟩ := hback hd hm
      rw [skel_eq_iff] at he
      rw [he.1]
      exact h.unlinked d k hk (he.2.2.2.2.2.2.2.2.1 ▸ hu)

/-- What the loop of `exfat_cache_directory` has done so far: the children of one directory are new
nodes, everything else is as before. -/
structure Opening (dir : NodeId) (w : World) (kids : NodeId → List NodeId) (v : World)
    (kids' : NodeId → List NodeId) : Prop where
  tree : Tree v kids'
  uncached : ∀ d n, d ≠ dir → v.nodes d = some n → n.isCached = false → kids' d = []
  old : ∀ i n, w.nodes i = some n → ∃ m, v.nodes i = some m ∧ m.face = n.face ∧
    m.isCached = n.isCached
  new : ∀ i m, w.nodes i = none → v.nodes i = some m → m.parent = some dir ∧
    m.isCached = false ∧ w.fresh ≤ i
  kept : ∀ d, d ≠ dir → kids' d = kids d
  fresh : w.fresh ≤ v.fresh
  root : v.root = w.root
  upcase : ∀ u, w.upcase = some u → v.upcase = some u

omit [Env] in
theorem TreeWF.opening (h : TreeWF w kids) (dir : NodeId) : Opening dir w kids w kids where
  tree := h.toTree
  uncached d n _ := h.uncached d n
  old i n hn := ⟨n, hn, rfl, rfl⟩
  new i m hn hm := by rw [hn] at hm; cases hm
  kept _ _ := rfl
  fresh := le_rfl
  root := rfl
  upcase _ hu := hu

variable {u : World} {kids' : NodeId → List NodeId}

omit [Env] in
theorem Opening.calm (h : Opening dir w kids v kids') (hc : Calm v u) :
    Opening dir w kids u kids' := by
  have hback : ∀ {j m}, u.nodes j = some m → ∃ n, v.nodes j = some n ∧ m.skel = n.skel := by
    intro j m hm
    have hsk := hc.skel j
    rw [hm] at hsk
    obtain ⟨n, hn, he⟩ := Option.map_eq_some_iff.mp hsk.symm
    exact ⟨n, hn, he.symm⟩
  refine
    { tree := ?_
      uncached := ?_
      old := ?_
      new := ?_
      kept := h.kept
      fresh := h.fresh.trans hc.fresh
      root := hc.root.trans h.root
      upcase := fun x hx => hc.upcase x (h.upcase x hx) }
  · refine h.tree.places (fun j => ?_) hc.fresh hc.root
    have hj := congrArg (Option.map Node.place) (hc.skel j)
    rwa [Option.map_map, Option.map_map] at hj
  · intro d m hd hm hca
    obtain ⟨n, hn, he⟩ := hback hm
    rw [skel_eq_iff] at he
    exact h.uncached d n hd hn (he.2.2.2.2.2.2.2.1 ▸ hca)
  · intro i n hn
    obtain ⟨m, hm, hf, hca⟩ := h.old i n hn
    obtain ⟨k, hk, he⟩ := hc.node hm
    refine ⟨k, hk, (face_of_skel he).trans hf, ?_⟩
    rw [skel_eq_iff] at he
    exact he.2.2.2.2.2.2.2.1.trans hca
  · intro i m hn hm
    obtain ⟨k, hk, he⟩ := hback hm
    obtain ⟨h1, h2, h3⟩ := h.new i k hn hk
    rw [skel_eq_iff] at he
    exact ⟨he.1.trans h1, he.2.2.2.2.2.2.2.1.trans h2, h3⟩

omit [Env] in
theorem face_of_body {m n : Node} (hb : m.body = n.body) (hp : m.parent = n.parent) :
    m.face = n.face := by
  rw [body_eq_iff] at hb
  rw [face_eq_iff]
  obtain ⟨-, -, -, h4, -, h6, h7, -, -, -, h11, h12, -, -, h15⟩ := hb
  exact ⟨hp, h4, h6, h7, h11, h12, h15⟩

omit [Env] in
/-- One more node is linked. -/
theorem Opening.link {id : NodeId} {n : Node} (h : Opening dir w kids v kids')
    (hd : w.nodes dir = some n) (hun : n.isUnlinked = false) (hs : Spawned id v u) :
    Wp (fun _ => True) (linkLast dir id (kids' dir).getLast?) u fun _ x =>
      Opening dir w kids x (Function.update kids' dir (kids' dir ++ [id])) := by
  obtain ⟨k, hk, hl⟩ := hs.node
  have hvid : v.nodes id = none := h.tree.bound id hs.old
  have htree := h.tree.spawned hs
  have hother : ∀ {i m}, v.nodes i = some m → i ≠ id ∧ ∃ m', u.nodes i = some m' ∧ m'.skel = m.skel := by
    intro i m hm
    have hne : i ≠ id := by
      rintro rfl
      rw [hvid] at hm
      cases hm
    have hsk := hs.others i hne
    rw [hm] at hsk
    exact ⟨hne, Option.map_eq_some_iff.mp hsk⟩
  obtain ⟨nv, hnv, hfv, -⟩ := h.old dir n hd
  obtain ⟨hdid, nu, hnu, hsku⟩ := hother hnv
  have hunu : nu.isUnlinked = false := by
    rw [face_eq_iff] at hfv
    rw [skel_eq_iff] at hsku
    exact (hsku.2.2.2.2.2.2.2.2.1.trans hfv.2.2.2.2.1).trans hun
  have hroot : id ≠ u.root := by
    obtain ⟨r, hr, -⟩ := h.tree.root
    rw [hs.root]
    rintro rfl
    rw [hvid] at hr
    cases hr
  apply (linkLast_spec trivial htree hk hl.parent hl.unlinked hroot hnu hunu).mono
  rintro _ x ⟨hr, htx, hpx⟩
  have hxu : ∀ {i m}, i ≠ id → u.nodes i = some m → ∃ m', x.nodes i = some m' ∧
      m'.face = m.face ∧ m'.isCached = m.isCached := by
    intro i m hi hm
    obtain ⟨m', hm', hb⟩ := hr.node hm
    have hp : m'.parent = m.parent := by
      rw [← parentOf_eq hm', ← parentOf_eq hm, hpx, Function.update_of_ne hi]
    refine ⟨m', hm', face_of_body hb hp, ?_⟩
    rw [body_eq_iff] at hb
    exact hb.2.2.2.2.2.2.2.2.1
  have hux : ∀ {i m'}, i ≠ id → x.nodes i = some m' → ∃ m, v.nodes i = some m ∧
      m'.face = m.face ∧ m'.isCached = m.isCached := by
    intro i m' hi hm'
    obtain ⟨m, hm, -⟩ := hr.back hm'
    obtain ⟨m'', h1, h2, h3⟩ := hxu hi hm
    obtain rfl := Option.some.inj (hm'.symm.trans h1)
    have hsk := hs.others i hi
    rw [hm] at hsk
    obtain ⟨y, hy, he⟩ := Option.map_eq_some_iff.mp hsk.symm
    refine ⟨y, hy, h2.trans (face_of_skel he).symm, ?_⟩
    rw [skel_eq_iff] at he
    exact h3.trans he.2.2.2.2.2.2.2.1.symm
  refine
    { tree := htx
      uncached := ?_
      old := ?_
      new := ?_
      kept := fun d hdd => by rw [Function.update_of_ne hdd]; exact h.kept d hdd
      fresh := ?_
      root := ?_
      upcase := ?_ }
  · intro d m hdd hm hca
    rw [Function.update_of_ne hdd]
    by_cases hdi : d = id
    · subst hdi
      exact h.tree.free hvid
    · obtain ⟨y, hy, -, h3⟩ := hux hdi hm
      exact h.uncached d y hdd hy (h3 ▸ hca)
  · intro i m hm
    obtain ⟨m1, hm1, hf1, hc1⟩ := h.old i m hm
    obtain ⟨hne, m2, hm2, hsk⟩ := hother hm1
    obtain ⟨m3, hm3, hf3, hc3⟩ := hxu hne hm2
    refine ⟨m3, hm3, (hf3.trans (face_of_skel hsk)).trans hf1, ?_⟩
    rw [skel_eq_iff] at hsk
    exact (hc3.trans hsk.2.2.2.2.2.2.2.1).trans hc1
  · intro i m hi hm
    by_cases hii : i = id
    · subst hii
      obtain ⟨m', hm', hb⟩ := hr.back hm
      obtain rfl := Option.some.inj (hm'.symm.trans hk)
      rw [body_eq_iff] at hb
      refine ⟨?_, hb.2.2.2.2.2.2.2.2.1.trans hl.cached, h.fresh.trans hs.old⟩
      rw [← parentOf_eq hm, hpx, Function.update_self]
    · obtain ⟨y, hy, hf, h3⟩ := hux hii hm
      obtain ⟨k1, k2, k3⟩ := h.new i y hi hy
      rw [face_eq_iff] at hf
      exact ⟨hf.1.trans k1, h3.trans k2, k3⟩
  · rw [hr.rest]
    exact h.fresh.trans (hs.old.trans hs.fresh.le)
  · rw [hr.rest]
    exact hs.root.trans h.root
  · intro y hy
    rw [hr.rest]
    exact hs.upcase y (h.upcase y hy)

/-- Directories may have been cached; nothing else changed in the tree. -/
structure Opened (w : World) (kids : NodeId → List NodeId) (v : World)
    (kids' : NodeId → List NodeId) : Prop where
  tree : TreeWF v kids'
  old : ∀ i n, w.nodes i = some n → ∃ m, v.nodes i = some m ∧ m.face = n.face ∧
    (n.isCached = true → m.isCached = true)
  new : ∀ i m d n, w.nodes i = none → v.nodes i = some m → m.parent = some d →
    w.nodes d = some n → n.isCached = false
  gone : ∀ i, i < w.fresh → w.nodes i = none → v.nodes i = none
  kept : ∀ d n, w.nodes d = some n → n.isCached = true → kids' d = kids d
  fresh : w.fresh ≤ v.fresh
  root : v.root = w.root
  upcase : ∀ u, w.upcase = some u → v.upcase = some u

omit [Env] in
theorem freeNodes_spec {E : Halt → Prop} (L : List NodeId) :
    Wp E (freeNodes L) w fun _ v => v = w.freed L := by
  induction L generalizing w with
  | nil => simp [freeNodes, World.freed]
  | cons i is ih =>
    simp only [freeNodes, wp_bind, wp_freeNode]
    apply ih.mono
    rintro _ _ rfl
    simp only [World.freed]
    congr 1
    funext j
    by_cases h1 : j ∈ is <;> by_cases h2 : j = i <;> simp [h1, h2]

section
variable {m c : Node} {i : NodeId}

omit [Env] in
/-- The nodes of a world in which a directory was marked as cached. -/
theorem marked_node (hm : v.nodes dir = some m)
    (hc : (v.setNode dir { m with isCached := true }).nodes i = some c) :
    ∃ a, v.nodes i = some a ∧ c.face = a.face ∧ (i ≠ dir → c.isCached = a.isCached) := by
  rw [World.setNode_nodes] at hc
  split at hc
  · rename_i hi
    obtain rfl := Option.some.inj hc
    exact ⟨m, hi ▸ hm, rfl, fun hne => absurd hi hne⟩
  · exact ⟨c, hc, rfl, fun _ => rfl⟩

omit [Env] in
theorem marked_none (hm : v.nodes dir = some m) (hi : v.nodes i = none) :
    (v.setNode dir { m with isCached := true }).nodes i = none := by
  have hne : i ≠ dir := by
    rintro rfl
    rw [hi] at hm
    cases hm
  rw [World.setNode_ne _ _ hne, hi]

omit [Env] in
/-- The mark changes no link. -/
theorem marked_links (hm : v.nodes dir = some m) :
    parentOf (v.setNode dir { m with isCached := true }).nodes = parentOf v.nodes ∧
      childOf (v.setNode dir { m with isCached := true }).nodes = childOf v.nodes ∧
      nextOf (v.setNode dir { m with isCached := true }).nodes = nextOf v.nodes ∧
      prevOf (v.setNode dir { m with isCached := true }).nodes = prevOf v.nodes := by
  refine ⟨funext fun j => ?_, funext fun j => ?_, funext fun j => ?_, funext fun j => ?_⟩ <;>
  · by_cases hj : j = dir
    · subst hj
      simp [parentOf, childOf, nextOf, prevOf, hm]
    · simp [parentOf, childOf, nextOf, prevOf, World.setNode_ne _ _ hj]

omit [Env] in
/-- A directory of a tree may be marked as cached. -/
theorem Tree.marked (h : Tree v kids) (hm : v.nodes dir = some m) (hdir : m.isDir = true) :
    Tree (v.setNode dir { m with isCached := true }) kids := by
  obtain ⟨hpar, hchild, hnext, hprev⟩ := marked_links hm
  refine
    { bound := fun i hi => marked_none hm (h.bound i hi)
      root := ?_
      list := fun d => by rw [hnext, hprev, hchild]; exact h.list d
      nodup := h.nodup
      kid := fun d i => by rw [hpar]; exact h.kid d i
      loose := fun i hi => by rw [hprev, hnext]; exact h.loose i (hpar ▸ hi)
      cached := ?_
      unlinked := ?_ }
  · obtain ⟨r, h1, h2, h3⟩ := h.root
    by_cases hr : v.root = dir
    · rw [hr, hm] at h1
      obtain rfl := Option.some.inj h1
      exact ⟨{ m with isCached := true }, by rw [World.setNode_root, hr, World.setNode_self], h2, h3⟩
    · exact ⟨r, by rw [World.setNode_root, World.setNode_ne _ _ hr, h1], h2, h3⟩
  · intro d c hc hca
    obtain ⟨a, ha, hfa, hcc⟩ := marked_node hm hc
    rw [face_eq_iff] at hfa
    rw [Node.isDir, hfa.2.2.1]
    by_cases hdd : d = dir
    · subst hdd
      obtain rfl := Option.some.inj (ha.symm.trans hm)
      exact hdir
    · exact h.cached d a ha (hcc hdd ▸ hca)
  · intro d c hc hu
    obtain ⟨a, ha, hfa, -⟩ := marked_node hm hc
    rw [face_eq_iff] at hfa
    rw [hfa.1]
    exact h.unlinked d a ha (hfa.2.2.2.2.1 ▸ hu)

end

omit [Env] in
/-- With the mark the directory that was read is no exception any more. -/
theorem Opening.marked {m : Node} (h : Opening dir w kids v kids') (hm : v.nodes dir = some m)
    (hdir : m.isDir = true) : TreeWF (v.setNode dir { m with isCached := true }) kids' where
  toTree := h.tree.marked hm hdir
  uncached d c hc hca := by
    obtain ⟨a, ha, -, hcc⟩ := marked_node hm hc
    by_cases hdd : d = dir
    · subst hdd
      rw [World.setNode_self] at hc
      obtain rfl := Option.some.inj hc
      cases hca
    · exact h.uncached d a hdd ha (hcc hdd ▸ hca)

omit [Env] in
/-- Caching that succeeded. -/
theorem Opening.finish {n m : Node} (h : Opening dir w kids v kids') (hd : w.nodes dir = some n)
    (hn : n.isCached = false) (hdir : n.isDir = true) (hm : v.nodes dir = some m) :
    Opened w kids (v.setNode dir { m with isCached := true }) kids' := by
  obtain ⟨m', hm', hf, -⟩ := h.old dir n hd
  obtain rfl := Option.some.inj (hm.symm.trans hm')
  have hmd : m.isDir = true := by
    rw [face_eq_iff] at hf
    rw [Node.isDir, hf.2.2.1]
    exact hdir
  refine
    { tree := h.marked hm hmd
      old := fun i a ha => ?_
      new := fun i c d a hi hc hp hda => ?_
      gone := fun i hlt hi => ?_
      kept := fun d a hda hca => ?_
      fresh := h.fresh
      root := h.root
      upcase := h.upcase }
  · obtain ⟨b, hb, hfb, hcb⟩ := h.old i a ha
    by_cases hi : i = dir
    · subst hi
      obtain rfl := Option.some.inj (hb.symm.trans hm)
      exact ⟨_, World.setNode_self _ _ _, hfb, fun _ => rfl⟩
    · exact ⟨b, by rw [World.setNode_ne _ _ hi, hb], hfb, fun hac => hcb.trans hac⟩
  · obtain ⟨b, hb, hfb, -⟩ := marked_node hm hc
    obtain ⟨hpb, -⟩ := h.new i b hi hb
    rw [face_eq_iff] at hfb
    obtain rfl := Option.some.inj (hp.symm.trans (hfb.1.trans hpb))
    rw [Option.some.inj (hda.symm.trans hd), hn]
  · refine marked_none hm ?_
    by_contra hv
    obtain ⟨b, hb⟩ := Option.ne_none_iff_exists'.mp hv
    exact absurd (h.new i b hi hb).2.2 (Nat.not_le_of_lt hlt)
  · refine h.kept d ?_
    rintro rfl
    rw [Option.some.inj (hda.symm.trans hd), hn] at hca
    cases hca

end Proofs

end Exfat
