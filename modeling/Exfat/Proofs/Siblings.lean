import Exfat.Lib.Dlist
import Exfat.Proofs.CalmDir
import Exfat.Proofs.Tree

namespace Exfat
open Lib

/-! The children of every directory form a doubly linked list, which `tree_detach` keeps. -/

def nextOf (nodes : NodeId → Option Node) (i : NodeId) : Option NodeId := (nodes i).bind Node.next

def prevOf (nodes : NodeId → Option Node) (i : NodeId) : Option NodeId := (nodes i).bind Node.prev

def parentOf (nodes : NodeId → Option Node) (i : NodeId) : Option NodeId :=
  (nodes i).bind Node.parent

def childOf (nodes : NodeId → Option Node) (i : NodeId) : Option NodeId := (nodes i).bind Node.child

/-- A node without its place in the tree. -/
def Node.body (n : Node) : Node := { n with parent := none, child := none, next := none, prev := none }

/-- The place of a node in the tree, and what decides whether it may have children. -/
def Node.place (n : Node) :
    Option NodeId × Option NodeId × Option NodeId × Option NodeId × Nat × Bool × Bool :=
  (n.parent, n.child, n.next, n.prev, n.attrib, n.isCached, n.isUnlinked)

namespace Proofs

/-- `kids` lists the children of every directory. Nodes outside the tree have no neighbours, only
directories are cached, and an unlinked node has neither parent nor children. -/
structure Tree (w : World) (kids : NodeId → List NodeId) : Prop where
  bound : ∀ i, w.fresh ≤ i → w.nodes i = none
  root : ∃ r, w.nodes w.root = some r ∧ r.parent = none ∧ r.isUnlinked = false
  list : ∀ d, Dlist (nextOf w.nodes) (prevOf w.nodes) none (childOf w.nodes d) (kids d)
  nodup : ∀ d, (kids d).Nodup
  kid : ∀ d i, i ∈ kids d ↔ parentOf w.nodes i = some d
  loose : ∀ i, parentOf w.nodes i = none → prevOf w.nodes i = none ∧ nextOf w.nodes i = none
  cached : ∀ d n, w.nodes d = some n → n.isCached = true → n.isDir = true
  unlinked : ∀ i n, w.nodes i = some n → n.isUnlinked = true → n.parent = none ∧ kids i = []

/-- Between calls an uncached directory has no children either. -/
structure TreeWF (w : World) (kids : NodeId → List NodeId) : Prop extends Tree w kids where
  uncached : ∀ d n, w.nodes d = some n → n.isCached = false → kids d = []

/-- Only the places of nodes in the tree changed. -/
structure Relinked (w v : World) : Prop where
  body : ∀ i, (v.nodes i).map Node.body = (w.nodes i).map Node.body
  rest : v = { w with nodes := v.nodes }

theorem Relinked.refl (w : World) : Relinked w w := ⟨fun _ => rfl, rfl⟩

theorem Relinked.trans {w v u : World} (h : Relinked w v) (h' : Relinked v u) : Relinked w u where
  body i := (h'.body i).trans (h.body i)
  rest := by
    rw [h'.rest, h.rest]

variable {w v : World} {kids : NodeId → List NodeId} {i d : NodeId} {n m : Node}

theorem Relinked.node (h : Relinked w v) (hn : w.nodes i = some n) :
    ∃ m, v.nodes i = some m ∧ m.body = n.body := by
  have hs := h.body i
  rw [hn] at hs
  cases hm : v.nodes i with
  | none => rw [hm] at hs; cases hs
  | some m => exact ⟨m, rfl, by rw [hm] at hs; exact Option.some.inj hs⟩

theorem Relinked.back (h : Relinked w v) (hm : v.nodes i = some m) :
    ∃ n, w.nodes i = some n ∧ m.body = n.body := by
  have hs := h.body i
  rw [hm] at hs
  cases hn : w.nodes i with
  | none => rw [hn] at hs; cases hs
  | some n => exact ⟨n, rfl, by rw [hn] at hs; exact Option.some.inj hs⟩

theorem relinked_setNode (hn : w.nodes i = some n) (hb : m.body = n.body) :
    Relinked w (w.setNode i m) := by
  refine ⟨fun j => ?_, rfl⟩
  by_cases hj : j = i
  · subst hj
    rw [World.setNode_self, hn, Option.map_some, Option.map_some, hb]
  · rw [World.setNode_ne _ _ hj]

theorem body_eq_iff {m n : Node} : m.body = n.body ↔
    m.references = n.references ∧ m.fptrIndex = n.fptrIndex ∧ m.fptrCluster = n.fptrCluster ∧
      m.entryOffset = n.entryOffset ∧ m.startCluster = n.startCluster ∧ m.attrib = n.attrib ∧
      m.continuations = n.continuations ∧ m.isContiguous = n.isContiguous ∧
      m.isCached = n.isCached ∧ m.isDirty = n.isDirty ∧ m.isUnlinked = n.isUnlinked ∧
      m.size = n.size ∧ m.mtime = n.mtime ∧ m.atime = n.atime ∧ m.name = n.name := by
  simp [Node.body]

theorem nextOf_setNode (w : World) (i j : NodeId) (n : Node) :
    nextOf (w.setNode i n).nodes j = if j = i then n.next else nextOf w.nodes j := by
  simp only [nextOf, World.setNode_nodes]
  split <;> rfl

theorem prevOf_setNode (w : World) (i j : NodeId) (n : Node) :
    prevOf (w.setNode i n).nodes j = if j = i then n.prev else prevOf w.nodes j := by
  simp only [prevOf, World.setNode_nodes]
  split <;> rfl

theorem parentOf_setNode (w : World) (i j : NodeId) (n : Node) :
    parentOf (w.setNode i n).nodes j = if j = i then n.parent else parentOf w.nodes j := by
  simp only [parentOf, World.setNode_nodes]
  split <;> rfl

theorem childOf_setNode (w : World) (i j : NodeId) (n : Node) :
    childOf (w.setNode i n).nodes j = if j = i then n.child else childOf w.nodes j := by
  simp only [childOf, World.setNode_nodes]
  split <;> rfl

theorem parentOf_eq (hn : w.nodes i = some n) : parentOf w.nodes i = n.parent := by
  simp [parentOf, hn]

theorem childOf_eq (hn : w.nodes i = some n) : childOf w.nodes i = n.child := by simp [childOf, hn]

theorem nextOf_eq (hn : w.nodes i = some n) : nextOf w.nodes i = n.next := by simp [nextOf, hn]

theorem prevOf_eq (hn : w.nodes i = some n) : prevOf w.nodes i = n.prev := by simp [prevOf, hn]

theorem parentOf_some (h : parentOf w.nodes i = some d) :
    ∃ n, w.nodes i = some n ∧ n.parent = some d := by
  cases hn : w.nodes i with
  | none => simp [parentOf, hn] at h
  | some n => exact ⟨n, rfl, parentOf_eq hn ▸ h⟩

/-- A freed node has no children. -/
theorem Tree.free (h : Tree w kids) (hd : w.nodes d = none) : kids d = [] := by
  have hl := (h.list d).head
  simp only [childOf, hd, Option.bind_none] at hl
  exact List.head?_eq_none_iff.mp hl.symm

theorem links_of_places (hp : ∀ j, (v.nodes j).map Node.place = (w.nodes j).map Node.place) :
    parentOf v.nodes = parentOf w.nodes ∧ childOf v.nodes = childOf w.nodes ∧
      nextOf v.nodes = nextOf w.nodes ∧ prevOf v.nodes = prevOf w.nodes := by
  refine ⟨funext fun j => ?_, funext fun j => ?_, funext fun j => ?_, funext fun j => ?_⟩ <;>
  · have hj := hp j
    cases hv : v.nodes j <;> cases hw : w.nodes j <;>
      simp_all [parentOf, childOf, nextOf, prevOf, Node.place]

/-- The tree invariant depends only on the places of the nodes. -/
theorem Tree.places (h : Tree w kids)
    (hp : ∀ j, (v.nodes j).map Node.place = (w.nodes j).map Node.place) (hf : w.fresh ≤ v.fresh)
    (hr : v.root = w.root) : Tree v kids := by
  obtain ⟨hpar, hchild, hnext, hprev⟩ := links_of_places hp
  have hback : ∀ {j m}, v.nodes j = some m → ∃ n, w.nodes j = some n ∧ m.place = n.place := by
    intro j m hm
    have hj := hp j
    rw [hm] at hj
    cases hn : w.nodes j with
    | none => rw [hn] at hj; cases hj
    | some n => exact ⟨n, rfl, by rw [hn] at hj; exact Option.some.inj hj⟩
  refine
    { bound := fun j hj => ?_
      root := ?_
      list := fun d => by rw [hnext, hprev, hchild]; exact h.list d
      nodup := h.nodup
      kid := fun d i => by rw [hpar]; exact h.kid d i
      loose := fun i hi => by rw [hprev, hnext]; exact h.loose i (hpar ▸ hi)
      cached := ?_
      unlinked := ?_ }
  · have hj' := hp j
    rw [h.bound j (hf.trans hj)] at hj'
    exact Option.map_eq_none_iff.mp hj'
  · obtain ⟨r, h1, h2, h3⟩ := h.root
    have hj := hp w.root
    rw [h1] at hj
    obtain ⟨m, hm, hmr⟩ := Option.map_eq_some_iff.mp hj
    simp only [Node.place, Prod.mk.injEq] at hmr
    exact ⟨m, hr ▸ hm, hmr.1.trans h2, hmr.2.2.2.2.2.2.trans h3⟩
  · intro d m hm hc
    obtain ⟨n, hn, he⟩ := hback hm
    simp only [Node.place, Prod.mk.injEq] at he
    rw [Node.isDir, he.2.2.2.2.1]
    exact h.cached d n hn (he.2.2.2.2.2.1 ▸ hc)
  · intro d m hm hu
    obtain ⟨n, hn, he⟩ := hback hm
    simp only [Node.place, Prod.mk.injEq] at he
    rw [he.1]
    exact h.unlinked d n hn (he.2.2.2.2.2.2 ▸ hu)

theorem TreeWF.places (h : TreeWF w kids)
    (hp : ∀ j, (v.nodes j).map Node.place = (w.nodes j).map Node.place) (hf : w.fresh ≤ v.fresh)
    (hr : v.root = w.root) : TreeWF v kids := by
  refine ⟨h.toTree.places hp hf hr, fun d m hm hc => ?_⟩
  have hj := hp d
  rw [hm] at hj
  obtain ⟨n, hn, he⟩ := Option.map_eq_some_iff.mp hj.symm
  simp only [Node.place, Prod.mk.injEq] at he
  exact h.uncached d n hn (he.2.2.2.2.2.1.trans hc)

theorem TreeWF.calm (h : TreeWF w kids) (hc : Calm w v) : TreeWF v kids := by
  refine h.places (fun j => ?_) hc.fresh hc.root
  have hj := congrArg (Option.map Node.place) (hc.skel j)
  rw [Option.map_map, Option.map_map] at hj
  exact hj

/-- A step that changes the pointers of one node. -/
theorem wp_relink {E : Halt → Prop} (hE : E .fault) {f : Node → Node} {Q : Unit → World → Prop}
    (hf : ∀ n, (f n).body = n.body)
    (h : ∀ n v, w.nodes i = some n → v.nodes i = some (f n) → Relinked w v →
      (∀ j, j ≠ i → v.nodes j = w.nodes j) →
      parentOf v.nodes = Function.update (parentOf w.nodes) i (f n).parent →
      nextOf v.nodes = Function.update (nextOf w.nodes) i (f n).next →
      prevOf v.nodes = Function.update (prevOf w.nodes) i (f n).prev →
      childOf v.nodes = Function.update (childOf w.nodes) i (f n).child → Q () v) :
    Wp E (modifyNode i f) w Q := by
  rw [wp_modifyNode_iff hE]
  intro n hn
  refine h n _ hn (World.setNode_self _ _ _) (relinked_setNode hn (hf n))
    (fun j hj => World.setNode_ne _ _ hj) ?_ ?_ ?_ ?_ <;> funext j
  · rw [parentOf_setNode, Function.update_apply]
  · rw [nextOf_setNode, Function.update_apply]
  · rw [prevOf_setNode, Function.update_apply]
  · rw [childOf_setNode, Function.update_apply]

theorem skipForward_links {E : Halt → Prop} (hE : E .fault) (hp : n.parent = some d) :
    Wp E (skipForward n) w fun _ v => Relinked w v ∧ parentOf v.nodes = parentOf w.nodes ∧
      (∀ j, nextOf v.nodes j = if n.prev = some j then n.next else nextOf w.nodes j) ∧
      prevOf v.nodes = prevOf w.nodes ∧
      (∀ j, childOf v.nodes j = if n.prev = none ∧ j = d then n.next else childOf w.nodes j) := by
  unfold skipForward
  cases hv : n.prev with
  | some p =>
    refine wp_relink hE (fun _ => rfl) fun m v hm _ hr _ h1 h2 h3 h4 => ⟨hr, ?_, ?_, ?_, ?_⟩
    · rw [h1, ← parentOf_eq hm, Function.update_eq_self]
    · intro j
      simp only [h2, Function.update_apply, Option.some.injEq, eq_comm]
    · rw [h3, ← prevOf_eq hm, Function.update_eq_self]
    · intro j
      rw [h4, ← childOf_eq hm, Function.update_eq_self, if_neg (by simp)]
  | none =>
    simp only [hp, deref, wp_bind, wp_pure]
    refine wp_relink hE (fun _ => rfl) fun m v hm _ hr _ h1 h2 h3 h4 => ⟨hr, ?_, ?_, ?_, ?_⟩
    · rw [h1, ← parentOf_eq hm, Function.update_eq_self]
    · intro j
      rw [h2, ← nextOf_eq hm, Function.update_eq_self, if_neg (by simp)]
    · rw [h3, ← prevOf_eq hm, Function.update_eq_self]
    · intro j
      simp only [h4, Function.update_apply, true_and]

theorem skipBackward_links {E : Halt → Prop} (hE : E .fault) :
    Wp E (skipBackward n) w fun _ v => Relinked w v ∧ parentOf v.nodes = parentOf w.nodes ∧
      nextOf v.nodes = nextOf w.nodes ∧
      (∀ j, prevOf v.nodes j = if n.next = some j then n.prev else prevOf w.nodes j) ∧
      childOf v.nodes = childOf w.nodes := by
  unfold skipBackward
  cases hv : n.next with
  | some q =>
    refine wp_relink hE (fun _ => rfl) fun m v hm _ hr _ h1 h2 h3 h4 => ⟨hr, ?_, ?_, ?_, ?_⟩
    · rw [h1, ← parentOf_eq hm, Function.update_eq_self]
    · rw [h2, ← nextOf_eq hm, Function.update_eq_self]
    · intro j
      simp only [h3, Function.update_apply, Option.some.injEq, eq_comm]
    · rw [h4, ← childOf_eq hm, Function.update_eq_self]
  | none => exact ⟨.refl w, rfl, rfl, fun j => by rw [if_neg (by simp)], rfl⟩

/-- What `tree_detach` does to the pointers. -/
theorem treeDetach_links {E : Halt → Prop} (hE : E .fault) (hn : w.nodes i = some n)
    (hp : n.parent = some d) :
    Wp E (treeDetach i) w fun _ v => Relinked w v ∧
      (∀ j, parentOf v.nodes j = if j = i then none else parentOf w.nodes j) ∧
      (∀ j, nextOf v.nodes j = if j = i then none else
        if n.prev = some j then n.next else nextOf w.nodes j) ∧
      (∀ j, prevOf v.nodes j = if j = i then none else
        if n.next = some j then n.prev else prevOf w.nodes j) ∧
      (∀ j, childOf v.nodes j = if n.prev = none ∧ j = d then n.next else childOf w.nodes j) := by
  simp only [treeDetach, wp_bind, wp_getNode hn]
  apply (skipForward_links hE hp).mono
  rintro _ v ⟨hwv, h1, h2, h3, h4⟩
  apply (skipBackward_links hE).mono
  rintro _ u ⟨hvu, k1, k2, k3, k4⟩
  refine wp_relink hE (fun _ => rfl) fun m x hm _ hux _ l1 l2 l3 l4 =>
    ⟨(hwv.trans hvu).trans hux, ?_, ?_, ?_, ?_⟩
  · intro j
    rw [l1, Function.update_apply, k1, h1]
  · intro j
    rw [l2, Function.update_apply, k2, h2]
  · intro j
    rw [l3, Function.update_apply, k3, h3]
  · intro j
    rw [l4, ← childOf_eq hm, Function.update_eq_self, k4, h4]

/-- New pointers that form lists again. -/
theorem Tree.relink {kids' : NodeId → List NodeId} (h : Tree w kids) (hr : Relinked w v)
    (hroot : parentOf v.nodes w.root = none)
    (hlist : ∀ d, Dlist (nextOf v.nodes) (prevOf v.nodes) none (childOf v.nodes d) (kids' d))
    (hnodup : ∀ d, (kids' d).Nodup) (hkid : ∀ d i, i ∈ kids' d ↔ parentOf v.nodes i = some d)
    (hloose : ∀ i, parentOf v.nodes i = none → prevOf v.nodes i = none ∧ nextOf v.nodes i = none)
    (hun : ∀ i n, w.nodes i = some n → n.isUnlinked = true →
      parentOf v.nodes i = none ∧ kids' i = []) : Tree v kids' := by
  have hfresh : v.fresh = w.fresh := by rw [hr.rest]
  have hr' : v.root = w.root := by rw [hr.rest]
  refine
    { bound := fun i hi => ?_
      root := ?_
      list := hlist
      nodup := hnodup
      kid := hkid
      loose := hloose
      cached := ?_
      unlinked := ?_ }
  · have hb := hr.body i
    rw [h.bound i (hfresh ▸ hi)] at hb
    exact Option.map_eq_none_iff.mp hb
  · obtain ⟨r, h1, -, h3⟩ := h.root
    obtain ⟨m, hm, hb⟩ := hr.node h1
    rw [body_eq_iff] at hb
    rw [hr']
    exact ⟨m, hm, (parentOf_eq hm).symm.trans hroot, hb.2.2.2.2.2.2.2.2.2.2.1.trans h3⟩
  · intro d m hm hc
    obtain ⟨n, hn, hb⟩ := hr.back hm
    rw [body_eq_iff] at hb
    rw [Node.isDir, hb.2.2.2.2.2.1]
    exact h.cached d n hn (hb.2.2.2.2.2.2.2.2.1 ▸ hc)
  · intro d m hm hu
    obtain ⟨n, hn, hb⟩ := hr.back hm
    rw [body_eq_iff] at hb
    rw [← parentOf_eq hm]
    exact hun d n hn (hb.2.2.2.2.2.2.2.2.2.2.1 ▸ hu)

/-- The neighbours of a node are its siblings. -/
theorem Tree.neighbours (h : Tree w kids) (hn : w.nodes i = some n) (hp : n.parent = some d) :
    (∀ j, n.prev = some j → j ∈ kids d) ∧ ∀ j, n.next = some j → j ∈ kids d := by
  have hi : i ∈ kids d := (h.kid d i).mpr ((parentOf_eq hn).trans hp)
  obtain ⟨A, B, hAB⟩ := List.append_of_mem hi
  have hl := h.list d
  rw [hAB] at hl
  obtain ⟨h1, h2⟩ := hl.links
  rw [prevOf_eq hn, Option.or_none] at h1
  rw [nextOf_eq hn] at h2
  rw [hAB]
  refine ⟨fun j hj => ?_, fun j hj => ?_⟩
  · exact List.mem_append_left _ (List.mem_of_getLast? (h1.symm.trans hj))
  · exact List.mem_append_right _ (List.mem_cons_of_mem _ (List.mem_of_mem_head? (h2.symm.trans hj)))

/-- `tree_detach` takes a node out of the list of its parent. -/
theorem treeDetach_spec {E : Halt → Prop} (hE : E .fault) (h : Tree w kids)
    (hn : w.nodes i = some n) (hp : n.parent = some d) :
    Wp E (treeDetach i) w fun _ v => Relinked w v ∧
      Tree v (Function.update kids d ((kids d).erase i)) ∧ parentOf v.nodes i = none ∧
      ∀ j, j ≠ i → parentOf v.nodes j = parentOf w.nodes j := by
  apply (treeDetach_links hE hn hp).mono
  rintro _ v ⟨hr, h1, h2, h3, h4⟩
  have hpar : parentOf w.nodes i = some d := (parentOf_eq hn).trans hp
  have hi : i ∈ kids d := (h.kid d i).mpr hpar
  obtain ⟨hprev, hnext⟩ := h.neighbours hn hp
  refine ⟨hr, h.relink hr ?_ ?_ ?_ ?_ ?_ ?_, by rw [h1, if_pos rfl], fun j hj => by
    rw [h1, if_neg hj]⟩
  · rw [h1]
    obtain ⟨r, hr1, hr2, -⟩ := h.root
    rw [parentOf_eq hr1, hr2, ite_self]
  · intro e
    by_cases he : e = d
    · subst he
      obtain ⟨A, B, hAB⟩ := List.append_of_mem hi
      have hnd := h.nodup e
      have hl := h.list e
      rw [Function.update_self, hAB]
      rw [hAB] at hl hnd
      have hiA : i ∉ A := fun hm => (List.nodup_append.mp hnd).2.2 i hm i (by simp) rfl
      have hiB : i ∉ B := (List.nodup_cons.mp (List.nodup_append.mp hnd).2.1).1
      have hne : ∀ y ∈ A ++ B, y ≠ i := by
        rintro y hy rfl
        rcases List.mem_append.mp hy with hy | hy
        · exact hiA hy
        · exact hiB hy
      rw [List.erase_append_right _ hiA, List.erase_cons_head]
      have hrem : Dlist (nextOf v.nodes) (prevOf v.nodes) none
          (if A = [] then nextOf w.nodes i else childOf w.nodes e) (A ++ B) := hl.remove hnd
        (fun y _ hq => by cases hq)
        (fun y hy => by rw [h2, if_neg (hne y hy), prevOf_eq hn, nextOf_eq hn])
        (fun y hy => by rw [h3, if_neg (hne y hy), prevOf_eq hn, nextOf_eq hn])
      have hA : n.prev = none ↔ A = [] := by
        rw [← prevOf_eq hn, hl.links.1, Option.or_none, List.getLast?_eq_none_iff]
      rw [h4]
      simp only [hA, and_true]
      rwa [nextOf_eq hn] at hrem
    · rw [Function.update_of_ne he, h4, if_neg (fun hc => he hc.2)]
      have hother : ∀ y ∈ kids e, y ≠ i ∧ y ∉ kids d := by
        intro y hy
        have hye := (h.kid e y).mp hy
        refine ⟨?_, fun hyd => he ?_⟩
        · rintro rfl
          exact he (Option.some.inj (hye.symm.trans hpar))
        · exact Option.some.inj (hye.symm.trans ((h.kid d y).mp hyd))
      refine (h.list e).congr (fun y hy => ?_) fun y hy => ?_
      · rw [h2, if_neg (hother y hy).1, if_neg fun hc => (hother y hy).2 (hprev y hc)]
      · rw [h3, if_neg (hother y hy).1, if_neg fun hc => (hother y hy).2 (hnext y hc)]
  · intro e
    by_cases he : e = d
    · subst he
      rw [Function.update_self]
      exact (h.nodup e).erase i
    · rw [Function.update_of_ne he]
      exact h.nodup e
  · intro e j
    rw [h1]
    by_cases he : e = d
    · subst he
      rw [Function.update_self, (h.nodup e).mem_erase_iff, h.kid e j]
      by_cases hj : j = i <;> simp [hj]
    · rw [Function.update_of_ne he, h.kid e j]
      by_cases hj : j = i
      · subst hj
        rw [if_pos rfl, hpar]
        simpa using fun hc => he hc.symm
      · rw [if_neg hj]
  · intro j hj
    rw [h1] at hj
    rw [h2, h3]
    by_cases hji : j = i
    · simp [hji]
    · rw [if_neg hji] at hj ⊢
      rw [if_neg hji]
      obtain ⟨k1, k2⟩ := h.loose j hj
      have hjd : j ∉ kids d := fun hm => by
        rw [(h.kid d j).mp hm] at hj
        cases hj
      rw [if_neg fun hc => hjd (hnext j hc), if_neg fun hc => hjd (hprev j hc)]
      exact ⟨k1, k2⟩
  · intro j m hm hu
    obtain ⟨hj1, hj2⟩ := h.unlinked j m hm hu
    rw [h1, parentOf_eq hm, hj1, ite_self]
    refine ⟨rfl, ?_⟩
    by_cases he : j = d
    · subst he
      rw [hj2] at hi
      cases hi
    · rw [Function.update_of_ne he, hj2]

/-- A node outside the tree becomes the child of a directory. -/
theorem Tree.adopt {L : List NodeId} (h : Tree w kids) (hr : Relinked w v)
    (hi : w.nodes i = some n) (hp : n.parent = none) (hu : n.isUnlinked = false)
    (hroot : i ≠ w.root) (hd : w.nodes d = some m) (hdu : m.isUnlinked = false)
    (hpar : parentOf v.nodes = Function.update (parentOf w.nodes) i (some d))
    (hl : Dlist (nextOf v.nodes) (prevOf v.nodes) none (childOf v.nodes d) L)
    (hnd : L.Nodup) (hm : ∀ j, j ∈ L ↔ j = i ∨ j ∈ kids d)
    (ho : ∀ e, e ≠ d → childOf v.nodes e = childOf w.nodes e)
    (hs : ∀ y, y ≠ i → y ∉ kids d →
      nextOf v.nodes y = nextOf w.nodes y ∧ prevOf v.nodes y = prevOf w.nodes y) :
    Tree v (Function.update kids d L) := by
  have hpi : parentOf w.nodes i = none := (parentOf_eq hi).trans hp
  refine h.relink hr ?_ ?_ ?_ ?_ ?_ ?_
  · obtain ⟨r, hr1, hr2, -⟩ := h.root
    rw [hpar, Function.update_of_ne hroot.symm, parentOf_eq hr1, hr2]
  · intro e
    by_cases he : e = d
    · subst he
      rw [Function.update_self]
      exact hl
    · rw [Function.update_of_ne he, ho e he]
      have hy : ∀ y ∈ kids e, y ≠ i ∧ y ∉ kids d := by
        intro y hy
        have hye := (h.kid e y).mp hy
        refine ⟨?_, fun hyd => he (Option.some.inj (hye.symm.trans ((h.kid d y).mp hyd)))⟩
        rintro rfl
        rw [hpi] at hye
        cases hye
      exact (h.list e).congr (fun y hy' => (hs y (hy y hy').1 (hy y hy').2).1) fun y hy' =>
        (hs y (hy y hy').1 (hy y hy').2).2
  · intro e
    by_cases he : e = d
    · subst he
      rw [Function.update_self]
      exact hnd
    · rw [Function.update_of_ne he]
      exact h.nodup e
  · intro e j
    rw [hpar]
    by_cases hj : j = i
    · subst hj
      rw [Function.update_self]
      by_cases he : e = d
      · subst he
        simp [hm]
      · rw [Function.update_of_ne he, h.kid e j, hpi]
        simpa using fun hc => he hc.symm
    · rw [Function.update_of_ne hj]
      by_cases he : e = d
      · subst he
        rw [Function.update_self, hm, h.kid e j]
        simp [hj]
      · rw [Function.update_of_ne he, h.kid e j]
  · intro j hj
    rw [hpar] at hj
    have hji : j ≠ i := by
      rintro rfl
      rw [Function.update_self] at hj
      cases hj
    rw [Function.update_of_ne hji] at hj
    have hjd : j ∉ kids d := fun hm => by
      rw [(h.kid d j).mp hm] at hj
      cases hj
    obtain ⟨hs1, hs2⟩ := hs j hji hjd
    rw [hs1, hs2]
    exact h.loose j hj
  · intro j k hk hju
    obtain ⟨hj1, hj2⟩ := h.unlinked j k hk hju
    have hji : j ≠ i := by
      rintro rfl
      rw [Option.some.inj (hk.symm.trans hi), hu] at hju
      cases hju
    have hjd : j ≠ d := by
      rintro rfl
      rw [Option.some.inj (hk.symm.trans hd), hdu] at hju
      cases hju
    rw [hpar, Function.update_of_ne hji, parentOf_eq hk, Function.update_of_ne hjd]
    exact ⟨hj1, hj2⟩

/-- What linking a node behind the last of a list does to the pointers. -/
theorem linkLast_links {E : Halt → Prop} (hE : E .fault) {L : List NodeId} (hi : w.nodes i = some n)
    (hpv : prevOf w.nodes i = none) :
    Wp E (linkLast d i L.getLast?) w fun _ v => Relinked w v ∧
      parentOf v.nodes = Function.update (parentOf w.nodes) i (some d) ∧
      (∀ j, nextOf v.nodes j = if L.getLast? = some j then some i else nextOf w.nodes j) ∧
      prevOf v.nodes = Function.update (prevOf w.nodes) i L.getLast? ∧
      ∀ e, childOf v.nodes e = if L = [] ∧ e = d then some i else childOf w.nodes e := by
  simp only [linkLast, follow, wp_bind]
  refine wp_relink hE (fun _ => rfl) fun n' v hn' hv hwv ho h1 h2 h3 h4 => ?_
  obtain rfl := Option.some.inj (hn'.symm.trans hi)
  rw [← nextOf_eq hi, Function.update_eq_self] at h2
  rw [← prevOf_eq hi, Function.update_eq_self] at h3
  rw [← childOf_eq hi, Function.update_eq_self] at h4
  cases hk : L.getLast? with
  | none =>
    refine wp_relink hE (fun _ => rfl) fun b x hb _ hux _ l1 l2 l3 l4 => ⟨hwv.trans hux, ?_, ?_, ?_, ?_⟩
    · rw [l1, ← parentOf_eq hb, Function.update_eq_self, h1]
    · intro j
      rw [l2, ← nextOf_eq hb, Function.update_eq_self, h2, if_neg (by simp)]
    · rw [l3, ← prevOf_eq hb, Function.update_eq_self, h3, ← hpv, Function.update_eq_self]
    · intro e
      rw [l4, h4, Function.update_apply]
      simp [List.getLast?_eq_none_iff.mp hk]
  | some c =>
    simp only [wp_bind]
    have hkd : L ≠ [] := by
      rintro he
      rw [he] at hk
      cases hk
    refine wp_relink hE (fun _ => rfl) fun a u ha _ hvu _ k1 k2 k3 k4 => ?_
    refine wp_relink hE (fun _ => rfl) fun b x hb _ hux _ l1 l2 l3 l4 =>
      ⟨(hwv.trans hvu).trans hux, ?_, ?_, ?_, ?_⟩
    · rw [l1, ← parentOf_eq hb, Function.update_eq_self, k1, ← parentOf_eq ha,
        Function.update_eq_self, h1]
    · intro j
      rw [l2, ← nextOf_eq hb, Function.update_eq_self, k2, h2]
      simp only [Function.update_apply, Option.some.injEq, eq_comm]
    · rw [l3, k3, ← prevOf_eq ha, Function.update_eq_self, h3]
    · intro e
      rw [l4, ← childOf_eq hb, Function.update_eq_self, k4, ← childOf_eq ha,
        Function.update_eq_self, h4, if_neg fun hc => hkd hc.1]

/-- A node linked behind the last of a list makes a longer list. -/
theorem linked_snoc {L : List NodeId}
    (h : Dlist (nextOf w.nodes) (prevOf w.nodes) none (childOf w.nodes d) L) (hd : L.Nodup)
    (hi : i ∉ L) (hnx : nextOf w.nodes i = none)
    (h2 : ∀ j, nextOf v.nodes j = if L.getLast? = some j then some i else nextOf w.nodes j)
    (h3 : prevOf v.nodes = Function.update (prevOf w.nodes) i L.getLast?)
    (h4 : ∀ e, childOf v.nodes e = if L = [] ∧ e = d then some i else childOf w.nodes e) :
    Dlist (nextOf v.nodes) (prevOf v.nodes) none (childOf v.nodes d) (L ++ [i]) := by
  have hs : Dlist (nextOf v.nodes) (prevOf v.nodes) none
      (if L = [] then some i else childOf w.nodes d) (L ++ [i]) := by
    refine h.snoc ?_ ?_ ?_ ?_ hd
    · rw [h2, if_neg fun hc => hi (List.mem_of_getLast? hc), hnx]
    · rw [h3, Function.update_self]
      split
      · rename_i he
        simp [he]
      · rfl
    · exact fun y _ => h2 y
    · intro y hy
      rw [h3, Function.update_of_ne (ne_of_mem_of_not_mem hy hi)]
  rw [h4]
  simpa only [and_true] using hs

/-- A new node linked behind the last child of a directory. -/
theorem linkLast_spec {E : Halt → Prop} (hE : E .fault) (h : Tree w kids)
    (hi : w.nodes i = some n) (hp : n.parent = none) (hu : n.isUnlinked = false)
    (hroot : i ≠ w.root) (hd : w.nodes d = some m) (hdu : m.isUnlinked = false) :
    Wp E (linkLast d i (kids d).getLast?) w fun _ v => Relinked w v ∧
      Tree v (Function.update kids d (kids d ++ [i])) ∧
      parentOf v.nodes = Function.update (parentOf w.nodes) i (some d) := by
  have hpi : parentOf w.nodes i = none := (parentOf_eq hi).trans hp
  have hik : i ∉ kids d := fun hm => by
    rw [(h.kid d i).mp hm] at hpi
    cases hpi
  obtain ⟨hpv, hnx⟩ := h.loose i hpi
  have hnd : (kids d ++ [i]).Nodup := by
    rw [List.nodup_append]
    refine ⟨h.nodup d, by simp, fun a ha b hb => ?_⟩
    rintro rfl
    rw [List.mem_singleton] at hb
    exact hik (hb ▸ ha)
  apply (linkLast_links hE hi hpv).mono
  rintro _ v ⟨hr, h1, h2, h3, h4⟩
  have hlast : ∀ j, (kids d).getLast? = some j → j ∈ kids d := fun j hj => List.mem_of_getLast? hj
  refine ⟨hr, h.adopt hr hi hp hu hroot hd hdu h1 (linked_snoc (h.list d) (h.nodup d) hik hnx h2 h3 h4)
    hnd (fun j => by simp [or_comm]) ?_ ?_, h1⟩
  · intro e he
    rw [h4, if_neg fun hc => he hc.2]
  · intro y hy hyd
    rw [h2, h3, if_neg fun hc => hyd (hlast y hc), Function.update_of_ne hy]
    exact ⟨rfl, rfl⟩

theorem siblings_dlist {E : Halt → Prop} {q p : Option NodeId} {L : List NodeId} {fuel : Nat}
    (h : Dlist (nextOf w.nodes) (prevOf w.nodes) q p L) (hn : ∀ j ∈ L, ∃ n, w.nodes j = some n)
    (hf : L.length ≤ fuel) : Wp E (siblings fuel p) w fun l v => l = L ∧ w = v := by
  induction L generalizing fuel q p with
  | nil =>
    obtain rfl : p = none := h
    cases fuel <;> exact ⟨rfl, rfl⟩
  | cons x xs ih =>
    obtain ⟨rfl, -, h⟩ := h
    obtain ⟨n, hx⟩ := hn x (by simp)
    rw [List.length_cons] at hf
    cases fuel with
    | zero => omega
    | succ fuel =>
      simp only [siblings, wp_bind, wp_getNode hx]
      rw [← nextOf_eq hx]
      apply (ih h (fun j hj => hn j (by simp [hj])) (by omega)).mono
      rintro _ _ ⟨rfl, rfl⟩
      exact ⟨rfl, rfl⟩

theorem Tree.kid_node (h : Tree w kids) (hi : i ∈ kids d) :
    ∃ n, w.nodes i = some n ∧ n.parent = some d := parentOf_some ((h.kid d i).mp hi)

/-- The children of a directory. -/
theorem Tree.children {E : Halt → Prop} (h : Tree w kids) (hd : w.nodes d = some n) :
    Wp E (children d) w fun l v => l = kids d ∧ w = v := by
  have hlen : (kids d).length ≤ w.fresh := by
    refine nodup_length_le (h.nodup d) fun i hi => ?_
    obtain ⟨m, hm, -⟩ := h.kid_node hi
    by_contra hge
    rw [h.bound i (Nat.le_of_not_lt hge)] at hm
    cases hm
  have hl := h.list d
  rw [childOf_eq hd] at hl
  simp only [Exfat.children, wp_bind, wp_getNode hd, wp_get]
  refine siblings_dlist hl (fun j hj => ?_) (by omega)
  obtain ⟨m, hm, -⟩ := h.kid_node hj
  exact ⟨m, hm⟩

end Proofs

end Exfat
