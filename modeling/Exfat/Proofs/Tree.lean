import Exfat.Proofs.Basic

namespace Exfat
open Lib

/-! The node tree: what the `child`, `next`, `prev` and `parent` pointers stand for. -/

/-- A forest of nodes: the first node, the forest of its children and the forest of the nodes
after it. -/
inductive Forest where
  | nil
  | node (id : NodeId) (kids rest : Forest)

namespace Forest

/-- All nodes of a forest. -/
def ids : Forest → List NodeId
  | nil => []
  | node id kids rest => id :: (kids.ids ++ rest.ids)

/-- The nodes of a forest that have no parent in it. -/
def tops : Forest → List NodeId
  | nil => []
  | node id _ rest => id :: rest.tops

theorem tops_length (F : Forest) : F.tops.length ≤ F.ids.length := by
  induction F with
  | nil => simp [tops]
  | node id kids rest _ ih => simp only [tops, ids, List.length_cons, List.length_append]; omega

end Forest

/-- The pointers from `p` on form the doubly linked lists of a forest below a parent. -/
def Linked (nodes : NodeId → Option Node) (parent : NodeId) :
    Option NodeId → Option NodeId → Forest → Prop
  | _, p, .nil => p = none
  | prev, p, .node id kids rest => p = some id ∧ ∃ n, nodes id = some n ∧
      n.parent = some parent ∧ n.prev = prev ∧ Linked nodes id none n.child kids ∧
      Linked nodes parent (some id) n.next rest

/-- Two nodes with the same pointers. -/
def SameLinks (n m : Node) : Prop :=
  m.parent = n.parent ∧ m.prev = n.prev ∧ m.next = n.next ∧ m.child = n.child

namespace Proofs

variable {E : Halt → Prop} {w : World} {F : Forest} {nodes nodes' : NodeId → Option Node}
  {parent : NodeId} {p q : Option NodeId}

/-- A forest stays linked as long as its nodes keep their pointers. -/
theorem linked_congr (hn : ∀ i ∈ F.ids, ∀ n, nodes i = some n →
    ∃ m, nodes' i = some m ∧ SameLinks n m) (h : Linked nodes parent q p F) :
    Linked nodes' parent q p F := by
  induction F generalizing parent q p with
  | nil => exact h
  | node id kids rest ihk ihr =>
    obtain ⟨hp, n, hid, hpar, hprev, hk, hr⟩ := h
    obtain ⟨m, hm, h1, h2, h3, h4⟩ := hn id (by simp [Forest.ids]) n hid
    refine ⟨hp, m, hm, h1.trans hpar, h2.trans hprev, ?_, ?_⟩
    · rw [h4]
      exact ihk (fun i hi => hn i (by simp [Forest.ids, hi])) hk
    · rw [h3]
      exact ihr (fun i hi => hn i (by simp [Forest.ids, hi])) hr

/-- Every node of a linked forest exists and has its parent in the forest or above it. -/
theorem linked_parent (h : Linked nodes parent q p F) (hd : (parent :: F.ids).Nodup) {i : NodeId}
    (hi : i ∈ F.ids) : ∃ n j, nodes i = some n ∧ n.parent = some j ∧ j ∈ parent :: F.ids ∧ j ≠ i := by
  induction F generalizing parent q p with
  | nil => simp [Forest.ids] at hi
  | node id kids rest ihk ihr =>
    obtain ⟨-, n, hid, hpar, -, hk, hr⟩ := h
    simp only [Forest.ids, List.nodup_cons, List.mem_cons, List.mem_append, List.nodup_append,
      not_or] at hd
    obtain ⟨⟨hpi, hpk, hpr⟩, ⟨hik, hir⟩, hkn, hrn, hkr⟩ := hd
    simp only [Forest.ids, List.mem_cons, List.mem_append] at hi ⊢
    rcases hi with rfl | hi | hi
    · exact ⟨n, parent, hid, hpar, Or.inl rfl, hpi⟩
    · obtain ⟨m, j, hm, hj, hmem, hne⟩ := ihk hk (List.nodup_cons.mpr ⟨hik, hkn⟩) hi
      rw [List.mem_cons] at hmem
      exact ⟨m, j, hm, hj, by tauto, hne⟩
    · obtain ⟨m, j, hm, hj, hmem, hne⟩ := ihr hr (List.nodup_cons.mpr ⟨hpr, hrn⟩) hi
      rw [List.mem_cons] at hmem
      exact ⟨m, j, hm, hj, by tauto, hne⟩

/-- Different nodes below a bound are no more than the bound. -/
theorem nodup_length_le {l : List NodeId} {b : Nat} (hd : l.Nodup) (hb : ∀ i ∈ l, i < b) :
    l.length ≤ b := by
  have hsub : l.toFinset ⊆ Finset.range b := by
    intro i hi
    exact Finset.mem_range.mpr (hb i (List.mem_toFinset.mp hi))
  have hcard := Finset.card_le_card hsub
  rwa [List.toFinset_card_of_nodup hd, Finset.card_range] at hcard

/-- The walk over a list of siblings collects the top nodes of the forest. -/
theorem siblings_spec {fuel : Nat} (h : Linked w.nodes parent q p F)
    (hf : F.tops.length ≤ fuel) : Wp E (siblings fuel p) w fun l v => l = F.tops ∧ w = v := by
  induction F generalizing fuel q p with
  | nil =>
    obtain rfl : p = none := h
    cases fuel <;> exact ⟨rfl, rfl⟩
  | node id kids rest _ ihr =>
    obtain ⟨rfl, n, hid, -, -, -, hr⟩ := h
    simp only [Forest.tops, List.length_cons] at hf
    cases fuel with
    | zero => omega
    | succ fuel =>
      simp only [siblings, wp_bind, wp_getNode hid]
      apply (ihr hr (by omega)).mono
      rintro _ _ ⟨rfl, rfl⟩
      exact ⟨rfl, rfl⟩

theorem children_spec {dir : NodeId} {n : Node} (hn : w.nodes dir = some n)
    (h : Linked w.nodes dir none n.child F) (hf : F.ids.length ≤ w.fresh) :
    Wp E (children dir) w fun l v => l = F.tops ∧ w = v := by
  have := F.tops_length
  simp only [children, wp_bind, wp_getNode hn, wp_get]
  exact siblings_spec h (by omega)

end Proofs

end Exfat
