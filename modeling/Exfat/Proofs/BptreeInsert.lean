import Exfat.Lib.Prog
import Exfat.Proofs.BptreeIndex

namespace Exfat
open Lib

/-! What insertions into the recovery tool's tree make of it. -/

/-- A tree with one element replaced. -/
def Bptree.put (t : Bptree) (j : Nat) (n : BptreeNode) : Bptree :=
  { t with heap := fun x => if x = j then n else t.heap x }

/-- A tree with a block of elements copied. -/
def Bptree.moved (t : Bptree) (target source count : Nat) : Bptree :=
  { t with
    heap := fun x =>
      if target ≤ x ∧ x < target + count then t.heap (source + (x - target)) else t.heap x }

/-- The element that an insertion meets at a height, if it meets any. -/
def slot (height : Nat) : Nat := if height = 0 then 0 else levelStart (min height 10 + 1)

/-- A child stored in a free place of a slot. -/
def Bptree.stored (t : Bptree) (h i lo : Nat) (entry : List UInt8) (off : Nat) : Bptree :=
  let t := t.put (slot h) ((t.heap (slot h)).setChild i (slot (h + 1)))
  t.put (slot (h + 1)) { t.heap (slot (h + 1)) with
    entry := entry, offset := off, parentNode := getBptreeEntryHeapOffset h lo }

/-- A pair that the tree stores: the offset on the disk, and the directory entry. -/
abbrev TreePair : Type := Nat × List UInt8

/-- The elements that are reached from the root through child pointers. -/
inductive InTree (t : Bptree) : Nat → Prop where
  | root : InTree t 0
  | child {j : Nat} (i : Nat) (hj : InTree t j) (hi : i < 8) (hc : (t.heap j).child i ≠ 0) :
      InTree t ((t.heap j).child i)

/-- Any number of insertions that all end, each with the place where its pair is stored. -/
inductive InsertRun : Bptree → List TreePair → Bptree → Prop where
  | nil (t : Bptree) : InsertRun t [] t
  | cons {t u v : Bptree} {p : TreePair} {ps : List TreePair} {out : Nat} (fuel : Nat)
      (h : insertBptreeNode fuel p.2 p.1 t = .ok (out, u))
      (ho : (u.heap out).offset = p.1 ∧ (u.heap out).entry = p.2) (rest : InsertRun u ps v) :
      InsertRun t (p :: ps) v

/-- A tree that holds exactly the given pairs, each element below one other that it points back
to. -/
structure HoldsAll (t : Bptree) (root : TreePair) (ps : List TreePair) : Prop where
  pairs : ∀ p, (∃ j, InTree t j ∧ ((t.heap j).offset, (t.heap j).entry) = p) ↔ p = root ∨ p ∈ ps
  parents : ∀ j, InTree t j → j ≠ 0 → ∃ p, (t.heap j).parentNode = p ∧
    ∀ q, (InTree t q ∧ ∃ i < 8, (t.heap q).child i = j) ↔ q = p

/-- Insertions into a new tree lose nothing. -/
def LosesNothing (levels : Nat) (root : TreePair) (ps : List TreePair) : Prop :=
  ∃ t, InsertRun (makeBptree levels root.2 root.1) ps t ∧ HoldsAll t root ps

namespace Proofs

variable {t u : Bptree} {j h i lo fuel : Nat} {n : BptreeNode} {entry : List UInt8} {off : Nat}

section
variable {Q : BptreeNode → Bptree → Prop} {R : PUnit → Bptree → Prop}

theorem wp_getHeap : Wp (fun _ => True) (getHeap j) t Q ↔ (j < t.heapSize → Q (t.heap j) t) := by
  simp only [getHeap, wp_bind, wp_get, wp_ite, wp_pure, wp_throw, implies_true, and_true]

theorem wp_setHeap : Wp (fun _ => True) (setHeap j n) t R ↔ (j < t.heapSize → R ⟨⟩ (t.put j n)) := by
  simp only [setHeap, wp_bind, wp_get, wp_ite, wp_set, wp_throw, implies_true, and_true,
    Bptree.put]

theorem wp_modifyHeap {f : BptreeNode → BptreeNode} : Wp (fun _ => True) (modifyHeap j f) t R ↔
    (j < t.heapSize → R ⟨⟩ (t.put j (f (t.heap j)))) := by
  simp only [modifyHeap, wp_bind, wp_getHeap, wp_setHeap]
  exact ⟨fun h hj => h hj hj, fun h hj _ => h hj⟩

theorem moveHeap_spec (target source count : Nat) :
    Wp (fun _ => True) (moveHeap target source count) t fun _ u =>
      u = t.moved target source count := by
  simp only [moveHeap, wp_bind, wp_get]
  split
  · rename_i h0
    subst h0
    have hheap : (t.moved target source 0).heap = t.heap := by
      funext x
      exact if_neg (by omega)
    cases t
    exact congrArg (Bptree.mk · _ _ _) hheap.symm
  · split
    · exact rfl
    · trivial

end

@[simp] theorem put_heapSize : (t.put j n).heapSize = t.heapSize := rfl
@[simp] theorem put_maxHeight : (t.put j n).maxHeight = t.maxHeight := rfl
@[simp] theorem put_self : (t.put j n).heap j = n := if_pos rfl
theorem put_ne {x : Nat} (hx : x ≠ j) : (t.put j n).heap x = t.heap x := if_neg hx

theorem setChild_child (n : BptreeNode) (c v i : Nat) :
    (n.setChild c v).child i = if i = c ∧ c < 8 then v else n.child i := by
  unfold BptreeNode.child BptreeNode.setChild
  rw [Vector.toList_setIfInBounds, List.getD_eq_getElem?_getD, List.getElem?_set,
    List.getD_eq_getElem?_getD, Vector.length_toList]
  by_cases hc : c = i
  · by_cases h8 : c < 8
    · simp [hc, hc ▸ h8]
    · simp [hc, hc ▸ h8]
  · rw [if_neg hc, if_neg (by omega)]

@[simp] theorem setChild_parentNode (n : BptreeNode) (c v : Nat) :
    (n.setChild c v).parentNode = n.parentNode := rfl

@[simp] theorem slot_zero : slot 0 = 0 := rfl

theorem slot_of_pos (h0 : 0 < h) : slot h = levelStart (min h 10 + 1) := if_neg (by omega)

theorem slot_pos (h0 : 0 < h) : 0 < slot h := by
  rw [slot_of_pos h0]
  exact levelStart_strictMono (show 0 < min h 10 + 1 by omega)

/-- A child is stored where the next height is looked for. -/
theorem heapOffset_next (hh : h + 1 < 2 ^ 8) (lo : Nat) :
    getBptreeEntryHeapOffset ((h + 1) % 2 ^ 8) lo = slot (h + 1) := by
  rw [Nat.mod_eq_of_lt hh, getBptreeEntryHeapOffset_eq, slot_of_pos (Nat.succ_pos h)]
  congr 1
  omega

/-- The place behind a level's first one is not the first of a level. -/
theorem levelStart_add_one_ne {a b : Nat} (ha : 1 ≤ a) : levelStart a + 1 ≠ levelStart b := by
  intro he
  rcases Nat.lt_or_ge a b with hab | hab
  · have hle : levelStart (a + 1) ≤ levelStart b := levelStart_strictMono.monotone hab
    have h8 : 8 ^ 1 ≤ 8 ^ a := Nat.pow_le_pow_right (by norm_num) ha
    rw [levelStart_succ] at hle
    omega
  · have hle : levelStart b ≤ levelStart a := levelStart_strictMono.monotone hab
    omega

/-- The tree after any insertions: below every element an insertion can meet there is at most one
other, in all its child pointers. -/
structure Stacked (t : Bptree) : Prop where
  child : ∀ h ≤ 10, ∀ i, (t.heap (slot h)).child i = 0 ∨ (t.heap (slot h)).child i = slot (h + 1)
  max : t.maxHeight = 0

/-- The first child of the root does not point back to it. -/
structure Astray (t : Bptree) : Prop where
  first : (t.heap 0).child 0 = slot 1
  parent : (t.heap (slot 1)).parentNode = 1

/-- Slots are never inside a block that a pivot copies to. -/
theorem slot_outside {k : Nat} (hk : k ≤ 11) (hh : h ≤ 11) :
    ¬(levelStart (min (h + 1) 11) + 1 ≤ slot k ∧
      slot k < levelStart (min (h + 1) 11) + 1 + slot h) := by
  rintro ⟨h1, h2⟩
  rcases Nat.eq_zero_or_pos h with rfl | hpos
  · rw [slot_zero] at h2
    omega
  rcases Nat.eq_zero_or_pos k with rfl | hkpos
  · rw [slot_zero] at h1
    omega
  rw [slot_of_pos hkpos] at h1 h2
  rw [slot_of_pos hpos, show min (h + 1) 11 = min h 10 + 1 by omega] at h2
  rw [show min (h + 1) 11 = min h 10 + 1 by omega] at h1
  rcases Nat.lt_or_ge (min h 10) (min k 10) with hlt | hge
  · -- the next level starts behind the block
    have hnext : levelStart (min h 10 + 1 + 1) ≤ levelStart (min k 10 + 1) :=
      levelStart_strictMono.monotone (by omega)
    rw [levelStart_succ'] at hnext
    omega
  · have hle : levelStart (min k 10 + 1) ≤ levelStart (min h 10 + 1) :=
      levelStart_strictMono.monotone (by omega)
    omega

/-- The pivot finds a free place at once or never ends; then it copies a block of elements. -/
theorem pivot_spec (hh : h ≤ 11) : Wp (fun _ => True) (pivot fuel (slot h) h lo entry off) t
    fun r u => r = none ∧ (t.heap (levelStart (min (h + 1) 11) + 1)).offset = 0 ∧
      u = t.moved (levelStart (min (h + 1) 11) + 1) (slot h) (slot h) := by
  have hplace : (getBptreeEntryHeapOffset h lo + 1) % 2 ^ 32 =
      levelStart (min (h + 1) 11) + 1 := by
    rw [getBptreeEntryHeapOffset_eq]
    have hle : levelStart (min (h + 1) 11) ≤ levelStart 11 :=
      levelStart_strictMono.monotone (by omega)
    have : levelStart 11 + 1 < 2 ^ 32 := by decide
    exact Nat.mod_eq_of_lt (by omega)
  cases fuel with
  | zero => simp only [pivot, pivotLoop, wp_bind, wp_throw]
  | succ fuel =>
    simp only [pivot, pivotLoop, wp_bind, hplace, wp_getHeap]
    intro _
    split
    · -- the height of a used place is never found
      split
      · simp only [wp_throw]
      · rename_i k x hsome
        have hlt : levelStart (min (h + 1) 11) + 1 < 2 ^ 32 := hplace ▸ Nat.mod_lt _ (by norm_num)
        obtain ⟨j, hj, -⟩ := heightAndIndex_some hlt hsome
        exact absurd hj (levelStart_add_one_ne (by omega))
    · rename_i hfree
      simp only [wp_pure, if_true, wp_bind]
      refine (moveHeap_spec _ _ _).mono fun _ u hu => ?_
      exact ⟨trivial, not_not.mp hfree, hu⟩

theorem moved_first {target source count : Nat} (hpos : 0 < count) :
    (t.moved target source count).heap target = t.heap source := by
  unfold Bptree.moved
  simp only
  rw [if_pos ⟨le_rfl, by omega⟩, Nat.sub_self, Nat.add_zero]

theorem moved_slot {k : Nat} (hk : k ≤ 11) (hh : h ≤ 11) :
    (t.moved (levelStart (min (h + 1) 11) + 1) (slot h) (slot h)).heap (slot k) =
      t.heap (slot k) := if_neg (slot_outside hk hh)

theorem Stacked.moved (hs : Stacked t) (hh : h ≤ 11) :
    Stacked (t.moved (levelStart (min (h + 1) 11) + 1) (slot h) (slot h)) where
  child := by
    intro k hk i
    rw [moved_slot (by omega) hh]
    exact hs.child k hk i
  max := hs.max

theorem Astray.moved (ha : Astray t) (hh : h ≤ 11) :
    Astray (t.moved (levelStart (min (h + 1) 11) + 1) (slot h) (slot h)) where
  first := by
    have hroot := moved_slot (t := t) (k := 0) (by omega) hh
    rw [slot_zero] at hroot
    rw [hroot]
    exact ha.first
  parent := by
    rw [moved_slot (by omega) hh]
    exact ha.parent

theorem storeChild_spec (hh : h ≤ 11) :
    Wp (fun _ => True) (storeChild (slot h) h lo i entry off) t fun _ u =>
      u = t.stored h i lo entry off := by
  simp only [storeChild, wp_bind, wp_modifyHeap, wp_pure, heapOffset_next (show h + 1 < 2 ^ 8 by omega)]
  intro _ _
  rfl

theorem stored_child (hi : i < 8) (x c : Nat) : ((t.stored h i lo entry off).heap x).child c =
    if x = slot h ∧ c = i then slot (h + 1) else (t.heap x).child c := by
  have hput : ((t.put (slot h) ((t.heap (slot h)).setChild i (slot (h + 1)))).heap x).child c =
      if x = slot h ∧ c = i then slot (h + 1) else (t.heap x).child c := by
    by_cases hx : x = slot h
    · rw [hx, put_self, setChild_child]
      simp only [hi, and_true, true_and]
    · rw [put_ne hx, if_neg fun hc => hx hc.1]
  rw [← hput, Bptree.stored]
  by_cases hx : x = slot (h + 1)
  · rw [hx, put_self]
    rfl
  · rw [put_ne hx]

theorem stored_parentNode (x : Nat) : ((t.stored h i lo entry off).heap x).parentNode =
    if x = slot (h + 1) then getBptreeEntryHeapOffset h lo else (t.heap x).parentNode := by
  rw [Bptree.stored]
  by_cases hx : x = slot (h + 1)
  · rw [hx, put_self, if_pos rfl]
  · rw [put_ne hx, if_neg hx]
    by_cases hxh : x = slot h
    · rw [hxh, put_self, setChild_parentNode]
    · rw [put_ne hxh]

theorem slot_ten (hh : 10 ≤ h) : slot h = levelStart 11 := by
  rw [slot_of_pos (by omega), Nat.min_eq_right hh]

theorem slot_inj {k : Nat} (he : slot k = slot h) : min k 10 = min h 10 := by
  rcases Nat.eq_zero_or_pos k with rfl | hk
  · rcases Nat.eq_zero_or_pos h with rfl | hh
    · rfl
    · exact absurd he (Nat.ne_of_lt (slot_pos hh))
  · rcases Nat.eq_zero_or_pos h with rfl | hh
    · exact absurd he.symm (Nat.ne_of_lt (slot_pos hk))
    · rw [slot_of_pos hk, slot_of_pos hh] at he
      have := levelStart_strictMono.injective he
      omega

theorem Stacked.stored (hs : Stacked t) (hh : h ≤ 11) (hi : i < 8) :
    Stacked (t.stored h i lo entry off) where
  child := by
    intro k hk c
    rw [stored_child hi]
    split
    · rename_i hkc
      right
      have hmin := slot_inj hkc.1
      rw [slot_of_pos (Nat.succ_pos h), slot_of_pos (Nat.succ_pos k)]
      congr 1
      omega
    · exact hs.child k hk c
  max := hs.max

theorem Astray.stored (ha : Astray t) (hi : i < 8) (hfree : (t.heap (slot h)).child i = 0) :
    Astray (t.stored h i lo entry off) where
  first := by
    rw [stored_child hi, if_neg]
    · exact ha.first
    · rintro ⟨h0, rfl⟩
      rw [← h0, ha.first] at hfree
      have := slot_pos (h := 1) (by omega)
      omega
  parent := by
    rw [stored_parentNode]
    split
    · rename_i he
      have hmin := slot_inj he
      obtain rfl : h = 0 := by omega
      rw [getBptreeEntryHeapOffset_eq]
      rfl
    · exact ha.parent

/-- Every insertion that ends keeps the tree as it is, as far as its shape goes. -/
theorem insertLoop_keeps (hs : Stacked t) (ha : Astray t) (hh : h ≤ 11)
    (hfull : h = 11 → (t.heap (levelStart 11 + 1)).offset ≠ 0) :
    Wp (fun _ => True) (insertLoop entry off fuel (slot h) h lo i) t fun _ u =>
      Stacked u ∧ Astray u := by
  induction fuel generalizing t h lo i with
  | zero => simp only [insertLoop, wp_throw]
  | succ fuel ih =>
    unfold insertLoop
    split
    · exact ih hs ha hh hfull
    rename_i hi
    have hi8 : i < 8 := by simpa using hi
    simp only [wp_bind, wp_getHeap]
    intro _
    split
    · rename_i hfree
      refine (storeChild_spec hh).mono fun _ u hu => ?_
      subst hu
      exact ⟨hs.stored hh hi8, ha.stored hi8 hfree⟩
    rename_i hused
    simp only [wp_bind, wp_getHeap]
    intro _
    split
    · exact ih hs ha hh hfull
    split
    · rename_i hless
      simp only [wp_bind, wp_get, hs.max, ge_iff_le, Nat.zero_le, if_true]
      refine (pivot_spec hh).mono fun r u hr => ?_
      obtain ⟨rfl, hplace, rfl⟩ := hr
      simp only [wp_bind, wp_getHeap]
      intro _
      rw [moved_slot (by omega) hh]
      have h10 : h ≤ 10 := by
        by_contra hn
        obtain rfl : h = 11 := by omega
        exact hfull rfl hplace
      have hchild := (hs.child h h10 i).resolve_left hused
      rw [hchild, Nat.mod_eq_of_lt (show h + 1 < 2 ^ 8 by omega)]
      refine ih (hs.moved hh) (ha.moved hh) (by omega) fun h11 => ?_
      -- the element copied behind the last slot is the one just compared with
      obtain rfl : h = 10 := by omega
      rw [hchild, slot_ten (by norm_num)] at hless
      rw [show levelStart 11 + 1 = levelStart (min (10 + 1) 11) + 1 from rfl,
        moved_first (slot_pos (by omega)), slot_ten le_rfl]
      omega
    · exact ih hs ha hh hfull

theorem new_child (levels : Nat) (root : TreePair) (j i : Nat) :
    ((makeBptree levels root.2 root.1).heap j).child i = 0 := by
  have hzero : ∀ n : BptreeNode, n.childNodes = Vector.replicate 8 0 → n.child i = 0 := by
    intro n hn
    rw [BptreeNode.child, hn, Vector.toList_replicate, List.getD_eq_getElem?_getD,
      List.getElem?_replicate]
    split <;> rfl
  apply hzero
  simp only [makeBptree]
  split <;> rfl

theorem stacked_new (levels : Nat) (root : TreePair) : Stacked (makeBptree levels root.2 root.1) where
  child := fun _ _ i => Or.inl (new_child levels root _ i)
  max := rfl

/-- The first insertion stores its pair below the root, but behind the wrong parent. -/
theorem insert_first (hs : Stacked t) (hnone : (t.heap 0).child 0 = 0) :
    Wp (fun _ => True) (insertBptreeNode fuel entry off) t fun _ u => Stacked u ∧ Astray u := by
  cases fuel with
  | zero => simp only [insertBptreeNode, insertLoop, wp_throw]
  | succ fuel =>
    unfold insertBptreeNode insertLoop
    rw [if_neg (by norm_num)]
    simp only [wp_bind, wp_getHeap, hnone, if_true]
    intro _
    refine (storeChild_spec (h := 0) (by omega)).mono fun _ u hu => ?_
    subst hu
    refine ⟨hs.stored (by omega) (by omega), ⟨?_, ?_⟩⟩
    · rw [stored_child (by omega)]
      exact if_pos ⟨rfl, rfl⟩
    · rw [stored_parentNode]
      exact (if_pos rfl).trans (getBptreeEntryHeapOffset_eq 0 0)

theorem insert_keeps (hs : Stacked t) (ha : Astray t) :
    Wp (fun _ => True) (insertBptreeNode fuel entry off) t fun _ u => Stacked u ∧ Astray u :=
  insertLoop_keeps hs ha (Nat.zero_le 11) fun h => absurd h (by norm_num)

/-- Once it points to the wrong parent, the first child of the root always will. -/
theorem InsertRun.astray {ps : List TreePair} (hr : InsertRun t ps u) (hs : Stacked t)
    (ha : Astray t) : Astray u := by
  induction hr with
  | nil t => exact ha
  | cons fuel h _ _ ih =>
    obtain ⟨hs', ha'⟩ := (insert_keeps hs ha).run h
    exact ih hs' ha'

theorem Astray.not_holdsAll (ha : Astray t) (root : TreePair) (ps : List TreePair) :
    ¬HoldsAll t root ps := by
  intro hall
  have hne : slot 1 ≠ 0 := Nat.ne_of_gt (slot_pos (by omega))
  have hreach : InTree t (slot 1) := by
    have hc := InTree.child 0 (InTree.root (t := t)) (by omega) (by rwa [ha.first])
    rwa [ha.first] at hc
  obtain ⟨p, hp, hparents⟩ := hall.parents (slot 1) hreach hne
  have hp0 : 0 = p := (hparents 0).mp ⟨.root, 0, by omega, ha.first⟩
  rw [ha.parent, ← hp0] at hp
  exact absurd hp (by norm_num)

theorem not_losesNothing_cons (levels : Nat) (root p : TreePair) (ps : List TreePair) :
    ¬LosesNothing levels root (p :: ps) := by
  rintro ⟨t, hrun, hall⟩
  cases hrun with
  | cons fuel h _ rest =>
    obtain ⟨hs, ha⟩ := (insert_first (stacked_new levels root) (new_child levels root 0 0)).run h
    exact (InsertRun.astray rest hs ha).not_holdsAll root (p :: ps) hall

/-- A new tree holds its root. -/
theorem holdsAll_new (levels : Nat) (root : TreePair) :
    HoldsAll (makeBptree levels root.2 root.1) root [] := by
  have hroot : ∀ j, InTree (makeBptree levels root.2 root.1) j → j = 0 := by
    intro j hj
    cases hj with
    | root => rfl
    | child i _ _ hc => exact absurd (new_child levels root _ i) hc
  constructor
  · intro p
    constructor
    · rintro ⟨j, hj, rfl⟩
      rw [hroot j hj]
      exact Or.inl rfl
    · rintro (rfl | hp)
      · exact ⟨0, .root, rfl⟩
      · exact absurd hp List.not_mem_nil
  · intro j hj h0
    exact absurd (hroot j hj) h0

/-- Whatever is inserted into a new tree of any size: after any sequence of insertions but the
empty one something is wrong. -/
theorem insertions_loseNothing_iff (levels : Nat) (root : TreePair) (ps : List TreePair) :
    LosesNothing levels root ps ↔ ps = [] := by
  constructor
  · intro h
    cases ps with
    | nil => rfl
    | cons p ps => exact absurd h (not_losesNothing_cons levels root p ps)
  · rintro rfl
    exact ⟨_, .nil _, holdsAll_new levels root⟩

/-- One insertion into a tree of the size that the recovery tool uses. -/
theorem insertion_astray : [(2, List.replicate 32 0)].length < allocHeapSize 8 ∧
    ¬LosesNothing 8 (1, List.replicate 32 0) [(2, List.replicate 32 0)] :=
  ⟨by decide, not_losesNothing_cons 8 _ _ []⟩

end Proofs

end Exfat
