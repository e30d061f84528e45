import Mathlib

namespace Exfat.Lib

variable {α : Type}

/-- `L` is what following the successor function `f` from `a` visits. -/
def Walk (f : α → α) : α → List α → Prop
  | _, [] => True
  | a, x :: xs => x = a ∧ Walk f (f a) xs

variable {f g : α → α} {a x y : α} {L K : List α}

theorem walk_append : Walk f a (L ++ K) ↔ Walk f a L ∧ Walk f (f^[L.length] a) K := by
  induction L generalizing a with
  | nil => simp [Walk]
  | cons x xs ih => simp only [List.cons_append, Walk, ih, List.length_cons,
      Function.iterate_succ, Function.comp_apply, and_assoc]

/-- Every visited element is an iterate of the start. -/
theorem Walk.get (h : Walk f a L) {i : Nat} (hi : L[i]? = some x) : x = f^[i] a := by
  induction L generalizing a i with
  | nil => simp at hi
  | cons y ys ih =>
    cases i with
    | zero => simp only [List.getElem?_cons_zero, Option.some.injEq] at hi; exact hi ▸ h.1
    | succ i =>
      rw [List.getElem?_cons_succ] at hi
      exact ih h.2 hi

theorem Walk.take (h : Walk f a L) (k : Nat) : Walk f a (L.take k) := by
  rw [← List.take_append_drop k L, walk_append] at h
  exact h.1

/-- The part of a walk from index `k` on is a walk from the element there. -/
theorem Walk.drop (h : Walk f a L) {k : Nat} (hk : L[k]? = some x) : Walk f x (L.drop k) := by
  have hx := h.get hk
  have hlt : k < L.length := by
    by_contra hn
    simp [List.getElem?_eq_none (Nat.le_of_not_lt hn)] at hk
  rw [← List.take_append_drop k L, walk_append, List.length_take, Nat.min_eq_left hlt.le] at h
  exact hx ▸ h.2

/-- The successor of a visited element is the next one. -/
theorem Walk.next (h : Walk f a L) {i : Nat} (hi : L[i]? = some x) (hj : L[i + 1]? = some y) :
    f x = y := by
  rw [h.get hi, h.get hj, Function.iterate_succ_apply']

/-- A walk uses the successor only of elements before the last. -/
theorem Walk.congr (h : Walk f a L) (hc : ∀ x ∈ L.dropLast, f x = g x) : Walk g a L := by
  induction L generalizing a with
  | nil => trivial
  | cons x xs ih =>
    obtain ⟨rfl, h⟩ := h
    refine ⟨rfl, ?_⟩
    cases xs with
    | nil => trivial
    | cons y ys =>
      rw [← hc x (by simp)]
      exact ih h fun z hz => hc z (by simp [hz])

/-- Links of a walk to the elements of another walk from the successor of its last element. -/
theorem Walk.append (h : Walk f a (L ++ [x])) (hk : Walk f (f x) K) :
    Walk f a (L ++ [x] ++ K) := by
  refine walk_append.mpr ⟨h, ?_⟩
  have hx : x = f^[L.length] a := (walk_append.mp h).2.1
  rwa [List.length_append, List.length_singleton, Function.iterate_succ_apply', ← hx]

/-- Changing the successor of the last element alone keeps a walk without repetitions. -/
theorem Walk.update [DecidableEq α] (h : Walk f a (L ++ [x])) (hn : (L ++ [x]).Nodup)
    (hg : ∀ z, z ≠ x → g z = f z) : Walk g a (L ++ [x]) := by
  refine h.congr fun z hz => (hg z ?_).symm
  rintro rfl
  rw [List.dropLast_concat] at hz
  exact (List.nodup_append.mp hn).2.2 z hz z (by simp) rfl

/-- A walk is determined by its start and length. -/
theorem Walk.unique (h : Walk f a L) (hk : Walk f a K) (hl : L.length = K.length) : L = K := by
  induction L generalizing a K with
  | nil => exact (List.eq_nil_of_length_eq_zero hl.symm).symm
  | cons x xs ih =>
    cases K with
    | nil => simp at hl
    | cons y ys =>
      obtain ⟨rfl, h⟩ := h
      obtain ⟨rfl, hk⟩ := hk
      rw [ih h hk (by simpa using hl)]

/-- Two successor functions that agree on what one of them visits visit the same. -/
theorem iterate_congr {P : α → Prop} {k : Nat} (hc : ∀ x, P x → g x = f x) (h0 : P a)
    (h : ∀ i, 0 < i → i ≤ k → P (g^[i] a)) {i : Nat} (hi : i ≤ k) : g^[i] a = f^[i] a := by
  induction i with
  | zero => rfl
  | succ i ih =>
    have hp : P (g^[i] a) := by
      rcases Nat.eq_zero_or_pos i with rfl | hpos
      · exact h0
      · exact h i hpos (by omega)
    rw [Function.iterate_succ_apply', Function.iterate_succ_apply', hc _ hp, ih (by omega)]

/-- A walk of `k` steps from `a` that stays inside `P` and, if it cuts the links it follows, meets
no cut link again before its end. -/
def Clears (P : α → Prop) (f : α → α) (cuts : Prop) (k : Nat) (a : α) : Prop :=
  (∀ j < k, P (f^[j] a)) ∧ (cuts → (List.iterate f a (k - 1)).Nodup)

theorem iterate_eq_iterate {n : Nat} (h : ∀ i < n, g^[i] a = f^[i] a) :
    List.iterate g a n = List.iterate f a n := by
  rw [← List.range_map_iterate, ← List.range_map_iterate]
  exact List.map_congr_left fun i hi => h i (List.mem_range.mp hi)

/-- Cutting the link of the first element with something outside `P` keeps the rest of the walk. -/
theorem clears_succ {P : α → Prop} {cuts : Prop} {k : Nat} (hg : ∀ x, x ≠ a → g x = f x)
    (hcut : cuts → ¬P (g a)) (hsame : ¬cuts → g = f) :
    Clears P f cuts (k + 1) a ↔ P a ∧ Clears P g cuts k (f a) := by
  -- as long as `a` is not met again, both links lead to the same elements
  have hagree : ∀ {n}, (∀ i < n, cuts → g^[i] (f a) = a → f^[i] (f a) ≠ a) →
      ∀ i ≤ n, g^[i] (f a) = f^[i] (f a) := by
    intro n hne i hi
    induction i with
    | zero => rfl
    | succ i ih =>
      have hi' := ih (by omega)
      rw [Function.iterate_succ_apply', Function.iterate_succ_apply', ← hi']
      by_cases hc : cuts
      · exact hg _ fun he => hne i (by omega) hc he (hi' ▸ he)
      · rw [hsame hc]
  constructor
  · rintro ⟨hP, hn⟩
    have heq : ∀ i ≤ k - 1, g^[i] (f a) = f^[i] (f a) := by
      refine hagree fun i hi hc _ he => ?_
      have hnd := hn hc
      obtain ⟨k, rfl⟩ := Nat.exists_eq_succ_of_ne_zero (show k ≠ 0 by omega)
      rw [Nat.add_sub_cancel, List.iterate, List.nodup_cons, List.mem_iterate] at hnd
      exact hnd.1 ⟨i, by omega, he.symm⟩
    refine ⟨hP 0 (by omega), fun j hj => ?_, fun hc => ?_⟩
    · rw [heq j (by omega), ← Function.iterate_succ_apply]
      exact hP (j + 1) (by omega)
    · rw [iterate_eq_iterate fun i hi => heq i (by omega)]
      have hnd := hn hc
      rcases Nat.eq_zero_or_pos k with rfl | hk
      · simp
      · obtain ⟨k, rfl⟩ := Nat.exists_eq_succ_of_ne_zero (Nat.pos_iff_ne_zero.mp hk)
        rw [Nat.add_sub_cancel, List.iterate, List.nodup_cons] at hnd
        exact hnd.2
  · rintro ⟨ha, hP, hn⟩
    have hne : ∀ i < k - 1, cuts → g^[i] (f a) ≠ a := by
      intro i hi hc he
      have hbad := hP (i + 1) (by omega)
      rw [Function.iterate_succ_apply', he] at hbad
      exact hcut hc hbad
    have heq := hagree fun i hi hc he => absurd he (hne i hi hc)
    refine ⟨fun j hj => ?_, fun hc => ?_⟩
    · cases j with
      | zero => exact ha
      | succ j =>
        rw [Function.iterate_succ_apply, ← heq j (by omega)]
        exact hP j (by omega)
    · rw [Nat.add_sub_cancel]
      rcases Nat.eq_zero_or_pos k with rfl | hk
      · simp
      · obtain ⟨k, rfl⟩ := Nat.exists_eq_succ_of_ne_zero (Nat.pos_iff_ne_zero.mp hk)
        rw [List.iterate, List.nodup_cons, List.mem_iterate]
        have hnd := hn hc
        rw [Nat.succ_eq_add_one, Nat.add_sub_cancel] at hnd heq hne
        refine ⟨?_, ?_⟩
        · rintro ⟨i, hi, he⟩
          rw [← heq i (by omega)] at he
          exact hne i hi hc he.symm
        · rwa [← iterate_eq_iterate fun i hi => heq i (by omega)]

end Exfat.Lib
