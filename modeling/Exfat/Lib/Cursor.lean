import Mathlib.Logic.Function.Iterate
import Mathlib.Data.List.Nodup
import Mathlib.Data.Set.Function

namespace Exfat.Lib

/-! Following a successor function: up to an end mark, up to the first bad element, and with a
cursor that remembers where the last walk went. -/

variable {α : Type} {f : α → α} {a e x : α} {k l : Nat}

/-- Following `f` from `a` meets `e` after `k` steps and not before; the start itself does not
count. -/
structure EndsAfter (f : α → α) (e : α) (k : Nat) (a : α) : Prop where
  pos : 0 < k
  last : f^[k] a = e
  before : ∀ i, 0 < i → i < k → f^[i] a ≠ e

theorem endsAfter_succ :
    EndsAfter f e (k + 1) a ↔ k = 0 ∧ f a = e ∨ f a ≠ e ∧ EndsAfter f e k (f a) := by
  constructor
  · intro h
    rcases Nat.eq_zero_or_pos k with rfl | hk
    · exact Or.inl ⟨rfl, h.last⟩
    · refine Or.inr ⟨h.before 1 Nat.one_pos (by omega), hk, h.last, fun i hi hik => ?_⟩
      exact h.before (i + 1) (by omega) (by omega)
  · rintro (⟨rfl, h⟩ | ⟨hne, h⟩)
    · exact ⟨Nat.one_pos, h, fun i hi hik => by omega⟩
    · refine ⟨by omega, h.last, fun i hi hik => ?_⟩
      obtain ⟨i, rfl⟩ := Nat.exists_eq_succ_of_ne_zero hi.ne'
      rcases Nat.eq_zero_or_pos i with rfl | hi
      · exact hne
      · exact h.before i hi (by omega)

theorem EndsAfter.unique (h : EndsAfter f e k a) (h' : EndsAfter f e l a) : k = l := by
  rcases Nat.lt_trichotomy k l with hlt | heq | hgt
  · exact absurd h.last (h'.before k h.pos hlt)
  · exact heq
  · exact absurd h'.last (h.before l h'.pos hgt)

/-- What comes before the end is never met twice. -/
theorem EndsAfter.injective (h : EndsAfter f e k a) {i j : Nat} (hij : i < j) (hj : j < k) :
    f^[i] a ≠ f^[j] a := fun heq => by
  have hshift : f^[k - j + i] a = f^[k - j + j] a := by
    rw [Function.iterate_add_apply, heq, ← Function.iterate_add_apply]
  rw [Nat.sub_add_cancel hj.le, h.last] at hshift
  exact h.before (k - j + i) (by omega) (by omega) hshift

theorem EndsAfter.nodup (h : EndsAfter f e k a) :
    ((List.range k).map fun i => f^[i] a).Nodup := by
  refine List.Nodup.map_on (fun i hi j hj heq => ?_) List.nodup_range
  rw [List.mem_range] at hi hj
  rcases Nat.lt_trichotomy i j with hlt | hij | hgt
  · exact absurd heq (h.injective hlt hj)
  · exact hij
  · exact absurd heq.symm (h.injective hgt hi)

section
variable (f : α → α) (bad : α → Bool)

/-- Follows `f` for `k` steps, but no further than the first bad element. -/
def stopWalk : Nat → α → α
  | 0, a => a
  | k + 1, a => if bad (f a) then f a else stopWalk k (f a)

/-- The elements whose successor such a walk asks for. -/
def asked : Nat → α → List α
  | 0, _ => []
  | k + 1, a => a :: if bad (f a) then [] else asked k (f a)

/-- The place the last walk went to. -/
structure Cursor (α : Type) where
  index : Nat
  value : α

/-- A walk to an earlier place begins at the start again. -/
def Cursor.rewind (c : Cursor α) (start : α) (k : Nat) : Cursor α :=
  if c.index > k then ⟨0, start⟩ else c

def Cursor.seek (c : Cursor α) (start : α) (k : Nat) : Cursor α :=
  ⟨k, stopWalk f bad (k - (c.rewind start k).index) (c.rewind start k).value⟩

/-- The elements whose successor a seek asks for. -/
def Cursor.asks (c : Cursor α) (start : α) (k : Nat) : List α :=
  asked f bad (k - (c.rewind start k).index) (c.rewind start k).value

/-- The values of one seek after the other. -/
def seekAll (start : α) : Cursor α → List Nat → List α
  | _, [] => []
  | c, k :: ks => (c.seek f bad start k).value :: seekAll start (c.seek f bad start k) ks

def asksAll (start : α) : Cursor α → List Nat → List α
  | _, [] => []
  | c, k :: ks => c.asks f bad start k ++ asksAll start (c.seek f bad start k) ks

/-- No bad element up to a place. -/
def Unbroken (start : α) (k : Nat) : Prop := ∀ j ≤ k, bad (f^[j] start) = false

/-- From a place at or behind a bad element no seek goes further ahead. -/
def SeeksBack (start : α) : Nat → List Nat → Prop
  | _, [] => True
  | i, k :: ks => (i < k → Unbroken f bad start i) ∧ SeeksBack start k ks

end

variable {bad : α → Bool} {start : α} {i : Nat} {ks : List Nat}

theorem stopWalk_add (h : ∀ j, 0 < j → j ≤ i → bad (f^[j] a) = false) :
    stopWalk f bad (i + k) a = stopWalk f bad k (f^[i] a) := by
  induction i generalizing a with
  | zero => rw [Nat.zero_add, Function.iterate_zero, id]
  | succ i ih =>
    have h1 := h 1 Nat.one_pos (by omega)
    rw [Function.iterate_one] at h1
    rw [Nat.succ_add, stopWalk, h1, if_neg Bool.false_ne_true, Function.iterate_succ_apply]
    exact ih fun j hj hji => h (j + 1) (by omega) (by omega)

theorem Unbroken.stopWalk (h : Unbroken f bad start i) : stopWalk f bad i start = f^[i] start := by
  have := stopWalk_add (k := 0) fun j _ hj => h j hj
  exact this

/-- A walk past a bad element ends at one. -/
theorem stopWalk_bad (hs : bad start = false) (h : ¬Unbroken f bad start i) :
    bad (stopWalk f bad i start) = true := by
  induction i generalizing start with
  | zero =>
    refine absurd (fun j hj => ?_) h
    obtain rfl : j = 0 := by omega
    exact hs
  | succ i ih =>
    rw [Lib.stopWalk]
    cases hb : bad (f start) with
    | true => rw [if_pos rfl, hb]
    | false =>
      rw [if_neg Bool.false_ne_true]
      refine ih hb fun hu => h fun j hj => ?_
      cases j with
      | zero => exact hs
      | succ j => exact hu j (by omega)

theorem asked_good (ha : bad a = false) : ∀ x ∈ asked f bad k a, bad x = false := by
  induction k generalizing a with
  | zero => exact fun x hx => absurd hx List.not_mem_nil
  | succ k ih =>
    intro x hx
    rw [asked, List.mem_cons] at hx
    rcases hx with rfl | hx
    · exact ha
    · cases hb : bad (f a) with
      | true => simp [hb] at hx
      | false =>
        rw [hb, if_neg Bool.false_ne_true] at hx
        exact ih hb x hx

/-- One seek from a cursor that is where the plain walk is. -/
theorem seek_transparent (hs : bad start = false) (hi : i < k → Unbroken f bad start i) :
    (Cursor.mk i (stopWalk f bad i start)).seek f bad start k = ⟨k, stopWalk f bad k start⟩ ∧
      ∀ x ∈ (Cursor.mk i (stopWalk f bad i start)).asks f bad start k, bad x = false := by
  simp only [Cursor.seek, Cursor.asks, Cursor.rewind]
  rcases Nat.lt_trichotomy i k with hlt | rfl | hgt
  · have hu := hi hlt
    rw [if_neg (show ¬i > k by omega), hu.stopWalk]
    refine ⟨?_, asked_good (hu i le_rfl)⟩
    rw [← stopWalk_add fun j _ hj => hu j hj, Nat.add_sub_cancel' hlt.le]
  · rw [if_neg (Nat.lt_irrefl i), Nat.sub_self]
    exact ⟨rfl, fun x hx => absurd hx List.not_mem_nil⟩
  · rw [if_pos hgt]
    exact ⟨rfl, asked_good hs⟩

/-- Seeks give what plain walks give, and never ask for the successor of a bad element, exactly
when none goes ahead from a place at or behind a bad element. -/
theorem seekAll_iff (hs : bad start = false) :
    (seekAll f bad start ⟨i, stopWalk f bad i start⟩ ks = ks.map (stopWalk f bad · start) ∧
      ∀ x ∈ asksAll f bad start ⟨i, stopWalk f bad i start⟩ ks, bad x = false) ↔
      SeeksBack f bad start i ks := by
  induction ks generalizing i with
  | nil => exact ⟨fun _ => trivial, fun _ => ⟨rfl, fun x hx => absurd hx List.not_mem_nil⟩⟩
  | cons k ks ih =>
    by_cases hi : i < k → Unbroken f bad start i
    · obtain ⟨hseek, hask⟩ := seek_transparent hs hi
      simp only [seekAll, asksAll, SeeksBack, hseek, List.map_cons, List.cons.injEq, true_and,
        List.forall_mem_append]
      rw [← ih (i := k)]
      exact ⟨fun h => ⟨hi, h.1, h.2.2⟩, fun h => ⟨h.2.1, hask, h.2.2⟩⟩
    · refine ⟨fun h => ?_, fun h => absurd h.1 hi⟩
      obtain ⟨hlt, hu⟩ := Classical.not_imp.mp hi
      -- the walk goes on from the bad element the cursor stopped at
      have hbad := stopWalk_bad hs hu
      have hmem : stopWalk f bad i start ∈
          asksAll f bad start ⟨i, stopWalk f bad i start⟩ (k :: ks) := by
        obtain ⟨d, hd⟩ := Nat.exists_eq_succ_of_ne_zero (show k - i ≠ 0 by omega)
        simp only [asksAll, Cursor.asks, Cursor.rewind, if_neg (show ¬i > k by omega), hd, asked]
        simp
      rw [h.2 _ hmem] at hbad
      exact absurd hbad Bool.false_ne_true

end Exfat.Lib
