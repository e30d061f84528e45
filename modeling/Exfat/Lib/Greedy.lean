import Mathlib

namespace Exfat.Lib

/-! Spans chosen greedily from left to right: a span that begins inside one that was chosen is left
out. -/

variable {P : Nat → Prop} {stop : Nat → Nat} {p q m n : Nat}

/-- The span from `p` to `stop p` is chosen. -/
def Chosen (P : Nat → Prop) (stop : Nat → Nat) (p : Nat) : Prop :=
  P p ∧ ∀ q < p, Chosen P stop q → stop q ≤ p

/-- Every span chosen before `p` ends there at the latest. -/
def Outside (P : Nat → Prop) (stop : Nat → Nat) (p : Nat) : Prop :=
  ∀ q < p, Chosen P stop q → stop q ≤ p

theorem chosen_iff : Chosen P stop p ↔ P p ∧ Outside P stop p := by
  rw [Chosen]
  rfl

theorem outside_zero : Outside P stop 0 := fun q hq => absurd hq (Nat.not_lt_zero q)

/-- Where no span begins the next place is outside too. -/
theorem Outside.succ (h : Outside P stop p) (hp : ¬P p) : Outside P stop (p + 1) := by
  intro q hq hc
  rcases Nat.lt_succ_iff_lt_or_eq.mp hq with hlt | rfl
  · exact (h q hlt hc).trans (Nat.le_succ p)
  · exact absurd (chosen_iff.mp hc).1 hp

theorem Chosen.not_outside (h : Chosen P stop p) (hlt : p < q) (hq : q < stop p) :
    ¬Outside P stop q :=
  fun ho => Nat.not_le.mpr hq (ho p hlt h)

theorem Chosen.not_chosen (h : Chosen P stop p) (hlt : p < q) (hq : q < stop p) :
    ¬Chosen P stop q :=
  fun hc => h.not_outside hlt hq (chosen_iff.mp hc).2

/-- A chosen span ends outside. -/
theorem Chosen.outside_stop (h : Chosen P stop p) (hlt : p < stop p) :
    Outside P stop (stop p) := by
  intro q hq hc
  rcases Nat.lt_trichotomy q p with hqp | rfl | hpq
  · exact ((chosen_iff.mp h).2 q hqp hc).trans hlt.le
  · exact le_rfl
  · exact absurd hc (h.not_chosen hpq hq)

open Classical in
/-- The spans chosen before `n`, from left to right. -/
noncomputable def chosenBefore (P : Nat → Prop) (stop : Nat → Nat) (n : Nat) : List Nat :=
  (List.range n).filter fun p => Chosen P stop p

theorem mem_chosenBefore : p ∈ chosenBefore P stop n ↔ p < n ∧ Chosen P stop p := by
  simp [chosenBefore]

open Classical in
theorem chosenBefore_skip (h : m ≤ n) (hn : ∀ p, m ≤ p → p < n → ¬Chosen P stop p) :
    chosenBefore P stop n = chosenBefore P stop m := by
  obtain ⟨d, rfl⟩ := Nat.exists_eq_add_of_le h
  have hnone : ((List.range d).map (m + ·)).filter (fun p => Chosen P stop p) = [] := by
    rw [List.filter_eq_nil_iff]
    intro p hp hc
    obtain ⟨i, hi, rfl⟩ := List.mem_map.mp hp
    have hlt := List.mem_range.mp hi
    exact hn (m + i) (Nat.le_add_right m i) (by omega) (of_decide_eq_true hc)
  rw [chosenBefore, List.range_add, List.filter_append, hnone, List.append_nil]
  rfl

theorem Chosen.chosenBefore_succ (h : Chosen P stop p) :
    chosenBefore P stop (p + 1) = chosenBefore P stop p ++ [p] := by
  rw [chosenBefore, List.range_succ, List.filter_append]
  simp [chosenBefore, h]

end Exfat.Lib
