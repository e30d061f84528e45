import Mathlib.Data.List.TakeWhile

namespace Exfat.Lib

/-! The non-empty pieces of a list between separators. -/

variable {α : Type} [DecidableEq α] {sep : α} {l : List α}

def pieces (sep : α) (l : List α) : List (List α) :=
  (l.splitOnP (· = sep)).filter (· ≠ [])

theorem pieces_sep (sep : α) (l : List α) : pieces sep (sep :: l) = pieces sep l := by
  rw [pieces, List.splitOnP_cons_eq_if_modifyHead, if_pos (by simp)]
  rfl

/-- There are no more pieces than elements and one. -/
theorem pieces_length (sep : α) (l : List α) : (pieces sep l).length ≤ l.length + 1 := by
  refine (List.length_filter_le _ _).trans ?_
  induction l with
  | nil => simp
  | cons a l ih =>
    rw [List.splitOnP_cons_eq_if_modifyHead]
    split
    · rw [List.length_cons, List.length_cons]
      omega
    · rw [List.length_modifyHead, List.length_cons]
      omega

/-- Leading separators do not matter. -/
theorem pieces_dropWhile (sep : α) (l : List α) : pieces sep (l.dropWhile (· = sep)) = pieces sep l := by
  induction l with
  | nil => rfl
  | cons a l ih =>
    by_cases ha : a = sep
    · rw [List.dropWhile_cons_of_pos (by simpa using ha), ih, ha, pieces_sep]
    · rw [List.dropWhile_cons_of_neg (by simpa using ha)]

/-- The first piece and those after it. -/
theorem pieces_piece {c : List α} (rest : List α) (hc : sep ∉ c) (hne : c ≠ []) :
    (pieces sep c = [c]) ∧ pieces sep (c ++ sep :: rest) = c :: pieces sep rest := by
  have hno : ∀ x ∈ c, decide (x = sep) = false := fun x hx =>
    decide_eq_false fun he => hc (he ▸ hx)
  constructor
  · rw [pieces, List.splitOnP_eq_singleton hno, List.filter_cons_of_pos (by simpa using hne)]
    rfl
  · rw [pieces, List.splitOnP_append_cons_of_forall_mem hno sep (by simp),
      List.filter_cons_of_pos (by simpa using hne)]
    rfl

omit [DecidableEq α] in
/-- What is left after dropping starts with something to keep. -/
theorem head_dropWhile {p : α → Bool} {a : α} {as : List α} (h : l.dropWhile p = a :: as) :
    p a = false := by
  have := List.head?_dropWhile_not p l
  rw [h] at this
  exact this

/-- Pieces are found one after the other: skip separators, take what is none. -/
theorem pieces_step (sep : α) (l : List α) :
    let comp := l.dropWhile (· = sep)
    pieces sep l = if comp.takeWhile (· ≠ sep) = [] then []
      else comp.takeWhile (· ≠ sep) :: pieces sep (comp.dropWhile (· ≠ sep)) := by
  intro comp
  rw [← pieces_dropWhile]
  change pieces sep comp = _
  cases hcomp : comp with
  | nil => rfl
  | cons a as =>
    have ha : a ≠ sep := by simpa using head_dropWhile (p := (· = sep)) hcomp
    have hno : sep ∉ (a :: as).takeWhile (· ≠ sep) := fun hm => by
      have := List.mem_takeWhile_imp hm
      simp at this
    have hne : (a :: as).takeWhile (· ≠ sep) ≠ [] := by
      rw [List.takeWhile_cons_of_pos (by simpa using ha)]
      exact List.cons_ne_nil _ _
    have hsplit := List.takeWhile_append_dropWhile (p := (· ≠ sep)) (l := a :: as)
    rw [if_neg hne]
    cases hrest : (a :: as).dropWhile (· ≠ sep) with
    | nil =>
      rw [hrest, List.append_nil] at hsplit
      have hone := (pieces_piece [] hno hne).1
      rw [hsplit] at hone ⊢
      exact hone
    | cons b rest =>
      have hb : b = sep := by simpa using head_dropWhile hrest
      rw [hrest, hb] at hsplit
      have hmore := (pieces_piece rest hno hne).2
      rw [hsplit] at hmore
      rw [hmore, hb, pieces_sep]

end Exfat.Lib
