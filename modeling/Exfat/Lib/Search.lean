import Mathlib

namespace Exfat.Lib

/-! A list searched for a needle: from one occurrence to the next, where the next search starts one
place further on, and from one token between separators to the next. -/

variable {α β : Type} [DecidableEq α]

/-- The first place where the needle occurs. -/
def occurrence (needle : List α) : List α → Option Nat
  | [] => if needle = [] then some 0 else none
  | c :: cs => if needle <+: c :: cs then some 0 else (occurrence needle cs).map (· + 1)

/-- The loop over the occurrences from the place `start` on, up to one that is accepted. -/
def searchLoop (needle : List α) (accept : Nat → Option β) (s : List α) : Nat → Nat → Option β
  | 0, _ => none
  | fuel + 1, start =>
    match occurrence needle (s.drop start) with
    | none => none
    | some k => (accept (start + k)).or (searchLoop needle accept s fuel (start + k + 1))

/-- Every place is tried. What is accepted depends on the element in front of the needle and on what
follows it. -/
def firstHit (needle : List α) (accept : Option α → List α → Option β) :
    Option α → List α → Option β
  | _, [] => none
  | previous, c :: cs =>
    (if needle <+: c :: cs then accept previous ((c :: cs).drop needle.length) else none).or
      (firstHit needle accept (some c) cs)

/-- The element in front of a place. -/
def before (s : List α) (p : Nat) : Option α := if p = 0 then none else s[p - 1]?

/-- Only what starts a token is accepted. -/
def atStart (sep : α) (hit : List α → Option β) (previous : Option α) (rest : List α) : Option β :=
  if previous = none ∨ previous = some sep then hit rest else none

variable {needle s t l : List α} {sep : α} {accept : Option α → List α → Option β}
  {hit : List α → Option β} {previous : Option α}

theorem occurrence_lt {k : Nat} (hne : needle ≠ []) (h : occurrence needle l = some k) :
    k < l.length := by
  induction l generalizing k with
  | nil => simp [occurrence, hne] at h
  | cons c cs ih =>
    rw [occurrence] at h
    split at h
    · cases h
      exact Nat.succ_pos _
    · obtain ⟨j, hj, rfl⟩ := Option.map_eq_some_iff.mp h
      exact Nat.succ_lt_succ (ih hj)

/-- No place in front of the first occurrence is a hit. -/
theorem firstHit_occurrence (hne : needle ≠ []) : firstHit needle accept previous l =
    match occurrence needle l with
    | none => none
    | some k => (accept (if k = 0 then previous else l[k - 1]?)
          ((l.drop k).drop needle.length)).or
        (firstHit needle accept l[k]? (l.drop (k + 1))) := by
  induction l generalizing previous with
  | nil => simp [firstHit, occurrence, hne]
  | cons c cs ih =>
    by_cases hc : needle <+: c :: cs
    · rw [firstHit, occurrence, if_pos hc, if_pos hc]
      rfl
    · rw [firstHit, occurrence, if_neg hc, if_neg hc, Option.none_or, ih]
      cases occurrence needle cs with
      | none => rfl
      | some k =>
        have hfront : (if k = 0 then some c else cs[k - 1]?) = (c :: cs)[k]? := by
          cases k <;> rfl
        simp only [hfront]
        rfl

/-- A search that goes on one place behind an occurrence misses none. -/
theorem searchLoop_eq {fuel start : Nat} {found : Nat → Option β} (hne : needle ≠ [])
    (hfound : ∀ p < s.length, found p = accept (before s p) (s.drop (p + needle.length)))
    (hfuel : s.length - start < fuel) :
    searchLoop needle found s fuel start =
      firstHit needle accept (before s start) (s.drop start) := by
  induction fuel generalizing start with
  | zero => omega
  | succ fuel ih =>
    rw [searchLoop, firstHit_occurrence hne]
    cases hk : occurrence needle (s.drop start) with
    | none => rfl
    | some k =>
      have hlt := occurrence_lt hne hk
      rw [List.length_drop] at hlt
      have hfront : before s (start + k) =
          if k = 0 then before s start else (s.drop start)[k - 1]? := by
        cases k with
        | zero => rfl
        | succ k => simp [before, ← Nat.add_assoc]
      have hnext : before s (start + k + 1) = (s.drop start)[k]? := by
        simp [before]
      have hrest := @ih (start + k + 1) (by omega)
      rw [hnext] at hrest
      simp only [hfound (start + k) (by omega), hrest, hfront, List.drop_drop, ← Nat.add_assoc]

/-- A token is left without a hit once its start is behind. -/
theorem firstHit_inside {p : α} (hp : p ≠ sep) (ht : sep ∉ t) :
    firstHit needle (atStart sep hit) (some p) t = none ∧
      ∀ rest, firstHit needle (atStart sep hit) (some p) (t ++ sep :: rest) =
        firstHit needle (atStart sep hit) (some sep) rest := by
  have hmiss : ∀ rest, atStart sep hit (some p) rest = none :=
    fun rest => if_neg (by simpa using hp)
  induction t generalizing p with
  | nil =>
    refine ⟨rfl, fun rest => ?_⟩
    rw [List.nil_append, firstHit, hmiss, ite_self, Option.none_or]
  | cons c cs ih =>
    obtain ⟨hc, hcs⟩ := not_or.mp (List.mem_cons.not.mp ht)
    have hmiss' : ∀ rest, atStart sep hit (some c) rest = none :=
      fun rest => if_neg (by simpa using Ne.symm hc)
    obtain ⟨hlast, hmore⟩ := ih (Ne.symm hc) hcs hmiss'
    constructor
    · rw [firstHit, hmiss, ite_self, Option.none_or, hlast]
    · intro rest
      rw [List.cons_append, firstHit, hmiss, ite_self, Option.none_or, hmore]

omit [DecidableEq α] in
/-- A needle without separators that starts a token ends in it. -/
theorem prefix_token (hsep : sep ∉ needle) (rest : List α) :
    needle <+: t ++ sep :: rest ↔ needle <+: t := by
  constructor
  · intro h
    rcases Nat.lt_or_ge t.length needle.length with hlt | hle
    · have hat : needle[t.length] = sep := by
        rw [h.getElem hlt]
        simp
      exact absurd (hat ▸ List.getElem_mem hlt) hsep
    · exact List.prefix_of_prefix_length_le h (List.prefix_append t _) hle
  · intro h
    exact h.trans (List.prefix_append t _)

/-- A token is a hit at its start or not at all. -/
theorem firstHit_token (hne : needle ≠ []) (hsep : sep ∉ needle) (ht : sep ∉ t)
    (hstart : previous = none ∨ previous = some sep) :
    firstHit needle (atStart sep hit) previous t =
        (if needle <+: t then hit (t.drop needle.length) else none) ∧
      ∀ rest, firstHit needle (atStart sep hit) previous (t ++ sep :: rest) =
        (if needle <+: t then hit (t.drop needle.length ++ sep :: rest) else none).or
          (firstHit needle (atStart sep hit) (some sep) rest) := by
  have hhit : ∀ rest, atStart sep hit previous rest = hit rest := fun rest => if_pos hstart
  have hbehind : ∀ rest, needle <+: t →
      (t ++ sep :: rest).drop needle.length = t.drop needle.length ++ sep :: rest :=
    fun rest h => List.drop_append_of_le_length h.length_le
  cases t with
  | nil =>
    have hno : ¬needle <+: [] := fun h => hne (List.prefix_nil.mp h)
    refine ⟨by rw [firstHit, if_neg hno], fun rest => ?_⟩
    have hno' : ¬needle <+: sep :: rest := fun h => hno ((prefix_token hsep rest).mp h)
    rw [List.nil_append, firstHit, if_neg hno', if_neg hno]
  | cons c cs =>
    obtain ⟨hc, hcs⟩ := not_or.mp (List.mem_cons.not.mp ht)
    obtain ⟨hlast, hmore⟩ := @firstHit_inside α β _ needle cs sep hit c (Ne.symm hc) hcs
    constructor
    · rw [firstHit, hhit, hlast, Option.or_none]
    · intro rest
      have hiff : needle <+: c :: (cs ++ sep :: rest) ↔ needle <+: c :: cs :=
        @prefix_token α needle (c :: cs) sep hsep rest
      rw [List.cons_append, firstHit, hhit, hmore]
      by_cases h : needle <+: c :: cs
      · rw [if_pos (hiff.mpr h), if_pos h, ← hbehind rest h]
        rfl
      · rw [if_neg (hiff.not.mpr h), if_neg h]

omit [DecidableEq α] in
theorem atStart_ite {found : Prop} [Decidable found] [DecidableEq α] (rest : List α) (b : β)
    {ok : Prop} [Decidable ok] (hhit : hit rest = if ok then some b else none) (next : Option β) :
    (if found then atStart sep hit previous rest else none).or next =
      if found ∧ (previous = none ∨ previous = some sep) ∧ ok then some b else next := by
  by_cases hfound : found
  · by_cases hstart : previous = none ∨ previous = some sep
    · by_cases hok : ok
      · simp only [atStart, hfound, hstart, hok, hhit, and_self, if_true, Option.some_or]
      · simp only [atStart, hfound, hstart, hok, hhit, and_false, if_true, if_false, Option.none_or]
    · simp only [atStart, hfound, hstart, false_and, and_false, if_true, if_false, Option.none_or]
  · simp only [hfound, false_and, if_false, Option.none_or]

/-- A list is its last token, or a token in front of a separator and a list. -/
theorem tokens_induction {P : List α → Prop} (last : ∀ t, sep ∉ t → P t)
    (more : ∀ t rest, sep ∉ t → P rest → P (t ++ sep :: rest)) (l : List α) : P l := by
  induction hn : l.length using Nat.strong_induction_on generalizing l with
  | _ n ih =>
    by_cases hsep : sep ∈ l
    · obtain ⟨t, rest, rfl, ht⟩ := List.eq_append_cons_of_mem hsep
      have hlt : rest.length < n := by
        rw [← hn, List.length_append, List.length_cons]
        omega
      exact more t rest ht (ih _ hlt rest rfl)
    · exact last l hsep

theorem not_mem_token (l : List α) : ∀ t ∈ l.splitOn sep, sep ∉ t := by
  apply @tokens_induction α _ sep (fun l => ∀ t ∈ l.splitOn sep, sep ∉ t)
  · intro t ht x hx
    rw [List.splitOn_eq_singleton ht, List.mem_singleton] at hx
    exact hx ▸ ht
  · intro t rest ht ih x hx
    rw [List.splitOn_append_cons_self_of_not_mem ht] at hx
    rcases List.mem_cons.mp hx with rfl | hx
    · exact ht
    · exact ih x hx

/-- The first token is what stands in front of the first separator. -/
theorem takeWhile_intercalate {value : List α} (later : List (List α)) (hv : sep ∉ value) :
    ([sep].intercalate (value :: later)).takeWhile (· ≠ sep) = value := by
  have hall : ∀ x ∈ value, decide (x ≠ sep) = true :=
    fun x hx => decide_eq_true fun h => hv (h ▸ hx)
  cases later with
  | nil => rw [List.intercalate_singleton, List.takeWhile_eq_self_iff.mpr hall]
  | cons t ts =>
    rw [List.intercalate_cons_of_ne_nil (List.cons_ne_nil t ts), List.append_assoc,
      List.takeWhile_append_of_pos hall, List.singleton_append,
      List.takeWhile_cons_of_neg (by simp), List.append_nil]

end Exfat.Lib
