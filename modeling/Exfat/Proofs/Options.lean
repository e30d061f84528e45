import Exfat.Model.Mount

namespace Exfat
open Lib

/-! Mount options as comma-separated tokens. -/

/-- What `get_option` is for: the text behind `name=` in the first token that starts so, and what
follows that token. -/
def optionText (name : List UInt8) : List (List UInt8) → Option (List UInt8)
  | [] => none
  | t :: ts =>
    if name ++ [equalSign] <+: t then
      some ([comma].intercalate (t.drop (name.length + 1) :: ts))
    else optionText name ts

namespace Proofs

variable {options name t text : List UInt8} {previous : Option UInt8}

/-- What `get_option` accepts behind the name. -/
def valueHit (rest : List UInt8) : Option (List UInt8) :=
  if rest.head? = some equalSign then some (rest.drop 1) else none

/-- What `match_option` accepts behind the name. -/
def endHit (rest : List UInt8) : Option Unit :=
  if rest.head? = some comma ∨ rest = [] then some () else none

theorem getOptionLoop_firstHit : getOptionLoop name previous options =
    firstHit name (atStart comma valueHit) previous options := by
  induction options generalizing previous with
  | nil => rfl
  | cons c cs ih =>
    have hvalue : valueHit ((c :: cs).drop name.length) =
        if ((c :: cs).drop name.length).head? = some equalSign then
          some ((c :: cs).drop (name.length + 1)) else none := by
      rw [valueHit, List.drop_drop]
    rw [firstHit, atStart_ite _ _ hvalue, ← ih, getOptionLoop]
    simp only [List.isPrefixOf_iff_prefix]

theorem matchOptionLoop_firstHit : matchOptionLoop name previous options =
    (firstHit name (atStart comma endHit) previous options).isSome := by
  induction options generalizing previous with
  | nil => rfl
  | cons c cs ih =>
    rw [firstHit, atStart_ite _ _ rfl, apply_ite Option.isSome, ← ih, matchOptionLoop]
    simp only [List.isPrefixOf_iff_prefix, Option.isSome_some]

/-- At a place inside of the string the two ways to ask for the start of an option agree. -/
theorem startsOption_iff {p : Nat} (hp : p < options.length) :
    startsOption options p = true ↔ before options p = none ∨ before options p = some comma := by
  rw [startsOption, decide_eq_true_iff, before]
  by_cases h0 : p = 0
  · simp [h0]
  · have hsome : options[p - 1]? = some options[p - 1] := List.getElem?_eq_getElem (by omega)
    simp [h0, hsome]

/-- The search by `strstr` misses nothing that a look at every place finds. -/
theorem getOptionStrstr_eq (options : List UInt8) (hne : name ≠ []) :
    getOptionStrstr options name = getOption options name := by
  rw [getOption, getOptionLoop_firstHit]
  refine searchLoop_eq hne (fun p hp => ?_) (Nat.lt_succ_self _)
  rw [atStart, valueHit, List.head?_drop, List.drop_drop, ite_and]
  simp only [startsOption_iff hp]

theorem matchOptionStrstr_eq (options : List UInt8) (hne : name ≠ []) :
    matchOptionStrstr options name = matchOption options name := by
  rw [matchOption, matchOptionLoop_firstHit]
  refine congrArg Option.isSome (searchLoop_eq hne (fun p hp => ?_) (Nat.lt_succ_self _))
  rw [atStart, endHit, List.head?_drop, ite_and]
  simp only [startsOption_iff hp, List.getElem?_eq_none_iff, List.drop_eq_nil_iff]

theorem valueHit_append (r rest : List UInt8) : valueHit (r ++ comma :: rest) =
    if r.head? = some equalSign then some (r.drop 1 ++ comma :: rest) else none := by
  cases r with
  | nil => rfl
  | cons c cs => rfl

theorem value_starts : name ++ [equalSign] <+: t ↔
    name <+: t ∧ (t.drop name.length).head? = some equalSign := by
  constructor
  · rintro ⟨s, rfl⟩
    rw [List.append_assoc, List.drop_left]
    exact ⟨List.prefix_append _ _, rfl⟩
  · rintro ⟨⟨s, rfl⟩, hhead⟩
    rw [List.drop_left] at hhead
    cases s with
    | nil => cases hhead
    | cons c cs =>
      cases hhead
      exact ⟨cs, by rw [List.append_assoc]; rfl⟩

theorem value_ite (x : Option (List UInt8)) :
    (if name <+: t then
        if (t.drop name.length).head? = some equalSign then x else none
      else none) = if name ++ [equalSign] <+: t then x else none := by
  rw [← ite_and]
  simp only [value_starts]

/-- `get_option` by tokens. -/
theorem getOption_tokens (hne : name ≠ []) (hcomma : comma ∉ name) (options : List UInt8) :
    getOption options name = optionText name (options.splitOn comma) := by
  have hall : ∀ previous, previous = none ∨ previous = some comma →
      getOptionLoop name previous options = optionText name (options.splitOn comma) := by
    apply @tokens_induction UInt8 _ comma (fun l => ∀ previous,
      previous = none ∨ previous = some comma →
        getOptionLoop name previous l = optionText name (l.splitOn comma))
    · intro t ht previous hstart
      rw [getOptionLoop_firstHit, (firstHit_token hne hcomma ht hstart).1, valueHit, value_ite,
        List.drop_drop, List.splitOn_eq_singleton ht, optionText, List.intercalate_singleton]
      rfl
    · intro t rest ht ih previous hstart
      rw [getOptionLoop_firstHit, (firstHit_token hne hcomma ht hstart).2, valueHit_append,
        value_ite, List.drop_drop, ← getOptionLoop_firstHit, ih _ (Or.inr rfl),
        List.splitOn_append_cons_self_of_not_mem ht, optionText]
      by_cases hv : name ++ [equalSign] <+: t
      · rw [if_pos hv, if_pos hv, List.intercalate_cons_of_ne_nil (List.splitOn_ne_nil _ _),
          List.intercalate_splitOn, Option.some_or, List.append_assoc]
        rfl
      · rw [if_neg hv, if_neg hv, Option.none_or]
  exact hall none (Or.inl rfl)

/-- Behind a whole token comes a comma or the end. -/
theorem end_ite (hcomma : comma ∉ t) (after : List UInt8)
    (hafter : after = [] ∨ after.head? = some comma) :
    (if name <+: t then endHit (t.drop name.length ++ after) else none) =
      if name = t then some () else none := by
  by_cases hname : name <+: t
  · obtain ⟨s, rfl⟩ := hname
    rw [if_pos (List.prefix_append name s), List.drop_left]
    cases s with
    | nil => rw [List.nil_append, List.append_nil, if_pos rfl, endHit, if_pos hafter.symm]
    | cons c cs =>
      have hc : c ≠ comma := fun h => hcomma (h ▸ by simp)
      have hlong : name ≠ name ++ c :: cs := fun h => by simp at h
      rw [if_neg hlong, endHit, if_neg (by simpa using hc)]
  · have hne : name ≠ t := fun h => hname (h ▸ List.prefix_rfl)
    rw [if_neg hname, if_neg hne]

/-- `match_option` by tokens. -/
theorem matchOption_tokens (hne : name ≠ []) (hcomma : comma ∉ name) (options : List UInt8) :
    matchOption options name = true ↔ name ∈ options.splitOn comma := by
  have hall : ∀ previous, previous = none ∨ previous = some comma →
      (matchOptionLoop name previous options = true ↔ name ∈ options.splitOn comma) := by
    apply @tokens_induction UInt8 _ comma (fun l => ∀ previous,
      previous = none ∨ previous = some comma →
        (matchOptionLoop name previous l = true ↔ name ∈ l.splitOn comma))
    · intro t ht previous hstart
      have hend := @end_ite name t ht [] (Or.inl rfl)
      rw [List.append_nil] at hend
      rw [matchOptionLoop_firstHit, (firstHit_token hne hcomma ht hstart).1, hend,
        List.splitOn_eq_singleton ht, List.mem_singleton]
      by_cases h : name = t
      · simp [h]
      · simp [h]
    · intro t rest ht ih previous hstart
      have hrest := ih (some comma) (Or.inr rfl)
      rw [matchOptionLoop_firstHit] at hrest
      rw [matchOptionLoop_firstHit, (firstHit_token hne hcomma ht hstart).2,
        end_ite ht _ (Or.inr rfl), List.splitOn_append_cons_self_of_not_mem ht, List.mem_cons,
        ← hrest]
      by_cases h : name = t
      · simp [h]
      · simp [h]
  exact hall none (Or.inl rfl)

/-- The first token that starts so, with what is in front of it and behind it. -/
theorem optionText_some {tokens : List (List UInt8)} :
    optionText name tokens = some text ↔ ∃ earlier value later,
      tokens = earlier ++ (name ++ equalSign :: value) :: later ∧
      (∀ t ∈ earlier, ¬name ++ [equalSign] <+: t) ∧
      text = [comma].intercalate (value :: later) := by
  have hvalue : ∀ value, (name ++ equalSign :: value).drop (name.length + 1) = value := by
    intro value
    rw [← List.drop_drop, List.drop_left]
    rfl
  have hstarts : ∀ value, name ++ [equalSign] <+: name ++ equalSign :: value :=
    fun value => value_starts.mpr ⟨List.prefix_append _ _, by rw [List.drop_left]; rfl⟩
  induction tokens with
  | nil => simp [optionText]
  | cons t ts ih =>
    rw [optionText]
    constructor
    · intro h
      split at h
      · rename_i hv
        cases h
        obtain ⟨value, rfl⟩ := hv
        rw [List.append_assoc, List.singleton_append]
        exact ⟨[], value, ts, rfl, by simp, by rw [hvalue]⟩
      · rename_i hv
        obtain ⟨earlier, value, later, rfl, hfirst, rfl⟩ := ih.mp h
        exact ⟨t :: earlier, value, later, rfl, List.forall_mem_cons.mpr ⟨hv, hfirst⟩, rfl⟩
    · rintro ⟨earlier, value, later, htokens, hfirst, rfl⟩
      cases earlier with
      | nil =>
        obtain ⟨rfl, rfl⟩ := List.cons.inj htokens
        rw [if_pos (hstarts value), hvalue]
      | cons e earlier =>
        obtain ⟨rfl, rfl⟩ := List.cons.inj htokens
        obtain ⟨hv, hfirst⟩ := List.forall_mem_cons.mp hfirst
        rw [if_neg hv]
        exact ih.mpr ⟨earlier, value, later, rfl, hfirst, rfl⟩

theorem optionText_none {tokens : List (List UInt8)} :
    optionText name tokens = none ↔ ∀ t ∈ tokens, ¬name ++ [equalSign] <+: t := by
  induction tokens with
  | nil => simp [optionText]
  | cons t ts ih =>
    rw [optionText, List.forall_mem_cons, ← ih]
    by_cases hv : name ++ [equalSign] <+: t
    · simp [hv]
    · simp [hv]

/-- Mount options are matched as whole tokens, and a value is the one of the first token with the
name. -/
theorem options_as_tokens (options name : List UInt8) (hne : name ≠ []) (hcomma : comma ∉ name) :
    (matchOptionStrstr options name = matchOption options name ∧
      getOptionStrstr options name = getOption options name) ∧
    (matchOption options name = true ↔ name ∈ options.splitOn comma) ∧
    (∀ text, getOption options name = some text ↔ ∃ earlier value later,
      options.splitOn comma = earlier ++ (name ++ equalSign :: value) :: later ∧
      (∀ t ∈ earlier, ¬name ++ [equalSign] <+: t) ∧
      text = [comma].intercalate (value :: later) ∧ text.takeWhile (· ≠ comma) = value) ∧
    (getOption options name = none ↔
      ∀ t ∈ options.splitOn comma, ¬name ++ [equalSign] <+: t) := by
  refine ⟨⟨matchOptionStrstr_eq options hne, getOptionStrstr_eq options hne⟩,
    matchOption_tokens hne hcomma options, fun text => ?_, ?_⟩
  · rw [getOption_tokens hne hcomma, optionText_some]
    constructor
    · rintro ⟨earlier, value, later, htokens, hfirst, rfl⟩
      have htoken : comma ∉ name ++ equalSign :: value :=
        not_mem_token options _ (htokens ▸ by simp)
      have hvalue : comma ∉ value := fun h => htoken (by simp [h])
      exact ⟨earlier, value, later, htokens, hfirst, rfl, takeWhile_intercalate later hvalue⟩
    · rintro ⟨earlier, value, later, htokens, hfirst, htext, -⟩
      exact ⟨earlier, value, later, htokens, hfirst, htext⟩
  · rw [getOption_tokens hne hcomma]
    exact optionText_none

/-- An option that starts with the name is another option, and so is a value that is the name. -/
theorem options_as_tokens_fallback :
    matchOptionStrstr (bytesOf "ro_fallback,fmask=ro") (bytesOf "ro") = false ∧
      ∃ text, getOptionStrstr (bytesOf "fumask=1,umask=22,umask=7") (bytesOf "umask") = some text ∧
        text.takeWhile (· ≠ comma) = bytesOf "22" := by
  obtain ⟨⟨hmatch, -⟩, hiff, -⟩ := options_as_tokens (bytesOf "ro_fallback,fmask=ro") (bytesOf "ro")
    (by decide) (by decide)
  obtain ⟨⟨-, hget⟩, -, hsome, -⟩ := options_as_tokens (bytesOf "fumask=1,umask=22,umask=7")
    (bytesOf "umask") (by decide) (by decide)
  constructor
  · rw [hmatch, Bool.eq_false_iff]
    exact hiff.not.mpr (by decide)
  · refine ⟨bytesOf "22,umask=7", hget.trans ((hsome _).mpr
      ⟨[bytesOf "fumask=1"], bytesOf "22", [bytesOf "umask=7"], ?_, ?_, ?_, ?_⟩), ?_⟩
    all_goals decide

end Proofs
end Exfat
