import Mathlib

namespace Exfat.Lib

variable {ι : Type} [DecidableEq ι]

/-- From `p` on, `next` and `prev` form a doubly linked list of the elements of a list; `q` comes
before the first of them. -/
def Dlist (next prev : ι → Option ι) : Option ι → Option ι → List ι → Prop
  | _, p, [] => p = none
  | q, p, x :: xs => p = some x ∧ prev x = q ∧ Dlist next prev (some x) (next x) xs

variable {next prev next' prev' : ι → Option ι} {q p : Option ι} {L A B : List ι} {x : ι}

omit [DecidableEq ι] in
theorem Dlist.congr (h : Dlist next prev q p L) (hn : ∀ y ∈ L, next' y = next y)
    (hp : ∀ y ∈ L, prev' y = prev y) : Dlist next' prev' q p L := by
  induction L generalizing q p with
  | nil => exact h
  | cons y ys ih =>
    obtain ⟨rfl, hq, h⟩ := h
    refine ⟨rfl, (hp y (by simp)).trans hq, ?_⟩
    rw [hn y (by simp)]
    exact ih h (fun z hz => hn z (by simp [hz])) fun z hz => hp z (by simp [hz])

omit [DecidableEq ι] in
/-- The first element of the list is where the walk starts. -/
theorem Dlist.head (h : Dlist next prev q p L) : p = L.head? := by
  cases L with
  | nil => exact h
  | cons y ys => exact h.1

/-- A new last element. -/
theorem Dlist.snoc (h : Dlist next prev q p L) (hx : next' x = none)
    (hq : prev' x = if L = [] then q else L.getLast?)
    (hn : ∀ y ∈ L, next' y = if L.getLast? = some y then some x else next y)
    (hp : ∀ y ∈ L, prev' y = prev y) (hd : L.Nodup) :
    Dlist next' prev' q (if L = [] then some x else p) (L ++ [x]) := by
  induction L generalizing q p with
  | nil => exact ⟨rfl, hq, hx⟩
  | cons y ys ih =>
    obtain ⟨rfl, hpy, h⟩ := h
    rw [if_neg (List.cons_ne_nil _ _)] at hq ⊢
    refine ⟨rfl, (hp y (by simp)).trans hpy, ?_⟩
    have hyn := (List.nodup_cons.mp hd).1
    have hys := ih h ?_ ?_ (fun z hz => hp z (by simp [hz])) (List.nodup_cons.mp hd).2
    · have hny : next' y = if ys = [] then some x else next y := ?_
      · exact hny ▸ hys
      rw [hn y (by simp)]
      cases ys with
      | nil => simp
      | cons z zs =>
        rw [if_neg (List.cons_ne_nil _ _), if_neg]
        rw [List.getLast?_cons_cons]
        intro he
        exact hyn (List.mem_of_getLast? he)
    · rw [hq]
      cases ys with
      | nil => simp
      | cons z zs => simp [List.getLast?_cons_cons]
    · intro z hz
      rw [hn z (by simp [hz])]
      cases ys with
      | nil => simp at hz
      | cons u us => rw [List.getLast?_cons_cons]

omit [DecidableEq ι] in
/-- The neighbours of an element. -/
theorem Dlist.links (h : Dlist next prev q p (A ++ x :: B)) :
    prev x = A.getLast?.or q ∧ next x = B.head? := by
  induction A generalizing q p with
  | nil => exact ⟨h.2.1, h.2.2.head⟩
  | cons a as ih =>
    obtain ⟨hp, hn⟩ := ih h.2.2
    refine ⟨?_, hn⟩
    rw [hp]
    cases as with
    | nil => simp
    | cons b bs => rw [List.getLast?_cons_cons, List.getLast?_eq_some_getLast (by simp)]; rfl

/-- One element taken out. -/
theorem Dlist.remove (h : Dlist next prev q p (A ++ x :: B)) (hd : (A ++ x :: B).Nodup)
    (hq : ∀ y ∈ A ++ x :: B, q ≠ some y)
    (hn : ∀ y ∈ A ++ B, next' y = if prev x = some y then next x else next y)
    (hp : ∀ y ∈ A ++ B, prev' y = if next x = some y then prev x else prev y) :
    Dlist next' prev' q (if A = [] then next x else p) (A ++ B) := by
  induction A generalizing q p with
  | nil =>
    obtain ⟨-, hqx, h⟩ := h
    have hB : ∀ y ∈ B, next' y = next y := fun y hy => by
      rw [hn y hy, hqx, if_neg (hq y (by simp [hy]))]
    simp only [List.nil_append, if_true] at hp ⊢
    have hdB := (List.nodup_cons.mp hd).2
    cases B with
    | nil => exact h
    | cons y ys =>
      obtain ⟨hy, -, h⟩ := h
      refine ⟨hy, by rw [hp y (by simp), if_pos hy, hqx], ?_⟩
      rw [hB y (by simp)]
      refine h.congr (fun z hz => hB z (by simp [hz])) fun z hz => ?_
      have hne : y ≠ z := by
        rintro rfl
        exact (List.nodup_cons.mp hdB).1 hz
      rw [hp z (by simp [hz]), hy, if_neg (by simpa using hne)]
  | cons a as ih =>
    obtain ⟨rfl, hqa, h⟩ := h
    have hda := List.nodup_cons.mp hd
    have has : ∀ y ∈ as ++ x :: B, some a ≠ some y := by
      intro y hy he
      obtain rfl := Option.some.inj he
      exact hda.1 hy
    have hrest := ih h hda.2 has (fun y hy => hn y (List.mem_cons_of_mem _ hy)) fun y hy =>
      hp y (List.mem_cons_of_mem _ hy)
    obtain ⟨hpx, hnx⟩ := h.links
    have hna : next x ≠ some a := by
      rw [hnx]
      intro he
      exact hda.1 (by simp [List.mem_of_mem_head? he])
    rw [if_neg (List.cons_ne_nil _ _)]
    refine ⟨rfl, by rw [hp a (by simp), if_neg hna, hqa], ?_⟩
    have hnext : next' a = if as = [] then next x else next a := by
      rw [hn a (by simp), hpx]
      cases as with
      | nil => simp
      | cons b bs =>
        rw [if_neg (List.cons_ne_nil _ _), if_neg]
        intro he
        obtain ⟨l, hl⟩ : ∃ l, (b :: bs).getLast? = some l := ⟨_, List.getLast?_eq_some_getLast (by simp)⟩
        rw [hl, Option.some_or, Option.some.injEq] at he
        subst he
        exact hda.1 (List.mem_append_left _ (List.mem_of_getLast? hl))
    rw [hnext]
    exact hrest

end Exfat.Lib
