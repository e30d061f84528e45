import Mathlib

namespace Exfat.Lib

/-- A program over a state `σ`: it returns a value and a new state, or halts. -/
abbrev Prog (σ ε α : Type) : Type := StateT σ (Except ε) α

variable {σ ε α β : Type}

/-- The weakest precondition of a program: a return satisfies `Q`, a halt satisfies `E`.
`E := fun _ => False` makes it total, `E := fun _ => True` partial correctness. -/
def Wp (E : ε → Prop) (m : Prog σ ε α) (s : σ) (Q : α → σ → Prop) : Prop :=
  match m s with
  | .ok (a, t) => Q a t
  | .error e => E e

variable {E : ε → Prop} {Q R : α → σ → Prop} {s t : σ}

theorem wp_ok {m : Prog σ ε α} {a : α} (h : m s = .ok (a, t)) : Wp E m s Q ↔ Q a t := by
  simp [Wp, h]

theorem wp_error {m : Prog σ ε α} {e : ε} (h : m s = .error e) : Wp E m s Q ↔ E e := by
  simp [Wp, h]

@[simp] theorem wp_pure (a : α) : Wp E (pure a : Prog σ ε α) s Q ↔ Q a s := Iff.rfl

@[simp] theorem wp_bind {m : Prog σ ε α} {f : α → Prog σ ε β} {P : β → σ → Prop} :
    Wp E (m >>= f) s P ↔ Wp E m s (fun a t => Wp E (f a) t P) := by
  simp only [Wp, bind, StateT.bind, Except.bind]
  cases m s <;> rfl

@[simp] theorem wp_get {P : σ → σ → Prop} : Wp E (get : Prog σ ε σ) s P ↔ P s s := Iff.rfl

@[simp] theorem wp_set {P : PUnit → σ → Prop} :
    Wp E (set t : Prog σ ε PUnit) s P ↔ P ⟨⟩ t := Iff.rfl

@[simp] theorem wp_modify {f : σ → σ} {P : PUnit → σ → Prop} :
    Wp E (modify f : Prog σ ε PUnit) s P ↔ P ⟨⟩ (f s) := Iff.rfl

@[simp] theorem wp_throw {e : ε} : Wp E (throw e : Prog σ ε α) s Q ↔ E e := Iff.rfl

@[simp] theorem wp_map {m : Prog σ ε α} {f : α → β} {P : β → σ → Prop} :
    Wp E (f <$> m) s P ↔ Wp E m s (fun a t => P (f a) t) := by
  rw [map_eq_pure_bind, wp_bind]
  simp only [wp_pure]

theorem wp_ite {c : Prop} [Decidable c] {m n : Prog σ ε α} :
    Wp E (if c then m else n) s Q ↔ (c → Wp E m s Q) ∧ (¬c → Wp E n s Q) := by
  by_cases h : c <;> simp [h]

/-- The rule of consequence: a spec is used by weakening its postcondition. -/
theorem Wp.mono {m : Prog σ ε α} (h : Wp E m s Q) (hq : ∀ a t, Q a t → R a t) :
    Wp E m s R := by
  unfold Wp at *
  cases hm : m s with
  | error e => simpa [hm] using h
  | ok p => simp only [hm] at h ⊢; exact hq _ _ h

/-- A spec that rules out more halts is the stronger one. -/
theorem Wp.halts {E' : ε → Prop} {m : Prog σ ε α} (h : Wp E m s Q) (he : ∀ e, E e → E' e) :
    Wp E' m s Q := by
  unfold Wp at *
  cases hm : m s with
  | error e => simp only [hm] at h; exact he e h
  | ok p => simpa [hm] using h

/-- A spec that rules out every return. -/
theorem Wp.error {m : Prog σ ε α} (h : Wp E m s fun _ _ => False) : ∃ e, m s = .error e ∧ E e := by
  unfold Wp at h
  cases hm : m s with
  | error e => exact ⟨e, rfl, by simpa [hm] using h⟩
  | ok p => simp [hm] at h

/-- Sequencing: the spec of the first part, then the rest from its postcondition. -/
theorem Wp.bind {m : Prog σ ε α} {f : α → Prog σ ε β} {P : β → σ → Prop}
    (h : Wp E m s Q) (hf : ∀ a t, Q a t → Wp E (f a) t P) : Wp E (m >>= f) s P :=
  wp_bind.mpr (h.mono hf)

theorem Wp.and {m : Prog σ ε α} (h : Wp E m s Q) (h' : Wp E m s R) :
    Wp E m s (fun a t => Q a t ∧ R a t) := by
  unfold Wp at *
  cases hm : m s with
  | error e => simpa [hm] using h
  | ok p => simp only [hm] at h h' ⊢; exact ⟨h, h'⟩

/-- The equation of a run that returned. -/
theorem wp_self {m : Prog σ ε α} : Wp (fun _ => True) m s fun a t => m s = .ok (a, t) := by
  unfold Wp
  cases m s with
  | error e => trivial
  | ok r => rfl

/-- A fact that does not depend on the run. -/
theorem wp_const {m : Prog σ ε α} {p : Prop} (h : p) : Wp (fun _ => True) m s fun _ _ => p := by
  unfold Wp
  cases m s with
  | error e => trivial
  | ok r => exact h

/-- A partial spec read off a run that returned. -/
theorem Wp.run {m : Prog σ ε α} {a : α} (h : Wp E m s Q) (hr : m s = .ok (a, t)) : Q a t :=
  (wp_ok hr).mp h

/-- A total spec gives a run. -/
theorem Wp.returns {m : Prog σ ε α} (h : Wp (fun _ => False) m s Q) :
    ∃ a t, m s = .ok (a, t) ∧ Q a t := by
  unfold Wp at h
  cases hm : m s with
  | error e => simp [hm] at h
  | ok p => exact ⟨p.1, p.2, rfl, by simpa [hm] using h⟩

/-- Bind run backwards: both parts returned. -/
theorem bind_of_ok {m : Prog σ ε α} {f : α → Prog σ ε β} {a : α} (h : m s = .ok (a, t)) :
    (m >>= f) s = f a t := by
  change StateT.bind m f s = f a t
  simp only [StateT.bind, h]
  rfl

theorem bind_of_error {m : Prog σ ε α} {f : α → Prog σ ε β} {e : ε} (h : m s = .error e) :
    (m >>= f) s = .error e := by
  change StateT.bind m f s = .error e
  simp only [StateT.bind, h]
  rfl

theorem bind_returns {m : Prog σ ε α} {f : α → Prog σ ε β} {b : β}
    (h : (m >>= f) s = .ok (b, t)) : ∃ a u, m s = .ok (a, u) ∧ f a u = .ok (b, t) := by
  simp only [bind, StateT.bind, Except.bind] at h
  cases hm : m s with
  | error e => simp [hm] at h
  | ok p => exact ⟨p.1, p.2, rfl, by simpa [hm] using h⟩

/-- A run that was evaluated and checked. -/
theorem returns_of_check {m : Prog σ ε α} {p : α → σ → Bool}
    (h : (match m s with | .ok (a, t) => p a t | .error _ => false) = true) :
    ∃ a t, m s = .ok (a, t) ∧ p a t = true := by
  cases hm : m s with
  | error e => simp [hm] at h
  | ok r => exact ⟨r.1, r.2, rfl, by simpa [hm] using h⟩

/-- A spec that may rule out halts, and a partial one. -/
theorem Wp.both {m : Prog σ ε α} (h : Wp E m s Q) (h' : Wp (fun _ => True) m s R) :
    Wp E m s (fun a t => Q a t ∧ R a t) := by
  unfold Wp at *
  cases hm : m s with
  | error e => simpa [hm] using h
  | ok p => simp only [hm] at h h' ⊢; exact ⟨h, h'⟩

/-- Every run of a program relates the state before to the state after, or halts as `E` allows. -/
def Safe (E : ε → Prop) (P : σ → σ → Prop) (m : Prog σ ε α) : Prop :=
  ∀ s, Wp E m s fun _ t => P s t

/-- Every run of a program that returns relates the state before to the state after. -/
abbrev Frame (P : σ → σ → Prop) (m : Prog σ ε α) : Prop := Safe (fun _ => True) P m

section
variable {P : σ → σ → Prop}

theorem safe_pure (hr : ∀ s, P s s) (a : α) : Safe E P (pure a : Prog σ ε α) := hr

theorem safe_get (hr : ∀ s, P s s) : Safe E P (get : Prog σ ε σ) := hr

theorem safe_throw {e : ε} (he : E e) : Safe E P (throw e : Prog σ ε α) := fun _ => he

theorem safe_bind (ht : ∀ r s t, P r s → P s t → P r t) {m : Prog σ ε α} {f : α → Prog σ ε β}
    (hm : Safe E P m) (hf : ∀ a, Safe E P (f a)) : Safe E P (m >>= f) :=
  fun s => (hm s).bind fun a t h => (hf a t).mono fun _ _ h' => ht _ _ _ h h'

theorem safe_ite {c : Prop} [Decidable c] {m n : Prog σ ε α} (hm : Safe E P m) (hn : Safe E P n) :
    Safe E P (if c then m else n) := by
  split
  · exact hm
  · exact hn

theorem Safe.mono {P' : σ → σ → Prop} {m : Prog σ ε α} (h : Safe E P m)
    (hp : ∀ s t, P s t → P' s t) : Safe E P' m := fun s => (h s).mono fun _ t => hp s t

end

section
variable {ι : Type} {P : σ → Prop} {m n : Prog σ ε α}

/-- Every run of a program from a state with `P` ends in one, or halts as `E` allows. -/
def Keep (E : ε → Prop) (P : σ → Prop) (m : Prog σ ε α) : Prop :=
  ∀ s, P s → Wp E m s fun _ t => P t

theorem keep_pure (a : α) : Keep E P (pure a : Prog σ ε α) := fun _ h => h

theorem keep_get : Keep E P (get : Prog σ ε σ) := fun _ h => h

theorem keep_throw {e : ε} (he : E e) : Keep E P (throw e : Prog σ ε α) := fun _ _ => he

theorem keep_bind {f : α → Prog σ ε β} (hm : Keep E P m) (hf : ∀ a, Keep E P (f a)) :
    Keep E P (m >>= f) := fun s h => (hm s h).bind fun a t ht => hf a t ht

theorem keep_ite {c : Prop} [Decidable c] (hm : c → Keep E P m) (hn : ¬c → Keep E P n) :
    Keep E P (if c then m else n) := by
  split
  · rename_i hc
    exact hm hc
  · rename_i hc
    exact hn hc

/-- Calls one after the other. -/
theorem keep_forM {f : ι → Prog σ ε PUnit} (hf : ∀ i, Keep E P (f i)) (l : List ι) :
    Keep E P (l.forM f) := by
  induction l with
  | nil => exact keep_pure _
  | cons i l ih => exact keep_bind (hf i) fun _ => ih

end

end Exfat.Lib
