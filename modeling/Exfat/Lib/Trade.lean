import Exfat.Lib.Prog

namespace Exfat.Lib

/-! Accounts over a program: a balance that calls take from and give back to. -/

variable {σ ε α β A : Type} [AddCommGroup A] [PartialOrder A]

/-- A caller that holds `d` of the balance runs `m`: the call takes `d` over and leaves the caller
with `g a`. What others hold stays as it is. -/
def Trade (E : ε → Prop) (bal : σ → A) (P : σ → Prop) (d : A) (m : Prog σ ε α)
    (Q : α → σ → Prop) (g : α → A) : Prop :=
  ∀ s, P s → d ≤ bal s → Wp E m s fun a t => Q a t ∧ bal t = bal s - d + g a

section
variable {E : ε → Prop} {bal : σ → A} {P P' : σ → Prop} {d : A} {m : Prog σ ε α}
  {Q Q' : α → σ → Prop} {g : α → A}

theorem trade_pure {a : α} (h : ∀ s, P s → Q a s) : Trade E bal P (g a) (pure a) Q g :=
  fun s hs _ => ⟨h s hs, (sub_add_cancel _ _).symm⟩

theorem trade_throw {e : ε} (he : E e) : Trade E bal P d (throw e) Q g := fun _ _ _ => he

theorem Trade.conseq (h : Trade E bal P d m Q g) (hp : ∀ s, P' s → P s)
    (hq : ∀ a s, Q a s → Q' a s) : Trade E bal P' d m Q' g :=
  fun s hs hd => (h s (hp s hs) hd).mono fun a t ht => ⟨hq a t ht.1, ht.2⟩

theorem trade_ite {c : Prop} [Decidable c] {n : Prog σ ε α} (hm : c → Trade E bal P d m Q g)
    (hn : ¬c → Trade E bal P d n Q g) : Trade E bal P d (if c then m else n) Q g := by
  split
  · rename_i hc
    exact hm hc
  · rename_i hc
    exact hn hc

variable [IsOrderedAddMonoid A]

theorem Trade.bind {f : α → Prog σ ε β} {R : β → σ → Prop} {k : β → A}
    (h : Trade E bal P d m Q g) (hf : ∀ a, Trade E bal (Q a) (g a) (f a) R k) :
    Trade E bal P d (m >>= f) R k := by
  intro s hs hd
  apply (h s hs hd).bind
  rintro a t ⟨hq, ht⟩
  have hle : g a ≤ bal t := by
    rw [ht]
    exact le_add_of_nonneg_left (sub_nonneg.mpr hd)
  apply (hf a t hq hle).mono
  rintro b u ⟨hr, hu⟩
  refine ⟨hr, ?_⟩
  rw [hu, ht, add_sub_cancel_right]

end

end Exfat.Lib
