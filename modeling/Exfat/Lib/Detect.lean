import Mathlib

namespace Exfat.Lib

/-! Checksums as folds: when a fold tells two lists apart that differ in one place, and what a sum
that is turned before each byte comes to. -/

variable {σ α : Type}

/-- Two lists that differ in one place only: `x` stands in the one, `y` in the other. -/
structure DifferAt (l m : List α) (i : Nat) (x y : α) : Prop where
  left : l[i]? = some x
  right : m[i]? = some y
  same : ∀ j, j ≠ i → l[j]? = m[j]?

/-- A step of a fold that keeps different states apart, whatever it reads. -/
structure Separates (P : σ → Prop) (f : σ → α → σ) : Prop where
  keeps : ∀ s a, P s → P (f s a)
  apart : ∀ s t a, P s → P t → f s a = f t a → s = t

variable {P : σ → Prop} {f : σ → α → σ} {l m : List α} {s t : σ} {i : Nat} {x y : α}

theorem Separates.foldl_keeps (h : Separates P f) (l : List α) (hs : P s) : P (l.foldl f s) := by
  induction l generalizing s with
  | nil => exact hs
  | cons a l ih => exact ih (h.keeps s a hs)

theorem Separates.foldl_apart (h : Separates P f) (hs : P s) (ht : P t)
    (he : l.foldl f s = l.foldl f t) : s = t := by
  induction l generalizing s t with
  | nil => exact he
  | cons a l ih =>
    have hstep := ih (h.keeps s a hs) (h.keeps t a ht) he
    exact h.apart s t a hs ht hstep

/-- The whole fold is such a step again. -/
theorem Separates.foldl (h : Separates P f) : Separates P fun s (l : List α) => l.foldl f s where
  keeps := fun _ l hs => h.foldl_keeps l hs
  apart := fun _ _ _ hs ht he => h.foldl_apart hs ht he

theorem DifferAt.tail {a b : α} (h : DifferAt (a :: l) (b :: m) (i + 1) x y) :
    a = b ∧ DifferAt l m i x y := by
  refine ⟨?_, ⟨h.left, h.right, fun j hj => ?_⟩⟩
  · have h0 := h.same 0 (by omega)
    exact Option.some.inj h0
  · have hj1 := h.same (j + 1) (by omega)
    exact hj1

/-- A difference in one place that one step shows is never lost again. -/
theorem Separates.foldl_ne (h : Separates P f) (hd : DifferAt l m i x y)
    (hne : ∀ s, P s → f s x ≠ f s y) (hs : P s) : l.foldl f s ≠ m.foldl f s := by
  induction l generalizing m i s with
  | nil => cases hd.left
  | cons a l ih =>
    cases m with
    | nil => cases hd.right
    | cons b m =>
      cases i with
      | zero =>
        obtain rfl : a = x := Option.some.inj hd.left
        obtain rfl : b = y := Option.some.inj hd.right
        have hlm : l = m := by
          apply List.ext_getElem?
          intro j
          exact hd.same (j + 1) (by omega)
        subst hlm
        intro he
        exact hne s hs (h.foldl_apart (h.keeps s a hs) (h.keeps s b hs) he)
      | succ i =>
        obtain ⟨rfl, htail⟩ := hd.tail
        exact ih htail (h.keeps s a hs)

theorem differAt_set (h : i < l.length) : DifferAt l (l.set i y) i l[i] y where
  left := List.getElem?_eq_getElem h
  right := List.getElem?_set_self h
  same := fun _ hj => (List.getElem?_set_ne (Ne.symm hj)).symm

/-- A list picked out of another one by position keeps a difference at a position it picks. -/
theorem DifferAt.pick {l' m' : List α} {φ : Nat → Nat} (hφ : ∀ j k, φ j = φ k → j = k)
    (hl : ∀ j, l'[j]? = l[φ j]?) (hm : ∀ j, m'[j]? = m[φ j]?) (h : DifferAt l m (φ i) x y) :
    DifferAt l' m' i x y where
  left := (hl i).trans h.left
  right := (hm i).trans h.right
  same := by
    intro j hj
    rw [hl, hm]
    exact h.same _ fun he => hj (hφ _ _ he)

/-- Sums of `w + 1` bits, turned by one bit to the right before each byte is added. -/
def rotateAdd (w : Nat) (sum : Nat) (byte : UInt8) : Nat :=
  ((sum <<< w ||| sum >>> 1) + byte.toNat) % 2 ^ (w + 1)

/-- What a turn by one bit leaves of a sum. -/
theorem rotate_mod {w a : Nat} (ha : a < 2 ^ (w + 1)) :
    (a <<< w ||| a >>> 1) % 2 ^ (w + 1) = a % 2 * 2 ^ w + a / 2 := by
  have hpow : 2 ^ (w + 1) = 2 * 2 ^ w := Nat.pow_succ'
  have hhalf : a >>> 1 < 2 ^ w := by
    rw [Nat.shiftRight_eq_div_pow]
    omega
  rw [← Nat.shiftLeft_add_eq_or_of_lt hhalf, Nat.shiftLeft_eq, Nat.shiftRight_eq_div_pow, pow_one]
  have hsplit : a * 2 ^ w = a / 2 * (2 * 2 ^ w) + a % 2 * 2 ^ w := by
    conv_lhs => rw [← Nat.div_add_mod a 2]
    ring
  have hlow : a % 2 * 2 ^ w ≤ 1 * 2 ^ w := Nat.mul_le_mul_right _ (by omega)
  rw [hsplit, hpow, Nat.add_assoc, Nat.mul_add_mod_self_right, Nat.mod_eq_of_lt (by omega)]

theorem rotateAdd_separates (w : Nat) : Separates (· < 2 ^ (w + 1)) (rotateAdd w) where
  keeps := fun _ _ _ => Nat.mod_lt _ (Nat.two_pow_pos _)
  apart := by
    intro a b c ha hb he
    have hturn := Nat.ModEq.add_right_cancel' c.toNat he
    have hturn' : a % 2 * 2 ^ w + a / 2 = b % 2 * 2 ^ w + b / 2 := by
      rw [← rotate_mod ha, ← rotate_mod hb]
      exact hturn
    have hpow : 2 ^ (w + 1) = 2 * 2 ^ w := Nat.pow_succ'
    rcases Nat.mod_two_eq_zero_or_one a with ha2 | ha2 <;>
      rcases Nat.mod_two_eq_zero_or_one b with hb2 | hb2 <;>
      rw [ha2, hb2] at hturn' <;> omega

/-- Different bytes added to one sum give different sums. -/
theorem rotateAdd_ne {w : Nat} (hw : 7 ≤ w) {b c : UInt8} (hbc : b ≠ c) (sum : Nat) :
    rotateAdd w sum b ≠ rotateAdd w sum c := by
  intro he
  have hmod := Nat.ModEq.add_left_cancel' _ he
  have hwide : 2 ^ 8 ≤ 2 ^ (w + 1) := Nat.pow_le_pow_right (by norm_num) (by omega)
  have hb := b.toNat_lt
  have hc := c.toNat_lt
  have heq : b.toNat = c.toNat := by
    rwa [Nat.ModEq, Nat.mod_eq_of_lt (by omega), Nat.mod_eq_of_lt (by omega)] at hmod
  exact hbc (UInt8.toNat_inj.mp heq)

theorem rotateAdd_zero {w a : Nat} (ha : a < 2 ^ (w + 1)) :
    rotateAdd w a 0 = a % 2 * 2 ^ w + a / 2 := rotate_mod ha

/-- Zero bytes only turn the sum. -/
theorem rotate_zeros {w a : Nat} (ha : a < 2 ^ (w + 1)) {k : Nat} (hk : k ≤ w + 1) :
    (List.replicate k 0).foldl (rotateAdd w) a = a % 2 ^ k * 2 ^ (w + 1 - k) + a / 2 ^ k := by
  induction k with
  | zero => simp [Nat.mod_one]
  | succ k ih =>
    have hlt : (List.replicate k 0).foldl (rotateAdd w) a < 2 ^ (w + 1) :=
      (rotateAdd_separates w).foldl_keeps _ ha
    rw [List.replicate_succ', List.foldl_append, List.foldl_cons, List.foldl_nil,
      rotateAdd_zero hlt, ih (by omega)]
    obtain ⟨m, rfl⟩ := Nat.exists_eq_add_of_le (show k ≤ w by omega)
    rw [show k + m + 1 - k = m + 1 by omega, show k + m + 1 - (k + 1) = m by omega,
      Nat.pow_succ 2 m, ← Nat.mul_assoc, Nat.mul_add_mod_self_right, Nat.mod_pow_succ, Nat.pow_add,
      Nat.pow_succ, ← Nat.div_div_eq_div_mul]
    rw [Nat.add_comm (a % 2 ^ k * 2 ^ m * 2), Nat.add_mul_div_right _ _ (by norm_num)]
    ring

/-- Whole turns bring the sum back. -/
theorem rotate_turns {w a : Nat} (ha : a < 2 ^ (w + 1)) (n : Nat) :
    (List.replicate (n * (w + 1)) 0).foldl (rotateAdd w) a = a := by
  induction n with
  | zero => rw [Nat.zero_mul, List.replicate_zero, List.foldl_nil]
  | succ n ih =>
    rw [Nat.succ_mul, List.replicate_add, List.foldl_append, ih, rotate_zeros ha le_rfl,
      Nat.mod_eq_of_lt ha, Nat.div_eq_of_lt ha, Nat.sub_self, pow_zero, Nat.mul_one, Nat.add_zero]

/-- The bytes of a list as one number, in which a turn by one bit is the factor `2 ^ w`. -/
def weigh (w : Nat) (bs : List UInt8) : Nat :=
  ∑ i ∈ Finset.range bs.length, (bs.getD i 0).toNat * 2 ^ (w * (bs.length - 1 - i))

/-- A turned sum and the next byte together stay below the sum of ones only. -/
def CarryFree (w : Nat) (bs : List UInt8) : Prop :=
  ∀ i < bs.length,
    weigh w (bs.take i) * 2 ^ w % (2 ^ (w + 1) - 1) + (bs.getD i 0).toNat < 2 ^ (w + 1) - 1

theorem weigh_concat (w : Nat) (bs : List UInt8) (b : UInt8) :
    weigh w (bs ++ [b]) = weigh w bs * 2 ^ w + b.toNat := by
  unfold weigh
  rw [List.length_append, List.length_singleton, Finset.sum_range_succ, Finset.sum_mul]
  congr 1
  · refine Finset.sum_congr rfl fun i hi => ?_
    have hlt := Finset.mem_range.mp hi
    obtain ⟨k, hk⟩ := Nat.exists_eq_add_of_lt hlt
    rw [List.getD_append _ _ _ _ hlt, hk, Nat.mul_assoc, ← Nat.pow_add,
      show i + k + 1 + 1 - 1 - i = k + 1 by omega, show i + k + 1 - 1 - i = k by omega, Nat.mul_succ]
  · simp

theorem carryFree_concat {w : Nat} {bs : List UInt8} {b : UInt8} : CarryFree w (bs ++ [b]) ↔
    CarryFree w bs ∧ weigh w bs * 2 ^ w % (2 ^ (w + 1) - 1) + b.toNat < 2 ^ (w + 1) - 1 := by
  constructor
  · intro h
    constructor
    · intro i hi
      have hstep := h i (by rw [List.length_append]; omega)
      rwa [List.take_append_of_le_length hi.le, List.getD_append _ _ _ _ hi] at hstep
    · have hstep := h bs.length (by simp)
      simpa using hstep
  · rintro ⟨h, hlast⟩ i hi
    rw [List.length_append, List.length_singleton] at hi
    rcases Nat.lt_succ_iff_lt_or_eq.mp hi with hlt | rfl
    · rw [List.take_append_of_le_length hlt.le, List.getD_append _ _ _ _ hlt]
      exact h i hlt
    · simpa using hlast

/-- A turn by one bit is a product, modulo the number of ones only. -/
theorem rotate_eq_mul_mod {w a : Nat} (ha : a < 2 ^ (w + 1) - 1) :
    a % 2 * 2 ^ w + a / 2 = a * 2 ^ w % (2 ^ (w + 1) - 1) := by
  obtain ⟨k, hk⟩ : ∃ k, 2 ^ w = k + 1 := ⟨2 ^ w - 1, by have := Nat.two_pow_pos w; omega⟩
  have hm : 2 ^ (w + 1) - 1 = 2 * k + 1 := by rw [Nat.pow_succ', hk]; omega
  rw [hm] at ha ⊢
  have hsplit : a * (k + 1) = a / 2 * (2 * k + 1) + (a % 2 * (k + 1) + a / 2) := by
    conv_lhs => rw [← Nat.div_add_mod a 2]
    ring
  have hlt : a % 2 * (k + 1) + a / 2 < 2 * k + 1 := by
    rcases Nat.mod_two_eq_zero_or_one a with h | h <;> rw [h] <;> omega
  rw [hk, hsplit, Nat.mul_comm (a / 2), Nat.mul_add_mod, Nat.mod_eq_of_lt hlt]

/-- A step without a carry. -/
theorem rotateAdd_eq {w a : Nat} {b : UInt8} (ha : a < 2 ^ (w + 1) - 1)
    (hb : a * 2 ^ w % (2 ^ (w + 1) - 1) + b.toNat < 2 ^ (w + 1) - 1) :
    rotateAdd w a b = a * 2 ^ w % (2 ^ (w + 1) - 1) + b.toNat := by
  rw [rotateAdd, Nat.add_mod, rotate_mod (by omega), rotate_eq_mul_mod ha, Nat.add_mod_mod,
    Nat.mod_eq_of_lt (by omega)]

/-- Where no carry is lost, the sum is the number modulo that of ones only. -/
theorem foldl_rotateAdd {w : Nat} {bs : List UInt8} (h : CarryFree w bs) :
    bs.foldl (rotateAdd w) 0 = weigh w bs % (2 ^ (w + 1) - 1) := by
  induction bs using List.reverseRecOn with
  | nil => simp [weigh]
  | append_singleton bs b ih =>
    obtain ⟨hbs, hlast⟩ := carryFree_concat.mp h
    have hlt : weigh w bs % (2 ^ (w + 1) - 1) < 2 ^ (w + 1) - 1 := Nat.mod_lt _ (by omega)
    rw [← Nat.mod_mul_mod] at hlast
    rw [List.foldl_append, List.foldl_cons, List.foldl_nil, ih hbs, rotateAdd_eq hlt hlast,
      weigh_concat, ← Nat.mod_add_mod, Nat.mod_mul_mod]
    rw [Nat.mod_mul_mod] at hlast
    exact (Nat.mod_eq_of_lt hlast).symm

/-- The number modulo that of ones only, byte by byte as long as no carry is lost. -/
def weighMod (w : Nat) : Nat → List UInt8 → Option Nat
  | a, [] => some a
  | a, b :: bs =>
    let a' := a * 2 ^ w % (2 ^ (w + 1) - 1) + b.toNat
    if a' < 2 ^ (w + 1) - 1 then weighMod w a' bs else none

theorem weighMod_append {w r : Nat} {front bs : List UInt8} (hf : CarryFree w front)
    (h : weighMod w (weigh w front % (2 ^ (w + 1) - 1)) bs = some r) :
    CarryFree w (front ++ bs) ∧ weigh w (front ++ bs) % (2 ^ (w + 1) - 1) = r := by
  induction bs generalizing front with
  | nil =>
    rw [List.append_nil]
    exact ⟨hf, Option.some.inj h⟩
  | cons b bs ih =>
    simp only [weighMod] at h
    split at h
    · rename_i hlt
      rw [Nat.mod_mul_mod] at h hlt
      have hstep : weigh w (front ++ [b]) % (2 ^ (w + 1) - 1) =
          weigh w front * 2 ^ w % (2 ^ (w + 1) - 1) + b.toNat := by
        rw [weigh_concat, ← Nat.mod_add_mod, Nat.mod_eq_of_lt hlt]
      rw [← hstep] at h
      have hrest := ih (carryFree_concat.mpr ⟨hf, hlt⟩) h
      rwa [List.append_assoc, List.singleton_append] at hrest
    · cases h

/-- The test for a list. -/
theorem weighMod_eq_some {w r : Nat} {bs : List UInt8} (h : weighMod w 0 bs = some r) :
    CarryFree w bs ∧ weigh w bs % (2 ^ (w + 1) - 1) = r :=
  @weighMod_append w r [] bs (fun i hi => absurd hi (Nat.not_lt_zero i)) (by simpa [weigh] using h)

end Exfat.Lib
