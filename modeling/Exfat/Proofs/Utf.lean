import Exfat.Lib.Utf
import Exfat.Model.Utils

namespace Exfat
open Lib

/-! The converters of `utf.c` over the characters they read and write. -/

/-- The characters that bytes encode as `utf8_to_wchar` reads them; one of value zero is the last. -/
def wchars : Nat → List UInt8 → Option (List Nat)
  | 0, _ => some []
  | fuel + 1, input =>
    if input.isEmpty then some []
    else
      match utf8ToWchar input with
      | none => none
      | some (wc, k) => if wc = 0 then some [0] else (wchars fuel (input.drop k)).map (wc :: ·)

/-- The characters of a byte string. -/
def characters (input : List UInt8) : Option (List Nat) := wchars input.length input

namespace Proofs

/-- The result of a conversion that wrote everything before its terminator. -/
def fits {α : Type} (out : List α) (outsize : Nat) : Except Errno (List α) :=
  if outsize ≤ out.length then .error .enametoolong else .ok out

theorem fits_ok {α : Type} {out s : List α} {outsize : Nat} :
    fits out outsize = .ok s ↔ out = s ∧ out.length < outsize := by
  unfold fits
  split
  · simp
    omega
  · simp
    omega

theorem fits_full {α : Type} {out : List α} {outsize : Nat} (h : outsize ≤ out.length) :
    fits out outsize = .error .enametoolong := if_pos h

theorem utf16Length_eq {us : List Nat} (h : ∀ u ∈ us, 0 < u) : utf16Length us = us.length := by
  rw [utf16Length, List.takeWhile_eq_self_iff.mpr fun u hu =>
    decide_eq_true (Nat.pos_iff_ne_zero.mp (h u hu))]

theorem byte_or {a b n : Nat} (h : b < 2 ^ n) : a <<< n ||| b = b + a <<< n := by
  rw [shiftLeft_or a h, Nat.shiftLeft_eq, Nat.add_comm]

theorem wcharToUtf16_eq (wc room : Nat) :
    wcharToUtf16 wc room = if room < (toUtf16 wc).length then none else some (toUtf16 wc) := by
  unfold wcharToUtf16
  by_cases h : wc < 0x10000
  · rw [if_pos (by omega), toUtf16_narrow h]
    simp only [List.length_singleton, Nat.lt_one_iff]
  · have hmask : ∀ x, x &&& 0x3ff = x % 0x400 := fun x => Nat.and_two_pow_sub_one_eq_mod x 10
    have h1 : ∀ x, 0xd800 ||| x % 0x400 = x % 0x400 + 0xd800 := fun x =>
      byte_or (a := 54) (n := 10) (Nat.mod_lt _ (by norm_num))
    have h2 : ∀ x, 0xdc00 ||| x % 0x400 = x % 0x400 + 0xdc00 := fun x =>
      byte_or (a := 55) (n := 10) (Nat.mod_lt _ (by norm_num))
    rw [if_neg (by omega), toUtf16, if_neg h]
    simp only [hmask, h1, h2, Nat.shiftRight_eq_div_pow, List.length_cons, List.length_nil]

theorem wcharToUtf8_eq {wc : Nat} (room : Nat) (h : wc ≤ 0x10ffff) :
    wcharToUtf8 wc room = if room < (toUtf8 wc).length then none else some (toUtf8 wc) := by
  have hmask : ∀ x, x &&& 0x3f = x % 0x40 := fun x => Nat.and_two_pow_sub_one_eq_mod x 6
  have htail : ∀ x, 0x80 ||| x % 0x40 = x % 0x40 + 0x80 := fun x =>
    byte_or (a := 2) (n := 6) (Nat.mod_lt _ (by norm_num))
  simp only [wcharToUtf8, hmask, htail, Nat.shiftRight_eq_div_pow, pow_zero, Nat.div_one]
  by_cases h1 : wc < 0x80
  · simp only [toUtf8, if_pos h1, if_pos (show wc ≤ 0x7f by omega)]
    rfl
  · by_cases h2 : wc < 0x800
    · have hlead : 0xc0 ||| wc / 2 ^ 6 = wc / 0x40 + 0xc0 := byte_or (a := 6) (n := 5) (by omega)
      simp only [toUtf8, if_neg h1, if_pos h2, if_neg (show ¬wc ≤ 0x7f by omega),
        if_pos (show wc ≤ 0x7ff by omega), hlead]
      rfl
    · by_cases h3 : wc < 0x10000
      · have hlead : 0xe0 ||| wc / 2 ^ 12 = wc / 0x1000 + 0xe0 :=
          byte_or (a := 14) (n := 4) (by omega)
        simp only [toUtf8, if_neg h1, if_neg h2, if_pos h3, if_neg (show ¬wc ≤ 0x7f by omega),
          if_neg (show ¬wc ≤ 0x7ff by omega), if_pos (show wc ≤ 0xffff by omega), hlead]
        rfl
      · have hlead : 0xf0 ||| wc / 2 ^ 18 = wc / 0x40000 + 0xf0 :=
          byte_or (a := 30) (n := 3) (by omega)
        simp only [toUtf8, if_neg h1, if_neg h2, if_neg h3, if_neg (show ¬wc ≤ 0x7f by omega),
          if_neg (show ¬wc ≤ 0x7ff by omega), if_neg (show ¬wc ≤ 0xffff by omega),
          if_pos (show wc ≤ 0x1fffff by omega), hlead]
        rfl

theorem and_high {u : Nat} (h : u < 0x10000) : u &&& 0xfc00 = u / 0x400 * 0x400 :=
  and_mask (n := 10) (k := 6) h

/-- `utf16_to_wchar` on one unit. -/
theorem utf16ToWchar_single {u : Nat} (us : List Nat) (h : u < 0x10000) (hu : isHigh u = false) :
    utf16ToWchar (u :: us) = some (u, 1) := by
  rw [isHigh_eq_false] at hu
  simp only [utf16ToWchar, List.getD_cons_zero, and_high h]
  rw [if_neg (by omega)]

/-- `utf16_to_wchar` on a surrogate pair. -/
theorem utf16ToWchar_pair {u v : Nat} (us : List Nat) (hu : isHigh u = true) (hv : isLow v = true) :
    utf16ToWchar (u :: v :: us) = some (joinPair u v, 2) := by
  rw [isHigh_iff] at hu
  rw [isLow_iff] at hv
  have hval : u % 0x400 * 0x400 + v % 0x400 + 0x10000 = joinPair u v := by
    unfold joinPair
    omega
  have h1 : u / 0x400 = 54 := by omega
  have h2 : v / 0x400 = 55 := by omega
  have hmask : ∀ x, x &&& 0x3ff = x % 0x400 := fun x => Nat.and_two_pow_sub_one_eq_mod x 10
  have hjoin : (u % 0x400) <<< 10 ||| v % 0x400 = u % 0x400 * 0x400 + v % 0x400 :=
    shiftLeft_or _ (Nat.mod_lt _ (by norm_num))
  simp only [utf16ToWchar, List.getD_cons_zero, List.getD_cons_succ, List.length_cons,
    and_high (show u < 0x10000 by omega), and_high (show v < 0x10000 by omega), hmask, hjoin, h1, h2]
  rw [if_pos trivial, if_neg (by simp), hval]

/-- `utf16_to_wchar` on a high surrogate that no low one follows. -/
theorem utf16ToWchar_broken {u : Nat} {us : List Nat} (hu : isHigh u = true)
    (hlt : ∀ v ∈ us, v < 0x10000) (hv : us.head?.any isLow = false) :
    utf16ToWchar (u :: us) = none := by
  rw [isHigh_iff] at hu
  simp only [utf16ToWchar, List.getD_cons_zero, List.getD_cons_succ,
    and_high (show u < 0x10000 by omega)]
  rw [if_pos (by omega)]
  cases us with
  | nil => simp
  | cons v vs =>
    simp only [List.head?_cons, Option.any_some, isLow, decide_eq_false_iff_not] at hv
    rw [List.getD_cons_zero, and_high (hlt v (by simp)), if_pos (by omega)]

/-- One character of the loop of `utf16_to_utf8`. -/
theorem utf16ToUtf8Loop_step {fuel outsize wc k : Nat} {input : List Nat} {out : List UInt8}
    (hi : input ≠ []) (hw : utf16ToWchar input = some (wc, k)) (hle : wc ≤ 0x10ffff) (h0 : wc ≠ 0) :
    utf16ToUtf8Loop (fuel + 1) input out outsize =
      if outsize - out.length < (toUtf8 wc).length then .error .enametoolong
      else utf16ToUtf8Loop fuel (input.drop k) (out ++ toUtf8 wc) outsize := by
  rw [utf16ToUtf8Loop, if_neg (by simpa using hi), hw]
  dsimp only
  rw [wcharToUtf8_eq _ hle]
  split
  · rename_i h
    split at h
    · rename_i hlt
      rw [if_pos hlt]
    · cases h
  · rename_i bs h
    split at h
    · cases h
    · rename_i hlt
      cases h
      rw [if_neg hlt, if_neg h0]

/-- The loop of `utf16_to_utf8` on units that can be read. -/
theorem utf16ToUtf8Loop_some {fuel outsize : Nat} {input cs : List Nat} {out : List UInt8}
    (h : Reads input cs) (hlt : ∀ u ∈ input, u < 0x10000) (hf : input.length ≤ fuel) :
    utf16ToUtf8Loop fuel input out outsize = fits (out ++ cs.flatMap toUtf8) outsize := by
  have hstep : ∀ {fuel wc k : Nat} {input ds : List Nat} {out : List UInt8}, input ≠ [] →
      utf16ToWchar input = some (wc, k) → wc ≤ 0x10ffff → wc ≠ 0 →
      utf16ToUtf8Loop fuel (input.drop k) (out ++ toUtf8 wc) outsize =
        fits ((out ++ toUtf8 wc) ++ ds.flatMap toUtf8) outsize →
      utf16ToUtf8Loop (fuel + 1) input out outsize =
        fits (out ++ (wc :: ds).flatMap toUtf8) outsize := by
    intro fuel wc k input ds out hi hw hle h0 hrest
    rw [utf16ToUtf8Loop_step hi hw hle h0, List.flatMap_cons, ← List.append_assoc]
    split
    · rw [fits_full]
      simp only [List.length_append]
      omega
    · exact hrest
  induction h generalizing fuel out with
  | nil =>
    rw [List.flatMap_nil, List.append_nil]
    cases fuel <;> rfl
  | stop us =>
    cases fuel with
    | zero => simp at hf
    | succ fuel =>
      rw [utf16ToUtf8Loop, utf16ToWchar_single us (by omega) rfl]
      simp only [List.isEmpty_cons, Bool.false_eq_true, if_false, List.flatMap_nil,
        List.append_nil, wcharToUtf8, Nat.zero_le, if_true]
      unfold fits
      by_cases h : outsize ≤ out.length
      · rw [if_pos h, if_pos (by omega)]
      · rw [if_neg h, if_neg (by omega)]
  | pair hu hv hr ih =>
    cases fuel with
    | zero => simp at hf
    | succ fuel =>
      obtain ⟨h0, hle, -⟩ := joinPair_plain hu hv
      simp only [List.length_cons] at hf
      exact hstep (by simp) (utf16ToWchar_pair _ hu hv) hle (by omega)
        (ih (fun x hx => hlt x (by simp [hx])) (by omega))
  | @single u us cs h0 hu hr ih =>
    cases fuel with
    | zero => simp at hf
    | succ fuel =>
      have hul := hlt u (by simp)
      simp only [List.length_cons] at hf
      exact hstep (by simp) (utf16ToWchar_single _ hul hu) (by omega) h0
        (ih (fun x hx => hlt x (by simp [hx])) (by omega))

/-- The loop of `utf16_to_utf8` on units with a lone high surrogate. -/
theorem utf16ToUtf8Loop_none {fuel outsize : Nat} {input : List Nat} {out : List UInt8}
    (h : ofUtf16 input = none) (hlt : ∀ u ∈ input, u < 0x10000) (hf : input.length ≤ fuel) :
    ∃ e, utf16ToUtf8Loop fuel input out outsize = .error e := by
  have hbroken : ∀ {fuel u : Nat} {us : List Nat} {out : List UInt8}, isHigh u = true →
      (∀ v ∈ us, v < 0x10000) → us.head?.any isLow = false →
      ∃ e, utf16ToUtf8Loop (fuel + 1) (u :: us) out outsize = .error e := by
    intro fuel u us out hu hlt hv
    rw [utf16ToUtf8Loop, utf16ToWchar_broken hu hlt hv]
    exact ⟨_, rfl⟩
  fun_induction ofUtf16 input generalizing fuel out with
  | case1 => cases h
  | case2 us => cases h
  | case3 u h0 hu =>
    cases fuel with
    | zero => simp at hf
    | succ fuel => exact hbroken hu (by simp) rfl
  | case4 u h0 hu v vs hv ih =>
    cases fuel with
    | zero => simp at hf
    | succ fuel =>
      obtain ⟨hj0, hle, -⟩ := joinPair_plain hu hv
      simp only [List.length_cons] at hf
      rw [utf16ToUtf8Loop_step (by simp) (utf16ToWchar_pair _ hu hv) hle (by omega)]
      split
      · exact ⟨_, rfl⟩
      · exact ih (Option.map_eq_none_iff.mp h) (fun x hx => hlt x (by simp [hx])) (by omega)
  | case5 u h0 hu v vs hv =>
    cases fuel with
    | zero => simp at hf
    | succ fuel => exact hbroken hu (fun x hx => hlt x (by simp [hx])) (by simpa using hv)
  | case6 u us h0 hu ih =>
    cases fuel with
    | zero => simp at hf
    | succ fuel =>
      have hul := hlt u (by simp)
      simp only [List.length_cons] at hf
      rw [utf16ToUtf8Loop_step (by simp) (utf16ToWchar_single _ hul (by simpa using hu)) (by omega) h0]
      split
      · exact ⟨_, rfl⟩
      · exact ih (Option.map_eq_none_iff.mp h) (fun x hx => hlt x (by simp [hx])) (by omega)

/-- What `utf16_to_utf8` accepts, and what it writes. -/
theorem utf16ToUtf8_ok {input : List Nat} {outsize insize : Nat} {s : List UInt8}
    (hlt : ∀ u ∈ input, u < 0x10000) :
    utf16ToUtf8 input outsize insize = .ok s ↔ ∃ cs, ofUtf16 (input.take insize) = some cs ∧
      cs.flatMap toUtf8 = s ∧ s.length < outsize := by
  have hlt' : ∀ u ∈ input.take insize, u < 0x10000 := fun u hu => hlt u (List.mem_of_mem_take hu)
  have hf : (input.take insize).length ≤ insize := List.length_take_le _ _
  rw [utf16ToUtf8]
  cases ho : ofUtf16 (input.take insize) with
  | none =>
    obtain ⟨e, he⟩ := @utf16ToUtf8Loop_none insize outsize _ [] ho hlt' hf
    simp [he]
  | some cs =>
    rw [utf16ToUtf8Loop_some (ofUtf16_reads ho) hlt' hf, fits_ok, List.nil_append]
    constructor
    · rintro ⟨rfl, hl⟩
      exact ⟨cs, rfl, rfl, hl⟩
    · rintro ⟨_, ⟨⟩, rfl, hl⟩
      exact ⟨rfl, hl⟩

/-- One character of the loop of `utf8_to_utf16`. -/
theorem utf8ToUtf16Loop_step {fuel outsize wc k : Nat} {input : List UInt8} {out : List Nat}
    (hi : input ≠ []) (hw : utf8ToWchar input = some (wc, k)) :
    utf8ToUtf16Loop (fuel + 1) input out outsize =
      if outsize - out.length < (toUtf16 wc).length then .error .enametoolong
      else if wc = 0 then fits (out ++ [0]) outsize
      else utf8ToUtf16Loop fuel (input.drop k) (out ++ toUtf16 wc) outsize := by
  rw [utf8ToUtf16Loop, if_neg (by simpa using hi), hw]
  dsimp only
  rw [wcharToUtf16_eq]
  by_cases hlt : outsize - out.length < (toUtf16 wc).length
  · simp only [if_pos hlt]
  · simp only [if_neg hlt]
    by_cases h0 : wc = 0
    · simp only [h0, if_true]
      rfl
    · simp only [h0, if_false]

/-- The loop of `utf8_to_utf16` on bytes that encode characters. -/
theorem utf8ToUtf16Loop_some {fuel outsize : Nat} {input : List UInt8} {out cs : List Nat}
    (h : wchars fuel input = some cs) :
    utf8ToUtf16Loop fuel input out outsize = fits (out ++ cs.flatMap toUtf16) outsize := by
  induction fuel generalizing input out cs with
  | zero =>
    cases h
    rw [List.flatMap_nil, List.append_nil]
    rfl
  | succ fuel ih =>
    rw [wchars] at h
    cases hi : input with
    | nil =>
      rw [hi] at h
      cases h
      rw [List.flatMap_nil, List.append_nil]
      rfl
    | cons b bs =>
      rw [← hi]
      have hne : input ≠ [] := by simp [hi]
      rw [if_neg (by simpa using hne)] at h
      cases hw : utf8ToWchar input with
      | none =>
        rw [hw] at h
        cases h
      | some p =>
        obtain ⟨wc, k⟩ := p
        rw [hw] at h
        dsimp only at h
        rw [utf8ToUtf16Loop_step hne hw]
        by_cases h0 : wc = 0
        · subst h0
          cases h
          simp only [if_true, List.flatMap_singleton, show toUtf16 0 = [0] from rfl,
            List.length_singleton]
          split
          · rw [fits_full]
            simp only [List.length_append, List.length_singleton]
            omega
          · rfl
        · rw [if_neg h0] at h ⊢
          obtain ⟨ds, hd, rfl⟩ := Option.map_eq_some_iff.mp h
          rw [List.flatMap_cons, ← List.append_assoc]
          split
          · rw [fits_full]
            simp only [List.length_append]
            omega
          · exact ih hd

/-- The loop of `utf8_to_utf16` on other bytes. -/
theorem utf8ToUtf16Loop_none {fuel outsize : Nat} {input : List UInt8} {out : List Nat}
    (h : wchars fuel input = none) :
    ∃ e, utf8ToUtf16Loop fuel input out outsize = .error e := by
  induction fuel generalizing input out with
  | zero => cases h
  | succ fuel ih =>
    rw [wchars] at h
    cases hi : input with
    | nil =>
      rw [hi] at h
      cases h
    | cons b bs =>
      rw [← hi]
      have hne : input ≠ [] := by simp [hi]
      rw [if_neg (by simpa using hne)] at h
      cases hw : utf8ToWchar input with
      | none =>
        rw [utf8ToUtf16Loop, if_neg (by simpa using hne), hw]
        exact ⟨_, rfl⟩
      | some p =>
        obtain ⟨wc, k⟩ := p
        rw [hw] at h
        dsimp only at h
        rw [utf8ToUtf16Loop_step hne hw]
        by_cases h0 : wc = 0
        · rw [if_pos h0] at h
          cases h
        · rw [if_neg h0] at h ⊢
          split
          · exact ⟨_, rfl⟩
          · exact ih (Option.map_eq_none_iff.mp h)

/-- What `utf8_to_utf16` accepts, and what it writes. -/
theorem utf8ToUtf16_ok {input : List UInt8} {outsize : Nat} {units : List Nat} :
    utf8ToUtf16 input outsize = .ok units ↔ ∃ cs, characters input = some cs ∧
      cs.flatMap toUtf16 = units ∧ units.length < outsize := by
  rw [utf8ToUtf16, characters]
  cases ho : wchars input.length input with
  | none =>
    obtain ⟨e, he⟩ := @utf8ToUtf16Loop_none input.length outsize input [] ho
    simp [he]
  | some cs =>
    rw [utf8ToUtf16Loop_some ho, fits_ok, List.nil_append]
    constructor
    · rintro ⟨rfl, hl⟩
      exact ⟨cs, rfl, rfl, hl⟩
    · rintro ⟨_, ⟨⟩, rfl, hl⟩
      exact ⟨rfl, hl⟩

/-- The tests of `utf8_to_wchar` on the first byte of a character. -/
theorem lead_masks {b : Nat} (h : b < 0x100) : b &&& 0x80 = b / 0x80 * 0x80 ∧
    b &&& 0xe0 = b / 0x20 * 0x20 ∧ b &&& 0xf0 = b / 0x10 * 0x10 ∧ b &&& 0xf8 = b / 8 * 8 :=
  ⟨and_mask (n := 7) (k := 1) h, and_mask (n := 5) (k := 3) h, and_mask (n := 4) (k := 4) h,
    and_mask (n := 3) (k := 5) h⟩

theorem toNat_ofNat_byte {n : Nat} (h : n < 0x100) : (UInt8.ofNat n).toNat = n := by
  simpa using Nat.mod_eq_of_lt h

/-- `utf8_to_wchar` reads what `wchar_to_utf8` writes. -/
theorem utf8ToWchar_toUtf8 {c : Nat} (h : c ≤ 0x10ffff) (rest : List UInt8) :
    utf8ToWchar (toUtf8 c ++ rest) = some (c, (toUtf8 c).length) := by
  have h6 : ∀ x, x &&& 0x3f = x % 0x40 := fun x => Nat.and_two_pow_sub_one_eq_mod x 6
  have h5 : ∀ x, x &&& 0x1f = x % 0x20 := fun x => Nat.and_two_pow_sub_one_eq_mod x 5
  have h4 : ∀ x, x &&& 0x0f = x % 0x10 := fun x => Nat.and_two_pow_sub_one_eq_mod x 4
  have h3 : ∀ x, x &&& 0x07 = x % 0x08 := fun x => Nat.and_two_pow_sub_one_eq_mod x 3
  have hmod : ∀ x, x % 0x40 < 0x40 := fun x => Nat.mod_lt x (by norm_num)
  by_cases k1 : c < 0x80
  · obtain ⟨m1, -⟩ := @lead_masks c (by omega)
    have hz : c / 0x80 * 0x80 = 0 := by omega
    simp only [toUtf8, if_pos k1, List.singleton_append, utf8ToWchar, List.getD_cons_zero,
      toNat_ofNat_byte (show c < 0x100 by omega), m1, hz, List.length_cons]
    simp
  · by_cases k2 : c < 0x800
    · have hb : c / 0x40 + 0xc0 < 0x100 := by omega
      obtain ⟨m1, m2, -⟩ := lead_masks hb
      have t1 : (c / 0x40 + 0xc0) / 0x80 * 0x80 = 0x80 := by omega
      have t2 : (c / 0x40 + 0xc0) / 0x20 * 0x20 = 0xc0 := by omega
      have hval : (c / 0x40 + 0xc0) % 0x20 * 0x40 + (c % 0x40 + 0x80) % 0x40 = c := by omega
      simp only [toUtf8, if_neg k1, if_pos k2, List.cons_append, List.nil_append, utf8ToWchar,
        List.getD_cons_zero, List.getD_cons_succ, toNat_ofNat_byte hb,
        toNat_ofNat_byte (show c % 0x40 + 0x80 < 0x100 by omega), m1, m2, t1, t2, h5, h6,
        shift6_or _ (hmod _), hval, List.length_cons]
      simp
    · by_cases k3 : c < 0x10000
      · have hb : c / 0x1000 + 0xe0 < 0x100 := by omega
        obtain ⟨m1, m2, m3, -⟩ := lead_masks hb
        have t1 : (c / 0x1000 + 0xe0) / 0x80 * 0x80 = 0x80 := by omega
        have t2 : (c / 0x1000 + 0xe0) / 0x20 * 0x20 = 0xe0 := by omega
        have t3 : (c / 0x1000 + 0xe0) / 0x10 * 0x10 = 0xe0 := by omega
        have hval : (c / 0x1000 + 0xe0) % 0x10 * 0x1000 + (c / 0x40 % 0x40 + 0x80) % 0x40 * 0x40 +
            (c % 0x40 + 0x80) % 0x40 = c := by omega
        simp only [toUtf8, if_neg k1, if_neg k2, if_pos k3, List.cons_append, List.nil_append,
          utf8ToWchar, List.getD_cons_zero, List.getD_cons_succ, toNat_ofNat_byte hb,
          toNat_ofNat_byte (show c % 0x40 + 0x80 < 0x100 by omega),
          toNat_ofNat_byte (show c / 0x40 % 0x40 + 0x80 < 0x100 by omega), m1, m2, m3, t1, t2, t3,
          h4, h6, shift12_or _ (hmod _) (hmod _), hval, List.length_cons]
        simp
      · have hb : c / 0x40000 + 0xf0 < 0x100 := by omega
        obtain ⟨m1, m2, m3, m4⟩ := lead_masks hb
        have t1 : (c / 0x40000 + 0xf0) / 0x80 * 0x80 = 0x80 := by omega
        have t2 : (c / 0x40000 + 0xf0) / 0x20 * 0x20 = 0xe0 := by omega
        have t3 : (c / 0x40000 + 0xf0) / 0x10 * 0x10 = 0xf0 := by omega
        have t4 : (c / 0x40000 + 0xf0) / 8 * 8 = 0xf0 := by omega
        have hval : (c / 0x40000 + 0xf0) % 0x08 * 0x40000 +
            (c / 0x1000 % 0x40 + 0x80) % 0x40 * 0x1000 + (c / 0x40 % 0x40 + 0x80) % 0x40 * 0x40 +
            (c % 0x40 + 0x80) % 0x40 = c := by omega
        simp only [toUtf8, if_neg k1, if_neg k2, if_neg k3, List.cons_append, List.nil_append,
          utf8ToWchar, List.getD_cons_zero, List.getD_cons_succ, toNat_ofNat_byte hb,
          toNat_ofNat_byte (show c % 0x40 + 0x80 < 0x100 by omega),
          toNat_ofNat_byte (show c / 0x40 % 0x40 + 0x80 < 0x100 by omega),
          toNat_ofNat_byte (show c / 0x1000 % 0x40 + 0x80 < 0x100 by omega), m1, m2, m3, m4, t1, t2,
          t3, t4, h3, h6, shift18_or _ (hmod _) (hmod _) (hmod _), hval, List.length_cons]
        simp

/-- A character of the bytes that are left. -/
theorem wchars_cons {fuel c : Nat} (h : c ≤ 0x10ffff) (h0 : c ≠ 0) (rest : List UInt8) :
    wchars (fuel + 1) (toUtf8 c ++ rest) = (wchars fuel rest).map (c :: ·) := by
  have hne : ¬(toUtf8 c ++ rest).isEmpty = true := by
    have hl := toUtf8_pos c
    simp only [List.isEmpty_iff, List.append_eq_nil_iff, not_and]
    intro hnil
    rw [hnil] at hl
    simp at hl
  rw [wchars, if_neg hne, utf8ToWchar_toUtf8 h]
  simp only [h0, if_false, List.drop_left]

/-- The characters of well-formed bytes. -/
theorem characters_toUtf8 {cs : List Nat} (h : ∀ c ∈ cs, c ≠ 0 ∧ c ≤ 0x10ffff) :
    characters (cs.flatMap toUtf8) = some cs := by
  have hf : ∀ fuel, (cs.flatMap toUtf8).length ≤ fuel →
      wchars fuel (cs.flatMap toUtf8) = some cs := by
    induction cs with
    | nil =>
      intro fuel _
      cases fuel <;> rfl
    | cons c cs ih =>
      intro fuel hl
      obtain ⟨h0, hle⟩ := h c (by simp)
      have hp := toUtf8_pos c
      rw [List.flatMap_cons, List.length_append] at hl
      cases fuel with
      | zero => omega
      | succ fuel =>
        rw [List.flatMap_cons, wchars_cons hle h0, ih (fun d hd => h d (by simp [hd])) fuel (by omega)]
        rfl
  exact hf _ le_rfl

/-- Only the last character of a byte string may be zero. -/
theorem wchars_zero {fuel : Nat} {input : List UInt8} {cs : List Nat}
    (h : wchars fuel input = some cs) : ∃ ds, (∀ d ∈ ds, d ≠ 0) ∧ (cs = ds ∨ cs = ds ++ [0]) := by
  induction fuel generalizing input cs with
  | zero =>
    cases h
    exact ⟨[], by simp, Or.inl rfl⟩
  | succ fuel ih =>
    rw [wchars] at h
    split at h
    · cases h
      exact ⟨[], by simp, Or.inl rfl⟩
    · split at h
      · cases h
      · rename_i wc k _
        split at h
        · cases h
          exact ⟨[], by simp, Or.inr rfl⟩
        · rename_i h0
          obtain ⟨es, he, rfl⟩ := Option.map_eq_some_iff.mp h
          obtain ⟨ds, hd, hcs⟩ := ih he
          refine ⟨wc :: ds, ?_, ?_⟩
          · simpa [h0] using hd
          · rcases hcs with rfl | rfl
            · exact Or.inl rfl
            · exact Or.inr rfl

end Proofs

end Exfat
