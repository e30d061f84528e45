import Exfat.Proofs.Utf
import Exfat.Model.Lookup

namespace Exfat
open Lib

/-! Names between UTF-8 and UTF-16: the two conversions are inverse to each other, and which names
that are accepted can be printed. -/

namespace Proofs

theorem toUtf8_char (c : Char) : toUtf8 c.toNat = String.utf8EncodeChar c := by
  have hv : c.toNat ≤ 0x10ffff := by
    have := c.valid
    rcases this with h | h
    · exact le_trans (Nat.le_of_lt h) (by norm_num)
    · exact Nat.le_of_lt_succ h.2
  have hc : c.val.toNat = c.toNat := rfl
  unfold toUtf8 String.utf8EncodeChar
  simp only [hc]
  by_cases h1 : c.toNat < 0x80
  · rw [if_pos h1, if_pos (by omega)]
  · by_cases h2 : c.toNat < 0x800
    · rw [if_neg h1, if_pos h2, if_neg (by omega), if_pos (by omega),
        Nat.mod_eq_of_lt (show c.toNat / 64 < 32 by omega)]
    · by_cases h3 : c.toNat < 0x10000
      · rw [if_neg h1, if_neg h2, if_pos h3, if_neg (by omega), if_neg (by omega),
          if_pos (by omega), Nat.mod_eq_of_lt (show c.toNat / 4096 < 16 by omega)]
      · rw [if_neg h1, if_neg h2, if_neg h3, if_neg (by omega), if_neg (by omega),
          if_neg (by omega), Nat.mod_eq_of_lt (show c.toNat / 262144 < 8 by omega)]

theorem plain_char {c : Char} (h : c ≠ Char.ofNat 0) : Plain c.toNat := by
  have h0 : c.toNat ≠ 0 := by
    intro he
    apply h
    rw [← he, Char.ofNat_toNat]
  have := c.valid
  refine ⟨by omega, ?_, isHigh_eq_false.mpr ?_⟩
  · rcases this with h | h
    · exact le_trans (Nat.le_of_lt h) (by norm_num)
    · exact Nat.le_of_lt_succ h.2
  · rcases this with h | h
    · exact Or.inl h
    · exact Or.inr (le_trans (by norm_num) (Nat.le_of_lt h.1))

/-- Units that were read from a terminated array. -/
theorem take_terminated {us rest : List Nat} {n : Nat} (h : us.length ≤ n) :
    ofUtf16 ((us ++ 0 :: rest).take n) = ofUtf16 us := by
  rcases Nat.lt_or_ge us.length n with hlt | hge
  · obtain ⟨k, hk⟩ : ∃ k, n = us.length + (k + 1) := ⟨n - us.length - 1, by omega⟩
    rw [hk, List.take_length_add_append, List.take_succ_cons, ofUtf16_terminated]
  · rw [show n = us.length by omega, List.take_left]

theorem terminated_lt {us rest : List Nat} (hu : ∀ u ∈ us, u < 0x10000)
    (hr : ∀ u ∈ rest, u < 0x10000) : ∀ u ∈ us ++ 0 :: rest, u < 0x10000 := by
  intro u hm
  rcases List.mem_append.mp hm with hm | hm
  · exact hu u hm
  · rcases List.mem_cons.mp hm with rfl | hm
    · norm_num
    · exact hr u hm

/-- Which terminated arrays can be converted. -/
theorem utf16ToUtf8_succeeds {us rest : List Nat} {outsize insize : Nat}
    (hu : ∀ u ∈ us, u < 0x10000) (hr : ∀ u ∈ rest, u < 0x10000) (hl : us.length ≤ insize) :
    (∃ s, utf16ToUtf8 (us ++ 0 :: rest) outsize insize = .ok s) ↔
      ∃ cs, ofUtf16 us = some cs ∧ (cs.flatMap toUtf8).length < outsize := by
  simp only [utf16ToUtf8_ok (terminated_lt hu hr), take_terminated hl]
  constructor
  · rintro ⟨_, cs, hcs, rfl, hlt⟩
    exact ⟨cs, hcs, hlt⟩
  · rintro ⟨cs, hcs, hlt⟩
    exact ⟨_, cs, hcs, rfl, hlt⟩

/-- Printing a terminated array. -/
theorem utf16ToUtf8_terminated {us rest cs : List Nat} (hu : ∀ u ∈ us, u < 0x10000)
    (hr : ∀ u ∈ rest, u < 0x10000) (hl : us.length ≤ exfatNameMax) (h : ofUtf16 us = some cs)
    (hlen : (cs.flatMap toUtf16).length ≤ exfatNameMax) :
    utf16ToUtf8 (us ++ 0 :: rest) exfatUtf8NameBufferMax exfatNameMax = .ok (cs.flatMap toUtf8) := by
  have hle := flatMap_toUtf8_length_le cs
  rw [utf16ToUtf8_ok (terminated_lt hu hr)]
  refine ⟨cs, ?_, rfl, ?_⟩
  · rw [take_terminated hl, h]
  · simp only [exfatUtf8NameBufferMax, exfatNameMax] at hlen ⊢
    omega

/-- `utf8_to_utf16` on well-formed bytes. -/
theorem utf8ToUtf16_toUtf8 {cs : List Nat} (h : ∀ c ∈ cs, Plain c) (outsize : Nat) :
    utf8ToUtf16 (cs.flatMap toUtf8) outsize = fits (cs.flatMap toUtf16) outsize := by
  have hc : characters (cs.flatMap toUtf8) = some cs :=
    characters_toUtf8 fun c hc => ⟨Nat.pos_iff_ne_zero.mp (h c hc).1, (h c hc).2.1⟩
  rw [utf8ToUtf16, utf8ToUtf16Loop_some hc, List.nil_append]

/-- The conversions of `utf.c` are inverse to each other: on UTF-8 strings whose UTF-16 form fits
into a name, and on units whose high surrogates are paired. -/
theorem utf_mutually_inverse :
    (∀ cs : List Char, Char.ofNat 0 ∉ cs →
      let bytes := cs.flatMap String.utf8EncodeChar
      let units := cs.flatMap fun c => toUtf16 c.toNat
      (units.length ≤ exfatNameMax →
        utf8ToUtf16 bytes (exfatNameMax + 1) = .ok units ∧
        ∀ rest : List Nat, (∀ u ∈ rest, u < 2 ^ 16) →
          utf16ToUtf8 (units ++ 0 :: rest) exfatUtf8NameBufferMax exfatNameMax = .ok bytes) ∧
      (exfatNameMax + 1 ≤ units.length →
        utf8ToUtf16 bytes (exfatNameMax + 1) = .error .enametoolong)) ∧
    ∀ units : List Nat, units.length ≤ exfatNameMax → (∀ u ∈ units, 0 < u ∧ u < 2 ^ 16) →
      Paired units = true → ∃ bytes,
        (∀ rest : List Nat, (∀ u ∈ rest, u < 2 ^ 16) →
          utf16ToUtf8 (units ++ 0 :: rest) exfatUtf8NameBufferMax exfatNameMax = .ok bytes) ∧
        utf8ToUtf16 bytes (exfatNameMax + 1) = .ok units := by
  refine ⟨fun cs h0 => ?_, fun units hl hu hp => ?_⟩
  · have hplain : ∀ c ∈ cs.map Char.toNat, Plain c := by
      intro c hc
      obtain ⟨d, hd, rfl⟩ := List.mem_map.mp hc
      exact plain_char fun he => h0 (he ▸ hd)
    have hbytes : cs.flatMap String.utf8EncodeChar = (cs.map Char.toNat).flatMap toUtf8 := by
      rw [List.flatMap_map]
      simp only [toUtf8_char]
    have hunits : (cs.flatMap fun c => toUtf16 c.toNat) = (cs.map Char.toNat).flatMap toUtf16 := by
      rw [List.flatMap_map]
    dsimp only
    rw [hbytes, hunits, utf8ToUtf16_toUtf8 hplain]
    refine ⟨fun hl => ⟨?_, fun rest hr => ?_⟩, fun hl => fits_full hl⟩
    · rw [fits_ok]
      exact ⟨rfl, Nat.lt_succ_of_le hl⟩
    · exact utf16ToUtf8_terminated (fun u hu => flatMap_toUtf16_lt hu) hr hl
        (ofUtf16_toUtf16 hplain) hl
  · have hlt : ∀ u ∈ units, u < 0x10000 := fun u hm => (hu u hm).2
    have hne : ∀ u ∈ units, u ≠ 0 := fun u hm => Nat.pos_iff_ne_zero.mp (hu u hm).1
    have hsome := ofUtf16_isSome hne
    rw [flatMap_toUtf16_units hlt, hp] at hsome
    obtain ⟨cs, hcs⟩ := Option.isSome_iff_exists.mp hsome
    have hback : cs.flatMap toUtf16 = units := by
      rw [toUtf16_ofUtf16 hcs hlt, List.takeWhile_eq_self_iff]
      simpa using hne
    refine ⟨cs.flatMap toUtf8, fun rest hr => ?_, ?_⟩
    · exact utf16ToUtf8_terminated hlt hr hl hcs (hback ▸ hl)
    · rw [utf8ToUtf16_toUtf8 (ofUtf16_plain hcs hlt), fits_ok, hback]
      exact ⟨rfl, Nat.lt_succ_of_le hl⟩

theorem padName_terminated {us : List Nat} (h : us.length ≤ exfatNameMax) :
    padName us = us ++ 0 :: List.replicate (exfatNameMax - us.length) 0 := by
  rw [padName, ← List.replicate_succ, show exfatNameMax + 1 - us.length =
    exfatNameMax - us.length + 1 by omega]

/-- A name that was accepted can be printed exactly when every high surrogate among its characters is
followed by a low one; otherwise `exfat_get_name` takes it for a bug. -/
theorem name_prints_iff {name : List UInt8} {units : List Nat}
    (h : utf8ToUtf16 name (exfatNameMax + 1) = .ok units) :
    (∃ buffer, utf16ToUtf8 (padName units) exfatUtf8NameBufferMax exfatNameMax = .ok buffer ∧
      ∀ w, exfatGetName (padName units) w = .ok (buffer, w)) ↔
      Paired ((characters name).getD []) = true := by
  obtain ⟨cs, hcs, rfl, hl⟩ := utf8ToUtf16_ok.mp h
  have hle : (cs.flatMap toUtf16).length ≤ exfatNameMax := Nat.le_of_lt_succ hl
  have hlt : ∀ u ∈ cs.flatMap toUtf16, u < 0x10000 := fun u hu => flatMap_toUtf16_lt hu
  -- the zero that may end the characters is a terminator
  have hsome : (ofUtf16 (cs.flatMap toUtf16)).isSome = Paired cs := by
    obtain ⟨ds, hd, rfl | rfl⟩ := wchars_zero hcs
    · exact ofUtf16_isSome hd
    · rw [List.flatMap_append, List.flatMap_singleton, show toUtf16 0 = [0] from rfl,
        ofUtf16_terminated, paired_terminated, ofUtf16_isSome hd]
  have hzero : ∀ u ∈ List.replicate (exfatNameMax - (cs.flatMap toUtf16).length) 0, u < 0x10000 := by
    intro u hm
    rw [List.eq_of_mem_replicate hm]
    norm_num
  rw [hcs, Option.getD_some, ← hsome, padName_terminated hle]
  constructor
  · rintro ⟨buffer, hb, -⟩
    rw [utf16ToUtf8_ok (terminated_lt hlt hzero), take_terminated hle] at hb
    obtain ⟨es, he, -⟩ := hb
    rw [he]
    rfl
  · intro hs
    obtain ⟨es, he⟩ := Option.isSome_iff_exists.mp hs
    have hlen : (es.flatMap toUtf16).length ≤ exfatNameMax := by
      rw [toUtf16_ofUtf16 he hlt]
      exact (List.takeWhile_sublist _).length_le.trans hle
    have hok := utf16ToUtf8_terminated hlt hzero hle he hlen
    refine ⟨_, hok, fun w => ?_⟩
    rw [exfatGetName, hok]
    rfl

/-- The name `a`. -/
theorem name_prints_iff_letter :
    utf8ToUtf16 [0x61] (exfatNameMax + 1) = .ok [0x61] ∧
      ((∃ buffer, utf16ToUtf8 (padName [0x61]) exfatUtf8NameBufferMax exfatNameMax = .ok buffer ∧
        ∀ w, exfatGetName (padName [0x61]) w = .ok (buffer, w)) ↔
        Paired ((characters [0x61]).getD []) = true) :=
  ⟨rfl, name_prints_iff rfl⟩

/-- The bytes `ed a0 80` are accepted as a high surrogate, which cannot be printed. -/
theorem name_surrogate_unprintable :
    utf8ToUtf16 [0xed, 0xa0, 0x80] (exfatNameMax + 1) = .ok [0xd800] ∧
      utf16ToUtf8 (padName [0xd800]) exfatUtf8NameBufferMax exfatNameMax = .error .eilseq ∧
      ∀ w, exfatGetName (padName [0xd800]) w = .error (.bug "failed to convert name to UTF-8") := by
  have hbad : utf16ToUtf8 (padName [0xd800]) exfatUtf8NameBufferMax exfatNameMax = .error .eilseq := by
    decide +kernel
  refine ⟨rfl, hbad, fun w => ?_⟩
  rw [exfatGetName, hbad]
  rfl

end Proofs

end Exfat
