import Mathlib

namespace Exfat.Lib

/-! UTF-8 and UTF-16 over code points. A code point may be a surrogate. -/

/-- A mask that stands above the lowest `n` bits. -/
theorem and_shiftLeft (x m n : Nat) : x &&& m <<< n = (x >>> n &&& m) <<< n := by
  apply Nat.eq_of_testBit_eq
  intro i
  simp only [Nat.testBit_and, Nat.testBit_shiftLeft, Nat.testBit_shiftRight]
  by_cases h : n ≤ i
  · simp [h, Nat.add_sub_cancel' h]
  · simp [h]

/-- Bits joined to higher ones are added. -/
theorem shiftLeft_or {b n : Nat} (a : Nat) (h : b < 2 ^ n) : a <<< n ||| b = a * 2 ^ n + b := by
  rw [← Nat.shiftLeft_add_eq_or_of_lt h, Nat.shiftLeft_eq]

/-- A mask that keeps everything but the lowest `n` bits. -/
theorem and_mask {x n k : Nat} (h : x < 2 ^ (n + k)) : x &&& (2 ^ k - 1) <<< n = x / 2 ^ n * 2 ^ n := by
  have hq : x / 2 ^ n < 2 ^ k := by
    rw [Nat.div_lt_iff_lt_mul (Nat.two_pow_pos n), ← Nat.pow_add, Nat.add_comm]
    exact h
  rw [and_shiftLeft, Nat.shiftRight_eq_div_pow, Nat.and_two_pow_sub_one_eq_mod, Nat.mod_eq_of_lt hq,
    Nat.shiftLeft_eq]

theorem shift6_or (a : Nat) {b : Nat} (h : b < 0x40) : a <<< 6 ||| b = a * 0x40 + b :=
  shiftLeft_or a h

theorem shift12_or (a : Nat) {b c : Nat} (hb : b < 0x40) (hc : c < 0x40) :
    a <<< 12 ||| b <<< 6 ||| c = a * 0x1000 + b * 0x40 + c := by
  have h1 : a <<< 12 ||| b <<< 6 = (a * 0x40 + b) <<< 6 := by
    rw [shiftLeft_or a (by rw [Nat.shiftLeft_eq]; omega), Nat.shiftLeft_eq, Nat.shiftLeft_eq]
    omega
  rw [h1, shift6_or _ hc]
  omega

theorem shift18_or (a : Nat) {b c d : Nat} (hb : b < 0x40) (hc : c < 0x40) (hd : d < 0x40) :
    a <<< 18 ||| b <<< 12 ||| c <<< 6 ||| d = a * 0x40000 + b * 0x1000 + c * 0x40 + d := by
  have h1 : a <<< 18 ||| b <<< 12 = (a * 0x40 + b) <<< 12 := by
    rw [shiftLeft_or a (by rw [Nat.shiftLeft_eq]; omega), Nat.shiftLeft_eq, Nat.shiftLeft_eq]
    omega
  rw [h1, shift12_or _ hc hd]
  omega

/-- A unit that opens a surrogate pair. -/
def isHigh (u : Nat) : Bool := 0xd800 ≤ u ∧ u < 0xdc00

/-- A unit that closes a surrogate pair. -/
def isLow (u : Nat) : Bool := 0xdc00 ≤ u ∧ u < 0xe000

/-- The units of a code point; of one past the last plane only twenty bits are kept. -/
def toUtf16 (c : Nat) : List Nat :=
  if c < 0x10000 then [c]
  else [(c - 0x10000) / 0x400 % 0x400 + 0xd800, (c - 0x10000) % 0x400 + 0xdc00]

/-- The code point of a surrogate pair. -/
def joinPair (u v : Nat) : Nat := (u - 0xd800) * 0x400 + (v - 0xdc00) + 0x10000

/-- The code points of units up to a terminator; `none` when a high surrogate stands alone. -/
def ofUtf16 : List Nat → Option (List Nat)
  | [] => some []
  | u :: us =>
    if u = 0 then some []
    else if isHigh u then
      match us with
      | [] => none
      | v :: vs => if isLow v then (ofUtf16 vs).map (joinPair u v :: ·) else none
    else (ofUtf16 us).map (u :: ·)

/-- The bytes of a code point below `0x200000`. -/
def toUtf8 (c : Nat) : List UInt8 :=
  if c < 0x80 then [UInt8.ofNat c]
  else if c < 0x800 then [UInt8.ofNat (c / 0x40 + 0xc0), UInt8.ofNat (c % 0x40 + 0x80)]
  else if c < 0x10000 then
    [UInt8.ofNat (c / 0x1000 + 0xe0), UInt8.ofNat (c / 0x40 % 0x40 + 0x80),
      UInt8.ofNat (c % 0x40 + 0x80)]
  else
    [UInt8.ofNat (c / 0x40000 + 0xf0), UInt8.ofNat (c / 0x1000 % 0x40 + 0x80),
      UInt8.ofNat (c / 0x40 % 0x40 + 0x80), UInt8.ofNat (c % 0x40 + 0x80)]

/-- A code point that UTF-16 gives back: not zero, not a high surrogate, in one of the planes. -/
def Plain (c : Nat) : Prop := 0 < c ∧ c ≤ 0x10ffff ∧ isHigh c = false

/-- Every high surrogate is followed by a low one. -/
def Paired : List Nat → Bool
  | [] => true
  | c :: cs => (!isHigh c || cs.head?.any isLow) && Paired cs

theorem isHigh_iff {u : Nat} : isHigh u = true ↔ 0xd800 ≤ u ∧ u < 0xdc00 := by simp [isHigh]

theorem isLow_iff {u : Nat} : isLow u = true ↔ 0xdc00 ≤ u ∧ u < 0xe000 := by simp [isLow]

theorem isHigh_eq_false {u : Nat} : isHigh u = false ↔ u < 0xd800 ∨ 0xdc00 ≤ u := by
  simp only [isHigh, decide_eq_false_iff_not]
  omega

/-- The two units of a code point outside the first plane. -/
theorem toUtf16_wide {c : Nat} (h : ¬c < 0x10000) : ∃ u v, toUtf16 c = [u, v] ∧
    isHigh u = true ∧ isLow v = true ∧ (c ≤ 0x10ffff → joinPair u v = c) := by
  refine ⟨_, _, by rw [toUtf16, if_neg h], ?_, ?_, fun hc => ?_⟩
  · rw [isHigh_iff]
    omega
  · rw [isLow_iff]
    omega
  · unfold joinPair
    omega

theorem toUtf16_narrow {c : Nat} (h : c < 0x10000) : toUtf16 c = [c] := by rw [toUtf16, if_pos h]

theorem toUtf16_lt {c u : Nat} (h : u ∈ toUtf16 c) : u < 0x10000 := by
  unfold toUtf16 at h
  split at h
  · rw [List.mem_singleton] at h
    omega
  · simp only [List.mem_cons, List.not_mem_nil, or_false] at h
    omega

/-- A surrogate pair read and written back. -/
theorem toUtf16_joinPair {u v : Nat} (hu : isHigh u = true) (hv : isLow v = true) :
    toUtf16 (joinPair u v) = [u, v] := by
  rw [isHigh_iff] at hu
  rw [isLow_iff] at hv
  have h1 : ¬joinPair u v < 0x10000 := by
    unfold joinPair
    omega
  have h2 : (joinPair u v - 0x10000) / 0x400 % 0x400 = u - 0xd800 := by
    unfold joinPair
    omega
  have h3 : (joinPair u v - 0x10000) % 0x400 = v - 0xdc00 := by
    unfold joinPair
    omega
  rw [toUtf16, if_neg h1, h2, h3, Nat.sub_add_cancel hu.1, Nat.sub_add_cancel hv.1]

theorem joinPair_plain {u v : Nat} (hu : isHigh u = true) (hv : isLow v = true) :
    Plain (joinPair u v) := by
  rw [isHigh_iff] at hu
  rw [isLow_iff] at hv
  refine ⟨?_, ?_, isHigh_eq_false.mpr ?_⟩ <;> unfold joinPair <;> omega

theorem ofUtf16_pair {u v : Nat} (hu : isHigh u = true) (hv : isLow v = true) (us : List Nat) :
    ofUtf16 (u :: v :: us) = (ofUtf16 us).map (joinPair u v :: ·) := by
  have h0 : u ≠ 0 := by
    rw [isHigh_iff] at hu
    omega
  rw [ofUtf16.eq_def]
  simp only [h0, hu, hv, if_true, if_false]

theorem ofUtf16_single {u : Nat} (h0 : u ≠ 0) (hu : isHigh u = false) (us : List Nat) :
    ofUtf16 (u :: us) = (ofUtf16 us).map (u :: ·) := by
  rw [ofUtf16.eq_def]
  simp only [h0, hu, if_false, Bool.false_eq_true]

/-- A high surrogate that is not followed by a low one. -/
theorem ofUtf16_broken {u : Nat} (hu : isHigh u = true) {us : List Nat}
    (hv : us.head?.any isLow = false) : ofUtf16 (u :: us) = none := by
  have h0 : u ≠ 0 := by
    rw [isHigh_iff] at hu
    omega
  cases us with
  | nil =>
    rw [ofUtf16.eq_def]
    simp only [h0, hu, if_true, if_false]
  | cons v vs =>
    simp only [List.head?_cons, Option.any_some] at hv
    rw [ofUtf16.eq_def]
    simp only [h0, hu, hv, if_true, if_false, Bool.false_eq_true]

theorem ofUtf16_zero (us : List Nat) : ofUtf16 (0 :: us) = some [] := by
  rw [ofUtf16.eq_def]
  rfl

/-- Units that are read successfully, and the code points they stand for. -/
inductive Reads : List Nat → List Nat → Prop
  | nil : Reads [] []
  | stop (us : List Nat) : Reads (0 :: us) []
  | pair {u v : Nat} {us cs : List Nat} (hu : isHigh u = true) (hv : isLow v = true)
    (h : Reads us cs) : Reads (u :: v :: us) (joinPair u v :: cs)
  | single {u : Nat} {us cs : List Nat} (h0 : u ≠ 0) (hu : isHigh u = false) (h : Reads us cs) :
    Reads (u :: us) (u :: cs)

theorem ofUtf16_reads {us cs : List Nat} (h : ofUtf16 us = some cs) : Reads us cs := by
  fun_induction ofUtf16 us generalizing cs with
  | case1 =>
    cases h
    exact .nil
  | case2 us =>
    cases h
    exact .stop us
  | case3 => cases h
  | case4 u h0 hu v vs hv ih =>
    obtain ⟨ds, hd, rfl⟩ := Option.map_eq_some_iff.mp h
    exact .pair hu hv (ih hd)
  | case5 => cases h
  | case6 u us h0 hu ih =>
    obtain ⟨ds, hd, rfl⟩ := Option.map_eq_some_iff.mp h
    exact .single h0 (by simpa using hu) (ih hd)

/-- Reading what was written. -/
theorem ofUtf16_toUtf16 {cs : List Nat} (h : ∀ c ∈ cs, Plain c) :
    ofUtf16 (cs.flatMap toUtf16) = some cs := by
  induction cs with
  | nil => rfl
  | cons c cs ih =>
    obtain ⟨h0, hle, hc⟩ := h c (by simp)
    have ih := ih fun d hd => h d (by simp [hd])
    rw [List.flatMap_cons]
    by_cases hw : c < 0x10000
    · rw [toUtf16_narrow hw, List.singleton_append, ofUtf16_single (by omega) hc, ih]
      rfl
    · obtain ⟨u, v, he, hu, hv, hj⟩ := toUtf16_wide hw
      rw [he, List.cons_append, List.singleton_append, ofUtf16_pair hu hv, ih, hj hle]
      rfl

/-- Writing what was read. -/
theorem toUtf16_ofUtf16 {us cs : List Nat} (h : ofUtf16 us = some cs) (hlt : ∀ u ∈ us, u < 0x10000) :
    cs.flatMap toUtf16 = us.takeWhile (· ≠ 0) := by
  have hr := ofUtf16_reads h
  clear h
  induction hr with
  | nil => rfl
  | stop us => simp
  | @pair u v us cs hu hv hr ih =>
    have h0 : u ≠ 0 := by
      rw [isHigh_iff] at hu
      omega
    have h1 : v ≠ 0 := by
      rw [isLow_iff] at hv
      omega
    rw [List.flatMap_cons, toUtf16_joinPair hu hv, ih fun x hx => hlt x (by simp [hx])]
    simp [h0, h1]
  | single h0 hu hr ih =>
    rw [List.flatMap_cons, toUtf16_narrow (hlt _ (by simp)), ih fun x hx => hlt x (by simp [hx])]
    simp [h0]

theorem ofUtf16_plain {us cs : List Nat} (h : ofUtf16 us = some cs) (hlt : ∀ u ∈ us, u < 0x10000) :
    ∀ c ∈ cs, Plain c := by
  have hr := ofUtf16_reads h
  clear h
  induction hr with
  | nil => simp
  | stop us => simp
  | pair hu hv hr ih =>
    intro c hc
    rcases List.mem_cons.mp hc with rfl | hc
    · exact joinPair_plain hu hv
    · exact ih (fun x hx => hlt x (by simp [hx])) c hc
  | single h0 hu hr ih =>
    intro c hc
    rcases List.mem_cons.mp hc with rfl | hc
    · have hc := hlt c (by simp)
      exact ⟨by omega, by omega, hu⟩
    · exact ih (fun x hx => hlt x (by simp [hx])) c hc

theorem toUtf8_pos (c : Nat) : 0 < (toUtf8 c).length := by
  unfold toUtf8
  split
  · simp
  · split
    · simp
    · split <;> simp

theorem flatMap_toUtf16_lt {cs : List Nat} {u : Nat} (h : u ∈ cs.flatMap toUtf16) : u < 0x10000 := by
  obtain ⟨c, -, hu⟩ := List.mem_flatMap.mp h
  exact toUtf16_lt hu

theorem toUtf16_pos {c x : Nat} (hc : c ≠ 0) (h : x ∈ toUtf16 c) : 0 < x := by
  unfold toUtf16 at h
  split at h
  · rw [List.mem_singleton] at h
    omega
  · simp only [List.mem_cons, List.not_mem_nil, or_false] at h
    omega

theorem flatMap_toUtf16_pos {ds : List Nat} (hd : ∀ d ∈ ds, d ≠ 0) :
    ∀ x ∈ ds.flatMap toUtf16, 0 < x ∧ x < 2 ^ 16 := by
  intro x hx
  refine ⟨?_, flatMap_toUtf16_lt hx⟩
  obtain ⟨d, hm, hx⟩ := List.mem_flatMap.mp hx
  exact toUtf16_pos (hd d hm) hx

theorem flatMap_toUtf16_nil {ds : List Nat} : ds.flatMap toUtf16 = [] ↔ ds = [] := by
  rw [List.flatMap_eq_nil_iff]
  constructor
  · intro h
    cases ds with
    | nil => rfl
    | cons d ds =>
      have := h d (by simp)
      unfold toUtf16 at this
      split at this <;> cases this
  · rintro rfl
    simp

/-- Units as code points of their own. -/
theorem flatMap_toUtf16_units {us : List Nat} (h : ∀ u ∈ us, u < 0x10000) :
    us.flatMap toUtf16 = us := by
  induction us with
  | nil => rfl
  | cons u us ih =>
    rw [List.flatMap_cons, toUtf16_narrow (h u (by simp)), ih fun v hv => h v (by simp [hv])]
    rfl

theorem paired_terminated (cs : List Nat) : Paired (cs ++ [0]) = Paired cs := by
  induction cs with
  | nil => rfl
  | cons c cs ih =>
    rw [List.cons_append, Paired, Paired, ih]
    cases cs <;> simp [isLow]

/-- A code point takes at most three bytes for each of its units. -/
theorem toUtf8_length_le (c : Nat) : (toUtf8 c).length ≤ 3 * (toUtf16 c).length := by
  unfold toUtf8 toUtf16
  by_cases h1 : c < 0x80
  · simp [h1, show c < 0x10000 by omega]
  · by_cases h2 : c < 0x800
    · simp [h1, h2, show c < 0x10000 by omega]
    · by_cases h3 : c < 0x10000
      · simp [h1, h2, h3]
      · simp [h1, h2, h3]

theorem flatMap_toUtf8_length_le (cs : List Nat) :
    (cs.flatMap toUtf8).length ≤ 3 * (cs.flatMap toUtf16).length := by
  induction cs with
  | nil => simp
  | cons c cs ih =>
    have h := toUtf8_length_le c
    simp only [List.flatMap_cons, List.length_append]
    omega

/-- Nothing behind a terminator is read. -/
theorem ofUtf16_terminated (us rest : List Nat) : ofUtf16 (us ++ 0 :: rest) = ofUtf16 us := by
  fun_induction ofUtf16 us with
  | case1 => exact ofUtf16_zero rest
  | case2 us => exact ofUtf16_zero _
  | case3 u h0 hu =>
    rw [List.singleton_append]
    exact ofUtf16_broken hu (by simp [isLow])
  | case4 u h0 hu v vs hv ih =>
    rw [List.cons_append, List.cons_append, ofUtf16_pair hu hv, ih]
  | case5 u h0 hu v vs hv =>
    rw [List.cons_append, List.cons_append]
    exact ofUtf16_broken hu (by simpa using hv)
  | case6 u us h0 hu ih =>
    rw [List.cons_append, ofUtf16_single h0 (by simpa using hu), ih]

/-- Reading stops at the first terminator. -/
theorem ofUtf16_takeWhile (us : List Nat) : ofUtf16 (us.takeWhile (· ≠ 0)) = ofUtf16 us := by
  have hall := List.takeWhile_append_dropWhile (p := (· ≠ 0)) (l := us)
  rcases hd : us.dropWhile (· ≠ 0) with - | ⟨z, rest⟩
  · rw [hd, List.append_nil] at hall
    rw [hall]
  · have hz : z = 0 := by
      have hne : us.dropWhile (· ≠ 0) ≠ [] := by
        rw [hd]
        exact List.cons_ne_nil z rest
      have hhead := List.head_dropWhile_not (· ≠ 0) hne
      simp only [hd, List.head_cons] at hhead
      simpa using hhead
    rw [hd, hz] at hall
    rw [← ofUtf16_terminated, hall]

theorem takeWhile_eq_nil {us : List Nat} : us.takeWhile (· ≠ 0) = [] ↔ us.getD 0 0 = 0 := by
  cases us <;> simp

theorem takeWhile_terminated (us rest : List Nat) :
    (us ++ 0 :: rest).takeWhile (· ≠ 0) = us.takeWhile (· ≠ 0) := by
  induction us with
  | nil => simp
  | cons u us ih =>
    rw [List.cons_append, List.takeWhile_cons, List.takeWhile_cons, ih]

/-- Two strings are the same when they agree up to the terminator of the first. -/
theorem takeWhile_eq_iff {us vs : List Nat} :
    vs.takeWhile (· ≠ 0) = us.takeWhile (· ≠ 0) ↔
      ∀ i, (∀ j < i, us.getD j 0 ≠ 0) → vs.getD i 0 = us.getD i 0 := by
  induction us generalizing vs with
  | nil =>
    rw [List.takeWhile_nil, takeWhile_eq_nil]
    constructor
    · intro h i hi
      cases i with
      | zero => exact h
      | succ i => exact absurd rfl (hi 0 (Nat.succ_pos i))
    · intro h
      exact h 0 (by simp)
  | cons u us ih =>
    by_cases hu : u = 0
    · rw [takeWhile_eq_nil.mpr (show (u :: us).getD 0 0 = 0 from hu), takeWhile_eq_nil]
      constructor
      · intro h i hi
        cases i with
        | zero => exact h.trans hu.symm
        | succ i => exact absurd hu (hi 0 (Nat.succ_pos i))
      · intro h
        exact (h 0 (by simp)).trans hu
    · rw [List.takeWhile_cons_of_pos (by simpa using hu)]
      cases vs with
      | nil =>
        constructor
        · intro h
          cases h
        · intro h
          exact absurd (h 0 (by simp)).symm hu
      | cons v vs =>
        by_cases hv : v = u
        · subst hv
          rw [List.takeWhile_cons_of_pos (by simpa using hu), List.cons.injEq, ih]
          constructor
          · rintro ⟨-, h⟩ i hi
            cases i with
            | zero => rfl
            | succ i => exact h i fun j hj => hi (j + 1) (Nat.succ_lt_succ hj)
          · intro h
            refine ⟨rfl, fun i hi => h (i + 1) fun j hj => ?_⟩
            cases j with
            | zero => exact hu
            | succ j => exact hi j (Nat.lt_of_succ_lt_succ hj)
        · constructor
          · intro h
            have h0 := congrArg (fun l => l.getD 0 0) h
            by_cases hz : v = 0
            · simp [hz, Ne.symm hu] at h0
            · simp [hz, hv] at h0
          · intro h
            exact absurd (h 0 (by simp)) hv

/-- Code points can be read back exactly when their surrogates are paired. -/
theorem ofUtf16_isSome {cs : List Nat} (h : ∀ c ∈ cs, c ≠ 0) :
    (ofUtf16 (cs.flatMap toUtf16)).isSome = Paired cs := by
  induction cs with
  | nil => rfl
  | cons c cs ih =>
    have ih := ih fun d hd => h d (by simp [hd])
    have h0 := h c (by simp)
    rw [List.flatMap_cons, Paired]
    by_cases hw : c < 0x10000
    · rw [toUtf16_narrow hw, List.singleton_append]
      cases hc : isHigh c with
      | false =>
        rw [ofUtf16_single h0 hc, Option.isSome_map, ih]
        simp
      | true =>
        cases cs with
        | nil =>
          rw [List.flatMap_nil, ofUtf16_broken hc rfl]
          simp
        | cons d ds =>
          by_cases hd : d < 0x10000
          · cases hl : isLow d with
            | false =>
              rw [ofUtf16_broken hc]
              · simp [hl]
              · simp [toUtf16_narrow hd, hl]
            | true =>
              have hdh : isHigh d = false := by
                rw [isLow_iff] at hl
                rw [isHigh_eq_false]
                omega
              rw [List.flatMap_cons, toUtf16_narrow hd, List.singleton_append,
                ofUtf16_single (h d (by simp)) hdh, Option.isSome_map] at ih
              rw [List.flatMap_cons, toUtf16_narrow hd, List.singleton_append, ofUtf16_pair hc hl,
                Option.isSome_map, ih]
              simp [hl]
          · obtain ⟨u, v, he, hu, -, -⟩ := toUtf16_wide hd
            have hul : isLow u = false := by
              rw [isHigh_iff] at hu
              simp only [isLow, decide_eq_false_iff_not]
              omega
            have hdl : isLow d = false := by
              simp only [isLow, decide_eq_false_iff_not]
              omega
            rw [ofUtf16_broken hc]
            · simp [hdl]
            · simp [he, hul]
    · obtain ⟨u, v, he, hu, hv, -⟩ := toUtf16_wide hw
      have hch : isHigh c = false := by
        rw [isHigh_eq_false]
        omega
      rw [he, List.cons_append, List.singleton_append, ofUtf16_pair hu hv, Option.isSome_map, ih]
      simp [hch]

end Exfat.Lib
