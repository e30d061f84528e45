import Exfat.Proofs.Basic
import Exfat.Model.Time

namespace Exfat
open Lib

/-! Times on disk: what `exfat_unix2exfat` packs, `exfat_exfat2unix` unpacks. -/

namespace Proofs

/-- Days of a year before a month. -/
def daysBefore (leap : Bool) (month : Nat) : Int :=
  daysInYear month + if leap ∧ month ≥ 3 then 1 else 0

theorem daysBefore_succ (leap : Bool) {i : Nat} (hi : 1 ≤ i) (hm : i ≤ 11) :
    daysBefore leap (i + 1) ≤ daysBefore leap i + 31 := by
  revert leap
  interval_cases i <;> decide

theorem daysBefore_last (leap : Bool) : daysBefore leap 12 = 334 + if leap then 1 else 0 := by
  cases leap <;> rfl

/-- The test of the month search compares with the days before the next month. -/
theorem findMonth_test (leap : Bool) {i : Nat} (hi : 1 ≤ i) (hm : i ≤ 11) :
    daysInYear (i + 1) + (if leap = true ∧ i = 2 then 1 else 0) +
      (if leap = true ∧ i ≥ 3 then 1 else 0) = daysBefore leap (i + 1) := by
  revert leap
  interval_cases i <;> decide

/-- A month and a day of it that make up a day of the year. -/
def IsMonthDay (leap : Bool) (d : Int) (r : Nat × Int) : Prop :=
  1 ≤ r.1 ∧ r.1 ≤ 12 ∧ 0 ≤ r.2 ∧ r.2 < 31 ∧ d = daysBefore leap r.1 + r.2

/-- The month search stops at the last month that begins no later than the day. -/
theorem findMonth_stops (year d : Int) (fuel i : Nat) (hi : 1 ≤ i) (hm : i ≤ 12)
    (hf : 12 < fuel + i) (hd : daysBefore (isLeapYear year) i ≤ d) :
    ∃ m, 1 ≤ m ∧ m ≤ 12 ∧
      findMonth year d fuel i = (m, d - daysBefore (isLeapYear year) m) ∧
      daysBefore (isLeapYear year) m ≤ d ∧ (m < 12 → d < daysBefore (isLeapYear year) (m + 1)) := by
  induction fuel generalizing i with
  | zero => omega
  | succ fuel ih =>
    have hbi : daysBefore (isLeapYear year) i =
        daysInYear i + if isLeapYear year = true ∧ i ≥ 3 then 1 else 0 := rfl
    have ht : i ≤ 11 → _ := findMonth_test (isLeapYear year) hi
    simp only [findMonth]
    generalize (if isLeapYear year = true ∧ i ≥ 3 then (1 : Int) else 0) = sub at *
    generalize (if isLeapYear year = true ∧ i = 2 then (1 : Int) else 0) = day at *
    by_cases hstop : i = 12 ∨ d - sub < daysInYear (i + 1) + day
    · rw [if_pos hstop]
      refine ⟨i, hi, hm, ?_, hd, fun hlt => ?_⟩
      · rw [hbi]
      · have := ht (by omega)
        omega
    · rw [if_neg hstop]
      have := ht (by omega)
      exact ih (i + 1) (by omega) (by omega) (by omega) (by omega)

/-- The month search stops at the month that holds the day. -/
theorem findMonth_spec (year d : Int) (fuel i : Nat) (hi : 1 ≤ i) (hm : i ≤ 12)
    (hf : 12 < fuel + i) (hd : daysBefore (isLeapYear year) i ≤ d)
    (hy : d < 365 + if isLeapYear year then 1 else 0) :
    IsMonthDay (isLeapYear year) d (findMonth year d fuel i) := by
  obtain ⟨m, h1, h12, heq, hle, hlt⟩ := findMonth_stops year d fuel i hi hm hf hd
  have hb : d < daysBefore (isLeapYear year) m + 31 := by
    rcases h12.lt_or_eq with hm' | rfl
    · have := daysBefore_succ (isLeapYear year) h1 (by omega)
      have := hlt hm'
      omega
    · rw [daysBefore_last]
      omega
  rw [heq]
  exact ⟨h1, h12, by simp only; omega, by simp only; omega, by simp only; omega⟩

theorem toInt32_of_range {x : Int} (hl : -2 ^ 31 ≤ x) (hr : x < 2 ^ 31) : toInt32 x = x := by
  simp only [toInt32]
  omega

theorem toU16_of_range {x : Int} (hl : 0 ≤ x) (hr : x < 2 ^ 16) : (toU16 x : Int) = x := by
  simp only [toU16]
  omega

/-- Three packed fields are the sum of their shifted values. -/
theorem pack_eq {a b c i j : Nat} (ha : a < 2 ^ i) (hb : b < 2 ^ j) :
    a ||| b <<< i ||| c <<< (i + j) = a + 2 ^ i * b + 2 ^ (i + j) * c := by
  have h1 : a ||| b <<< i = a + 2 ^ i * b := by
    rw [Nat.shiftLeft_eq, Nat.mul_comm, Nat.lor_comm, ← Nat.two_pow_add_eq_or_of_lt ha, Nat.add_comm]
  have h2 : a + 2 ^ i * b < 2 ^ (i + j) := by
    rw [Nat.pow_add]
    calc a + 2 ^ i * b < 2 ^ i + 2 ^ i * b := by omega
      _ = 2 ^ i * (b + 1) := by ring
      _ ≤ 2 ^ i * 2 ^ j := Nat.mul_le_mul_left _ hb
  rw [h1, Nat.shiftLeft_eq, Nat.mul_comm c, Nat.lor_comm, ← Nat.two_pow_add_eq_or_of_lt h2, Nat.add_comm]

/-- The date fields come back out of a packed date. -/
theorem unpack_date (day month year : Nat) (hd : day < 32) (hm : month < 16) (hy : year < 128) :
    (day ||| month <<< 5 ||| year <<< 9) % 2 ^ 16 &&& 0x1f = day ∧
      ((day ||| month <<< 5 ||| year <<< 9) % 2 ^ 16) >>> 5 &&& 0xf = month ∧
      ((day ||| month <<< 5 ||| year <<< 9) % 2 ^ 16) >>> 9 = year := by
  rw [pack_eq (i := 5) (j := 4) (by omega) (by omega), Nat.mod_eq_of_lt (by omega),
    show (0x1f : Nat) = 2 ^ 5 - 1 from rfl, show (0xf : Nat) = 2 ^ 4 - 1 from rfl,
    Nat.and_two_pow_sub_one_eq_mod, Nat.and_two_pow_sub_one_eq_mod, Nat.shiftRight_eq_div_pow,
    Nat.shiftRight_eq_div_pow]
  omega

/-- The time fields come back out of a packed time. -/
theorem unpack_time (twosec min hour : Nat) (ht : twosec < 32) (hm : min < 64) (hh : hour < 32) :
    (twosec ||| min <<< 5 ||| hour <<< 11) % 2 ^ 16 &&& 0x1f = twosec ∧
      ((twosec ||| min <<< 5 ||| hour <<< 11) % 2 ^ 16) >>> 5 &&& 0x3f = min ∧
      ((twosec ||| min <<< 5 ||| hour <<< 11) % 2 ^ 16) >>> 11 = hour := by
  rw [pack_eq (i := 5) (j := 6) (by omega) (by omega), Nat.mod_eq_of_lt (by omega),
    show (0x1f : Nat) = 2 ^ 5 - 1 from rfl, show (0x3f : Nat) = 2 ^ 6 - 1 from rfl,
    Nat.and_two_pow_sub_one_eq_mod, Nat.and_two_pow_sub_one_eq_mod, Nat.shiftRight_eq_div_pow,
    Nat.shiftRight_eq_div_pow]
  omega

section
variable [Env]

/-- Times that a directory entry can hold: from the exFAT epoch on, for 128 years. -/
def TimeInRange (unixTime : Int) : Prop :=
  epochDiffSec + Env.timezone ≤ unixTime ∧
    unixTime < epochDiffSec + Env.timezone + 46752 * secInDay

/-- The value `exfat_exfat2unix` returns, whatever it reports. -/
def timeOf (date time centisec : Nat) : Int :=
  match exfatExfat2unix date time centisec { dev := fun _ => 0 } with
  | .ok (t, _) => t
  | .error _ => 0

/-- `exfat_exfat2unix` only counts errors. -/
theorem exfatExfat2unix_spec {E : Halt → Prop} {w : World} (date time centisec : Nat) :
    Wp E (exfatExfat2unix date time centisec) w fun t v =>
      t = timeOf date time centisec ∧ ∃ e, v = w.erred e := by
  simp only [timeOf, exfatExfat2unix]
  split
  · exact ⟨rfl, _, rfl⟩
  · split
    · exact ⟨rfl, _, rfl⟩
    · split
      · exact ⟨rfl, _, rfl⟩
      · exact ⟨rfl, w.errors, rfl⟩

/-- Well-formed fields are read without a report. -/
theorem exfatExfat2unix_ok {date time cs : Nat} (w : World)
    (hd : date &&& 0x1f ≠ 0 ∧ date >>> 5 &&& 0xf ≠ 0 ∧ date >>> 5 &&& 0xf ≤ 12)
    (ht : time &&& 0x1f ≤ 29 ∧ time >>> 5 &&& 0x3f ≤ 59 ∧ time >>> 11 ≤ 23) (hcs : cs ≤ 199) :
    exfatExfat2unix date time cs w = .ok (timeOf date time cs, w) := by
  simp only [timeOf, exfatExfat2unix]
  rw [if_neg (by omega), if_neg (by omega), if_neg (by omega)]
  rfl

/-- The value of well-formed fields. -/
theorem timeOf_eq {date time cs day month year twosec min hour : Nat}
    (hd : date &&& 0x1f = day ∧ date >>> 5 &&& 0xf = month ∧ date >>> 9 = year)
    (ht : time &&& 0x1f = twosec ∧ time >>> 5 &&& 0x3f = min ∧ time >>> 11 = hour)
    (h1 : 1 ≤ day) (h2 : 1 ≤ month) (h3 : month ≤ 12) (h4 : hour ≤ 23) (h5 : min ≤ 59)
    (h6 : twosec ≤ 29) (h7 : cs ≤ 199) :
    timeOf date time cs = epochDiffSec + (year * secInYear + leapYears year * secInDay)
      + daysBefore (isLeapYear year) month * secInDay + ((day : Int) - 1) * secInDay
      + hour * secInHour + min * secInMin + twosec * 2 + (cs : Int) / 100 + Env.timezone := by
  obtain ⟨hd1, hd2, hd3⟩ := hd
  obtain ⟨ht1, ht2, ht3⟩ := ht
  simp only [timeOf, exfatExfat2unix, hd1, hd2, hd3, ht1, ht2, ht3]
  rw [if_neg (by omega), if_neg (by omega), if_neg (by omega)]
  simp only [pure, StateT.pure, Except.pure, daysBefore]
  by_cases hl : isLeapYear (year : Int) = true ∧ month ≥ 3
  · have hl' : isLeapYear (year : Int) = true ∧ month > 2 := hl
    rw [if_pos hl, if_pos hl']
    ring
  · have hl' : ¬(isLeapYear (year : Int) = true ∧ month > 2) := hl
    rw [if_neg hl, if_neg hl']
    ring

/-- The packed values fit in their fields. -/
theorem exfatUnix2exfat_lt (unixTime : Int) : (exfatUnix2exfat unixTime).1 < 2 ^ 16 ∧
    (exfatUnix2exfat unixTime).2.1 < 2 ^ 16 ∧ (exfatUnix2exfat unixTime).2.2 < 2 ^ 8 := by
  simp only [exfatUnix2exfat]
  refine ⟨Nat.mod_lt _ (by norm_num), Nat.mod_lt _ (by norm_num), ?_⟩
  omega

end

end Proofs

end Exfat
