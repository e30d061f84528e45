import Exfat.Proofs.Time

namespace Exfat
open Lib

/-! The dates and times a directory entry can hold, and the seconds they stand for. -/

/-- Days of a month of a year that has a leap day or not. -/
def daysOfMonth (leap : Bool) (month : Nat) : Nat :=
  [0, 31, if leap then 29 else 28, 31, 30, 31, 30, 31, 31, 30, 31, 30, 31].getD month 0

namespace Proofs

/-- A calendar date and time of a year between 1980 and 2107, to two seconds and one more. -/
structure Stamp where
  year : Nat
  month : Nat
  day : Nat
  hour : Nat
  min : Nat
  twosec : Nat
  centisec : Nat
  year_lt : year < 128
  month_pos : 1 ≤ month
  month_le : month ≤ 12
  day_pos : 1 ≤ day
  day_le : day ≤ daysOfMonth (isLeapYear year) month
  hour_lt : hour < 24
  min_lt : min < 60
  twosec_lt : twosec < 30
  centisec_eq : centisec = 0 ∨ centisec = 100

/-- The three fields on disk: date, time and centiseconds. -/
def Stamp.packed (s : Stamp) : Nat × Nat × Nat :=
  (s.day ||| s.month <<< 5 ||| s.year <<< 9, s.twosec ||| s.min <<< 5 ||| s.hour <<< 11, s.centisec)

/-- Days since the exFAT epoch. -/
def Stamp.days (s : Stamp) : Int :=
  s.year * 365 + leapYears s.year + daysBefore (isLeapYear s.year) s.month + (s.day - 1)

/-- Local seconds since the exFAT epoch, to an even second. -/
def Stamp.evenSeconds (s : Stamp) : Int :=
  s.days * 86400 + s.hour * 3600 + s.min * 60 + s.twosec * 2

/-- Local seconds since the exFAT epoch. -/
def Stamp.seconds (s : Stamp) : Int := s.evenSeconds + (s.centisec : Int) / 100

theorem leapYears_eq (year : Nat) : leapYears year = ((year : Int) + 3) / 4 := by
  simp only [leapYears, exfatEpochYear]
  omega

theorem isLeapYear_iff (year : Nat) : isLeapYear year = true ↔ year % 4 = 0 := by
  rw [isLeapYear, decide_eq_true_iff, exfatEpochYear]
  omega

theorem daysBefore_next (leap : Bool) {i : Nat} (hi : 1 ≤ i) (hm : i ≤ 11) :
    daysBefore leap (i + 1) = daysBefore leap i + daysOfMonth leap i := by
  revert leap
  interval_cases i <;> decide

theorem daysOfMonth_le (leap : Bool) {i : Nat} (hi : 1 ≤ i) (hm : i ≤ 12) :
    daysOfMonth leap i ≤ 31 := by
  revert leap
  interval_cases i <;> decide

theorem daysBefore_mono (leap : Bool) {i j : Nat} (hi : 1 ≤ i) (hij : i ≤ j) (hj : j ≤ 12) :
    daysBefore leap i ≤ daysBefore leap j := by
  induction j, hij using Nat.le_induction with
  | base => exact le_rfl
  | succ j hij ih =>
    have hstep := daysBefore_next leap (hi.trans hij) (by omega)
    have := ih (by omega)
    omega

/-- The month search leaves a day of the month it stops at. -/
theorem findMonth_day (year d : Int) (fuel i : Nat) (hi : 1 ≤ i) (hm : i ≤ 12)
    (hf : 12 < fuel + i) (hd : daysBefore (isLeapYear year) i ≤ d)
    (hy : d < 365 + if isLeapYear year then 1 else 0) :
    (findMonth year d fuel i).2 < daysOfMonth (isLeapYear year) (findMonth year d fuel i).1 := by
  obtain ⟨m, h1, h12, heq, -, hlt⟩ := findMonth_stops year d fuel i hi hm hf hd
  rw [heq]
  simp only
  rcases h12.lt_or_eq with hm' | rfl
  · have := daysBefore_next (isLeapYear year) h1 (by omega)
    have := hlt hm'
    omega
  · have h31 : daysOfMonth (isLeapYear year) 12 = 31 := rfl
    rw [h31, daysBefore_last]
    omega

theorem Stamp.day_lt (s : Stamp) : s.day < 32 := by
  have := daysOfMonth_le (isLeapYear s.year) s.month_pos s.month_le
  have := s.day_le
  omega

/-- A day of the year is less than the year's length. -/
theorem Stamp.yearDay_lt (s : Stamp) :
    0 ≤ daysBefore (isLeapYear s.year) s.month + ((s.day : Int) - 1) ∧
      daysBefore (isLeapYear s.year) s.month + ((s.day : Int) - 1) <
        365 + if isLeapYear s.year then 1 else 0 := by
  have h1 : daysBefore (isLeapYear s.year) 1 ≤ daysBefore (isLeapYear s.year) s.month :=
    daysBefore_mono _ le_rfl s.month_pos s.month_le
  have h0 : daysBefore (isLeapYear s.year) 1 = 0 := by cases isLeapYear s.year <;> rfl
  have hlast := daysBefore_last (isLeapYear s.year)
  have hd := s.day_pos
  have hle := s.day_le
  refine ⟨by omega, ?_⟩
  rcases Nat.lt_or_ge s.month 12 with hlt | hge
  · have hn := daysBefore_next (isLeapYear s.year) s.month_pos (by omega)
    have := daysBefore_mono (isLeapYear s.year) (i := s.month + 1) (by omega) hlt le_rfl
    omega
  · obtain h12 : s.month = 12 := le_antisymm s.month_le hge
    have h31 : daysOfMonth (isLeapYear s.year) 12 = 31 := rfl
    rw [h12, h31] at hle
    rw [h12]
    omega

theorem daysBefore_ne (leap : Bool) {i j : Nat} {a b : Int} (hi : 1 ≤ i) (hj : j ≤ 12) (hlt : i < j)
    (ha : a < daysOfMonth leap i) (hb : 0 ≤ b) : daysBefore leap i + a < daysBefore leap j + b := by
  have hn := daysBefore_next leap hi (by omega)
  have := daysBefore_mono leap (i := i + 1) (by omega) hlt hj
  omega

/-- Later years begin after every day of earlier ones. -/
theorem Stamp.days_lt {s r : Stamp} (h : s.year < r.year) : s.days < r.days := by
  have hs := s.yearDay_lt
  have hr := r.yearDay_lt
  have hl := isLeapYear_iff s.year
  simp only [Stamp.days, leapYears_eq]
  cases hleap : isLeapYear s.year
  · rw [hleap] at hs hl
    simp only [Bool.false_eq_true, if_false, false_iff] at hs hl
    omega
  · rw [hleap] at hs
    rw [hleap] at hl
    simp only [if_true, true_iff] at hs hl
    omega

theorem Stamp.days_range (s : Stamp) : 0 ≤ s.days ∧ s.days < 46752 := by
  have hs := s.yearDay_lt
  have hy := s.year_lt
  have hl := isLeapYear_iff s.year
  simp only [Stamp.days, leapYears_eq]
  cases hleap : isLeapYear s.year
  · rw [hleap] at hs hl
    simp only [Bool.false_eq_true, if_false, false_iff] at hs hl
    omega
  · rw [hleap] at hs hl
    simp only [if_true, true_iff] at hs hl
    omega

theorem Stamp.centisec_div (s : Stamp) :
    (s.centisec : Int) / 100 = 0 ∧ s.centisec = 0 ∨ (s.centisec : Int) / 100 = 1 ∧ s.centisec = 100 := by
  rcases s.centisec_eq with h | h <;> rw [h] <;> decide

/-- Every stamp lies in the 46752 days from the exFAT epoch on. -/
theorem Stamp.seconds_range (s : Stamp) : 0 ≤ s.seconds ∧ s.seconds < 46752 * 86400 := by
  have hd := s.days_range
  have hh := s.hour_lt
  have hm := s.min_lt
  have ht := s.twosec_lt
  have hc := s.centisec_div
  simp only [Stamp.seconds, Stamp.evenSeconds]
  omega

/-- The day and the fields of the time of day are the digits of the seconds. -/
theorem Stamp.digits (s : Stamp) : s.seconds / 86400 = s.days ∧
    s.seconds % 86400 / 3600 = s.hour ∧ s.seconds % 3600 / 60 = s.min ∧
    s.seconds % 60 / 2 = s.twosec ∧ s.seconds % 2 * 100 = s.centisec := by
  have hh := s.hour_lt
  have hm := s.min_lt
  have ht := s.twosec_lt
  have hc := s.centisec_div
  simp only [Stamp.seconds, Stamp.evenSeconds]
  omega

/-- A number of seconds is the sum of its digits. -/
theorem digits_sum (x : Int) : x / 86400 * 86400 + x % 86400 / 3600 * 3600 + x % 3600 / 60 * 60 +
    x % 60 / 2 * 2 + x % 2 = x := by
  have hday := Int.ediv_mul_add_emod x 86400
  have hhour := Int.ediv_mul_add_emod (x % 86400) 3600
  have hmin := Int.ediv_mul_add_emod (x % 3600) 60
  have hsec := Int.ediv_mul_add_emod (x % 60) 2
  rw [Int.emod_emod_of_dvd x (by decide)] at hhour hmin hsec
  linarith

/-- Different stamps stand for different seconds. -/
theorem Stamp.seconds_inj {s r : Stamp} (h : s.seconds = r.seconds) : s = r := by
  obtain ⟨hd, hh, hm, ht, hc⟩ := s.digits
  obtain ⟨hd', hh', hm', ht', hc'⟩ := r.digits
  rw [h] at hd hh hm ht hc
  have hdays : s.days = r.days := hd.symm.trans hd'
  have hyear : s.year = r.year := by
    rcases Nat.lt_trichotomy s.year r.year with hlt | heq | hgt
    · exact absurd hdays (Stamp.days_lt hlt).ne
    · exact heq
    · exact absurd hdays (Stamp.days_lt hgt).ne'
  have hday : daysBefore (isLeapYear r.year) s.month + ((s.day : Int) - 1) =
      daysBefore (isLeapYear r.year) r.month + ((r.day : Int) - 1) := by
    simp only [Stamp.days, hyear] at hdays
    omega
  have hsd := s.day_le
  have hrd := r.day_le
  have hs1 := s.day_pos
  have hr1 := r.day_pos
  rw [hyear] at hsd
  have hmonth : s.month = r.month := by
    rcases Nat.lt_trichotomy s.month r.month with hlt | heq | hgt
    · exact absurd hday (daysBefore_ne _ s.month_pos r.month_le hlt (by omega) (by omega)).ne
    · exact heq
    · exact absurd hday (daysBefore_ne _ r.month_pos s.month_le hgt (by omega) (by omega)).ne'
  rw [hmonth] at hday
  cases s
  cases r
  simp only at *
  congr 1 <;> omega

/-- The fields of a stamp do not overlap. -/
theorem Stamp.packed_lt (s : Stamp) : s.packed.1 < 2 ^ 16 ∧ s.packed.2.1 < 2 ^ 16 := by
  have hd := s.day_lt
  have hm := s.month_le
  have hy := s.year_lt
  have ht := s.twosec_lt
  have hmin := s.min_lt
  have hh := s.hour_lt
  simp only [Stamp.packed]
  rw [pack_eq (i := 5) (j := 4) (by omega) (by omega), pack_eq (i := 5) (j := 6) (by omega) (by omega)]
  omega

/-- Days of a year and the year itself, from the days since the epoch. -/
theorem year_of_days {q : Int} (h0 : 0 ≤ q) (h1 : q < 46752) {y : Nat}
    (hy : (y : Int) = 4 * q / 1461) : y < 128 ∧ 0 ≤ q - (y * 365 + leapYears y) ∧
      q - (y * 365 + leapYears y) < 365 + if isLeapYear y then 1 else 0 := by
  have hl := isLeapYear_iff y
  rw [leapYears_eq]
  refine ⟨by omega, by omega, ?_⟩
  cases hleap : isLeapYear y
  · rw [hleap] at hl
    simp only [Bool.false_eq_true, false_iff, if_false] at hl ⊢
    have hr : y % 4 = 1 ∨ y % 4 = 2 ∨ y % 4 = 3 := by omega
    rcases hr with hr | hr | hr <;> omega
  · simp only [if_true]
    omega

/-- The fields come out of the packed values as they went in. -/
theorem Stamp.unpacked (s : Stamp) :
    (s.packed.1 &&& 0x1f = s.day ∧ s.packed.1 >>> 5 &&& 0xf = s.month ∧ s.packed.1 >>> 9 = s.year) ∧
      s.packed.2.1 &&& 0x1f = s.twosec ∧ s.packed.2.1 >>> 5 &&& 0x3f = s.min ∧
      s.packed.2.1 >>> 11 = s.hour := by
  have hd := unpack_date s.day s.month s.year s.day_lt (by have := s.month_le; omega) s.year_lt
  have ht := unpack_time s.twosec s.min s.hour (by have := s.twosec_lt; omega)
    (by have := s.min_lt; omega) (by have := s.hour_lt; omega)
  obtain ⟨hlt, hlt'⟩ := s.packed_lt
  simp only [Stamp.packed] at hlt hlt' ⊢
  rw [Nat.mod_eq_of_lt hlt] at hd
  rw [Nat.mod_eq_of_lt hlt'] at ht
  exact ⟨hd, ht⟩

section
variable [Env]

/-- The value a stamp stands for. -/
theorem Stamp.timeOf (s : Stamp) {cs : Nat} (hcs : cs ≤ 199) :
    timeOf s.packed.1 s.packed.2.1 cs =
      epochDiffSec + Env.timezone + s.evenSeconds + (cs : Int) / 100 := by
  obtain ⟨hd, ht⟩ := s.unpacked
  rw [timeOf_eq hd ht s.day_pos s.month_pos s.month_le (by have := s.hour_lt; omega)
    (by have := s.min_lt; omega) (by have := s.twosec_lt; omega) hcs]
  have hsec : secInDay = 86400 := rfl
  have hh : secInHour = 3600 := rfl
  have hmn : secInMin = 60 := rfl
  have hsy : secInYear = 365 * 86400 := rfl
  simp only [Stamp.evenSeconds, Stamp.days, hsec, hh, hmn, hsy]
  ring

/-- The call on the fields of a stamp: it returns and reports nothing. -/
theorem Stamp.exfat2unix (s : Stamp) {cs : Nat} (hcs : cs ≤ 199) (w : World) :
    exfatExfat2unix s.packed.1 s.packed.2.1 cs w =
      .ok (epochDiffSec + Env.timezone + s.evenSeconds + (cs : Int) / 100, w) := by
  obtain ⟨⟨hd, hm, -⟩, ht, hmin, hh⟩ := s.unpacked
  have h1 := s.day_pos
  have h2 := s.month_pos
  have h3 := s.month_le
  have h4 := s.twosec_lt
  have h5 := s.min_lt
  have h6 := s.hour_lt
  rw [← s.timeOf hcs]
  exact exfatExfat2unix_ok w (by rw [hd, hm]; omega) (by rw [ht, hmin, hh]; omega) hcs

/-- A time in range is packed as the stamp that stands for it. -/
theorem exfatUnix2exfat_stamp {unixTime : Int} (h : TimeInRange unixTime) :
    ∃ s : Stamp, exfatUnix2exfat unixTime = s.packed ∧
      s.seconds = unixTime - (epochDiffSec + Env.timezone) := by
  obtain ⟨hlo, hhi⟩ := h
  simp only [exfatUnix2exfat, if_neg (show ¬unixTime < epochDiffSec + Env.timezone by omega)]
  obtain ⟨x, hx⟩ : ∃ x, unixTime - (epochDiffSec + Env.timezone) = x := ⟨_, rfl⟩
  rw [hx]
  have hsec : secInDay = 86400 := rfl
  have hh : secInHour = 3600 := rfl
  have hmn : secInMin = 60 := rfl
  have hx0 : 0 ≤ x := by omega
  have hx1 : x < 46752 * 86400 := by rw [hsec] at hhi; omega
  -- whole days and the year they fall in
  have hdays : toInt32 (x.tdiv secInDay) = x / 86400 := by
    rw [Int.tdiv_eq_ediv_of_nonneg hx0, hsec]
    exact toInt32_of_range (by omega) (by omega)
  have hyear : (toInt32 (4 * (x / 86400))).tdiv (4 * 365 + 1) = 4 * (x / 86400) / 1461 := by
    rw [toInt32_of_range (by omega) (by omega), Int.tdiv_eq_ediv_of_nonneg (by omega)]
    rfl
  rw [hdays, hyear]
  obtain ⟨y, hy⟩ : ∃ y, toU16 (4 * (x / 86400) / 1461) = y := ⟨_, rfl⟩
  have hy' : (y : Int) = 4 * (x / 86400) / 1461 := hy ▸ toU16_of_range (by omega) (by omega)
  rw [hy]
  obtain ⟨hy128, hd0, hd1⟩ := year_of_days (q := x / 86400) (by omega) (by omega) hy'
  -- the day of the year and its month
  have hday : toInt32 (x / 86400 - (y * 365 + leapYears y)) = x / 86400 - (y * 365 + leapYears y) :=
    toInt32_of_range (by omega) (by split at hd1 <;> omega)
  rw [hday]
  generalize hd : x / 86400 - (y * 365 + leapYears y) = d at *
  have hfirst : daysBefore (isLeapYear y) 1 ≤ d := by
    have h0 : daysBefore (isLeapYear y) 1 = 0 := by cases isLeapYear (y : Int) <;> rfl
    omega
  obtain ⟨hm1, hm2, hr0, hr1, hdm⟩ := findMonth_spec (y : Int) d 12 1 le_rfl (by decide) (by decide)
    hfirst hd1
  have hlen := findMonth_day (y : Int) d 12 1 le_rfl (by decide) (by decide) hfirst hd1
  generalize findMonth (y : Int) d 12 1 = r at *
  have hr : (toU16 (r.2 + 1) : Int) = r.2 + 1 := toU16_of_range (by omega) (by omega)
  simp only [hsec, hh, hmn]
  let s : Stamp :=
    { year := y, month := r.1, day := toU16 (r.2 + 1), hour := (x % 86400 / 3600).toNat
      min := (x % 3600 / 60).toNat, twosec := (x % 60 / 2).toNat, centisec := (x % 2 * 100).toNat
      year_lt := hy128, month_pos := hm1, month_le := hm2, day_pos := by omega, day_le := by omega
      hour_lt := by omega, min_lt := by omega, twosec_lt := by omega, centisec_eq := by omega }
  refine ⟨s, ?_, ?_⟩
  · obtain ⟨hlt, hlt'⟩ := s.packed_lt
    exact Prod.ext (Nat.mod_eq_of_lt hlt) (Prod.ext (Nat.mod_eq_of_lt hlt') rfl)
  · have hyd : s.days = x / 86400 := by
      simp only [s, Stamp.days]
      omega
    have hc : (((x % 2 * 100).toNat : Nat) : Int) / 100 = x % 2 := by omega
    simp only [Stamp.seconds, Stamp.evenSeconds, hyd]
    simp only [s, hc]
    rw [Int.toNat_of_nonneg (by omega), Int.toNat_of_nonneg (by omega),
      Int.toNat_of_nonneg (by omega)]
    exact digits_sum x

/-- A time in range survives the way to disk and back. -/
theorem timeOf_unix2exfat {unixTime : Int} (h : TimeInRange unixTime) :
    timeOf (exfatUnix2exfat unixTime).1 (exfatUnix2exfat unixTime).2.1
      (exfatUnix2exfat unixTime).2.2 = unixTime := by
  obtain ⟨s, hp, hs⟩ := exfatUnix2exfat_stamp h
  have hcs : s.packed.2.2 ≤ 199 := by
    rcases s.centisec_eq with hc | hc <;> simp [Stamp.packed, hc]
  rw [hp, s.timeOf hcs]
  simp only [Stamp.seconds] at hs
  simp only [Stamp.packed]
  omega

/-- A time before the exFAT epoch is stored as the epoch. -/
theorem exfatUnix2exfat_early {unixTime : Int} (h : unixTime ≤ epochDiffSec + Env.timezone) :
    exfatUnix2exfat unixTime = exfatUnix2exfat (epochDiffSec + Env.timezone) := by
  obtain hlt | rfl := lt_or_eq_of_le h
  · simp only [exfatUnix2exfat, if_pos hlt, lt_irrefl, if_false]
  · rfl

/-- Times from 1980 to 2107 and calendar stamps are packed into and out of the same fields. -/
theorem timestamps_round_trip (w : World) :
    (∀ t, TimeInRange t → ∃ s : Stamp, exfatUnix2exfat t = s.packed ∧
      exfatExfat2unix s.packed.1 s.packed.2.1 s.packed.2.2 w = .ok (t, w) ∧
      exfatExfat2unix s.packed.1 s.packed.2.1 0 w =
        .ok (t - (t - (epochDiffSec + Env.timezone)) % 2, w)) ∧
    ∀ s : Stamp, ∃ t, exfatExfat2unix s.packed.1 s.packed.2.1 s.packed.2.2 w = .ok (t, w) ∧
      exfatUnix2exfat t = s.packed := by
  have hcs : ∀ s : Stamp, s.packed.2.2 ≤ 199 ∧ s.packed.2.2 = s.centisec := fun s => by
    rcases s.centisec_eq with hc | hc <;> simp [Stamp.packed, hc]
  refine ⟨fun t ht => ?_, fun s => ?_⟩
  · obtain ⟨s, hp, hs⟩ := exfatUnix2exfat_stamp ht
    have hsec : s.seconds = s.evenSeconds + (s.centisec : Int) / 100 := rfl
    have hdiv := s.centisec_div
    have hodd := s.digits.2.2.2.2
    refine ⟨s, hp, ?_, ?_⟩
    · rw [s.exfat2unix (hcs s).1, (hcs s).2]
      congr 2
      omega
    · rw [s.exfat2unix (by decide)]
      congr 2
      omega
  · refine ⟨_, s.exfat2unix (hcs s).1 w, ?_⟩
    have hrange : TimeInRange (epochDiffSec + Env.timezone + s.evenSeconds +
        (s.packed.2.2 : Int) / 100) := by
      have := s.seconds_range
      have hsec : s.seconds = s.evenSeconds + (s.centisec : Int) / 100 := rfl
      have h86 : secInDay = 86400 := rfl
      rw [(hcs s).2]
      constructor <;> rw [h86] at * <;> omega
    obtain ⟨r, hp, hr⟩ := exfatUnix2exfat_stamp hrange
    rw [hp]
    congr 1
    refine Stamp.seconds_inj ?_
    rw [hr, (hcs s).2]
    simp only [Stamp.seconds]
    omega

/-- The time read back after storing a time. -/
def storedTime (unixTime : Int) : Int :=
  timeOf (exfatUnix2exfat unixTime).1 (exfatUnix2exfat unixTime).2.1 (exfatUnix2exfat unixTime).2.2

/-- Up to the end of 2107 only the lower end is out of range, and it is clamped. -/
theorem storedTime_eq {t : Int} (h : t < epochDiffSec + Env.timezone + 46752 * secInDay) :
    storedTime t = max t (epochDiffSec + Env.timezone) := by
  have hday : 0 < 46752 * secInDay := by decide
  rcases le_total (epochDiffSec + Env.timezone) t with hle | hle
  · rw [max_eq_left hle]
    exact timeOf_unix2exfat ⟨hle, h⟩
  · rw [max_eq_right hle, storedTime, exfatUnix2exfat_early hle]
    exact timeOf_unix2exfat ⟨le_rfl, by omega⟩

/-- The first second after the range is stored as the first second of 1980: the seven bits of the
year wrap. -/
theorem storedTime_wraps :
    storedTime (epochDiffSec + Env.timezone + 46752 * secInDay) = epochDiffSec + Env.timezone := by
  have hd : exfatUnix2exfat (epochDiffSec + Env.timezone + 46752 * secInDay) =
      exfatUnix2exfat (epochDiffSec + Env.timezone) := by
    simp only [exfatUnix2exfat, lt_irrefl, if_false, sub_self,
      if_neg (show ¬epochDiffSec + Env.timezone + 46752 * secInDay < epochDiffSec + Env.timezone by
        have : 0 < 46752 * secInDay := by decide
        omega), add_sub_cancel_left]
    decide
  rw [storedTime, hd]
  exact timeOf_unix2exfat ⟨le_rfl, by have : 0 < 46752 * secInDay := by decide
                                      omega⟩

/-- A value of `time_t`. -/
def IsTime (t : Int) : Prop := -2 ^ 63 ≤ t ∧ t < 2 ^ 63

/-- Storing keeps the order of all times up to a last one exactly when that one is before 2108. -/
theorem storedTime_mono_iff (hz : IsTime Env.timezone) {last : Int} (hl : IsTime last) :
    (∀ t₁ t₂, IsTime t₁ → t₁ ≤ t₂ → t₂ ≤ last → storedTime t₁ ≤ storedTime t₂) ↔
      last < epochDiffSec + Env.timezone + 46752 * secInDay := by
  have hday : 46752 * secInDay = 4039372800 := rfl
  have hepoch : epochDiffSec = 315532800 := rfl
  refine ⟨fun h => ?_, fun h t₁ t₂ _ h12 h2 => ?_⟩
  · by_contra hlast
    have hlt := h (epochDiffSec + Env.timezone + 46752 * secInDay - 1)
      (epochDiffSec + Env.timezone + 46752 * secInDay)
      (by obtain ⟨hz1, hz2⟩ := hz
          obtain ⟨hl1, hl2⟩ := hl
          constructor <;> omega) (by omega) (by omega)
    rw [storedTime_wraps, storedTime_eq (by omega), max_eq_left (by omega)] at hlt
    omega
  · rw [storedTime_eq (by omega), storedTime_eq (by omega)]
    exact max_le_max h12 le_rfl

end

/-- A last time in the year 2020. -/
theorem storedTime_mono_2020 :
    (∀ t₁ t₂, IsTime t₁ → t₁ ≤ t₂ → t₂ ≤ 1600000000 →
      @storedTime calmEnv t₁ ≤ @storedTime calmEnv t₂) ↔
      1600000000 < epochDiffSec + calmEnv.timezone + 46752 * secInDay :=
  @storedTime_mono_iff calmEnv (by unfold IsTime; decide) _ (by unfold IsTime; decide)

/-- The last second of 2107 and the one after it. -/
theorem storedTime_not_mono : ¬∀ t₁ t₂, IsTime t₁ → IsTime t₂ → t₁ ≤ t₂ →
    @storedTime calmEnv t₁ ≤ @storedTime calmEnv t₂ := fun h => by
  have hlt := h 4354905599 4354905600 (by unfold IsTime; decide) (by unfold IsTime; decide)
    (by decide)
  exact absurd hlt (by decide)

end Proofs
end Exfat
