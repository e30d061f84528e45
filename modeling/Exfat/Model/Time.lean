import Exfat.Model.Types

namespace Exfat

/-! `time.c`. -/

def secInMin : Int := 60
def secInHour : Int := 60 * secInMin
def secInDay : Int := 24 * secInHour
def secInYear : Int := 365 * secInDay
def exfatEpochYear : Int := 1980
def epochDiffYear : Int := exfatEpochYear - 1970
def epochDiffDays : Int := epochDiffYear * 365 + epochDiffYear / 4
def epochDiffSec : Int := epochDiffDays * secInDay

/-- `LEAP_YEARS`: leap years from the exFAT epoch up to a year, itself excluded. -/
def leapYears (year : Int) : Int := (exfatEpochYear + year - 1) / 4 - (exfatEpochYear - 1) / 4

/-- `IS_LEAP_YEAR`. -/
def isLeapYear (year : Int) : Bool := (exfatEpochYear + year) % 4 = 0

def daysInYear (month : Nat) : Int :=
  [0, 0, 31, 59, 90, 120, 151, 181, 212, 243, 273, 304, 334].getD month 0

/-- The conversion of a wider integer to `int`. -/
def toInt32 (x : Int) : Int := (x + 2 ^ 31) % 2 ^ 32 - 2 ^ 31

/-- The conversion of a wider integer to `uint16_t`. -/
def toU16 (x : Int) : Nat := (x % 2 ^ 16).toNat

/-- `exfat_exfat2unix`. A bad date, time or centisecond count is reported and yields zero. -/
def exfatExfat2unix [Env] (date time centisec : Nat) : M Int :=
  let day := date &&& 0x1f
  let month := date >>> 5 &&& 0xf
  let year := date >>> 9
  let twosec := time &&& 0x1f
  let min := time >>> 5 &&& 0x3f
  let hour := time >>> 11
  if day = 0 ∨ month = 0 ∨ month > 12 then do
    exfatError "bad date %u-%02hu-%02hu"
    pure 0
  else if hour > 23 ∨ min > 59 ∨ twosec > 29 then do
    exfatError "bad time %hu:%02hu:%02u"
    pure 0
  else if centisec > 199 then do
    exfatError "bad centiseconds count %hhu"
    pure 0
  else
    pure (epochDiffSec + (year * secInYear + leapYears year * secInDay)
      + daysInYear month * secInDay
      -- a leap day has passed
      + (if isLeapYear year ∧ month > 2 then secInDay else 0)
      + ((day : Int) - 1) * secInDay + hour * secInHour + min * secInMin + twosec * 2
      + (centisec : Int) / 100 + Env.timezone)

/-- The loop of `exfat_unix2exfat` that finds the month: the month and the days left. -/
def findMonth (year : Int) (days : Int) : Nat → Nat → Nat × Int
  | 0, i => (i, days)
  | fuel + 1, i =>
    let leapDay : Int := if isLeapYear year ∧ i = 2 then 1 else 0
    let leapSub : Int := if isLeapYear year ∧ i ≥ 3 then 1 else 0
    if i = 12 ∨ days - leapSub < daysInYear (i + 1) + leapDay then
      (i, days - (daysInYear i + leapSub))
    else findMonth year days fuel (i + 1)

/-- `exfat_unix2exfat`: date, time and centiseconds. -/
def exfatUnix2exfat [Env] (unixTime : Int) : Nat × Nat × Nat :=
  let shift := epochDiffSec + Env.timezone
  -- time before the exFAT epoch cannot be represented
  let t := (if unixTime < shift then shift else unixTime) - shift
  let days := toInt32 (t.tdiv secInDay)
  let year := toU16 ((toInt32 (4 * days)).tdiv (4 * 365 + 1))
  let days := toInt32 (days - (year * 365 + leapYears year))
  let (month, days) := findMonth year days 12 1
  let day := toU16 (days + 1)
  let hour := ((t % secInDay) / secInHour).toNat
  let min := ((t % secInHour) / secInMin).toNat
  let twosec := ((t % secInMin) / 2).toNat
  ((day ||| month <<< 5 ||| year <<< 9) % 2 ^ 16, (twosec ||| min <<< 5 ||| hour <<< 11) % 2 ^ 16,
    ((t % 2) * 100).toNat)

end Exfat
