import Exfat.Model.Types

namespace Exfat
open Lib

/-! `utf.c`. A pointer into a buffer is the list of what is left of it; an output pointer is
the list written so far together with the room left. -/

/-- The bytes `wchar_to_utf8` writes, or `none` when they do not fit. -/
def wcharToUtf8 (wc outsize : Nat) : Option (List UInt8) :=
  let b (n : Nat) : UInt8 := UInt8.ofNat n
  let tail (k : Nat) : UInt8 := b (0x80 ||| (wc >>> k &&& 0x3f))
  if wc ≤ 0x7f then
    if outsize < 1 then none else some [b wc]
  else if wc ≤ 0x7ff then
    if outsize < 2 then none else some [b (0xc0 ||| wc >>> 6), tail 0]
  else if wc ≤ 0xffff then
    if outsize < 3 then none else some [b (0xe0 ||| wc >>> 12), tail 6, tail 0]
  else if wc ≤ 0x1fffff then
    if outsize < 4 then none else some [b (0xf0 ||| wc >>> 18), tail 12, tail 6, tail 0]
  else if wc ≤ 0x3ffffff then
    if outsize < 5 then none else
      some [b (0xf8 ||| wc >>> 24), tail 18, tail 12, tail 6, tail 0]
  else if wc ≤ 0x7fffffff then
    if outsize < 6 then none else
      some [b (0xfc ||| wc >>> 30), tail 24, tail 18, tail 12, tail 6, tail 0]
  else none

/-- `utf16_to_wchar` on the units left: the character and the number of units it took. -/
def utf16ToWchar (input : List Nat) : Option (Nat × Nat) :=
  let u0 := input.getD 0 0
  let u1 := input.getD 1 0
  if u0 &&& 0xfc00 = 0xd800 then
    if input.length < 2 ∨ u1 &&& 0xfc00 ≠ 0xdc00 then none
    else some (((u0 &&& 0x3ff) <<< 10 ||| (u1 &&& 0x3ff)) + 0x10000, 2)
  else some (u0, 1)

/-- The loop of `utf16_to_utf8`; the fuel is the number of units left. -/
def utf16ToUtf8Loop : Nat → List Nat → List UInt8 → Nat → Except Errno (List UInt8)
  | 0, _, out, outsize => if outsize ≤ out.length then .error .enametoolong else .ok out
  | fuel + 1, input, out, outsize =>
    if input.isEmpty then
      if outsize ≤ out.length then .error .enametoolong else .ok out
    else
      match utf16ToWchar input with
      | none => .error .eilseq
      | some (wc, k) =>
        match wcharToUtf8 wc (outsize - out.length) with
        | none => .error .enametoolong
        | some bs =>
          -- the terminator has been written with the character
          if wc = 0 then .ok out
          else utf16ToUtf8Loop fuel (input.drop k) (out ++ bs) outsize

/-- `utf16_to_utf8`: the C string written, without its terminator. -/
def utf16ToUtf8 (input : List Nat) (outsize insize : Nat) : Except Errno (List UInt8) :=
  utf16ToUtf8Loop insize (input.take insize) [] outsize

/-- The loop of `utf16_to_utf8` up to the character that makes it fail: what it has written. -/
def utf16ToUtf8StartLoop : Nat → List Nat → List UInt8 → Nat → List UInt8
  | 0, _, out, _ => out
  | fuel + 1, input, out, outsize =>
    if input.isEmpty then out
    else
      match utf16ToWchar input with
      | none => out
      | some (wc, k) =>
        match wcharToUtf8 wc (outsize - out.length) with
        | none => out
        | some bs => utf16ToUtf8StartLoop fuel (input.drop k) (out ++ bs) outsize

/-- What a failed `utf16_to_utf8` leaves at the start of its output. -/
def utf16ToUtf8Start (input : List Nat) (outsize insize : Nat) : List UInt8 :=
  utf16ToUtf8StartLoop insize (input.take insize) [] outsize

/-- `utf8_to_wchar` on the bytes left: the character and the number of bytes it took. -/
def utf8ToWchar (input : List UInt8) : Option (Nat × Nat) :=
  let i (k : Nat) : Nat := (input.getD k 0).toNat
  let insize := input.length
  if i 0 &&& 0x80 = 0 ∧ 1 ≤ insize then some (i 0, 1)
  else if i 0 &&& 0xe0 = 0xc0 ∧ 2 ≤ insize then
    some ((i 0 &&& 0x1f) <<< 6 ||| (i 1 &&& 0x3f), 2)
  else if i 0 &&& 0xf0 = 0xe0 ∧ 3 ≤ insize then
    some ((i 0 &&& 0x0f) <<< 12 ||| (i 1 &&& 0x3f) <<< 6 ||| (i 2 &&& 0x3f), 3)
  else if i 0 &&& 0xf8 = 0xf0 ∧ 4 ≤ insize then
    some ((i 0 &&& 0x07) <<< 18 ||| (i 1 &&& 0x3f) <<< 12 ||| (i 2 &&& 0x3f) <<< 6 |||
      (i 3 &&& 0x3f), 4)
  else if i 0 &&& 0xfc = 0xf8 ∧ 5 ≤ insize then
    some ((i 0 &&& 0x03) <<< 24 ||| (i 1 &&& 0x3f) <<< 18 ||| (i 2 &&& 0x3f) <<< 12 |||
      (i 3 &&& 0x3f) <<< 6 ||| (i 4 &&& 0x3f), 5)
  else if i 0 &&& 0xfe = 0xfc ∧ 6 ≤ insize then
    some ((i 0 &&& 0x01) <<< 30 ||| (i 1 &&& 0x3f) <<< 24 ||| (i 2 &&& 0x3f) <<< 18 |||
      (i 3 &&& 0x3f) <<< 12 ||| (i 4 &&& 0x3f) <<< 6 ||| (i 5 &&& 0x3f), 6)
  else none

/-- The units `wchar_to_utf16` writes, or `none` when they do not fit. -/
def wcharToUtf16 (wc outsize : Nat) : Option (List Nat) :=
  if wc ≤ 0xffff then
    if outsize = 0 then none else some [wc]
  else if outsize < 2 then none
  else
    let wc := wc - 0x10000
    some [0xd800 ||| (wc >>> 10 &&& 0x3ff), 0xdc00 ||| (wc &&& 0x3ff)]

/-- The loop of `utf8_to_utf16`; the fuel is the number of bytes left. -/
def utf8ToUtf16Loop : Nat → List UInt8 → List Nat → Nat → Except Errno (List Nat)
  | 0, _, out, outsize => if outsize ≤ out.length then .error .enametoolong else .ok out
  | fuel + 1, input, out, outsize =>
    if input.isEmpty then
      if outsize ≤ out.length then .error .enametoolong else .ok out
    else
      match utf8ToWchar input with
      | none => .error .eilseq
      | some (wc, k) =>
        match wcharToUtf16 wc (outsize - out.length) with
        | none => .error .enametoolong
        | some us =>
          if wc = 0 then
            if outsize ≤ (out ++ us).length then .error .enametoolong else .ok (out ++ us)
          else utf8ToUtf16Loop fuel (input.drop k) (out ++ us) outsize

/-- `utf8_to_utf16`: the units written before the final terminator. A character with value zero
is written too and ends the conversion. -/
def utf8ToUtf16 (input : List UInt8) (outsize : Nat) : Except Errno (List Nat) :=
  utf8ToUtf16Loop input.length input [] outsize

/-- `utf16_length`. -/
def utf16Length (str : List Nat) : Nat := (str.takeWhile (· ≠ 0)).length

end Exfat
