import Exfat.Model.Node

namespace Exfat

/-! `decompress_upcase` on its two arrays, with the two cursors `si` and `oi`. A unit has 16 bits and
`oi` stays below twice the table's size, so neither cursor wraps. -/

/-- `source[si]`; behind the last unit the access is out of bounds. -/
def loadUnit (source : List Nat) (si : Nat) : Except Halt Nat :=
  if si < source.length then .ok (source.getD si 0) else .error .fault

/-- `output[oi] = ch`; behind the last unit the access is out of bounds. -/
def storeUnit (output : List Nat) (oi ch : Nat) : Except Halt (List Nat) :=
  if oi < output.length then .ok (output.set oi ch) else .error .fault

/-- The first loop, from unit `oi` on with `n` units to go. -/
def identityUnits : Nat → Nat → List Nat → Except Halt (List Nat)
  | 0, _, output => .ok output
  | n + 1, oi, output => do
    let output ← storeUnit output oi oi
    identityUnits n (oi + 1) output

/-- The second loop; the fuel is more than the number of units left. -/
def decompressUnits (source : List Nat) : Nat → Nat → Nat → List Nat → Except Halt (List Nat)
  | 0, _, _, _ => .error .fuel
  | fuel + 1, si, oi, output =>
    if si < source.length ∧ oi < exfatUpcaseChars then do
      let ch ← loadUnit source si
      if ch = 0xffff ∧ si + 1 < source.length then do
        let run ← loadUnit source (si + 1)
        decompressUnits source fuel (si + 2) (oi + run) output
      else do
        let output ← storeUnit output oi ch
        decompressUnits source fuel (si + 1) (oi + 1) output
    else .ok output

/-- `decompress_upcase` into an array that is there. -/
def decompressUpcaseInto (output source : List Nat) : Except Halt (List Nat) := do
  let output ← identityUnits exfatUpcaseChars 0 output
  decompressUnits source (source.length + 1) 0 0 output

end Exfat
