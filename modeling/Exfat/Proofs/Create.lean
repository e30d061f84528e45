import Exfat.Proofs.Slots

namespace Exfat
open Lib

/-! `commit_entry` and `create`: a new child with a name of its own in a free slot. -/

namespace Proofs

theorem takeWhile_padName (units : List Nat) :
    (padName units).takeWhile (· ≠ 0) = units.takeWhile (· ≠ 0) := by
  rw [padName, List.takeWhile_append]
  split
  · rename_i hl
    have hz : ∀ k, (List.replicate k 0).takeWhile (fun c : Nat => decide (c ≠ 0)) = [] := by
      intro k
      cases k <;> simp [List.replicate_succ]
    rw [hz, List.append_nil]
    exact ((List.takeWhile_prefix _).eq_of_length hl).symm
  · rfl

theorem utf16Length_padName (units : List Nat) :
    utf16Length (padName units) = utf16Length units := by
  rw [utf16Length, takeWhile_padName, utf16Length]

theorem padName_length {units : List Nat} (h : units.length ≤ 256) :
    (padName units).length = 256 := by
  simp only [padName, List.length_append, List.length_replicate, exfatNameMax]
  omega

theorem utf8ToUtf16Loop_length {fuel outsize : Nat} {input : List UInt8} {out units : List Nat}
    (h : utf8ToUtf16Loop fuel input out outsize = .ok units) : units.length < outsize := by
  have hend : ∀ {l : List Nat}, (if outsize ≤ l.length then Except.error Errno.enametoolong
      else Except.ok l : Except Errno (List Nat)) = .ok units → units.length < outsize := by
    intro l hl
    split at hl
    · cases hl
    · cases hl
      omega
  induction fuel generalizing input out with
  | zero => exact hend h
  | succ fuel ih =>
    rw [utf8ToUtf16Loop] at h
    split at h
    · exact hend h
    · split at h
      · cases h
      · split at h
        · cases h
        · split at h
          · exact hend h
          · exact ih h

theorem utf8ToUtf16_length {input : List UInt8} {outsize : Nat} {units : List Nat}
    (h : utf8ToUtf16 input outsize = .ok units) : units.length < outsize :=
  utf8ToUtf16Loop_length h

/-- The name `exfat_split` returns: an array of 256 units that holds a terminator. -/
structure NameOk (name : List Nat) : Prop where
  length : name.length = 256
  short : utf16Length name ≤ 255

theorem nameOk_padName {units : List Nat} (h : units.length ≤ 255) : NameOk (padName units) := by
  refine ⟨padName_length (by omega), ?_⟩
  rw [utf16Length_padName, utf16Length]
  exact (List.takeWhile_sublist _).length_le.trans h

theorem NameOk.entries {name : List Nat} (h : NameOk name) : nameEntries name ≤ 17 := by
  have hs := h.short
  simp only [nameEntries, divRoundUp, exfatEnameMax]
  omega

theorem nameEntry_length {name : List Nat} {i : Nat} (h : (i + 1) * 15 ≤ name.length) :
    (nameEntry name i).length = 32 := by
  simp only [nameEntry, List.length_append, List.length_cons, List.length_nil,
    flatMap_toLe_length, List.length_take, List.length_drop, exfatEnameMax]
  omega

theorem NameOk.entries_length {name : List Nat} (h : NameOk name) {n : Nat} (hn : n ≤ 17) :
    ((List.range n).flatMap (nameEntry name)).length = 32 * n := by
  induction n with
  | zero => simp
  | succ n ih =>
    rw [List.range_succ, List.flatMap_append, List.length_append, ih (by omega),
      List.flatMap_singleton, nameEntry_length (by rw [h.length]; omega)]
    omega

theorem NameOk.tail_length {name : List Nat} (h : NameOk name) :
    (nameTail name).length = 32 * nameEntries name := h.entries_length h.entries

/-- The checksum leaves the other fields alone. -/
theorem leAt_withChecksum {e : List UInt8} {o k : Nat} (hl : 4 ≤ e.length) (ho : 4 ≤ o ∨ o + k ≤ 2) :
    leAt (withChecksum e) o k = leAt e o k := by
  have hs : 2 + (toLe 2 (exfatCalcChecksum e)).length ≤ e.length := by
    rw [toLe_length]
    omega
  refine leAt_congr (setAt_length hs) fun i h1 h2 => ?_
  rw [withChecksum, setAt_getD hs, toLe_length, if_neg (by omega)]

variable [Env]

end Proofs

end Exfat
