import Mathlib.Algebra.BigOperators.Group.Finset.Piecewise
import Exfat.Lib.Bytes

namespace Exfat.Lib

/-! Byte arrays under names, which share a number of free blocks. -/

/-- A byte array cut at a length, or filled with zeros up to it. -/
def resized (bs : List UInt8) (size : Nat) : List UInt8 :=
  bs.take size ++ List.replicate (size - bs.length) 0

@[simp] theorem resized_length (bs : List UInt8) (size : Nat) :
    (resized bs size).length = size := by
  simp only [resized, List.length_append, List.length_take, List.length_replicate]
  omega

theorem resized_of_le {bs : List UInt8} {size : Nat} (h : size ≤ bs.length) :
    resized bs size = bs.take size := by
  rw [resized, Nat.sub_eq_zero_of_le h, List.replicate_zero, List.append_nil]

theorem resized_of_ge {bs : List UInt8} {size : Nat} (h : bs.length ≤ size) :
    resized bs size = bs ++ List.replicate (size - bs.length) 0 := by
  rw [resized, List.take_of_length_le h]

/-- Bytes added behind the end do not matter where a write covers them, or fills up to it with
zeros. -/
theorem overwrite_append {bs ts xs : List UInt8} {off : Nat}
    (hl : bs.length + ts.length ≤ max bs.length (off + xs.length))
    (hz : ∀ i, bs.length ≤ i → i < off → (bs ++ ts).getD i 0 = 0) :
    overwrite (bs ++ ts) off xs = overwrite bs off xs := by
  refine eq_of_getD ?_ fun i hi => ?_
  · rw [overwrite_length, overwrite_length, List.length_append]
    omega
  · rw [overwrite_length, List.length_append] at hi
    rw [overwrite_getD, overwrite_getD]
    split
    · rfl
    · rename_i hout
      by_cases hb : i < bs.length
      · rw [List.getD_append _ _ _ _ hb]
      · rw [hz i (Nat.le_of_not_lt hb) (by omega), List.getD_eq_getElem?_getD,
          List.getElem?_eq_none (Nat.le_of_not_lt hb), Option.getD_none]

/-- Without data to write, only the gap before the offset is filled. -/
theorem overwrite_nil (bs : List UInt8) (off : Nat) :
    overwrite bs off [] = resized bs (max bs.length off) := by
  refine eq_of_getD (by simp [overwrite_length]) fun i hi => ?_
  rw [overwrite_length, List.length_nil, Nat.add_zero] at hi
  rw [overwrite_getD, if_neg (by simp), resized_of_ge (Nat.le_max_left _ _)]
  by_cases hb : i < bs.length
  · rw [List.getD_append _ _ _ _ hb]
  · rw [List.getD_append_right _ _ _ _ (Nat.le_of_not_lt hb), List.getD_eq_getElem?_getD,
      List.getElem?_eq_none (Nat.le_of_not_lt hb), List.getD_eq_getElem?_getD,
      List.getElem?_replicate]
    split <;> rfl

/-- Byte arrays and the number of free blocks they can grow into. -/
@[ext] structure ByteStore (ι : Type) where
  file : ι → List UInt8
  free : Nat

namespace ByteStore

variable {ι : Type} [DecidableEq ι] (need : Nat → Nat) (s : ByteStore ι) (i : ι)

/-- One array replaced; `need` counts the blocks of a length. -/
def put (bs : List UInt8) : ByteStore ι where
  file := Function.update s.file i bs
  free := s.free + need (s.file i).length - need bs.length

/-- Are there blocks enough for the array to have a length? -/
def Room (size : Nat) : Prop := need size ≤ need (s.file i).length + s.free

instance (size : Nat) : Decidable (s.Room need i size) := inferInstanceAs (Decidable (_ ≤ _))

/-- Cuts or zero-fills an array; without room nothing happens. -/
def resize (size : Nat) : Bool × ByteStore ι :=
  if s.Room need i size then (true, s.put need i (resized (s.file i) size)) else (false, s)

/-- Writes at an offset. Without room for the data the zero-filled gap before it may be left. -/
def write (off : Nat) (bs : List UInt8) : Bool × ByteStore ι :=
  if s.Room need i (max (s.file i).length (off + bs.length)) then
    (true, s.put need i (overwrite (s.file i) off bs))
  else if (s.file i).length < off ∧ s.Room need i off then
    (false, s.put need i (resized (s.file i) off))
  else (false, s)

/-- Blocks of some arrays, together with the free ones. -/
def total (F : Finset ι) : Nat := ∑ i ∈ F, need (s.file i).length + s.free

variable {need s i}

theorem resize_room {size : Nat} (h : s.Room need i size) :
    s.resize need i size = (true, s.put need i (resized (s.file i) size)) := if_pos h

theorem resize_full {size : Nat} (h : ¬s.Room need i size) :
    s.resize need i size = (false, s) := if_neg h

theorem write_room {off : Nat} {bs : List UInt8}
    (h : s.Room need i (max (s.file i).length (off + bs.length))) :
    s.write need i off bs = (true, s.put need i (overwrite (s.file i) off bs)) := if_pos h

theorem write_gap {off : Nat} {bs : List UInt8}
    (h : ¬s.Room need i (max (s.file i).length (off + bs.length)))
    (hg : (s.file i).length < off ∧ s.Room need i off) :
    s.write need i off bs = (false, s.put need i (resized (s.file i) off)) := by
  rw [write, if_neg h, if_pos hg]

theorem write_full {off : Nat} {bs : List UInt8}
    (h : ¬s.Room need i (max (s.file i).length (off + bs.length)))
    (hg : ¬((s.file i).length < off ∧ s.Room need i off)) :
    s.write need i off bs = (false, s) := by
  rw [write, if_neg h, if_neg hg]

/-- An array that there is room for takes its blocks from the free ones. -/
theorem total_put {F : Finset ι} {bs : List UInt8} (hi : i ∈ F) (hr : s.Room need i bs.length) :
    (s.put need i bs).total need F = s.total need F := by
  have hsplit := Finset.sum_update_of_mem hi (fun j => need (s.file j).length) (need bs.length)
  have hold := Finset.add_sum_erase F (fun j => need (s.file j).length) hi
  have hnew : (∑ j ∈ F, need ((s.put need i bs).file j).length) =
      ∑ j ∈ F, Function.update (fun j => need (s.file j).length) i (need bs.length) j := by
    refine Finset.sum_congr rfl fun j _ => ?_
    by_cases hj : j = i
    · subst hj
      simp [put]
    · simp [put, hj]
  rw [total, total, hnew, hsplit, Finset.sdiff_singleton_eq_erase, ← hold]
  rw [Room] at hr
  simp only [put]
  omega

theorem total_resize {F : Finset ι} (hi : i ∈ F) (size : Nat) :
    (s.resize need i size).2.total need F = s.total need F := by
  rw [resize]
  split
  · rename_i hr
    exact total_put hi (by rwa [resized_length])
  · rfl

theorem total_write {F : Finset ι} (hi : i ∈ F) (off : Nat) (bs : List UInt8) :
    (s.write need i off bs).2.total need F = s.total need F := by
  rw [write]
  split
  · rename_i hr
    exact total_put hi (by rwa [overwrite_length])
  split
  · rename_i hg
    exact total_put hi (by rw [resized_length]; exact hg.2)
  · rfl

end ByteStore

end Exfat.Lib
