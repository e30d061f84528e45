import Exfat.Lib.Detect
import Exfat.Proofs.Boot

namespace Exfat
open Lib

/-! Checksums of entry sets and of the boot region: which changes of single bytes they show. -/

/-- The checksum of a boot region that is given by its sectors. -/
def bootChecksum : List (List UInt8) → Nat
  | [] => 0
  | first :: rest =>
    rest.foldl (fun sum sector => exfatVbrAddChecksum sector sum) (exfatVbrStartChecksum first)

namespace Proofs

variable {w : World} {d e : Store} {x y : UInt8} {i : Nat}

/-- The checksum of an entry set is one sum over everything but the checksum field. -/
theorem exfatCalcChecksum_eq (entries : List UInt8) :
    exfatCalcChecksum entries = (entries.take 2 ++ entries.drop 4).foldl (rotateAdd 15) 0 := by
  have hsplit : (entries.drop 4).take (entrySize - 4) ++ entries.drop entrySize =
      entries.drop 4 := by
    conv_rhs => rw [← List.take_append_drop (entrySize - 4) (entries.drop 4), List.drop_drop]
    rfl
  rw [← hsplit, ← List.append_assoc, List.foldl_append]
  rfl

/-- The position in an entry set of a byte that is summed up. -/
def summedByte (j : Nat) : Nat := if j < 2 then j else j + 2

theorem summed_getElem? (entries : List UInt8) (j : Nat) :
    (entries.take 2 ++ entries.drop 4)[j]? = entries[summedByte j]? := by
  unfold summedByte
  grind

theorem summedByte_inj (j k : Nat) (h : summedByte j = summedByte k) : j = k := by
  unfold summedByte at h
  split at h <;> split at h <;> omega

/-- Every byte but the two of the checksum is summed up. -/
theorem exists_summedByte (h2 : i ≠ 2) (h3 : i ≠ 3) : ∃ j, summedByte j = i := by
  by_cases hi : i < 2
  · exact ⟨i, if_pos hi⟩
  · exact ⟨i - 2, by rw [summedByte, if_neg (by omega)]; omega⟩

theorem exfatCalcChecksum_ne {a b : List UInt8} (hd : DifferAt a b i x y) (hxy : x ≠ y)
    (h2 : i ≠ 2) (h3 : i ≠ 3) : exfatCalcChecksum a ≠ exfatCalcChecksum b := by
  obtain ⟨j, rfl⟩ := exists_summedByte h2 h3
  rw [exfatCalcChecksum_eq, exfatCalcChecksum_eq]
  have hpick := DifferAt.pick summedByte_inj (summed_getElem? a) (summed_getElem? b) hd
  exact (rotateAdd_separates 15).foldl_ne hpick (fun s _ => rotateAdd_ne (by norm_num) hxy s)
    (by norm_num)

theorem exfatCalcChecksum_congr {a b : List UInt8}
    (h : ∀ j, j ≠ 2 → j ≠ 3 → a[j]? = b[j]?) : exfatCalcChecksum a = exfatCalcChecksum b := by
  rw [exfatCalcChecksum_eq, exfatCalcChecksum_eq]
  congr 1
  apply List.ext_getElem?
  intro j
  rw [summed_getElem?, summed_getElem?]
  apply h
  all_goals
    unfold summedByte
    split <;> omega

/-- The position in the boot sector of a byte that is summed up. -/
def vbrByte (j : Nat) : Nat := if j < 0x6a then j else if j < 0x6e then j + 2 else j + 3

theorem vbr_getElem? (sector : List UInt8) (j : Nat) :
    (sector.take 0x6a ++ (sector.drop 0x6c).take 4 ++ sector.drop 0x71)[j]? =
      sector[vbrByte j]? := by
  unfold vbrByte
  grind

theorem vbrByte_inj (j k : Nat) (h : vbrByte j = vbrByte k) : j = k := by
  unfold vbrByte at h
  split at h <;> split at h <;> grind

/-- Every byte but the volume state and the allocated percentage is summed up. -/
theorem exists_vbrByte (hf : Fixed i) : ∃ j, vbrByte j = i := by
  obtain ⟨h6a, h6b, h70⟩ := hf
  by_cases hlow : i < 0x6a
  · exact ⟨i, if_pos hlow⟩
  by_cases hmid : i < 0x70
  · refine ⟨i - 2, ?_⟩
    rw [vbrByte, if_neg (by omega), if_pos (by omega)]
    omega
  · refine ⟨i - 3, ?_⟩
    rw [vbrByte, if_neg (by omega), if_neg (by omega)]
    omega

theorem exfatVbrStartChecksum_ne {a b : List UInt8} (hd : DifferAt a b i x y) (hxy : x ≠ y)
    (hf : Fixed i) : exfatVbrStartChecksum a ≠ exfatVbrStartChecksum b := by
  obtain ⟨j, rfl⟩ := exists_vbrByte hf
  have hpick := DifferAt.pick vbrByte_inj (vbr_getElem? a) (vbr_getElem? b) hd
  exact (rotateAdd_separates 31).foldl_ne hpick (fun s _ => rotateAdd_ne (by norm_num) hxy s)
    (by norm_num)

theorem exfatVbrStartChecksum_lt (sector : List UInt8) : exfatVbrStartChecksum sector < 2 ^ 32 :=
  (rotateAdd_separates 31).foldl_keeps _ (by norm_num)

theorem exfatVbrAddChecksum_ne {a b : List UInt8} (hd : DifferAt a b i x y) (hxy : x ≠ y)
    {sum : Nat} (hs : sum < 2 ^ 32) : exfatVbrAddChecksum a sum ≠ exfatVbrAddChecksum b sum :=
  (rotateAdd_separates 31).foldl_ne hd (fun s _ => rotateAdd_ne (by norm_num) hxy s) hs

/-- Whole sectors keep different sums apart, too. -/
theorem exfatVbrAddChecksum_separates :
    Separates (· < 2 ^ 32) fun sum sector => exfatVbrAddChecksum sector sum :=
  (rotateAdd_separates 31).foldl

/-- One byte of one sector of a boot region, where mount sums it up, shows in the sum. -/
theorem bootChecksum_ne {S T : List (List UInt8)} {k : Nat} {a b : List UInt8}
    (hS : DifferAt S T k a b) (hd : DifferAt a b i x y) (hxy : x ≠ y)
    (hf : k = 0 → Fixed i) : bootChecksum S ≠ bootChecksum T := by
  cases S with
  | nil => cases hS.left
  | cons first rest =>
    cases T with
    | nil => cases hS.right
    | cons first' rest' =>
      cases k with
      | zero =>
        obtain rfl : first = a := Option.some.inj hS.left
        obtain rfl : first' = b := Option.some.inj hS.right
        have hrest : rest = rest' := by
          apply List.ext_getElem?
          intro j
          exact hS.same (j + 1) (by omega)
        subst hrest
        intro he
        exact exfatVbrStartChecksum_ne hd hxy (hf rfl)
          (exfatVbrAddChecksum_separates.foldl_apart (exfatVbrStartChecksum_lt _)
            (exfatVbrStartChecksum_lt _) he)
      | succ k =>
        obtain ⟨rfl, htail⟩ := hS.tail
        exact exfatVbrAddChecksum_separates.foldl_ne htail
          (fun s hs => exfatVbrAddChecksum_ne hd hxy hs) (exfatVbrStartChecksum_lt _)

theorem bootSum_eq (d : Store) (ss : Nat) :
    bootSum d ss = bootChecksum ((List.range 11).map fun k => d.read (k * ss) ss) := by
  rw [show List.range 11 = [0, 1, 2, 3, 4, 5, 6, 7, 8, 9, 10] from rfl, bootSum]
  simp only [List.map_cons, List.map_nil, bootChecksum, List.foldl_cons, List.foldl_nil, vbrSum,
    Nat.zero_mul]

/-- Any byte of the boot region outside the two fields of its first sector shows in the checksum. -/
theorem bootSum_ne {ss p : Nat} (hp : p < 11 * ss) (hf : p < ss → Fixed p) (hne : d p ≠ e p)
    (hsame : ∀ q < 11 * ss, q ≠ p → d q = e q) : bootSum d ss ≠ bootSum e ss := by
  have hpos : 0 < ss := by omega
  have hk : p / ss < 11 := Nat.div_lt_of_lt_mul (by rwa [Nat.mul_comm])
  have hi := Nat.mod_lt p hpos
  have hsplit := Nat.div_add_mod' p ss
  have hread : ∀ f : Store, (f.read (p / ss * ss) ss)[p % ss]? = some (f p) := by
    intro f
    rw [Store.read, List.getElem?_map, List.getElem?_range hi, Option.map_some, hsplit]
  rw [bootSum_eq, bootSum_eq]
  refine bootChecksum_ne (k := p / ss) (i := p % ss) (a := d.read (p / ss * ss) ss)
    (b := e.read (p / ss * ss) ss) ⟨?_, ?_, fun j hj => ?_⟩ ⟨hread d, hread e, fun j hj => ?_⟩ hne
    fun h0 => ?_
  · rw [List.getElem?_map, List.getElem?_range hk, Option.map_some]
  · rw [List.getElem?_map, List.getElem?_range hk, Option.map_some]
  · by_cases hj11 : j < 11
    · rw [List.getElem?_map, List.getElem?_map, List.getElem?_range hj11, Option.map_some,
        Option.map_some, Store.read_congr fun q h1 h2 => hsame q ?_ ?_]
      · have hle : (j + 1) * ss ≤ 11 * ss := Nat.mul_le_mul_right _ hj11
        rw [Nat.succ_mul] at hle
        omega
      · rintro rfl
        refine hj (Nat.div_eq_of_lt_le h1 ?_).symm
        rwa [Nat.succ_mul]
    · rw [List.getElem?_eq_none (by simp; omega), List.getElem?_eq_none (by simp; omega)]
  · by_cases hjs : j < ss
    · rw [Store.read, Store.read, List.getElem?_map, List.getElem?_map, List.getElem?_range hjs,
        Option.map_some, Option.map_some, hsame _ ?_ ?_]
      · have hle : (p / ss + 1) * ss ≤ 11 * ss := Nat.mul_le_mul_right _ hk
        rw [Nat.succ_mul] at hle
        omega
      · omega
    · rw [List.getElem?_eq_none (by simp; omega), List.getElem?_eq_none (by simp; omega)]
  · have hlt : p < ss := by
      rw [h0] at hsplit
      omega
    rw [Nat.mod_eq_of_lt hlt]
    exact hf hlt

/-- The two checksums show every change of a single byte: of an entry set of any length outside
the checksum itself, which they never depend on, and of a boot region with sectors of any size
outside the volume state and the allocated percentage in the first of them. -/
theorem checksums_detect :
    (∀ n a b i x y, 1 ≤ n → a.length = entrySize * n → DifferAt a b i x y → x ≠ y →
      i ≠ 2 → i ≠ 3 → exfatCalcChecksum a ≠ exfatCalcChecksum b) ∧
    (∀ n a b, 1 ≤ n → a.length = entrySize * n → (∀ j, j ≠ 2 → j ≠ 3 → a[j]? = b[j]?) →
      exfatCalcChecksum a = exfatCalcChecksum b) ∧
    ∀ (d e : Store) (ss p : Nat), p < 11 * ss → (p < ss → p ≠ 0x6a ∧ p ≠ 0x6b ∧ p ≠ 0x70) →
      d p ≠ e p → (∀ q < 11 * ss, q ≠ p → d q = e q) → bootSum d ss ≠ bootSum e ss :=
  ⟨fun _ _ _ _ _ _ _ _ hd hxy h2 h3 => exfatCalcChecksum_ne hd hxy h2 h3,
    fun _ _ _ _ _ h => exfatCalcChecksum_congr h,
    fun _ _ _ _ hp hf hne hsame => bootSum_ne hp hf hne hsame⟩

/-- Two small inputs: two entries that differ in the first byte, and an empty and a marked boot
region. -/
theorem checksums_detect_first :
    exfatCalcChecksum (0x85 :: List.replicate 63 0) ≠
      exfatCalcChecksum (0x05 :: List.replicate 63 0) ∧
    exfatCalcChecksum (List.replicate 64 1) =
      exfatCalcChecksum (setAt (List.replicate 64 1) 2 [7, 8]) ∧
    bootSum (fun _ => 0) 512 ≠ bootSum (fun p => if p = 0 then 1 else 0) 512 := by
  refine ⟨checksums_detect.1 2 _ _ 0 0x85 0x05 ?_ ?_ ⟨rfl, rfl, fun j hj => ?_⟩ ?_ ?_ ?_,
    checksums_detect.2.1 2 _ _ ?_ ?_ fun j h2 h3 => ?_,
    checksums_detect.2.2 _ _ 512 0 ?_ ?_ ?_ fun q _ hq => ?_⟩
  · norm_num
  · simp
  · obtain ⟨k, rfl⟩ := Nat.exists_eq_succ_of_ne_zero hj
    rfl
  · decide
  · norm_num
  · norm_num
  · norm_num
  · simp
  · by_cases hj : j < 4
    · interval_cases j <;> first | rfl | omega
    · rw [setAt, List.getElem?_append_right (by simp; omega), List.getElem?_drop]
      congr 1
      simp
      omega
  · norm_num
  · norm_num
  · decide
  · exact (if_neg hq).symm

section
variable [Env]

/-- A boot region that passed is reported or rejected after any one byte outside the two fields
was changed. -/
theorem verify_reports (hq : Env.Quiet) {u v w' : World} {p : Nat} (h2 : 2 ≤ w.sb.sectorBits)
    (hpass : verifyVbrChecksum w = .ok (true, u)) (he : u.errors = w.errors)
    (hsb : w'.sb = w.sb) (hp : p < 11 * w.sb.sectorSize) (hf : Fixed p) (hne : w.dev p ≠ w'.dev p)
    (hsame : ∀ q, q ≠ p → w.dev q = w'.dev q)
    (hagain : verifyVbrChecksum w' = .ok (true, v)) : v.errors ≠ w'.errors := by
  intro hv
  have h4 : 2 ^ 2 ≤ w.sb.sectorSize := Nat.pow_le_pow_right (by norm_num) h2
  have hpos : 0 < w.sb.sectorSize / 4 := by omega
  have hok := bootOk_of_verify hq hpass he 0 hpos
  have hok' := bootOk_of_verify hq hagain hv 0 (by rwa [hsb])
  have hread : w.dev.read (11 * w.sb.sectorSize) w.sb.sectorSize =
      w'.dev.read (11 * w.sb.sectorSize) w.sb.sectorSize :=
    Store.read_congr fun q h _ => hsame q (by omega)
  rw [hsb, ← hread, hok] at hok'
  exact bootSum_ne hp (fun _ => hf) hne (fun q _ hq => hsame q hq) hok'

end

end Proofs

end Exfat
