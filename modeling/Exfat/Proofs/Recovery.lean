import Exfat.Lib.Walk
import Exfat.Model.Recovery
import Exfat.Proofs.Checksum

namespace Exfat
open Lib

/-! The recovery tool: the boot checksum it computes, and the chain it builds for the bitmap. -/

/-- The checksum that mount computes over the super block and the eight extended boot sectors. -/
def mountedSum (vbr : VolumeBootRecord) : Nat :=
  vbr.bpb[0].mebs.toList.foldl (fun sum meb => exfatVbrAddChecksum meb.toList sum)
    (exfatVbrStartChecksum vbr.sb.toList)

/-- The bytes of a sector that `update_chksum_sector` sums up. -/
def summedBytes (sector : List UInt8) : List UInt8 :=
  sector.take 0x6a ++ (sector.drop 0x6c).take 4 ++ sector.drop 0x71

/-- What `restore_fat` sums up. -/
def restoredBytes (vbr : VolumeBootRecord) : List UInt8 :=
  summedBytes vbr.sb.toList ++ vbr.bpb[0].mebs.toList.flatMap fun meb => summedBytes meb.toList

/-- What mount sums up. -/
def mountedBytes (vbr : VolumeBootRecord) : List UInt8 :=
  summedBytes vbr.sb.toList ++ vbr.bpb[0].mebs.toList.flatMap fun meb => meb.toList

/-- The word that `restore_fat` leaves is the sum that mount computes. -/
def Agrees (vbr : VolumeBootRecord) : Prop := (restoreFat vbr).bpb[0].chksum[0] = mountedSum vbr

/-- A record with another byte in an extended boot sector. -/
def VolumeBootRecord.setByte (vbr : VolumeBootRecord) (k : Fin 8) (i : Fin sectorSizeBytes)
    (b : UInt8) : VolumeBootRecord :=
  let bpb := vbr.bpb.get ⟨0, Nat.zero_lt_two⟩
  let meb := (bpb.mebs.get k).set i.val b i.isLt
  let bpb := { bpb with mebs := bpb.mebs.set k.val meb k.isLt }
  { vbr with bpb := vbr.bpb.set 0 bpb Nat.zero_lt_two }

namespace Proofs

variable {vbr : VolumeBootRecord}

theorem updateChksumLoop_append (l r : List UInt8) (sum i : Nat) :
    updateChksumLoop sum i (l ++ r) =
      updateChksumLoop (updateChksumLoop sum i l) (i + l.length) r := by
  induction l generalizing sum i with
  | nil => rfl
  | cons b l ih =>
    simp only [List.cons_append, updateChksumLoop, List.length_cons, ih]
    rw [Nat.add_right_comm, ← Nat.add_assoc]
    split <;> rfl

/-- Without a byte that is left out the loop is the plain sum. -/
theorem updateChksumLoop_plain {l : List UInt8} {i : Nat} (sum : Nat)
    (h : ∀ j, i ≤ j → j < i + l.length → chksumSkips j = false) :
    updateChksumLoop sum i l = l.foldl (rotateAdd 31) sum := by
  induction l generalizing sum i with
  | nil => rfl
  | cons b l ih =>
    rw [List.length_cons] at h
    rw [updateChksumLoop, h i le_rfl (by omega), if_neg Bool.false_ne_true]
    exact ih _ fun j h1 h2 => h j (by omega) (by omega)

/-- Bytes that are left out do not change the sum. -/
theorem updateChksumLoop_skips {l : List UInt8} {i : Nat} (sum : Nat)
    (h : ∀ j, i ≤ j → j < i + l.length → chksumSkips j = true) :
    updateChksumLoop sum i l = sum := by
  induction l generalizing i with
  | nil => rfl
  | cons b l ih =>
    rw [List.length_cons] at h
    rw [updateChksumLoop, h i le_rfl (by omega), if_pos rfl]
    exact ih fun j h1 h2 => h j (by omega) (by omega)

theorem chksumSkips_iff {j : Nat} : chksumSkips j = true ↔ j = 106 ∨ j = 107 ∨ j = 112 := by
  rw [chksumSkips, decide_eq_true_iff]

theorem chksumSkips_false {j : Nat} (h : j ≠ 106 ∧ j ≠ 107 ∧ j ≠ 112) : chksumSkips j = false := by
  rw [Bool.eq_false_iff, ne_eq, chksumSkips_iff]
  omega

/-- `update_chksum_sector` turns and adds the bytes that it does not leave out. -/
theorem updateChksumSector_eq {sector : List UInt8} (hl : 112 ≤ sector.length) (sum : Nat) :
    updateChksumSector sum sector = (summedBytes sector).foldl (rotateAdd 31) sum := by
  have hsplit : sector = sector.take 106 ++ (sector.drop 106).take 2 ++ (sector.drop 108).take 4 ++
      (sector.drop 112).take 1 ++ sector.drop 113 := by
    rw [← List.take_add, ← List.take_add, ← List.take_add, List.take_append_drop]
  have hA : (sector.take 106).length = 106 := by rw [List.length_take]; omega
  have hB : ((sector.drop 106).take 2).length = 2 := by rw [List.length_take, List.length_drop]; omega
  have hC : ((sector.drop 108).take 4).length = 4 := by rw [List.length_take, List.length_drop]; omega
  have hD : ((sector.drop 112).take 1).length = min 1 (sector.length - 112) := by
    rw [List.length_take, List.length_drop]
  have hE : (sector.drop 113).length = sector.length - 113 := List.length_drop
  have h1 : ∀ s, updateChksumLoop s 0 (sector.take 106) =
      (sector.take 106).foldl (rotateAdd 31) s := fun s =>
    updateChksumLoop_plain s fun j _ hj => chksumSkips_false (by omega)
  have h2 : ∀ s, updateChksumLoop s 106 ((sector.drop 106).take 2) = s := fun s =>
    updateChksumLoop_skips s fun j _ hj => chksumSkips_iff.mpr (by omega)
  have h3 : ∀ s, updateChksumLoop s 108 ((sector.drop 108).take 4) =
      ((sector.drop 108).take 4).foldl (rotateAdd 31) s := fun s =>
    updateChksumLoop_plain s fun j _ hj => chksumSkips_false (by omega)
  have h4 : ∀ s, updateChksumLoop s 112 ((sector.drop 112).take 1) = s := fun s =>
    updateChksumLoop_skips s fun j _ hj => chksumSkips_iff.mpr (by omega)
  have h5 : ∀ s, updateChksumLoop s (112 + min 1 (sector.length - 112)) (sector.drop 113) =
      (sector.drop 113).foldl (rotateAdd 31) s := fun s =>
    updateChksumLoop_plain s fun j _ hj => chksumSkips_false (by omega)
  rw [updateChksumSector, hsplit, updateChksumLoop_append, updateChksumLoop_append,
    updateChksumLoop_append, updateChksumLoop_append, ← hsplit]
  simp only [List.length_append, hA, hB, hC, hD, Nat.zero_add, Nat.reduceAdd, h1, h2, h3, h4, h5,
    summedBytes, List.foldl_append]

theorem sector_length (sector : Sector) : sector.toList.length = 512 := Vector.length_toList

theorem restoreFat_chksum (h0 : vbr.bpb[0].chksum[0] = 0) :
    (restoreFat vbr).bpb[0].chksum[0] = (restoredBytes vbr).foldl (rotateAdd 31) 0 := by
  have hlen : ∀ sector : Sector, 112 ≤ sector.toList.length := fun sector => by
    rw [sector_length]
    norm_num
  have hcopy : vbr.bpb.get 0 = vbr.bpb[0] := rfl
  have hword : vbr.bpb[0].chksum.get 0 = 0 := h0
  simp only [restoreFat, Vector.getElem_set_self, hcopy, hword, updateChksumSector_eq (hlen _)]
  rw [restoredBytes, List.foldl_append, List.foldl_flatMap]

theorem mountedSum_eq : mountedSum vbr = (mountedBytes vbr).foldl (rotateAdd 31) 0 := by
  have hadd : ∀ sector sum, exfatVbrAddChecksum sector sum = sector.foldl (rotateAdd 31) sum :=
    fun _ _ => rfl
  have hstart : exfatVbrStartChecksum vbr.sb.toList =
      (summedBytes vbr.sb.toList).foldl (rotateAdd 31) 0 := rfl
  simp only [mountedSum, hadd, hstart]
  rw [mountedBytes, List.foldl_append, List.foldl_flatMap]

/-- Sectors of zeros leave the sum as it is. -/
theorem exfatVbrAddChecksum_zeros {sum : Nat} (hs : sum < 2 ^ 32) :
    exfatVbrAddChecksum (List.replicate sectorSizeBytes 0) sum = sum := rotate_turns hs 16

theorem sectors_length_eq : ∀ s ∈ vbr.sectors, s.length = sectorSizeBytes := by
  intro s hs
  simp only [VolumeBootRecord.sectors, List.mem_cons, List.mem_flatten, List.mem_map] at hs
  rcases hs with rfl | ⟨_, ⟨b, -, rfl⟩, hs⟩
  · exact sector_length _
  simp only [BiosParameterBlock.sectors, List.mem_append, List.mem_map, List.mem_singleton] at hs
  rcases hs with ((⟨t, -, rfl⟩ | rfl) | ⟨t, -, rfl⟩) | rfl
  · exact sector_length _
  · exact sector_length _
  · exact sector_length _
  · rw [flatMap_toLe_length, Vector.length_toList]
    rfl

theorem mebs_length : (vbr.bpb[0].mebs.toList.map Vector.toList).length = 8 := by
  rw [List.length_map, Vector.length_toList]

/-- The first eleven sectors of the record. -/
theorem sectors_take : vbr.sectors.take 11 =
    vbr.sb.toList :: (vbr.bpb[0].mebs.toList.map Vector.toList ++
      [vbr.bpb[0].oemParams.toList, vbr.bpb[0].zs[0].toList]) := by
  have hbpb : vbr.bpb.toList = [vbr.bpb[0], vbr.bpb[1]] := by
    apply List.ext_getElem (by simp)
    intro i h1 h2
    have : i < 2 := by simpa using h2
    interval_cases i <;> simp
  have hzs : vbr.bpb[0].zs.toList = [vbr.bpb[0].zs[0], vbr.bpb[0].zs[1]] := by
    apply List.ext_getElem (by simp)
    intro i h1 h2
    have : i < 2 := by simpa using h2
    interval_cases i <;> simp
  rw [VolumeBootRecord.sectors, hbpb, List.map_cons, List.flatten_cons, BiosParameterBlock.sectors,
    hzs, List.take_succ_cons]
  simp only [List.append_assoc, List.map_cons, List.map_nil, List.cons_append, List.nil_append]
  rw [List.take_append, mebs_length, List.take_of_length_le (by rw [mebs_length]; omega)]
  rfl

/-- With two sectors of zeros behind them, the sum of the nine sectors is what mount asks for once
the record is written to a device. -/
theorem bootSum_written (d : Store)
    (ho : vbr.bpb[0].oemParams.toList = List.replicate sectorSizeBytes 0)
    (hz : vbr.bpb[0].zs[0].toList = List.replicate sectorSizeBytes 0) :
    bootSum (d.write 0 vbr.sectors.flatten) sectorSizeBytes = mountedSum vbr := by
  have hlen : 11 ≤ vbr.sectors.length := by
    have h := congrArg List.length (@sectors_take vbr)
    rw [List.length_take, List.length_cons, List.length_append, List.length_map,
      Vector.length_toList] at h
    simp only [List.length_cons, List.length_nil] at h
    omega
  have hread : (List.range 11).map (fun k =>
      (d.write 0 vbr.sectors.flatten).read (k * sectorSizeBytes) sectorSizeBytes) =
      vbr.sectors.take 11 := by
    apply List.ext_getElem (by simp [hlen])
    intro k h1 h2
    have hk : k < 11 := by simpa using h1
    have hin : k * sectorSizeBytes + sectorSizeBytes ≤ vbr.sectors.flatten.length := by
      rw [flatten_length sectors_length_eq, ← Nat.succ_mul]
      exact Nat.mul_le_mul_right _ (by omega)
    have hr := @Store.read_write_in d 0 _ _ _ hin
    rw [Nat.zero_add] at hr
    rw [List.getElem_map, List.getElem_range, hr, flatten_slice sectors_length_eq (by omega),
      List.getElem_take]
  have hlt : mountedSum vbr < 2 ^ 32 := by
    rw [mountedSum, ← List.foldl_map (f := Vector.toList)
      (g := fun sum sector => exfatVbrAddChecksum sector sum)]
    exact exfatVbrAddChecksum_separates.foldl_keeps _ (exfatVbrStartChecksum_lt _)
  rw [bootSum_eq, hread, sectors_take, ho, hz]
  simp only [bootChecksum, List.foldl_append, List.foldl_map, List.foldl_cons, List.foldl_nil]
  rw [← mountedSum, exfatVbrAddChecksum_zeros hlt, exfatVbrAddChecksum_zeros hlt]

/-- Where no carry is lost, the sums agree when the numbers do. -/
theorem agrees_iff_weigh (h0 : vbr.bpb[0].chksum[0] = 0) (hr : CarryFree 31 (restoredBytes vbr))
    (hm : CarryFree 31 (mountedBytes vbr)) : Agrees vbr ↔
      weigh 31 (restoredBytes vbr) ≡ weigh 31 (mountedBytes vbr) [MOD 2 ^ 32 - 1] := by
  rw [Agrees, restoreFat_chksum h0, mountedSum_eq, foldl_rotateAdd hr, foldl_rotateAdd hm]
  rfl

/-- Bytes that are left out are not looked at. -/
theorem summedBytes_set {sector : List UInt8} {i : Nat} (hi : chksumSkips i = true) (b : UInt8) :
    summedBytes (sector.set i b) = summedBytes sector := by
  have hskip := chksumSkips_iff.mp hi
  have h1 : (sector.set i b).take 0x6a = sector.take 0x6a := by
    rw [List.take_set_of_le (by omega)]
  have h2 : ((sector.set i b).drop 0x6c).take 4 = (sector.drop 0x6c).take 4 := by
    by_cases hlt : i < 0x6c
    · rw [List.drop_set_of_lt hlt]
    · rw [List.drop_set, if_neg hlt, List.take_set_of_le (by omega)]
  have h3 : (sector.set i b).drop 0x71 = sector.drop 0x71 := List.drop_set_of_lt (by omega)
  rw [summedBytes, summedBytes, h1, h2, h3]

section
variable {k : Fin 8} {i : Fin sectorSizeBytes} {b : UInt8}

theorem setByte_mebs : ((vbr.setByte k i b).bpb[0].mebs.toList.map Vector.toList) =
    (vbr.bpb[0].mebs.toList.map Vector.toList).set k (vbr.bpb[0].mebs[k].toList.set i b) := by
  have hcopy : vbr.bpb.get ⟨0, Nat.zero_lt_two⟩ = vbr.bpb[0] := rfl
  have hmeb : vbr.bpb[0].mebs.get k = vbr.bpb[0].mebs[k] := rfl
  simp only [VolumeBootRecord.setByte, Vector.getElem_set_self, hcopy, hmeb, Vector.toList_set,
    List.map_set]

/-- `restore_fat` does not see a byte that it leaves out. -/
theorem restoredBytes_setByte (hi : chksumSkips i = true) :
    restoredBytes (vbr.setByte k i b) = restoredBytes vbr := by
  have hsb : (vbr.setByte k i b).sb = vbr.sb := rfl
  have hsectors : ∀ v : VolumeBootRecord, restoredBytes v = summedBytes v.sb.toList ++
      ((v.bpb[0].mebs.toList.map Vector.toList).map summedBytes).flatten := fun v => by
    rw [restoredBytes, List.map_map, List.flatMap_def]
    rfl
  have hk : k.val < ((vbr.bpb[0].mebs.toList.map Vector.toList).map summedBytes).length := by
    rw [List.length_map, mebs_length]
    exact k.isLt
  have hsame : summedBytes (vbr.bpb[0].mebs[k].toList.set i b) =
      ((vbr.bpb[0].mebs.toList.map Vector.toList).map summedBytes)[k.val] := by
    rw [summedBytes_set hi, List.getElem_map, List.getElem_map, Vector.getElem_toList]
    rfl
  rw [hsectors, hsectors, hsb, setByte_mebs, List.map_set, hsame, List.set_getElem_self]

/-- Mount sees every byte of the extended boot sectors. -/
theorem mountedSum_setByte (hb : vbr.bpb[0].mebs[k][i] ≠ b) :
    mountedSum vbr ≠ mountedSum (vbr.setByte k i b) := by
  have hsectors : ∀ v : VolumeBootRecord, mountedSum v =
      (v.bpb[0].mebs.toList.map Vector.toList).foldl (fun sum s => exfatVbrAddChecksum s sum)
        (exfatVbrStartChecksum v.sb.toList) := fun v => by rw [mountedSum, List.foldl_map]
  have hsector := differAt_set (l := vbr.bpb[0].mebs[k].toList) (i := i.val) (y := b)
    (by rw [sector_length]; exact i.isLt)
  have hlist := differAt_set (l := vbr.bpb[0].mebs.toList.map Vector.toList) (i := k.val)
    (y := vbr.bpb[0].mebs[k].toList.set i b) (by rw [mebs_length]; exact k.isLt)
  rw [hsectors, hsectors, setByte_mebs]
  refine exfatVbrAddChecksum_separates.foldl_ne hlist (fun s hs => ?_) (exfatVbrStartChecksum_lt _)
  rw [List.getElem_map, Vector.getElem_toList]
  rw [Vector.getElem_toList] at hsector
  exact exfatVbrAddChecksum_ne hsector hb hs

/-- Of all values of a byte that is left out at most one agrees. -/
theorem not_agrees_setByte (h0 : vbr.bpb[0].chksum[0] = 0) (hi : chksumSkips i = true)
    (hb : vbr.bpb[0].mebs[k][i] ≠ b) (ha : Agrees vbr) : ¬Agrees (vbr.setByte k i b) := by
  intro ha'
  have h0' : (vbr.setByte k i b).bpb[0].chksum[0] = 0 := by
    simp only [VolumeBootRecord.setByte, Vector.getElem_set_self]
    exact h0
  rw [Agrees, restoreFat_chksum h0] at ha
  rw [Agrees, restoreFat_chksum h0', restoredBytes_setByte hi, ha] at ha'
  exact mountedSum_setByte hb ha'

end

/-- Where neither sum loses a carry, `restore_fat` and mount agree on the nine sectors exactly if the
bytes that each of them sums up, as numbers in which a turn is a factor, are congruent. In every
record another value of a byte that `restore_fat` leaves out ends the agreement. With zeros in the two
sectors behind them the sum of the nine is what mount asks for. -/
theorem restoreFat_agrees_iff (vbr : VolumeBootRecord) (h0 : vbr.bpb[0].chksum[0] = 0) :
    (CarryFree 31 (restoredBytes vbr) → CarryFree 31 (mountedBytes vbr) → (Agrees vbr ↔
      weigh 31 (restoredBytes vbr) ≡ weigh 31 (mountedBytes vbr) [MOD 2 ^ 32 - 1])) ∧
    (Agrees vbr → ∀ (k : Fin 8) (i : Fin sectorSizeBytes) (b : UInt8), chksumSkips i = true →
      vbr.bpb[0].mebs[k][i] ≠ b → ¬Agrees (vbr.setByte k i b)) ∧
    (vbr.bpb[0].oemParams.toList = List.replicate sectorSizeBytes 0 →
      vbr.bpb[0].zs[0].toList = List.replicate sectorSizeBytes 0 →
      ∀ d : Store, bootSum (d.write 0 vbr.sectors.flatten) sectorSizeBytes = mountedSum vbr) :=
  ⟨agrees_iff_weigh h0, fun ha _ _ _ hi hb => not_agrees_setByte h0 hi hb ha,
    fun ho hz d => bootSum_written d ho hz⟩

/-- A record of zeros but for four bytes of the boot code that lie eight bytes apart. -/
def evenVbr : VolumeBootRecord :=
  let bpb : BiosParameterBlock :=
    { mebs := Vector.replicate 8 zeroSectorBytes, oemParams := zeroSectorBytes
      zs := Vector.replicate 2 zeroSectorBytes, chksum := Vector.replicate 128 0 }
  { sb := (((zeroSectorBytes.set 120 1).set 128 1).set 136 1).set 144 1
    bpb := Vector.replicate 2 bpb }

theorem restoreFat_agrees_iff_even : Agrees evenVbr := by
  obtain ⟨hr, hrn⟩ := weighMod_eq_some
    (show weighMod 31 0 (restoredBytes evenVbr) = some 0x02020202 by decide +kernel)
  obtain ⟨hm, hmn⟩ := weighMod_eq_some
    (show weighMod 31 0 (mountedBytes evenVbr) = some 0x02020202 by decide +kernel)
  have hones : 2 ^ 32 - 1 = 2 ^ (31 + 1) - 1 := rfl
  refine ((restoreFat_agrees_iff evenVbr rfl).1 hr hm).mpr ?_
  rw [Nat.ModEq, hones, hrn, hmn]

/-- The sums differ for the record that the recovery tool starts from. -/
theorem restoreFat_disagrees : fsrestoreVbr.bpb[0].chksum[0] = 0 ∧
    (restoreFat fsrestoreVbr).bpb[0].chksum[0] ≠ mountedSum fsrestoreVbr := by
  decide +kernel

end Proofs

end Exfat
