import Exfat.Proofs.Fragments
import Exfat.Proofs.Usage

namespace Exfat
open Lib

/-! The addresses of clusters and of their FAT entries, over every geometry that `exfat_mount`
admits. -/

namespace Proofs

/-- The geometries that pass the checks of `exfat_mount`; the fields on the disk have 32 bits. -/
structure Admitted (sb : SuperBlock) : Prop where
  sector : 9 ≤ sb.sectorBits
  cluster : sb.sectorBits + sb.spcBits ≤ 25
  clusterStart : sb.clusterSectorStart < 2 ^ 32
  fatStart : sb.fatSectorStart < 2 ^ 32
  count : sb.clusterCount < 2 ^ 32

/-- The bytes of a cluster on the device. -/
def clusterBytes (sb : SuperBlock) (c : Nat) : Set Nat :=
  Set.Ico (c2oRaw sb c) (c2oRaw sb c + sb.clusterSize)

variable {E : Halt → Prop} {w : World} {sb : SuperBlock} {c d s : Nat}

theorem ofBytes_admitted {bs : List UInt8} (h9 : 9 ≤ (SuperBlock.ofBytes bs).sectorBits)
    (h25 : (SuperBlock.ofBytes bs).sectorBits + (SuperBlock.ofBytes bs).spcBits ≤ 25) :
    Admitted (SuperBlock.ofBytes bs) :=
  ⟨h9, h25, leAt_lt bs 0x58 4, leAt_lt bs 0x50 4, leAt_lt bs 0x5c 4⟩

theorem Admitted.clusterSize_eq (h : Admitted sb) :
    clusterSizeSigned sb = some (sb.clusterSize : Int) := by
  have hle := h.cluster
  have hsector : signedShl 32 1 sb.sectorBits = some ((2 ^ sb.sectorBits : Nat) : Int) := by
    have hone := @signedShl_cast 32 1 1 sb.sectorBits (by decide) (by omega)
    rwa [Nat.one_mul] at hone
  have hcluster : signedShl 32 ((2 ^ sb.sectorBits : Nat) : Int) sb.spcBits =
      some (sb.clusterSize : Int) :=
    signedShl_cast (Nat.pow_lt_pow_succ (by decide : 1 < 2)) (by omega)
  rw [clusterSizeSigned, hsector]
  exact hcluster

/-- The sector of a cluster has at most 33 bits above those of a sector number inside a cluster. -/
theorem Admitted.c2sRaw_lt (h : Admitted sb) (hc : c < 2 ^ 32) :
    c2sRaw sb c < 2 ^ (33 + sb.spcBits) := by
  have hstart : sb.clusterSectorStart < 2 ^ 32 * 2 ^ sb.spcBits :=
    h.clusterStart.trans_le (Nat.le_mul_of_pos_right _ (by positivity))
  have hahead : (c - exfatFirstDataCluster) * 2 ^ sb.spcBits < 2 ^ 32 * 2 ^ sb.spcBits :=
    Nat.mul_lt_mul_of_pos_right (by omega) (by positivity)
  have hpow : 2 ^ (33 + sb.spcBits) = 2 ^ 32 * 2 ^ sb.spcBits + 2 ^ 32 * 2 ^ sb.spcBits := by
    rw [Nat.pow_add]
    ring
  rw [c2sRaw, hpow]
  omega

theorem Admitted.c2s_eq (h : Admitted sb) (hc : 2 ≤ c) (h32 : c < 2 ^ 32) :
    c2sSigned sb c = some (c2sRaw sb c : Int) := by
  have hle := h.cluster
  have h9 := h.sector
  have hahead : signedShl 64 ((c - exfatFirstDataCluster : Nat) : Int) sb.spcBits =
      some (((c - exfatFirstDataCluster) * 2 ^ sb.spcBits : Nat) : Int) :=
    signedShl_cast (a := 32) (by omega) (by omega)
  have hsum : c2sRaw sb c < 2 ^ (64 - 1) :=
    (h.c2sRaw_lt h32).trans_le (Nat.pow_le_pow_right (by decide) (by omega))
  have hn : ¬c < exfatFirstDataCluster := Nat.not_lt.mpr hc
  have hadd : (sb.clusterSectorStart : Int) +
      (((c - exfatFirstDataCluster) * 2 ^ sb.spcBits : Nat) : Int) = (c2sRaw sb c : Nat) :=
    (Int.natCast_add _ _).symm
  rw [c2sSigned, if_neg hn, hahead, Option.bind_eq_bind, Option.bind_some, hadd]
  exact signed_cast hsum

theorem Admitted.c2o_eq (h : Admitted sb) (hc : 2 ≤ c) (h32 : c < 2 ^ 32) :
    c2oSigned sb c = some (c2oRaw sb c : Int) := by
  have hle := h.cluster
  have hshift : s2oSigned sb (c2sRaw sb c : Int) = some (c2oRaw sb c : Int) :=
    signedShl_cast (h.c2sRaw_lt h32) (by omega)
  rw [c2oSigned, h.c2s_eq hc h32]
  exact hshift

/-- A cluster ends below the highest `off_t`. -/
theorem Admitted.end_lt (h : Admitted sb) (h32 : c < 2 ^ 32) :
    c2oRaw sb c + sb.clusterSize < 2 ^ 63 := by
  have hle := h.cluster
  have hsize : sb.clusterSize ≤ 2 ^ 25 := by
    rw [SuperBlock.clusterSize, SuperBlock.sectorSize, ← Nat.pow_add]
    exact Nat.pow_le_pow_right (by decide) hle
  have hstart : c2oRaw sb c < 2 ^ 58 := by
    calc c2oRaw sb c < 2 ^ (33 + sb.spcBits) * 2 ^ sb.sectorBits :=
          Nat.mul_lt_mul_of_pos_right (h.c2sRaw_lt h32) (by positivity)
      _ = 2 ^ (33 + sb.spcBits + sb.sectorBits) := (Nat.pow_add _ _ _).symm
      _ ≤ 2 ^ 58 := Nat.pow_le_pow_right (by decide) (by omega)
  omega

theorem Admitted.fatOffset_eq (h : Admitted sb) (h32 : c < 2 ^ 32) :
    fatOffsetSigned sb c = some (fatOffset sb c : Int) := by
  have hle := h.cluster
  have hshift : s2oSigned sb sb.fatSectorStart = some (s2o sb sb.fatSectorStart : Int) :=
    signedShl_cast h.fatStart (by omega)
  have hstart : s2o sb sb.fatSectorStart < 2 ^ 57 := by
    calc s2o sb sb.fatSectorStart < 2 ^ 32 * 2 ^ sb.sectorBits :=
          Nat.mul_lt_mul_of_pos_right h.fatStart (by positivity)
      _ = 2 ^ (32 + sb.sectorBits) := (Nat.pow_add _ _ _).symm
      _ ≤ 2 ^ 57 := Nat.pow_le_pow_right (by decide) (by omega)
  have hsum : ((s2o sb sb.fatSectorStart : Int) + c * 4) % 2 ^ 64 = (fatOffset sb c : Nat) := by
    simp only [fatOffset]
    omega
  have hlt : fatOffset sb c < 2 ^ 63 := by
    simp only [fatOffset]
    omega
  rw [fatOffsetSigned, hshift, Option.bind_eq_bind, Option.bind_some, hsum, bmod_cast hlt]
  rfl

theorem Admitted.s2c_eq (h : Admitted sb) (hc : 2 ≤ c) (h32 : c < 2 ^ 32) (hs : InCluster sb c s) :
    s2cSigned sb s = some c := by
  have hle := h.cluster
  have h9 := h.sector
  obtain ⟨j, rfl⟩ := Nat.exists_eq_add_of_le hs.1
  have hj : j < 2 ^ sb.spcBits := Nat.lt_of_add_lt_add_left hs.2
  have hpos : 0 < 2 ^ sb.spcBits := by positivity
  have hsector := h.c2sRaw_lt h32
  have hdiff : ((c2sRaw sb c + j : Nat) : Int) - sb.clusterSectorStart =
      (((c - exfatFirstDataCluster) * 2 ^ sb.spcBits + j : Nat) : Int) := by
    simp only [c2sRaw]
    push_cast
    ring
  have hindex : ((c - exfatFirstDataCluster) * 2 ^ sb.spcBits + j) / 2 ^ sb.spcBits =
      c - exfatFirstDataCluster := by
    rw [Nat.mul_comm, Nat.mul_add_div hpos, Nat.div_eq_of_lt hj, Nat.add_zero]
  have hlt : (c - exfatFirstDataCluster) * 2 ^ sb.spcBits + j < 2 ^ (64 - 1) := by
    have hspc : 2 ^ sb.spcBits ≤ 2 ^ 16 := Nat.pow_le_pow_right (by decide) (by omega)
    have hmul : (c - exfatFirstDataCluster) * 2 ^ sb.spcBits ≤ 2 ^ 32 * 2 ^ 16 :=
      Nat.mul_le_mul (by omega) hspc
    omega
  have hback : ((c - exfatFirstDataCluster : Nat) : Int) + exfatFirstDataCluster = (c : Nat) := by
    simp only [exfatFirstDataCluster]
    omega
  have hmod : (((c : Nat) : Int) % 2 ^ 32).toNat = c := by omega
  simp only [s2cSigned, hdiff, signed_cast hlt, Option.bind_eq_bind, Option.bind_some]
  rw [signedShr_cast (by omega), hindex, Option.bind_some, hback,
    signed_cast (show c < 2 ^ (64 - 1) by omega), Option.bind_some, hmod]
  rfl

theorem clusterBytes_disjoint (hc : 2 ≤ c) (hd : 2 ≤ d) (hne : c ≠ d) :
    Disjoint (clusterBytes sb c) (clusterBytes sb d) := by
  rw [Set.disjoint_left]
  intro p hp hp'
  obtain ⟨o, rfl⟩ := Nat.exists_eq_add_of_le hp.1
  obtain ⟨q, hq⟩ := Nat.exists_eq_add_of_le hp'.1
  have ho : o < sb.clusterSize := Nat.lt_of_add_lt_add_left hp.2
  have hlt : c2oRaw sb c + o < c2oRaw sb d + sb.clusterSize := hp'.2
  exact hne (c2oRaw_inj hc hd ho (by omega) hq).1

/-- Addressing is exact: no signed type overflows, different clusters share no byte, consecutive ones
leave no gap, and the sectors of a cluster lead back to it. -/
theorem addressing_exact (sb : SuperBlock) (h : Admitted sb) :
    clusterSizeSigned sb = some (sb.clusterSize : Int) ∧
    (∀ c < 2 ^ 32, sb.clusterInvalid c = false →
      c2oSigned sb c = some (c2oRaw sb c : Int) ∧
      c2oRaw sb c + sb.clusterSize < 2 ^ 63 ∧
      fatOffsetSigned sb c = some (fatOffset sb c : Int) ∧
      (∀ w : World, w.sb = sb → exfatC2o c w = .ok (c2oRaw sb c, w)) ∧
      ∀ s, c2sRaw sb c ≤ s → s < c2sRaw sb c + 2 ^ sb.spcBits →
        s2cSigned sb s = some c ∧ s2c sb s = c) ∧
    (∀ c d, sb.clusterInvalid c = false → sb.clusterInvalid d = false → c ≠ d →
      Disjoint (clusterBytes sb c) (clusterBytes sb d)) ∧
    ∀ c, sb.clusterInvalid c = false → sb.clusterInvalid (c + 1) = false →
      c2oRaw sb (c + 1) = c2oRaw sb c + sb.clusterSize := by
  refine ⟨h.clusterSize_eq, fun c h32 hv => ?_, fun c d hc hd hne => ?_, fun c hc _ => ?_⟩
  · have hc := (clusterInvalid_false.mp hv).1
    refine ⟨h.c2o_eq hc h32, h.end_lt h32, h.fatOffset_eq h32, ?_, ?_⟩
    · rintro w rfl
      have hn : ¬c < exfatFirstDataCluster := Nat.not_lt.mpr hc
      simp only [exfatC2o, c2s, if_neg hn]
      rfl
    · intro s hlo hhi
      have hin : InCluster sb c s := ⟨hlo, hhi⟩
      exact ⟨h.s2c_eq hc h32 hin, hin.s2c_eq hc h32⟩
  · exact clusterBytes_disjoint (clusterInvalid_false.mp hc).1 (clusterInvalid_false.mp hd).1 hne
  · rw [c2oRaw_add (clusterInvalid_false.mp hc).1, Nat.one_mul]

/-- The largest fields that the disk can hold, with sectors of 512 bytes and clusters of 32 MB. -/
theorem addressing_exact_largest :
    let sb := { (default : SuperBlock) with
      fatSectorStart := 2 ^ 32 - 1, clusterSectorStart := 2 ^ 32 - 1, clusterCount := 2 ^ 32 - 1
      sectorBits := 9, spcBits := 16 }
    c2oSigned sb (2 ^ 32 - 1) = some 144117386998447616 ∧
      fatOffsetSigned sb (2 ^ 32 - 1) = some 2216203124220 := by
  intro sb
  have h := (addressing_exact sb ⟨by decide, by decide, by decide, by decide, by decide⟩).2.1
    (2 ^ 32 - 1) (by decide) (by decide)
  exact ⟨h.1.trans (by decide), h.2.2.1.trans (by decide)⟩

section
variable [Env]

theorem mountFail_err (format : String) (e : Errno) :
    Wp (fun _ => True) (mountFail format e) w fun rc _ => rc = .err e := by
  simp only [mountFail, exfatFree, wp_bind, wp_nextTick, wp_modify, wp_pure, exfatError, wp_ite]
  simp

/-- A super block read from the disk that `exfat_mount` does not turn down is admitted. -/
theorem mountChecks_admits {bs : List UInt8} (hw : w.sb = SuperBlock.ofBytes bs) :
    Wp (fun _ => True) mountChecks w fun rc _ => rc = .ok → Admitted w.sb := by
  have hfail : ∀ format e, Wp (fun _ => True) (mountFail format e) w fun rc _ =>
      rc = .ok → Admitted w.sb := by
    intro format e
    apply (mountFail_err format e).mono
    rintro _ _ rfl
    exact nofun
  rw [mountChecks, wp_bind, wp_get, wp_ite]
  refine ⟨fun _ => hfail _ _, fun _ => wp_ite.mpr ⟨fun _ => hfail _ _, fun h9 =>
    wp_ite.mpr ⟨fun _ => hfail _ _, fun h25 => ?_⟩⟩⟩
  have hadmitted : Admitted w.sb := by
    rw [hw] at h9 h25 ⊢
    exact ofBytes_admitted (Nat.not_lt.mp h9) (Nat.not_lt.mp h25)
  unfold Wp
  split
  · exact fun _ => hadmitted
  · trivial

end

end Proofs
end Exfat
