import Exfat.Lib.Runs
import Exfat.Model.Dump
import Exfat.Proofs.Boot

namespace Exfat
open Lib

/-! What is read off the allocation bitmap: the used sectors and the allocated percentage. -/

/-- The bit of a cluster of the heap. -/
def used (chunk : Nat → Bool) (c : Nat) : Bool := chunk (c - exfatFirstDataCluster)

/-- The last sector of a cluster. -/
def lastSector (sb : SuperBlock) (c : Nat) : Nat := c2sRaw sb c + (2 ^ sb.spcBits - 1)

/-- Where `find_used_clusters` ends a run: at the end of its search it does not step back. -/
def runEnd (stop c : Nat) : Nat := if c + 1 = stop then stop else c

/-- The range of sectors reported for a run of clusters. -/
def usedRange (sb : SuperBlock) (r : Nat × Nat) : Nat × Nat :=
  (c2sRaw sb r.1, lastSector sb (runEnd sb.clusterCount r.2))

/-- The ranges reported for all runs: the first one starts at sector zero. -/
def usedRanges (sb : SuperBlock) : List (Nat × Nat) → List (Nat × Nat)
  | [] => []
  | r :: rs => (0, (usedRange sb r).2) :: rs.map (usedRange sb)

namespace Proofs

variable {E : Halt → Prop} {w : World} {sb : SuperBlock} {chunk : Nat → Bool} {a b c d n s : Nat}

/-- A sector of a cluster. -/
def InCluster (sb : SuperBlock) (c s : Nat) : Prop :=
  c2sRaw sb c ≤ s ∧ s < c2sRaw sb c + 2 ^ sb.spcBits

theorem c2sRaw_add (sb : SuperBlock) (hc : 2 ≤ c) (hd : c ≤ d) :
    c2sRaw sb d = c2sRaw sb c + (d - c) * 2 ^ sb.spcBits := by
  obtain ⟨k, rfl⟩ := Nat.exists_eq_add_of_le hd
  simp only [c2sRaw, exfatFirstDataCluster, Nat.add_sub_cancel_left]
  rw [show c + k - 2 = c - 2 + k by omega]
  ring

theorem c2sRaw_lt (sb : SuperBlock) (hc : 2 ≤ c) (hd : c < d) : lastSector sb c < c2sRaw sb d := by
  have hpos : 0 < 2 ^ sb.spcBits := by positivity
  have hle : 1 * 2 ^ sb.spcBits ≤ (d - c) * 2 ^ sb.spcBits := Nat.mul_le_mul_right _ (by omega)
  rw [c2sRaw_add sb hc hd.le, lastSector]
  omega

theorem InCluster.le_last (h : InCluster sb c s) (hc : 2 ≤ c) (hd : 2 ≤ d) :
    s ≤ lastSector sb d ↔ c ≤ d := by
  obtain ⟨h1, h2⟩ := h
  constructor
  · intro hs
    by_contra hlt
    have := c2sRaw_lt sb hd (Nat.lt_of_not_le hlt)
    omega
  · intro hcd
    have hadd := c2sRaw_add sb hc hcd
    have := Nat.zero_le ((d - c) * 2 ^ sb.spcBits)
    simp only [lastSector]
    omega

theorem InCluster.ge_first (h : InCluster sb c s) (hc : 2 ≤ c) (hd : 2 ≤ d) :
    c2sRaw sb d ≤ s ↔ d ≤ c := by
  obtain ⟨h1, h2⟩ := h
  constructor
  · intro hs
    by_contra hlt
    have := c2sRaw_lt sb hc (Nat.lt_of_not_le hlt)
    simp only [lastSector] at this
    omega
  · intro hdc
    have := c2sRaw_add sb hd hdc
    omega

theorem inCluster_first (sb : SuperBlock) (c : Nat) : InCluster sb c (c2sRaw sb c) :=
  ⟨le_rfl, Nat.lt_add_of_pos_right (by positivity)⟩

/-- Sectors of a cluster after its first. -/
theorem sectorsAfter (sb : SuperBlock) : (sb.clusterSize - 1) / sb.sectorSize = 2 ^ sb.spcBits - 1 := by
  have hs : 0 < sb.sectorSize := by
    simp only [SuperBlock.sectorSize]
    positivity
  obtain ⟨k, hk⟩ := Nat.exists_eq_succ_of_ne_zero (show 2 ^ sb.spcBits ≠ 0 by positivity)
  rw [SuperBlock.clusterSize, hk, Nat.succ_sub_one, Nat.mul_succ, Nat.add_sub_assoc hs,
    Nat.mul_add_div hs, Nat.div_eq_of_lt (show sb.sectorSize - Nat.succ 0 < sb.sectorSize by omega),
    Nat.add_zero]

/-- A sector of a cluster leads back to it. -/
theorem InCluster.s2c_eq (h : InCluster sb c s) (hc : 2 ≤ c) (h32 : c < 2 ^ 32) : s2c sb s = c := by
  obtain ⟨j, rfl⟩ := Nat.exists_eq_add_of_le h.1
  have hj : j < 2 ^ sb.spcBits := Nat.lt_of_add_lt_add_left h.2
  have hpos : (0 : Int) < 2 ^ sb.spcBits := by positivity
  have hdiv : (((c2sRaw sb c + j : Nat) : Int) - sb.clusterSectorStart) / 2 ^ sb.spcBits = c - 2 := by
    have heq : ((c2sRaw sb c + j : Nat) : Int) - sb.clusterSectorStart =
        j + 2 ^ sb.spcBits * ((c : Int) - 2) := by
      simp only [c2sRaw, exfatFirstDataCluster]
      push_cast [Nat.cast_sub hc]
      ring
    have hj' : (j : Int) < 2 ^ sb.spcBits := by exact_mod_cast hj
    rw [heq, Int.add_mul_ediv_left _ _ hpos.ne', Int.ediv_eq_zero_of_lt (by omega) hj']
    omega
  rw [s2c, hdiv]
  simp only [exfatFirstDataCluster]
  omega

/-- The last sector of a cluster belongs to it. -/
theorem s2c_last (hc : 2 ≤ c) (h32 : c < 2 ^ 32) : s2c sb (lastSector sb c) = c := by
  have hpos : 0 < 2 ^ sb.spcBits := by positivity
  have hin : InCluster sb c (lastSector sb c) := by
    simp only [InCluster, lastSector]
    omega
  exact hin.s2c_eq hc h32

theorem bmapGetCluster_eq (hc : 2 ≤ c) (h32 : c < 2 ^ 32) : bmapGetCluster chunk c = used chunk c := by
  rw [bmapGetCluster, used, exfatFirstDataCluster, show (c + 2 ^ 32 - 2) % 2 ^ 32 = c - 2 by omega]

/-- The first loop stops at the first used cluster. -/
theorem firstUsed_spec (chunk : Nat → Bool) (n a : Nat) :
    a ≤ firstUsed chunk n a ∧ firstUsed chunk n a ≤ a + n ∧
      (∀ c, a ≤ c → c < firstUsed chunk n a → bmapGetCluster chunk c = false) ∧
      (firstUsed chunk n a < a + n → bmapGetCluster chunk (firstUsed chunk n a) = true) := by
  induction n generalizing a with
  | zero => exact ⟨le_rfl, le_rfl, fun c h1 h2 => by simp only [firstUsed] at h2; omega,
      fun h => absurd h (lt_irrefl _)⟩
  | succ n ih =>
    simp only [firstUsed]
    by_cases hb : bmapGetCluster chunk a = true
    · simp only [if_pos hb]
      exact ⟨le_rfl, by omega, fun c h1 h2 => by omega, fun _ => hb⟩
    · simp only [if_neg hb]
      obtain ⟨h1, h2, h3, h4⟩ := ih (a + 1)
      refine ⟨by omega, by omega, fun c hac hc => ?_, fun h => h4 (by omega)⟩
      rcases Nat.eq_or_lt_of_le hac with rfl | hlt
      · exact Bool.eq_false_iff.mpr hb
      · exact h3 c hlt hc

/-- The second loop stops at the last cluster of the run, or at the end. -/
theorem lastUsed_spec (hb : bmapGetCluster chunk b = true) (n : Nat) :
    ∃ e, b ≤ e ∧ e < b + 1 + n ∧ (∀ c, b ≤ c → c ≤ e → bmapGetCluster chunk c = true) ∧
      (e + 1 < b + 1 + n → bmapGetCluster chunk (e + 1) = false) ∧
      lastUsed chunk n (b + 1) = runEnd (b + 1 + n) e := by
  have hone : ∀ c, b ≤ c → c ≤ b → bmapGetCluster chunk c = true := fun c h1 h2 => by
    rwa [Nat.le_antisymm h2 h1]
  induction n generalizing b with
  | zero => exact ⟨b, le_rfl, by omega, hone, fun h => by omega, by simp [lastUsed, runEnd]⟩
  | succ n ih =>
    simp only [lastUsed]
    by_cases hnext : bmapGetCluster chunk (b + 1) = true
    · rw [if_pos hnext]
      obtain ⟨e, h1, h2, h3, h4, h5⟩ := ih hnext fun c h1 h2 => by rwa [Nat.le_antisymm h2 h1]
      refine ⟨e, by omega, by omega, fun c hbc hce => ?_, fun h => h4 (by omega), ?_⟩
      · rcases Nat.eq_or_lt_of_le hbc with rfl | hlt
        · exact hb
        · exact h3 c hlt hce
      · rw [h5, show b + 1 + 1 + n = b + 1 + (n + 1) by omega]
    · rw [if_neg hnext]
      refine ⟨b, le_rfl, by omega, hone, fun _ => Bool.eq_false_iff.mpr hnext, ?_⟩
      rw [runEnd, if_neg (by omega), Nat.add_sub_cancel]

/-- What `find_used_clusters` finds from cluster `b + 1` on: the first run there, if any. -/
theorem findUsedClusters_spec (chunk : Nat → Bool) (h32 : sb.clusterCount < 2 ^ 32) (h2 : 1 ≤ b)
    (hb : b + 1 < 2 ^ 32) :
    findUsedClusters sb chunk b = none ∧
      (∀ c, b + 1 ≤ c → c < sb.clusterCount → used chunk c = false) ∨
    ∃ a e, findUsedClusters sb chunk b = some (a, runEnd sb.clusterCount e) ∧
      b + 1 ≤ a ∧ a ≤ e ∧ e < sb.clusterCount ∧
      (∀ c, b + 1 ≤ c → c < a → used chunk c = false) ∧
      (∀ c, a ≤ c → c ≤ e → used chunk c = true) ∧
      (e + 1 < sb.clusterCount → used chunk (e + 1) = false) := by
  have hbit : ∀ c, b + 1 ≤ c → c < sb.clusterCount → bmapGetCluster chunk c = used chunk c :=
    fun c h1 h => bmapGetCluster_eq (by omega) (by omega)
  simp only [findUsedClusters, Nat.mod_eq_of_lt hb]
  obtain ⟨h1, hle, hclear, hset⟩ := firstUsed_spec chunk (sb.clusterCount - (b + 1)) (b + 1)
  generalize firstUsed chunk (sb.clusterCount - (b + 1)) (b + 1) = a at *
  by_cases ha : a ≥ sb.clusterCount
  · refine Or.inl ⟨if_pos ha, fun c hc hs => ?_⟩
    rw [← hbit c hc hs]
    exact hclear c hc (by omega)
  · have hba : bmapGetCluster chunk a = true := hset (by omega)
    obtain ⟨m, hm⟩ := Nat.exists_eq_succ_of_ne_zero (show sb.clusterCount - a ≠ 0 by omega)
    obtain ⟨e, h3, h4, h5, h6, h7⟩ := lastUsed_spec hba m
    have hstop : a + 1 + m = sb.clusterCount := by omega
    rw [hstop] at h4 h6 h7
    refine Or.inr ⟨a, e, ?_, h1, h3, h4, fun c hc hca => ?_, fun c hc hce => ?_, fun h => ?_⟩
    · rw [if_neg ha, hm, lastUsed, if_pos hba, h7]
    · rw [← hbit c hc (by omega)]
      exact hclear c hc hca
    · rw [← hbit c (by omega) (by omega)]
      exact h5 c hc hce
    · rw [← hbit (e + 1) (by omega) h]
      exact h6 h

/-- The arguments of a call of `exfat_find_used_sectors` that searches after cluster `cb`. -/
def SearchesAfter (sb : SuperBlock) (a b cb : Nat) : Prop :=
  a = 0 ∧ b = 0 ∧ cb = 1 ∨ ¬(a = 0 ∧ b = 0) ∧ s2c sb b = cb

variable {cb x y : Nat}

theorem SearchesAfter.eq (h : SearchesAfter sb a b cb) :
    (if a = 0 ∧ b = 0 then exfatFirstDataCluster - 1 else s2c sb b) = cb := by
  rcases h with ⟨ha, hb, rfl⟩ | ⟨hab, h⟩
  · exact if_pos ⟨ha, hb⟩
  · exact (if_neg hab).trans h

theorem exfatFindUsedSectors_none (hchunk : w.cmap.chunk = some chunk)
    (hat : SearchesAfter w.sb a b cb) (hf : findUsedClusters w.sb chunk cb = none) :
    exfatFindUsedSectors a b w = .ok (none, w) := by
  have hrun : Wp (fun _ => False) (exfatFindUsedSectors a b) w fun r v => r = none ∧ v = w := by
    simp only [exfatFindUsedSectors, wp_bind, wp_get, wp_getChunk hchunk, hat.eq, hf]
    exact ⟨rfl, rfl⟩
  obtain ⟨r, v, hok, rfl, rfl⟩ := hrun.returns
  exact hok

theorem c2s_spec (hE : c < 2 → E (.bug "invalid cluster number %u")) :
    Wp E (c2s c) w fun r v => r = c2sRaw w.sb c ∧ v = w ∧ 2 ≤ c := by
  rw [c2s, exfatFirstDataCluster, wp_ite]
  exact ⟨hE, fun h => ⟨rfl, rfl, by omega⟩⟩

theorem exfatFindUsedSectors_some (hchunk : w.cmap.chunk = some chunk)
    (hat : SearchesAfter w.sb a b cb) (hf : findUsedClusters w.sb chunk cb = some (x, y))
    (hE : x < 2 ∨ y < 2 → E (.bug "invalid cluster number %u")) :
    Wp E (exfatFindUsedSectors a b) w fun r v => v = w ∧ (¬(a = 0 ∧ b = 0) → 2 ≤ x) ∧
      r = some (if a = 0 ∧ b = 0 then 0 else c2sRaw w.sb x, lastSector w.sb y) := by
  have hlast : ∀ first : Nat, Wp E (do
      let last ← c2s y
      pure (some (first, last + (w.sb.clusterSize - 1) / w.sb.sectorSize))) w fun r v =>
        v = w ∧ r = some (first, lastSector w.sb y) := by
    intro first
    simp only [wp_bind]
    refine (c2s_spec fun h => hE (Or.inr h)).mono ?_
    rintro r v ⟨rfl, rfl, -⟩
    refine ⟨rfl, ?_⟩
    rw [sectorsAfter, lastSector]
  simp only [exfatFindUsedSectors, wp_bind, wp_get, wp_getChunk hchunk, hat.eq, hf]
  by_cases hab : a = 0 ∧ b = 0
  · rw [if_neg (by omega), if_pos hab]
    refine (hlast a).mono ?_
    rintro r v ⟨rfl, rfl⟩
    exact ⟨rfl, fun hne => absurd hab hne, by rw [hab.1]⟩
  · rw [if_pos (by omega), if_neg hab, wp_bind]
    refine (c2s_spec fun h => hE (Or.inl h)).mono ?_
    rintro r v ⟨rfl, rfl, h2⟩
    exact (hlast _).mono fun r v h => ⟨h.1, fun _ => h2, h.2⟩

theorem runEnd_cases (n e : Nat) : e + 1 = n ∧ runEnd n e = n ∨ e + 1 ≠ n ∧ runEnd n e = e := by
  by_cases h : e + 1 = n
  · exact Or.inl ⟨h, if_pos h⟩
  · exact Or.inr ⟨h, if_neg h⟩

/-- The 32-bit successor of the end of a run does not wrap. -/
theorem runEnd_lt {e : Nat} (h32 : n < 2 ^ 32)
    (hwrap : n + 1 < 2 ^ 32 ∨ used chunk (n - 1) = false) (he : e < n) (hset : used chunk e = true) :
    runEnd n e + 1 < 2 ^ 32 := by
  rcases runEnd_cases n e with ⟨h1, h2⟩ | ⟨h1, h2⟩
  · rcases hwrap with h | h
    · omega
    · rw [show n - 1 = e by omega, hset] at h
      exact absurd h.symm Bool.false_ne_true
  · omega

theorem runs_after_runEnd {e : Nat} {rs : List (Nat × Nat)}
    (h : Runs (used chunk) (runEnd n e + 1) n rs) : Runs (used chunk) (e + 1) n rs := by
  rcases runEnd_cases n e with ⟨h1, h2⟩ | ⟨-, h2⟩
  · rw [h2] at h
    rw [h.none (by omega)]
    exact runs_nil fun c hc hs => by omega
  · rwa [h2] at h

/-- The loop with a first range and the number of ranges after it. -/
theorem dumpSectors_step {a' b' k : Nat} {l : List (Nat × Nat)}
    (hok : exfatFindUsedSectors a b w = .ok (some (a', b'), w))
    (hrest : ∀ fuel, dumpSectors fuel a' b' w = if k < fuel then .ok (l, w) else .error .fuel)
    (fuel : Nat) :
    dumpSectors fuel a b w = if k + 1 < fuel then .ok ((a', b') :: l, w) else .error .fuel := by
  cases fuel with
  | zero => rfl
  | succ fuel =>
    rw [dumpSectors, bind_of_ok hok]
    change (dumpSectors fuel a' b' >>= _) w = _
    have hrest := hrest fuel
    by_cases hfuel : k < fuel
    · rw [if_pos hfuel] at hrest
      rw [bind_of_ok hrest, if_pos (by omega)]
      rfl
    · rw [if_neg hfuel] at hrest
      rw [bind_of_error hrest, if_neg (by omega)]

theorem dumpSectors_none (hok : exfatFindUsedSectors a b w = .ok (none, w)) (fuel : Nat) :
    dumpSectors fuel a b w = if 0 < fuel then .ok ([], w) else .error .fuel := by
  cases fuel with
  | zero => rfl
  | succ fuel =>
    rw [dumpSectors, bind_of_ok hok]
    rfl

/-- From the second call on, the loop reports the runs that are left, one by one. -/
theorem dumpSectors_runs (hchunk : w.cmap.chunk = some chunk) (h32 : w.sb.clusterCount < 2 ^ 32)
    (hwrap : w.sb.clusterCount + 1 < 2 ^ 32 ∨ used chunk (w.sb.clusterCount - 1) = false)
    (hab : ¬(a = 0 ∧ b = 0)) (hs : s2c w.sb b = cb) (hcb : 2 ≤ cb) (hcb' : cb + 1 < 2 ^ 32) :
    ∃ rs, Runs (used chunk) (cb + 1) w.sb.clusterCount rs ∧ ∀ fuel,
      dumpSectors fuel a b w =
        if rs.length < fuel then .ok (rs.map (usedRange w.sb), w) else .error .fuel := by
  induction hd : w.sb.clusterCount - cb using Nat.strong_induction_on generalizing a b cb with
  | _ d ih =>
    have hat : SearchesAfter w.sb a b cb := Or.inr ⟨hab, hs⟩
    rcases findUsedClusters_spec chunk h32 (by omega) hcb' with
      ⟨hf, hclear⟩ | ⟨x, e, hf, hx, hxe, hlt, hclear, hset, hend⟩
    · exact ⟨[], runs_nil hclear, dumpSectors_none (exfatFindUsedSectors_none hchunk hat hf)⟩
    · have hre := runEnd_cases w.sb.clusterCount e
      have hend32 := runEnd_lt h32 hwrap hlt (hset e hxe le_rfl)
      obtain ⟨r, v, hok, rfl, -, rfl⟩ := (exfatFindUsedSectors_some (E := fun _ => False) hchunk hat hf
        (by omega)).returns
      rw [if_neg hab] at hok
      have hpos : c2sRaw v.sb x ≠ 0 := by
        have := c2sRaw_lt v.sb le_rfl (show 2 < x by omega)
        omega
      obtain ⟨rs, hruns, hloop⟩ := ih (v.sb.clusterCount - runEnd v.sb.clusterCount e) (by omega)
        (a := c2sRaw v.sb x) (fun h => hpos h.1) (s2c_last (by omega) (by omega)) (by omega) hend32 rfl
      exact ⟨(x, e) :: rs, (runs_after_runEnd hruns).cons hx hxe hlt hclear hset hend,
        dumpSectors_step hok hloop⟩

/-- The first range is sector zero alone, which is also where the iteration begins. -/
def StartsAtZero (sb : SuperBlock) (chunk : Nat → Bool) : Prop :=
  sb.clusterSectorStart = 0 ∧ sb.spcBits = 0 ∧ 4 ≤ sb.clusterCount ∧ used chunk 2 = true ∧
    used chunk 3 = false

theorem lastSector_zero (hc : 2 ≤ c) (h : lastSector sb c = 0) :
    sb.clusterSectorStart = 0 ∧ sb.spcBits = 0 ∧ c = 2 := by
  have hone : 1 ≤ 2 ^ sb.spcBits := Nat.one_le_two_pow
  simp only [lastSector, c2sRaw, exfatFirstDataCluster] at h
  have hmul : (c - 2) * 2 ^ sb.spcBits = 0 := by omega
  have hbits : sb.spcBits = 0 := by
    by_contra hne
    have := Nat.one_lt_two_pow hne
    omega
  rcases Nat.mul_eq_zero.mp hmul with h0 | h0 <;> omega

/-- The whole loop reports the runs of used clusters below `cluster_count`. -/
theorem dumpSectors_all (hchunk : w.cmap.chunk = some chunk) (h32 : w.sb.clusterCount < 2 ^ 32)
    (hwrap : w.sb.clusterCount + 1 < 2 ^ 32 ∨ used chunk (w.sb.clusterCount - 1) = false)
    (hzero : ¬StartsAtZero w.sb chunk) :
    ∃ rs, Runs (used chunk) 2 w.sb.clusterCount rs ∧ ∀ fuel,
      dumpSectors fuel 0 0 w =
        if rs.length < fuel then .ok (usedRanges w.sb rs, w) else .error .fuel := by
  have hat : SearchesAfter w.sb 0 0 1 := Or.inl ⟨rfl, rfl, rfl⟩
  rcases findUsedClusters_spec chunk h32 le_rfl (by decide) with
    ⟨hf, hclear⟩ | ⟨x, e, hf, hx, hxe, hlt, hclear, hset, hend⟩
  · exact ⟨[], runs_nil hclear, dumpSectors_none (exfatFindUsedSectors_none hchunk hat hf)⟩
  · have hre := runEnd_cases w.sb.clusterCount e
    have hend32 := runEnd_lt h32 hwrap hlt (hset e hxe le_rfl)
    obtain ⟨r, v, hok, rfl, -, rfl⟩ := (exfatFindUsedSectors_some (E := fun _ => False) hchunk hat hf
      (by omega)).returns
    rw [if_pos ⟨rfl, rfl⟩] at hok
    have hpos : lastSector v.sb (runEnd v.sb.clusterCount e) ≠ 0 := fun h => by
      obtain ⟨h1, h2, h3⟩ := lastSector_zero (by omega) h
      obtain rfl : e = 2 := by omega
      exact hzero ⟨h1, h2, by omega, hset 2 hxe le_rfl, hend (by omega)⟩
    obtain ⟨rs, hruns, hloop⟩ := dumpSectors_runs hchunk h32 hwrap (fun h => hpos h.2)
      (s2c_last (by omega) (by omega)) (by omega) hend32
    exact ⟨(x, e) :: rs, (runs_after_runEnd hruns).cons hx hxe hlt hclear hset hend,
      dumpSectors_step hok hloop⟩

/-- After a first range of sector zero alone the iteration begins again. -/
theorem dumpSectors_stuck (hchunk : w.cmap.chunk = some chunk) (h32 : w.sb.clusterCount < 2 ^ 32)
    (h : StartsAtZero w.sb chunk) (fuel : Nat) : dumpSectors fuel 0 0 w = .error .fuel := by
  obtain ⟨h1, h2, h4, hset2, hclear3⟩ := h
  have hat : SearchesAfter w.sb 0 0 1 := Or.inl ⟨rfl, rfl, rfl⟩
  rcases findUsedClusters_spec chunk h32 le_rfl (by decide) with
    ⟨hf, hclear⟩ | ⟨x, e, hf, hx, hxe, hlt, hclear, hset, hend⟩
  · rw [hclear 2 le_rfl (by omega)] at hset2
    exact absurd hset2 Bool.false_ne_true
  · obtain rfl : x = 2 := by
      by_contra hne
      rw [hclear 2 le_rfl (by omega)] at hset2
      exact absurd hset2 Bool.false_ne_true
    obtain rfl : e = 2 := by
      by_contra hne
      rw [hset 3 (by omega) (by omega)] at hclear3
      exact absurd hclear3.symm Bool.false_ne_true
    have hre : runEnd w.sb.clusterCount 2 = 2 := if_neg (by omega)
    rw [hre] at hf
    obtain ⟨r, v, hok, rfl, -, rfl⟩ := (exfatFindUsedSectors_some (E := fun _ => False) hchunk hat hf
      (by omega)).returns
    have hlast : lastSector v.sb 2 = 0 := by simp [lastSector, c2sRaw, h1, h2]
    rw [if_pos ⟨rfl, rfl⟩, hlast] at hok
    induction fuel with
    | zero => rfl
    | succ fuel ih =>
      rw [dumpSectors, bind_of_ok hok]
      exact bind_of_error ih

variable {fuel : Nat} {v : World} {ranges : List (Nat × Nat)}

/-- A loop that came back and whose first call finds a range. -/
theorem dumpSectors_cons {P : Nat × Nat → Prop} (h : dumpSectors fuel a b w = .ok (ranges, v))
    (hstep : Wp (fun _ => True) (exfatFindUsedSectors a b) w fun r u => u = w ∧ ∃ p, r = some p ∧ P p) :
    ∃ k p rest, fuel = k + 1 ∧ P p ∧ ranges = p :: rest ∧
      dumpSectors k p.1 p.2 w = .ok (rest, v) := by
  cases fuel with
  | zero => exact absurd h nofun
  | succ fuel =>
    rw [dumpSectors] at h
    obtain ⟨r, u, hok, h⟩ := bind_returns h
    obtain ⟨rfl, p, rfl, hp⟩ := hstep.run hok
    obtain ⟨rest, u', hrest, h⟩ := bind_returns (m := dumpSectors fuel p.1 p.2)
      (f := fun rs => pure (p :: rs)) h
    obtain ⟨rfl, rfl⟩ := Prod.mk.inj (Except.ok.inj h)
    exact ⟨fuel, p, rest, rfl, hp, rfl, hrest⟩

/-- After the largest cluster number the search begins again at cluster zero. -/
theorem findUsedClusters_wrapped (h32 : sb.clusterCount + 1 = 2 ^ 32)
    (hset : used chunk (sb.clusterCount - 1) = true) :
    ∃ x y, findUsedClusters sb chunk sb.clusterCount = some (x, y) ∧ x < sb.clusterCount := by
  have hzero : (sb.clusterCount + 1) % 2 ^ 32 = 0 := by rw [h32, Nat.mod_self]
  simp only [findUsedClusters, hzero, Nat.sub_zero]
  obtain ⟨-, -, hclear, -⟩ := firstUsed_spec chunk sb.clusterCount 0
  generalize firstUsed chunk sb.clusterCount 0 = x at *
  have hx : ¬x ≥ sb.clusterCount := fun hge => by
    have hbit := hclear (sb.clusterCount - 1) (by omega) (by omega)
    rw [bmapGetCluster_eq (by omega) (by omega), hset] at hbit
    exact absurd hbit.symm Bool.false_ne_true
  exact ⟨x, _, if_neg hx, by omega⟩

/-- With 2^32 - 1 clusters and the last one searched in use, a loop that comes back has gone back. -/
theorem dumpSectors_wrapped (hchunk : w.cmap.chunk = some chunk)
    (h32 : w.sb.clusterCount + 1 = 2 ^ 32) (hset : used chunk (w.sb.clusterCount - 1) = true)
    (hat : SearchesAfter w.sb a b cb) (hcb : 1 ≤ cb) (hcb' : cb + 1 < w.sb.clusterCount)
    (h : dumpSectors fuel a b w = .ok (ranges, v)) : ¬ranges.Pairwise fun r s => r.2 < s.1 := by
  induction fuel generalizing a b cb ranges with
  | zero => exact absurd h nofun
  | succ fuel ih =>
    rcases findUsedClusters_spec chunk (show w.sb.clusterCount < 2 ^ 32 by omega) hcb
        (by omega) with
      ⟨hf, hclear⟩ | ⟨x, e, hf, hx, hxe, hlt, hclear, hsetr, hend⟩
    · rw [hclear _ (by omega) (by omega)] at hset
      exact absurd hset Bool.false_ne_true
    · obtain ⟨k, p, rest, hk, ⟨p1, rfl⟩, rfl, hrest⟩ := dumpSectors_cons
        (P := fun p => ∃ p1, p = (p1, lastSector w.sb (runEnd w.sb.clusterCount e))) h
        ((exfatFindUsedSectors_some hchunk hat hf fun _ => trivial).mono
          fun r u hr => ⟨hr.1, _, hr.2.2, _, rfl⟩)
      obtain rfl : fuel = k := by omega
      rw [List.pairwise_cons]
      rintro ⟨hhead, htail⟩
      have hnext : SearchesAfter w.sb p1 (lastSector w.sb (runEnd w.sb.clusterCount e)) 1 ∨
          SearchesAfter w.sb p1 (lastSector w.sb (runEnd w.sb.clusterCount e))
            (runEnd w.sb.clusterCount e) := by
        have hre := runEnd_cases w.sb.clusterCount e
        by_cases hz : p1 = 0 ∧ lastSector w.sb (runEnd w.sb.clusterCount e) = 0
        · exact Or.inl (Or.inl ⟨hz.1, hz.2, rfl⟩)
        · exact Or.inr (Or.inr ⟨hz, s2c_last (by omega) (by omega)⟩)
      rcases runEnd_cases w.sb.clusterCount e with ⟨he, hre⟩ | ⟨he, hre⟩
      · -- the run went up to the end of the search
        rw [hre] at hnext hrest hhead
        have hat' : SearchesAfter w.sb p1 (lastSector w.sb w.sb.clusterCount) w.sb.clusterCount := by
          rcases hnext with hn | hn
          · rcases hn with ⟨-, hz, -⟩ | ⟨-, hz⟩
            · have := (lastSector_zero (by omega) hz).2.2
              omega
            · rw [s2c_last (by omega) (by omega)] at hz
              omega
          · exact hn
        obtain ⟨x', y', hf', hx'⟩ := findUsedClusters_wrapped h32 hset
        have hne : ¬(p1 = 0 ∧ lastSector w.sb w.sb.clusterCount = 0) := fun hz => by
          have := (lastSector_zero (by omega) hz.2).2.2
          omega
        obtain ⟨k', p', rest', -, ⟨hx2, hp'⟩, rfl, -⟩ := dumpSectors_cons
          (P := fun p => 2 ≤ x' ∧ p.1 = c2sRaw w.sb x') hrest
          ((exfatFindUsedSectors_some hchunk hat' hf' fun _ => trivial).mono fun r u hr =>
            ⟨hr.1, _, hr.2.2, hr.2.1 hne, by rw [if_neg hne]⟩)
        have hback := hhead p' List.mem_cons_self
        have hlow := c2sRaw_lt w.sb hx2 hx'
        simp only [lastSector] at hback hlow
        rw [hp'] at hback
        omega
      · have hset' : e + 1 < w.sb.clusterCount - 1 ∨ e + 1 = w.sb.clusterCount - 1 := by omega
        have hcb'' : e + 1 < w.sb.clusterCount := by omega
        rw [hre] at hnext
        rw [hre] at hrest
        rcases hnext with hn | hn
        · exact ih hn le_rfl (by omega) hrest htail
        · exact ih hn (by omega) hcb'' hrest htail

/-- The listing is in order, has every sector of every used cluster, and after its first range no
sector of a free one. -/
structure Listing (sb : SuperBlock) (chunk : Nat → Bool) (ranges : List (Nat × Nat)) : Prop where
  ordered : ∀ r ∈ ranges, r.1 ≤ r.2
  increasing : ranges.Pairwise fun r s => r.2 < s.1
  covers : ∀ c, 2 ≤ c → c < sb.clusterCount + 2 → used chunk c = true → ∀ s, InCluster sb c s →
    ∃ r ∈ ranges, r.1 ≤ s ∧ s ≤ r.2
  tail : ∀ r ∈ ranges.tail, ∀ c, 2 ≤ c → c < sb.clusterCount + 2 → used chunk c = false →
    ∀ s, InCluster sb c s → ¬(r.1 ≤ s ∧ s ≤ r.2)

/-- The bitmaps for which the two clusters past the end of the search make no difference. -/
structure EndSafe (sb : SuperBlock) (chunk : Nat → Bool) : Prop where
  last : 1 ≤ sb.clusterCount → used chunk (sb.clusterCount + 1) = false
  beforeLast : 2 ≤ sb.clusterCount → used chunk sb.clusterCount = true →
    3 ≤ sb.clusterCount ∧ used chunk (sb.clusterCount - 1) = true
  overrun : 3 ≤ sb.clusterCount → used chunk (sb.clusterCount - 1) = true →
    used chunk sb.clusterCount = false →
    ∀ c d, 2 ≤ c → c ≤ d → d < sb.clusterCount → used chunk c = true → used chunk d = true

variable {rs : List (Nat × Nat)}

theorem mem_usedRanges {p : Nat × Nat} (hp : p ∈ usedRanges sb rs) : ∃ r ∈ rs,
    p.2 = lastSector sb (runEnd sb.clusterCount r.2) ∧ p.1 ≤ c2sRaw sb r.1 := by
  cases rs with
  | nil => exact absurd hp List.not_mem_nil
  | cons r rs =>
    rcases List.mem_cons.mp hp with rfl | hp
    · exact ⟨r, List.mem_cons_self, rfl, Nat.zero_le _⟩
    · obtain ⟨q, hq, rfl⟩ := List.mem_map.mp hp
      exact ⟨q, List.mem_cons_of_mem _ hq, rfl, le_rfl⟩

theorem usedRanges_mem {r : Nat × Nat} (hr : r ∈ rs) : ∃ p ∈ usedRanges sb rs,
    p.2 = lastSector sb (runEnd sb.clusterCount r.2) ∧ p.1 ≤ c2sRaw sb r.1 := by
  cases rs with
  | nil => exact absurd hr List.not_mem_nil
  | cons q rs =>
    rcases List.mem_cons.mp hr with rfl | hr
    · exact ⟨_, List.mem_cons_self, rfl, Nat.zero_le _⟩
    · exact ⟨_, List.mem_cons_of_mem _ (List.mem_map_of_mem hr), rfl, le_rfl⟩

theorem tail_usedRanges : (usedRanges sb rs).tail = rs.tail.map (usedRange sb) := by
  cases rs <;> rfl

/-- The ranges of different runs do not meet, even with the overrun of the last one. -/
theorem usedRanges_increasing (h : Runs (used chunk) 2 sb.clusterCount rs) :
    (usedRanges sb rs).Pairwise fun r s => r.2 < s.1 := by
  have hlt : ∀ r ∈ rs, ∀ q ∈ rs, r.2 + 1 < q.1 →
      lastSector sb (runEnd sb.clusterCount r.2) < c2sRaw sb q.1 := by
    intro r hr q hq hrq
    obtain ⟨h1, h2, h3⟩ := h.inside r hr
    obtain ⟨h4, h5, h6⟩ := h.inside q hq
    rw [runEnd, if_neg (by omega)]
    exact c2sRaw_lt sb (by omega) (by omega)
  have hsorted := h.sorted.imp_of_mem (S := fun r q =>
    (usedRange sb r).2 < (usedRange sb q).1) fun hr hq hrq => hlt _ hr _ hq hrq
  cases rs with
  | nil => exact List.Pairwise.nil
  | cons r rs =>
    rw [List.pairwise_cons] at hsorted
    refine List.pairwise_cons.mpr ⟨fun p hp => ?_, List.pairwise_map.mpr hsorted.2⟩
    obtain ⟨q, hq, rfl⟩ := List.mem_map.mp hp
    exact hsorted.1 q hq

theorem usedRanges_ordered (h : Runs (used chunk) 2 sb.clusterCount rs) :
    ∀ p ∈ usedRanges sb rs, p.1 ≤ p.2 := by
  intro p hp
  obtain ⟨r, hr, h2, h1⟩ := mem_usedRanges hp
  obtain ⟨h3, h4, h5⟩ := h.inside r hr
  have hre := runEnd_cases sb.clusterCount r.2
  have := ((inCluster_first sb r.1).le_last h3 (d := runEnd sb.clusterCount r.2) (by omega)).mpr
    (by omega)
  omega

/-- A listing without gaps and false entries leaves no choice for the two last clusters. -/
theorem Listing.endSafe (h : Runs (used chunk) 2 sb.clusterCount rs)
    (hl : Listing sb chunk (usedRanges sb rs)) : EndSafe sb chunk := by
  have hreach : ∀ c, 2 ≤ c → c < sb.clusterCount + 2 → used chunk c = true →
      ∃ r ∈ rs, c ≤ runEnd sb.clusterCount r.2 := by
    intro c h2 hc hset
    obtain ⟨p, hp, -, hlast⟩ := hl.covers c h2 hc hset _ (inCluster_first sb c)
    obtain ⟨r, hr, he, -⟩ := mem_usedRanges hp
    have hin := h.inside r hr
    have hre := runEnd_cases sb.clusterCount r.2
    rw [he] at hlast
    exact ⟨r, hr, ((inCluster_first sb c).le_last h2 (by omega)).mp hlast⟩
  refine ⟨fun h1 => ?_, fun h2 hset => ?_, fun h3 hset hclear c d hc hcd hd hsetc => ?_⟩
  · by_contra hset
    obtain ⟨r, hr, hle⟩ := hreach (sb.clusterCount + 1) (by omega) (by omega) (by simpa using hset)
    have hin := h.inside r hr
    have hre := runEnd_cases sb.clusterCount r.2
    omega
  · obtain ⟨r, hr, hle⟩ := hreach _ h2 (by omega) hset
    have hin := h.inside r hr
    have hre := runEnd_cases sb.clusterCount r.2
    refine ⟨by omega, ?_⟩
    rw [show sb.clusterCount - 1 = r.2 by omega]
    exact h.isSet hr hin.2.1 le_rfl
  · -- the run in front of the end overruns into a free cluster, so it is the first one
    obtain ⟨r, hr, hr1, hr2⟩ := (h.covers _ (by omega) (by omega)).mp hset
    have hin := h.inside r hr
    have hhead : ∀ q ∈ rs, q = r := by
      intro q hq
      by_contra hne
      have hqin := h.inside q hq
      have hapart := h.apart hq hr hne
      have htail : r ∈ rs.tail := by
        cases hrs : rs with
        | nil => rw [hrs] at hr; exact absurd hr List.not_mem_nil
        | cons x xs =>
          rw [hrs] at hr hq
          rcases List.mem_cons.mp hr with rfl | hr
          · rcases List.mem_cons.mp hq with rfl | hq
            · exact absurd rfl hne
            · have hsorted := h.sorted
              rw [hrs, List.pairwise_cons] at hsorted
              have := hsorted.1 q hq
              omega
          · exact hr
      have hend : runEnd sb.clusterCount r.2 = sb.clusterCount := if_pos (by omega)
      refine hl.tail (usedRange sb r) ?_ sb.clusterCount (by omega) (by omega) hclear _
        (inCluster_first sb _) ⟨?_, ?_⟩
      · rw [tail_usedRanges]
        exact List.mem_map_of_mem htail
      · exact ((inCluster_first sb _).ge_first (by omega) hin.1).mpr (by omega)
      · simp only [usedRange, hend]
        exact ((inCluster_first sb _).le_last (by omega) (by omega)).mpr le_rfl
    obtain ⟨q, hq, hq1, hq2⟩ := (h.covers c hc (by omega)).mp hsetc
    rw [hhead q hq] at hq1
    exact h.isSet hr (by omega) (by omega)

theorem EndSafe.listing (h : Runs (used chunk) 2 sb.clusterCount rs) (hs : EndSafe sb chunk) :
    Listing sb chunk (usedRanges sb rs) where
  ordered := usedRanges_ordered h
  increasing := usedRanges_increasing h
  covers := by
    intro c h2 hc hset s hin
    have hrun : ∃ r ∈ rs, r.1 ≤ c ∧ c ≤ runEnd sb.clusterCount r.2 := by
      rcases Nat.lt_or_ge c sb.clusterCount with hlt | hge
      · obtain ⟨r, hr, h3, h4⟩ := (h.covers c h2 hlt).mp hset
        have hre := runEnd_cases sb.clusterCount r.2
        exact ⟨r, hr, h3, by omega⟩
      · obtain rfl : c = sb.clusterCount := by
          by_contra hne
          obtain rfl : c = sb.clusterCount + 1 := by omega
          rw [hs.last (by omega)] at hset
          exact absurd hset Bool.false_ne_true
        obtain ⟨h3, hprev⟩ := hs.beforeLast h2 hset
        obtain ⟨r, hr, h4, h5⟩ := (h.covers _ (by omega) (by omega)).mp hprev
        have hrin := h.inside r hr
        have hre := runEnd_cases sb.clusterCount r.2
        exact ⟨r, hr, by omega, by omega⟩
    obtain ⟨r, hr, h3, h4⟩ := hrun
    have hrin := h.inside r hr
    obtain ⟨p, hp, he, hfirst⟩ := usedRanges_mem hr
    refine ⟨p, hp, hfirst.trans ((hin.ge_first h2 hrin.1).mpr h3), ?_⟩
    rw [he]
    exact (hin.le_last h2 (by omega)).mpr h4
  tail := by
    intro p hp c h2 hc hclear s hin ⟨hlo, hhi⟩
    rw [tail_usedRanges] at hp
    obtain ⟨r, hr, rfl⟩ := List.mem_map.mp hp
    have hmem := List.mem_of_mem_tail hr
    have hrin := h.inside r hmem
    have hre := runEnd_cases sb.clusterCount r.2
    have h3 := (hin.ge_first h2 hrin.1).mp hlo
    have h4 := (hin.le_last h2 (d := runEnd sb.clusterCount r.2) (by omega)).mp hhi
    by_cases hcr : c ≤ r.2
    · rw [h.isSet hmem h3 hcr] at hclear
      exact absurd hclear.symm Bool.false_ne_true
    · -- the overrun of a run that is not the first: the first one ends at a free cluster
      obtain rfl : c = sb.clusterCount := by omega
      have hprev : used chunk (sb.clusterCount - 1) = true := h.isSet hmem (by omega) (by omega)
      cases hrs : rs with
      | nil => rw [hrs] at hr; exact absurd hr List.not_mem_nil
      | cons x xs =>
        have hx : x ∈ rs := by rw [hrs]; exact List.mem_cons_self
        have hsorted := h.sorted
        rw [hrs] at hr
        rw [hrs, List.pairwise_cons] at hsorted
        have hxr := hsorted.1 r hr
        have hxin := h.inside x hx
        have hclearx := h.after hx (by omega)
        rw [hs.overrun (by omega) hprev hclear x.1 (x.2 + 1) hxin.1 (by omega) (by omega)
          (h.isSet hx le_rfl hxin.2.1)] at hclearx
        exact absurd hclearx.symm Bool.false_ne_true

/-- The dump of used sectors comes to an end, is in order, misses no used cluster and shows no free
one after its first range exactly when the last two clusters hide nothing and the first range is not
sector zero alone. -/
theorem dumpSectors_complete_iff (hchunk : w.cmap.chunk = some chunk)
    (h32 : w.sb.clusterCount < 2 ^ 32) :
    (∃ fuel ranges v, dumpSectors fuel 0 0 w = .ok (ranges, v) ∧ Listing w.sb chunk ranges) ↔
      EndSafe w.sb chunk ∧ ¬StartsAtZero w.sb chunk ∧
        (w.sb.clusterCount + 1 = 2 ^ 32 → used chunk (w.sb.clusterCount - 1) = false) := by
  constructor
  · rintro ⟨fuel, ranges, v, hrun, hl⟩
    have hzero : ¬StartsAtZero w.sb chunk := fun hz => by
      rw [dumpSectors_stuck hchunk h32 hz fuel] at hrun
      exact absurd hrun nofun
    have hlast : w.sb.clusterCount + 1 = 2 ^ 32 → used chunk (w.sb.clusterCount - 1) = false := by
      intro h
      by_contra hset
      exact dumpSectors_wrapped hchunk h (by simpa using hset) (Or.inl ⟨rfl, rfl, rfl⟩) le_rfl
        (by omega) hrun hl.increasing
    have hwrap : w.sb.clusterCount + 1 < 2 ^ 32 ∨ used chunk (w.sb.clusterCount - 1) = false := by
      by_cases h : w.sb.clusterCount + 1 = 2 ^ 32
      · exact Or.inr (hlast h)
      · exact Or.inl (by omega)
    obtain ⟨rs, hruns, hloop⟩ := dumpSectors_all hchunk h32 hwrap hzero
    rw [hloop fuel] at hrun
    split at hrun
    · obtain ⟨rfl, rfl⟩ := Prod.mk.inj (Except.ok.inj hrun)
      exact ⟨hl.endSafe hruns, hzero, hlast⟩
    · exact absurd hrun nofun
  · rintro ⟨hsafe, hzero, hlast⟩
    have hwrap : w.sb.clusterCount + 1 < 2 ^ 32 ∨ used chunk (w.sb.clusterCount - 1) = false := by
      by_cases h : w.sb.clusterCount + 1 = 2 ^ 32
      · exact Or.inr (hlast h)
      · exact Or.inl (by omega)
    obtain ⟨rs, hruns, hloop⟩ := dumpSectors_all hchunk h32 hwrap hzero
    exact ⟨rs.length + 1, _, _, (hloop _).trans (if_pos (Nat.lt_succ_self _)),
      hsafe.listing hruns⟩

/-- Two clusters in use at the start of the heap. -/
def frontUsed : World where
  dev := fun _ => 0
  sb := smallSb
  cmap := { size := 8, chunk := some fun i => decide (i < 2), chunkSize := 8 }

theorem dumpSectors_complete_frontUsed : ∃ fuel ranges v,
    dumpSectors fuel 0 0 frontUsed = .ok (ranges, v) ∧
      Listing smallSb (fun i => decide (i < 2)) ranges :=
  (dumpSectors_complete_iff (w := frontUsed) rfl (by decide)).mpr
    ⟨⟨fun _ => by decide, fun _ h => absurd h (by decide), fun _ h => absurd h (by decide)⟩,
      fun h => absurd h.1 (by decide), fun h => absurd h (by decide)⟩

/-- Only the last cluster of the heap is in use. -/
def backUsed : World where
  dev := fun _ => 0
  sb := smallSb
  cmap := { size := 8, chunk := some fun i => decide (i = 7), chunkSize := 8 }

/-- The listing of a volume with its last cluster in use is empty. -/
theorem dump_misses_last : used (fun i => decide (i = 7)) 9 = true ∧
    (dumpSectors 1 0 0 backUsed = .ok ([], backUsed)) ∧
    ¬∃ fuel ranges v, dumpSectors fuel 0 0 backUsed = .ok (ranges, v) ∧
      Listing smallSb (fun i => decide (i = 7)) ranges := by
  have hrun := dumpSectors_none (exfatFindUsedSectors_none (w := backUsed) rfl
    (Or.inl ⟨rfl, rfl, rfl⟩) (by decide))
  refine ⟨by decide, hrun 1, ?_⟩
  rintro ⟨fuel, ranges, v, hok, hl⟩
  rw [hrun fuel] at hok
  split at hok
  · obtain ⟨rfl, rfl⟩ := Prod.mk.inj (Except.ok.inj hok)
    obtain ⟨r, hr, -⟩ := hl.covers 9 (by decide) (by decide) (by decide) _ (inCluster_first _ 9)
    exact absurd hr List.not_mem_nil
  · exact absurd hok nofun

/-- Percentage of the clusters in use, rounded to the nearest. -/
def percentOf (total inUse : Nat) : Nat := (100 * inUse + total / 2) / total

theorem percentOf_le {total inUse : Nat} (h1 : 1 ≤ total) (hu : inUse ≤ total) :
    percentOf total inUse ≤ 100 := by
  have hlt : 100 * inUse + total / 2 < (100 + 1) * total := by omega
  exact Nat.lt_succ_iff.mp ((Nat.div_lt_iff_lt_mul h1).mpr hlt)

/-- The 32-bit computation is right exactly when nothing wraps. -/
theorem percent_iff {total inUse : Nat} (h1 : 1 ≤ total) (h32 : total < 2 ^ 32)
    (hu : inUse ≤ total) :
    (100 * inUse + total / 2) % 2 ^ 32 / total % 2 ^ 8 = percentOf total inUse ↔
      100 * inUse + total / 2 < 2 ^ 32 := by
  have hle := percentOf_le h1 hu
  constructor
  · intro heq
    by_contra hge
    -- a lost 2^32 lowers the quotient
    have hdiv : (100 * inUse + total / 2) % 2 ^ 32 / total + 1 ≤ percentOf total inUse := by
      rw [← Nat.add_div_right _ h1]
      exact Nat.div_le_div_right (by omega)
    rw [Nat.mod_eq_of_lt (b := 2 ^ 8) (by omega)] at heq
    omega
  · intro hlt
    rw [Nat.mod_eq_of_lt hlt]
    exact Nat.mod_eq_of_lt (Nat.lt_of_le_of_lt hle (by decide))

/-- The byte of a super block on disk that holds the percentage. -/
theorem toBytes_percent {bs : List UInt8} (hl : bs.length = 512) (state percent : Nat) :
    ((SuperBlock.ofBytes bs).rewrite state percent).toBytes.getD 0x70 0 = UInt8.ofNat percent := by
  have hpre : (bs.take 0x6a ++ toLe 2 state ++ (bs.drop 0x6c).take 4).length = 0x70 := by
    simp [hl, toLe_length]
  rw [toBytes_ofBytes hl, List.append_assoc _ (toLe 1 percent), List.getD_append_right _ _ _ _
    (by rw [hpre]), hpre, Nat.sub_self]
  simp only [toLe, List.cons_append, List.getD_cons_zero]
  exact UInt8.toNat_inj.mp (by simp)

/-- Free clusters by the bitmap. -/
def freeCount (chunk : Nat → Bool) (total : Nat) : Nat :=
  (List.range total).countP fun i => !chunk i

theorem freeCount_le (chunk : Nat → Bool) (total : Nat) : freeCount chunk total ≤ total :=
  List.countP_le_length.trans_eq List.length_range

section
variable [Env]

theorem exfatFsync_kept : Wp E exfatFsync w fun _ v => ∃ t e, v = (w.ticked t).erred e := by
  simp only [exfatFsync, wp_bind, wp_nextTick]
  split
  · exact ⟨_, _, rfl⟩
  · exact ⟨w.tick + 1, w.errors, rfl⟩

/-- A write that does not fail is done. -/
theorem exfatPwrite_done (hio : Env.ioFails w.tick = false) (bs : List UInt8) (off : Nat) :
    Wp E (exfatPwrite bs off) w (Ret true (w.withDev (w.dev.write off bs))) := by
  simp only [exfatPwrite, wp_bind, wp_nextTick, hio, Bool.false_eq_true, if_false, wp_modify,
    wp_pure]
  exact ⟨rfl, _, rfl⟩

/-- A super block that is committed is on disk with its percentage when the write does not fail. -/
theorem commitSuperBlock_percent {bs : List UInt8} (hl : bs.length = 512)
    (hio : Env.ioFails w.tick = false) {state percent : Nat}
    (hsb : w.sb = (SuperBlock.ofBytes bs).rewrite state percent) :
    Wp E commitSuperBlock w fun _ v =>
      v.dev 0x70 = UInt8.ofNat percent ∧ v.sb.allocatedPercent = percent := by
  have hdisk : w.dev.write 0 w.sb.toBytes 0x70 = UInt8.ofNat percent := by
    rw [hsb, Store.write_in _ (Nat.zero_le _) (by rw [toBytes_length hl]; decide)]
    exact toBytes_percent hl state percent
  have hkept : w.sb.allocatedPercent = percent := by rw [hsb]; rfl
  simp only [commitSuperBlock, wp_bind, wp_get]
  refine after_ret (exfatPwrite_done hio _ _) fun t => ?_
  simp only [wp_bind, if_true]
  apply exfatFsync_kept.mono
  rintro _ _ ⟨t', e, rfl⟩
  simp only [wp_pure, World.erred_dev, World.ticked_dev, World.withDev_dev, World.erred_sb,
    World.ticked_sb, World.withDev_sb, hkept, and_true]
  exact hdisk

/-- The percentage `finalize_super_block` writes. -/
theorem finalizeSuperBlock_percent {bs : List UInt8} {state percent : Nat}
    (hl : bs.length = 512) (hsb : w.sb = (SuperBlock.ofBytes bs).rewrite state percent)
    (hio : Env.ioFails w.tick = false) (hro : w.ro = 0) (hchunk : w.cmap.chunk = some chunk)
    (hsize : w.cmap.size = w.sb.clusterCount) (hp : w.sb.allocatedPercent ≠ 0xff) :
    Wp E finalizeSuperBlock w fun _ v =>
      v.dev 0x70 = UInt8.ofNat v.sb.allocatedPercent ∧
        v.sb.allocatedPercent =
          (100 * (w.sb.clusterCount - freeCount chunk w.sb.clusterCount) + w.sb.clusterCount / 2) %
            2 ^ 32 / w.sb.clusterCount % 2 ^ 8 := by
  have hfree := freeCount_le chunk w.sb.clusterCount
  -- the subtraction wraps by a multiple of 2^32, which the product keeps
  have hsum : ((w.sb.clusterCount + 2 ^ 32 - freeCount chunk w.sb.clusterCount) * 100 +
      w.sb.clusterCount / 2) % 2 ^ 32 =
      (100 * (w.sb.clusterCount - freeCount chunk w.sb.clusterCount) + w.sb.clusterCount / 2) %
        2 ^ 32 := by omega
  simp only [finalizeSuperBlock, exfatCountFreeClusters, wp_bind, wp_get]
  rw [if_neg (not_not.mpr hro), if_neg hp]
  simp only [wp_bind, wp_getChunk hchunk, wp_get, wp_pure, wp_set]
  apply (commitSuperBlock_percent hl (by exact hio) (by rw [hsb]; rfl)).mono
  rintro _ v ⟨hdev, hval⟩
  refine ⟨hval ▸ hdev, hval.trans ?_⟩
  rw [← hsum, ← hsb, hsize]
  rfl

/-- `finalize_super_block` writes the right percentage exactly when the 32-bit computation does not
wrap. -/
theorem finalizeSuperBlock_percent_iff {bs : List UInt8} {state percent : Nat}
    (hl : bs.length = 512) (hsb : w.sb = (SuperBlock.ofBytes bs).rewrite state percent)
    (hio : Env.ioFails w.tick = false) (hro : w.ro = 0) (hchunk : w.cmap.chunk = some chunk)
    (hsize : w.cmap.size = w.sb.clusterCount) (h1 : 1 ≤ w.sb.clusterCount)
    (h32 : w.sb.clusterCount < 2 ^ 32) (hp : w.sb.allocatedPercent ≠ 0xff) :
    ∃ v, finalizeSuperBlock w = .ok ((), v) ∧ v.dev 0x70 = UInt8.ofNat v.sb.allocatedPercent ∧
      ((v.sb.allocatedPercent =
          percentOf w.sb.clusterCount (w.sb.clusterCount - freeCount chunk w.sb.clusterCount) ∧
        v.sb.allocatedPercent ≤ 100) ↔
        100 * (w.sb.clusterCount - freeCount chunk w.sb.clusterCount) + w.sb.clusterCount / 2 <
          2 ^ 32) := by
  obtain ⟨_, v, hrun, hdev, hval⟩ :=
    (finalizeSuperBlock_percent hl hsb hio hro hchunk hsize hp).returns
  have hu : w.sb.clusterCount - freeCount chunk w.sb.clusterCount ≤ w.sb.clusterCount :=
    Nat.sub_le _ _
  refine ⟨v, hrun, hdev, ?_⟩
  rw [hval, ← percent_iff h1 h32 hu]
  exact ⟨And.left, fun h => ⟨h, h.trans_le (percentOf_le h1 hu)⟩⟩

end

/-- The first sector of a volume of `count` clusters of one sector. -/
def bareBoot (count : Nat) : List UInt8 :=
  SuperBlock.toBytes
    { jump := [0xeb, 0x76, 0x90], oemName := [69, 88, 70, 65, 84, 32, 32, 32]
      unused1 := List.replicate 53 0, sectorStart := 0, sectorCount := 2 ^ 20 + count
      fatSectorStart := 128, fatSectorCount := 2 ^ 20 - 128, clusterSectorStart := 2 ^ 20
      clusterCount := count, rootdirCluster := 4, volumeSerial := 1, versionMinor := 0
      versionMajor := 1, volumeState := 2, sectorBits := 9, spcBits := 0, fatCount := 1
      driveNo := 0x80, allocatedPercent := 0, unused2 := List.replicate 397 0
      bootSignature := 0xaa55 }

/-- A mounted volume of `count` clusters, all of them allocated. -/
def fullVolume (count : Nat) : World where
  dev := fun _ => 0
  sb := SuperBlock.ofBytes (bareBoot count)
  cmap := { startCluster := 2, size := count, chunk := some fun _ => true, chunkSize := count }

theorem bareBoot_length (count : Nat) : (bareBoot count).length = 512 := by
  unfold bareBoot SuperBlock.toBytes
  simp only [List.length_append, toLe_length, List.length_replicate, List.length_cons,
    List.length_nil]

theorem finalizeSuperBlock_percent_eight : ∃ v,
    @finalizeSuperBlock calmEnv (fullVolume 8) = .ok ((), v) ∧
      v.dev 0x70 = UInt8.ofNat v.sb.allocatedPercent ∧ v.sb.allocatedPercent = 100 := by
  let _ := calmEnv
  have hcount : (fullVolume 8).sb.clusterCount = 8 := by decide +kernel
  obtain ⟨v, hrun, hdev, hiff⟩ := finalizeSuperBlock_percent_iff (w := fullVolume 8)
    (bareBoot_length 8) (rewrite_self _).symm rfl rfl rfl hcount.symm (by rw [hcount]; decide)
    (by rw [hcount]; decide) (by decide +kernel)
  rw [hcount] at hiff
  exact ⟨v, hrun, hdev, (hiff.mpr (by decide)).1.trans (by decide)⟩

/-- A volume of 2^26 clusters, all of them allocated, is written down as filled to 36 percent. -/
theorem finalizeSuperBlock_wraps :
    (∃ v, @finalizeSuperBlock calmEnv (fullVolume (2 ^ 26)) = .ok ((), v) ∧
      v.sb.allocatedPercent = 36) ∧
    percentOf (2 ^ 26) (2 ^ 26 - freeCount (fun _ => true) (2 ^ 26)) = 100 := by
  let _ := calmEnv
  have hnone : freeCount (fun _ => true) (2 ^ 26) = 0 := List.countP_eq_zero.mpr fun _ _ => by simp
  have hcount : (fullVolume (2 ^ 26)).sb.clusterCount = 2 ^ 26 := by decide +kernel
  refine ⟨?_, by rw [hnone]; decide⟩
  obtain ⟨_, v, hrun, -, hval⟩ := (finalizeSuperBlock_percent (w := fullVolume (2 ^ 26))
    (bareBoot_length (2 ^ 26)) (rewrite_self _).symm rfl rfl rfl hcount.symm
    (by decide +kernel)).returns
  refine ⟨v, hrun, hval.trans ?_⟩
  rw [hcount, hnone]
  decide

end Proofs

end Exfat
