import Exfat.Lib.Place
import Exfat.Model.Mkfs
import Exfat.Proofs.Chain

namespace Exfat
open Lib

/-! The geometry of a new file system: what its parts compute on their own is one layout. -/

/-- The first place for an object at or after a position. -/
def FsObject.up (p : Param) (o : FsObject) (position : Nat) : Nat := roundUp position (o.alignment p)

/-- Where `erase` and `create` put the objects. -/
def Param.places (p : Param) : List (FsObject × Nat) :=
  place (FsObject.up p) (FsObject.size p) objects 0

/-- The parameters that `setup_spc_bits` and `check_size` let through, with the sector size that
`main` gives. -/
structure Param.Accepted (p : Param) : Prop where
  sector : p.sectorBits = 9
  spc : ∃ user w v, setupSpcBits p.sectorBits user p.volumeSize w = .ok (some p.spcBits, v)
  room : endPosition p objects 0 ≤ p.volumeSize

/-- The clusters that an object takes up. -/
def FsObject.clusters (p : Param) (o : FsObject) : Nat := divRoundUp (o.size p) p.clusterSize

/-- The clusters in front of the heap. -/
def Param.header (p : Param) : Nat :=
  divRoundUp (128 * 512 + p.volumeSize / p.clusterSize * 4) p.clusterSize

/-- Words of the FAT that hold a chain of `n` clusters from `c` on, one after the other. -/
def Links (words : List Nat) (c n : Nat) : Prop :=
  0 < n ∧ ∀ i < n, words[c + i]? = some (if i + 1 = n then exfatClusterEnd else c + i + 1)

/-- Start and length of the chains of the bitmap, the upper case table and the root directory, as
the entries of the root directory and the super block give them. -/
def Param.chains (p : Param) : List (Nat × Nat) :=
  [(exfatFirstDataCluster, FsObject.cbm.clusters p),
    (leAt (initUpcaseEntry p) 20 4, FsObject.uct.clusters p),
    ((initSb p).rootdirCluster, FsObject.rootdir.clusters p)]

/-- The super block, the upper case table's entry, the FAT and the bitmap on a device say the same
about the clusters in use. -/
structure Param.Written (p : Param) (d : Store) : Prop where
  boot : d.read 0 512 = (initSb p).toBytes
  upcase : p.volumeLabel.length = exfatEnameMax + 1 →
    d.read (getPosition p .rootdir + 2 * entrySize) entrySize = initUpcaseEntry p
  links : ∀ s ∈ p.chains, 0 < s.2 ∧ ∀ i < s.2,
    fat (initSb p) d (s.1 + i) = if i + 1 = s.2 then exfatClusterEnd else s.1 + i + 1
  bits : ∀ i, bitsOf (d.read (getPosition p .cbm) (FsObject.cbm.size p)) i = true ↔
    ∃ s ∈ p.chains, s.1 ≤ i + 2 ∧ i + 2 < s.1 + s.2

namespace Proofs

variable {p : Param} {w : World}

theorem divRoundUp_le_iff {x k q : Nat} (hk : 0 < k) : divRoundUp x k ≤ q ↔ x ≤ q * k :=
  ⟨fun h => (le_divRoundUp_mul x hk).trans (Nat.mul_le_mul_right _ h), divRoundUp_le hk⟩

/-- Rounding up in two steps. -/
theorem divRoundUp_divRoundUp (x : Nat) {a b : Nat} (ha : 0 < a) (hb : 0 < b) :
    divRoundUp (divRoundUp x a) b = divRoundUp x (a * b) := by
  refine eq_of_forall_ge_iff fun q => ?_
  rw [divRoundUp_le_iff hb, divRoundUp_le_iff ha, divRoundUp_le_iff (Nat.mul_pos ha hb),
    Nat.mul_assoc, Nat.mul_comm b a]

theorem divRoundUp_add_mul (k x : Nat) {d : Nat} (hd : 0 < d) :
    divRoundUp (k * d + x) d = k + divRoundUp x d := by
  rw [divRoundUp, divRoundUp, Nat.add_assoc, Nat.add_sub_assoc (by omega), Nat.mul_comm,
    Nat.mul_add_div hd]

theorem divRoundUp_mul (k : Nat) {d : Nat} (hd : 0 < d) : divRoundUp (k * d) d = k := by
  have h := divRoundUp_add_mul k 0 hd
  rwa [Nat.add_zero, show divRoundUp 0 d = 0 from Nat.div_eq_of_lt (by omega), Nat.add_zero] at h

theorem param_clusterSize_pos (p : Param) : 0 < p.clusterSize := by
  unfold Param.clusterSize Param.sectorSize
  positivity

theorem le_up (o : FsObject) (x : Nat) : x ≤ o.up p x := by
  have hs : 0 < p.sectorSize := by
    unfold Param.sectorSize
    positivity
  cases o with
  | vbr => exact le_roundUp x hs
  | fat => exact le_roundUp x (Nat.mul_pos (by decide) hs)
  | cbm => exact le_roundUp x (param_clusterSize_pos p)
  | uct => exact le_roundUp x (param_clusterSize_pos p)
  | rootdir => exact le_roundUp x (param_clusterSize_pos p)

theorem endPosition_eq (os : List FsObject) (x : Nat) :
    endPosition p os x = placeEnd (FsObject.up p) (FsObject.size p) os x := by
  induction os generalizing x with
  | nil => rfl
  | cons o os ih => exact ih _

/-- `get_position` of an object is its place. -/
theorem positionLoop_mem {o : FsObject} {os : List FsObject} (h : o ∈ os) (x : Nat) :
    (o, positionLoop p (FsObject.size p) o os x) ∈ place (FsObject.up p) (FsObject.size p) os x := by
  induction os generalizing x with
  | nil => exact absurd h List.not_mem_nil
  | cons a os ih =>
    unfold positionLoop place
    by_cases ha : a = o
    · subst ha
      rw [if_pos rfl]
      exact List.mem_cons_self
    · rw [if_neg ha]
      exact List.mem_cons_of_mem _ (ih ((List.mem_cons.mp h).resolve_left (Ne.symm ha)) _)

theorem roundUp_add_mul (k x : Nat) {d : Nat} (hd : 0 < d) :
    roundUp (k * d + x) d = (k + divRoundUp x d) * d := by
  rw [roundUp, divRoundUp_add_mul k x hd]

theorem sectorSize_eq (h9 : p.sectorBits = 9) : p.sectorSize = 512 := by
  rw [Param.sectorSize, h9]
  rfl

theorem clusterSize_eq (h9 : p.sectorBits = 9) : p.clusterSize = 512 * 2 ^ p.spcBits := by
  rw [Param.clusterSize, sectorSize_eq h9]

theorem size_vbr (h9 : p.sectorBits = 9) : FsObject.vbr.size p = 12 * 512 :=
  congrArg (12 * ·) (sectorSize_eq h9)

theorem size_fat (p : Param) : FsObject.fat.size p = p.volumeSize / p.clusterSize * 4 := rfl

/-- The objects lie one behind the other: two boot regions, the FAT from sector 128 on, and from the
first cluster boundary behind it the heap. -/
theorem places_eq (h9 : p.sectorBits = 9) :
    p.places = [(.vbr, 0), (.vbr, 12 * 512), (.fat, 128 * 512), (.cbm, p.header * p.clusterSize),
      (.uct, (p.header + FsObject.cbm.clusters p) * p.clusterSize),
      (.rootdir, (p.header + FsObject.cbm.clusters p + FsObject.uct.clusters p) * p.clusterSize)] := by
  have hcs := param_clusterSize_pos p
  have h1 : roundUp 0 512 = 0 := by decide
  have h2 : roundUp (12 * 512) 512 = 12 * 512 := by decide
  have h3 : roundUp (12 * 512 + 12 * 512) (128 * 512) = 128 * 512 := by decide
  have h4 : roundUp (128 * 512 + FsObject.fat.size p) p.clusterSize = p.header * p.clusterSize := rfl
  simp only [Param.places, objects, place, FsObject.up, FsObject.alignment, sectorSize_eq h9,
    size_vbr h9, h1, h2, h3, h4, Nat.zero_add, roundUp_add_mul _ _ hcs]
  rfl

theorem getPosition_mem (o : FsObject) : (o, getPosition p o) ∈ p.places :=
  positionLoop_mem (by cases o <;> decide) 0

theorem getPosition_cbm (h9 : p.sectorBits = 9) :
    getPosition p .cbm = p.header * p.clusterSize := by
  simpa [places_eq h9] using getPosition_mem (p := p) .cbm

theorem getPosition_uct (h9 : p.sectorBits = 9) :
    getPosition p .uct = (p.header + FsObject.cbm.clusters p) * p.clusterSize := by
  simpa [places_eq h9] using getPosition_mem (p := p) .uct

theorem getPosition_rootdir (h9 : p.sectorBits = 9) :
    getPosition p .rootdir =
      (p.header + FsObject.cbm.clusters p + FsObject.uct.clusters p) * p.clusterSize := by
  simpa [places_eq h9] using getPosition_mem (p := p) .rootdir

/-- The root directory ends inside the volume. -/
theorem rootdir_end (h : p.Accepted) :
    (p.header + FsObject.cbm.clusters p + FsObject.uct.clusters p + 1) * p.clusterSize ≤
      p.volumeSize := by
  have hin : getPosition p .rootdir + FsObject.rootdir.size p ≤
      placeEnd (FsObject.up p) (FsObject.size p) objects 0 :=
    (place_inside (fun o x => le_up o x) (getPosition_mem .rootdir)).2
  have hroom := h.room
  rw [endPosition_eq] at hroom
  rw [getPosition_rootdir h.sector] at hin
  rw [Nat.succ_mul]
  exact hin.trans hroom

/-- The loop of `setup_spc_bits` ends with few enough clusters below 2^31 bytes. -/
theorem spcBitsLoop_spec (bits size : Nat) (n i : Nat) :
    Wp (fun _ => True) (spcBitsLoop bits size n i) w fun spc _ => ∃ k, i ≤ k ∧ k < i + n ∧
      spc = k - bits ∧ divRoundUp size (2 ^ k) ≤ exfatLastDataCluster := by
  induction n generalizing i with
  | zero => trivial
  | succ n ih =>
    unfold spcBitsLoop
    split
    · exact ⟨i, le_rfl, by omega, rfl, ‹_›⟩
    · apply (ih (i + 1)).mono
      rintro spc _ ⟨k, h1, h2, h3, h4⟩
      exact ⟨k, by omega, by omega, h3, h4⟩

theorem div_le_divRoundUp (x : Nat) {d : Nat} (hd : 0 < d) : x / d ≤ divRoundUp x d :=
  Nat.div_le_div_right (by omega)

/-- Clusters are smaller than 2^31 bytes, and their number fits. -/
theorem setupSpcBits_spec (user : Option Nat) (size : Nat) :
    Wp (fun _ => True) (setupSpcBits 9 user size) w fun r _ => ∀ spc, r = some spc →
      512 * 2 ^ spc < 2 ^ 31 ∧ size / (512 * 2 ^ spc) ≤ exfatLastDataCluster := by
  cases user with
  | some u =>
    simp only [setupSpcBits]
    split
    · trivial
    · rename_i hsmall
      split
      · simp only [wp_bind, wp_exfatError]
        intro spc h
        cases h
      · rename_i hfew
        rintro spc ⟨⟩
        exact ⟨by simpa using hsmall, by simpa using hfew⟩
  | none =>
    simp only [setupSpcBits]
    split
    · rintro spc ⟨⟩
      refine ⟨by decide, ?_⟩
      simp only [exfatLastDataCluster]
      omega
    · split
      · rintro spc ⟨⟩
        refine ⟨by decide, ?_⟩
        simp only [exfatLastDataCluster]
        omega
      · simp only [wp_bind]
        apply (spcBitsLoop_spec 9 size 14 17).mono
        rintro k _ ⟨i, h1, h2, rfl, hle⟩ spc ⟨⟩
        have hpow : 512 * 2 ^ (i - 9) = 2 ^ i := by
          rw [show 512 = 2 ^ 9 by rfl, ← Nat.pow_add, Nat.add_sub_cancel' (by omega)]
        rw [hpow]
        exact ⟨Nat.pow_lt_pow_right (by decide) (by omega),
          (div_le_divRoundUp size (by positivity)).trans hle⟩

theorem accepted_small (h : p.Accepted) :
    p.clusterSize < 2 ^ 31 ∧ p.volumeSize / p.clusterSize ≤ exfatLastDataCluster := by
  obtain ⟨user, w, v, hrun⟩ := h.spc
  rw [h.sector] at hrun
  have hspec := (setupSpcBits_spec user p.volumeSize).run hrun _ rfl
  rwa [← clusterSize_eq h.sector] at hspec

/-- The objects of the heap fit into the clusters behind the header. -/
theorem heap_room (h : p.Accepted) :
    p.header + FsObject.cbm.clusters p + FsObject.uct.clusters p + 1 ≤
      p.volumeSize / p.clusterSize :=
  (Nat.le_div_iff_mul_le (param_clusterSize_pos p)).mpr (rootdir_end h)

/-- The sectors in front of the heap. -/
theorem header_sectors (h9 : p.sectorBits = 9) :
    p.header * 2 ^ p.spcBits =
      roundUp (128 + divRoundUp (p.volumeSize / p.clusterSize * 4) 512) (2 ^ p.spcBits) := by
  have hpow : 0 < 2 ^ p.spcBits := by positivity
  rw [← divRoundUp_add_mul 128 _ (by decide), roundUp, divRoundUp_divRoundUp _ (by decide) hpow,
    Param.header, clusterSize_eq h9]

theorem header_bounds (h : p.Accepted) :
    128 ≤ p.header * 2 ^ p.spcBits ∧ p.header * 2 ^ p.spcBits < 2 ^ 28 := by
  obtain ⟨hsmall, hmax⟩ := accepted_small h
  have hpow : 0 < 2 ^ p.spcBits := by positivity
  have hcs := clusterSize_eq h.sector
  simp only [exfatLastDataCluster] at hmax
  rw [header_sectors h.sector]
  constructor
  · exact (Nat.le_add_right _ _).trans (le_roundUp _ hpow)
  · generalize hx : 128 + divRoundUp (p.volumeSize / p.clusterSize * 4) 512 = x
    have hlt : divRoundUp (p.volumeSize / p.clusterSize * 4) 512 ≤ 2 ^ 25 :=
      divRoundUp_le (by decide) (by omega)
    have hup : roundUp x (2 ^ p.spcBits) ≤ x + 2 ^ p.spcBits - 1 := by
      rw [roundUp, divRoundUp]
      exact Nat.div_mul_le_self _ _
    omega

theorem initSb_fatStart (h9 : p.sectorBits = 9) : (initSb p).fatSectorStart = 128 := by
  simp only [initSb, FsObject.alignment, sectorSize_eq h9]
  decide

theorem initSb_fatCount (h : p.Accepted) :
    128 + (initSb p).fatSectorCount = p.header * 2 ^ p.spcBits := by
  obtain ⟨hsmall, hmax⟩ := accepted_small h
  obtain ⟨h128, h28⟩ := header_bounds h
  simp only [exfatLastDataCluster] at hmax
  have hfat : divRoundUp (p.volumeSize / p.clusterSize * 4) 512 ≤ 2 ^ 25 :=
    divRoundUp_le (by decide) (by omega)
  have hstart : 128 * 512 / 512 % 2 ^ 32 = 128 := by decide
  simp only [initSb, FsObject.alignment, sectorSize_eq h.sector, hstart]
  rw [Nat.mod_eq_of_lt (show p.volumeSize / p.clusterSize < 2 ^ 32 by omega),
    Nat.mod_eq_of_lt (show divRoundUp (p.volumeSize / p.clusterSize * 4) 512 < 2 ^ 32 by omega),
    ← header_sectors h.sector, Nat.mod_eq_of_lt (by omega)]
  omega

theorem initSb_heapStart (h : p.Accepted) :
    (initSb p).clusterSectorStart = p.header * 2 ^ p.spcBits := by
  have h28 := (header_bounds h).2
  have hdiv : getPosition p .cbm / p.sectorSize = p.header * 2 ^ p.spcBits := by
    rw [getPosition_cbm h.sector, clusterSize_eq h.sector, sectorSize_eq h.sector,
      Nat.mul_left_comm, Nat.mul_div_cancel_left _ (by decide)]
  simp only [initSb, hdiv]
  exact Nat.mod_eq_of_lt (by omega)

theorem initSb_count (h : p.Accepted) :
    (initSb p).clusterCount = p.volumeSize / p.clusterSize - p.header := by
  obtain ⟨hsmall, hmax⟩ := accepted_small h
  simp only [exfatLastDataCluster] at hmax
  have hdiv : ((initSb p).fatSectorStart + (initSb p).fatSectorCount) / 2 ^ p.spcBits = p.header := by
    rw [initSb_fatStart h.sector, initSb_fatCount h, Nat.mul_div_cancel _ (by positivity)]
  change p.volumeSize / p.clusterSize % 2 ^ 32 -
    ((initSb p).fatSectorStart + (initSb p).fatSectorCount) / 2 ^ p.spcBits = _
  rw [hdiv, Nat.mod_eq_of_lt (by omega)]

theorem fatEntries_length (c : Nat) {length : Nat} (hn : 0 < divRoundUp length p.clusterSize) :
    (fatEntries p c length).length = divRoundUp length p.clusterSize := by
  simp only [fatEntries, List.length_append, List.length_map, List.length_range,
    List.length_singleton]
  omega

/-- What `fat_write_entries` writes is a chain. -/
theorem fatEntries_links {c length : Nat} {front back : List Nat} (hc : front.length = c)
    (hn : 0 < divRoundUp length p.clusterSize) :
    Links (front ++ fatEntries p c length ++ back) c (divRoundUp length p.clusterSize) := by
  refine ⟨hn, fun i hi => ?_⟩
  have hl := fatEntries_length c hn
  rw [List.append_assoc, List.getElem?_append_right (by omega), hc, Nat.add_sub_cancel_left,
    List.getElem?_append_left (by omega)]
  unfold fatEntries
  split
  · rename_i hlast
    rw [List.getElem?_append_right (by simp; omega)]
    simp [← hlast]
  · rename_i hlast
    rw [List.getElem?_append_left (by simp; omega), List.getElem?_map,
      List.getElem?_range (by omega)]
    rfl

theorem upcaseTable_length : upcaseTable.length = 5836 := by decide +kernel

theorem uct_clusters_pos (p : Param) : 0 < FsObject.uct.clusters p := by
  have hlen : FsObject.uct.size p = 5836 := upcaseTable_length
  rw [FsObject.clusters, divRoundUp_pos (param_clusterSize_pos p), hlen]
  decide

theorem rootdir_clusters (p : Param) : FsObject.rootdir.clusters p = 1 := by
  have h := divRoundUp_mul 1 (param_clusterSize_pos p)
  rwa [Nat.one_mul] at h

theorem header_le (h : p.Accepted) : p.header < p.volumeSize / p.clusterSize := by
  have := heap_room h
  omega

theorem heap_size (h : p.Accepted) :
    (p.volumeSize - getPosition p .cbm) / p.clusterSize = (initSb p).clusterCount := by
  rw [initSb_count h, getPosition_cbm h.sector, Nat.mul_comm, Nat.sub_mul_div]

theorem cbm_size (h : p.Accepted) :
    FsObject.cbm.size p = divRoundUp (initSb p).clusterCount 8 := by
  have hv : FsObject.vbr.size p = headSize p .vbr := rfl
  have hf : FsObject.fat.size p = headSize p .fat := rfl
  have hpos : positionLoop p (headSize p) .cbm objects 0 = getPosition p .cbm := by
    simp only [getPosition, objects, positionLoop, reduceCtorEq, if_false, if_true, hv, hf]
  rw [FsObject.size, hpos, heap_size h]

theorem cbm_clusters_pos (h : p.Accepted) : 0 < FsObject.cbm.clusters p := by
  have hlt := header_le h
  rw [FsObject.clusters, divRoundUp_pos (param_clusterSize_pos p), cbm_size h,
    divRoundUp_pos (by decide), initSb_count h]
  omega

/-- A number in the middle of a record. -/
theorem leAt_middle {front back : List UInt8} {off : Nat} (hf : front.length = off) (n v : Nat) :
    leAt (front ++ (toLe n v ++ back)) off n = v % 256 ^ n := by
  rw [leAt, List.drop_left' hf, List.take_left' (toLe_length n v), leNat_toLe]

/-- The upper case table follows the bitmap. -/
theorem upcase_start (h : p.Accepted) :
    leAt (initUpcaseEntry p) 20 4 = exfatFirstDataCluster + FsObject.cbm.clusters p := by
  have hroom := heap_room h
  have hmax := (accepted_small h).2
  simp only [exfatLastDataCluster] at hmax
  have hfront : (toLe 1 exfatEntryUpcase ++ List.replicate 3 0 ++
      toLe 4 (upcaseTable.foldl vbrChecksumByte 0) ++ List.replicate 12 0).length = 20 := by
    simp only [List.length_append, toLe_length, List.length_replicate]
  have hstart : (getPosition p .uct - getPosition p .cbm) / p.clusterSize =
      FsObject.cbm.clusters p := by
    rw [getPosition_uct h.sector, getPosition_cbm h.sector, ← Nat.sub_mul, Nat.add_sub_cancel_left,
      Nat.mul_div_cancel _ (param_clusterSize_pos p)]
  rw [initUpcaseEntry, List.append_assoc _ (toLe 4 _) (toLe 8 _), leAt_middle hfront, hstart,
    Nat.mod_eq_of_lt (by simp only [exfatFirstDataCluster]; omega), Nat.add_comm]

/-- The root directory follows the upper case table. -/
theorem initSb_rootdir (h : p.Accepted) :
    (initSb p).rootdirCluster =
      exfatFirstDataCluster + FsObject.cbm.clusters p + FsObject.uct.clusters p := by
  have hroom := heap_room h
  have hmax := (accepted_small h).2
  simp only [exfatLastDataCluster] at hmax
  have hstart : (getPosition p .rootdir - getPosition p .cbm) / p.clusterSize =
      FsObject.cbm.clusters p + FsObject.uct.clusters p := by
    rw [getPosition_rootdir h.sector, getPosition_cbm h.sector, ← Nat.sub_mul, Nat.add_assoc,
      Nat.add_sub_cancel_left, Nat.mul_div_cancel _ (param_clusterSize_pos p)]
  simp only [initSb, hstart, exfatFirstDataCluster]
  omega

theorem chains_eq (h : p.Accepted) :
    p.chains = [(2, FsObject.cbm.clusters p), (2 + FsObject.cbm.clusters p, FsObject.uct.clusters p),
      (2 + FsObject.cbm.clusters p + FsObject.uct.clusters p, 1)] := by
  rw [Param.chains, upcase_start h, initSb_rootdir h, rootdir_clusters]
  rfl

/-- `fat_write` writes the three chains behind the two words at the front. -/
theorem fatWords_links (h : p.Accepted) : ∀ s ∈ p.chains, Links (fatWords p) s.1 s.2 := by
  have h1 := cbm_clusters_pos h
  have h2 := uct_clusters_pos p
  have h3 := rootdir_clusters p
  have hl1 := fatEntries_length (p := p) 2 h1
  have hl2 := fatEntries_length (p := p) (2 + FsObject.cbm.clusters p) h2
  rw [← FsObject.clusters] at hl1 hl2
  have hwords : fatWords p = [0xfffffff8, 0xffffffff] ++ fatEntries p 2 (FsObject.cbm.size p) ++
      fatEntries p (2 + FsObject.cbm.clusters p) (FsObject.uct.size p) ++
      fatEntries p (2 + FsObject.cbm.clusters p + FsObject.uct.clusters p)
        (FsObject.rootdir.size p) := by
    simp only [fatWords, hl1, hl2]
  rw [chains_eq h, hwords]
  intro s hs
  simp only [List.mem_cons, List.not_mem_nil, or_false] at hs
  rcases hs with rfl | rfl | rfl
  · rw [List.append_assoc]
    exact fatEntries_links rfl h1
  · exact fatEntries_links (by simp only [List.length_append, hl1]; rfl) h2
  · have hlinks : Links ([0xfffffff8, 0xffffffff] ++ fatEntries p 2 (FsObject.cbm.size p) ++
        fatEntries p (2 + FsObject.cbm.clusters p) (FsObject.uct.size p) ++
        fatEntries p (2 + FsObject.cbm.clusters p + FsObject.uct.clusters p)
          (FsObject.rootdir.size p) ++ []) (2 + FsObject.cbm.clusters p + FsObject.uct.clusters p)
        (FsObject.rootdir.clusters p) :=
      fatEntries_links (by simp only [List.length_append, hl1, hl2]; rfl)
        (by rw [← FsObject.clusters, h3]; decide)
    rwa [List.append_nil, h3] at hlinks

/-- The bits of bytes made from bits. -/
theorem bitsOf_chunkBytes (chunk : Nat → Bool) (n i : Nat) :
    bitsOf (chunkBytes chunk n) i = (decide (i < 8 * n) && chunk i) := by
  unfold bitsOf chunkBytes
  by_cases hi : i < 8 * n
  · have hbyte : ((List.range n).map (bitByte chunk)).getD (i / 8) 0 = bitByte chunk (i / 8) := by
      rw [List.getD_eq_getElem?_getD, List.getElem?_map, List.getElem?_range (by omega)]
      rfl
    have hlt := Nat.ofBits_lt_two_pow fun j : Fin 8 => chunk (8 * (i / 8) + j)
    have hbits : (bitByte chunk (i / 8)).toNat =
        Nat.ofBits fun j : Fin 8 => chunk (8 * (i / 8) + j) := by
      rw [bitByte, UInt8.toNat_ofNat', Nat.mod_eq_of_lt hlt]
    rw [hbyte, hbits, Nat.testBit_ofBits_lt _ _ (Nat.mod_lt i (by decide)), decide_eq_true hi,
      Bool.true_and, Nat.div_add_mod]
  · have hbyte : ((List.range n).map (bitByte chunk)).getD (i / 8) 0 = 0 := by
      rw [List.getD_eq_default]
      simp only [List.length_map, List.length_range]
      omega
    rw [hbyte, decide_eq_false hi, Bool.false_and]
    exact Nat.zero_testBit _

theorem allocated_eq (p : Param) :
    allocatedClusters p = FsObject.cbm.clusters p + FsObject.uct.clusters p + 1 :=
  congrArg (FsObject.cbm.clusters p + FsObject.uct.clusters p + ·) (rootdir_clusters p)

/-- `cbm_write` sets the bits of the clusters in use. -/
theorem cbmBytes_bit (p : Param) (i : Nat) :
    bitsOf (cbmBytes p) i = decide (i < allocatedClusters p) := by
  have hup : allocatedClusters p ≤ 8 * (roundUp (allocatedClusters p) 8 / 8) := by
    rw [roundUp, Nat.mul_div_cancel _ (by decide), Nat.mul_comm]
    exact le_divRoundUp_mul _ (by decide)
  rw [cbmBytes, bitsOf_chunkBytes]
  by_cases hi : i < allocatedClusters p
  · rw [decide_eq_true hi, decide_eq_true (hi.trans_le hup), Bool.true_and]
  · rw [decide_eq_false hi, Bool.and_false]

/-- A volume of one megabyte with the default cluster size. -/
def megabyte : Param where
  sectorBits := 9
  spcBits := 3
  volumeSize := 2 ^ 20
  volumeLabel := List.replicate 16 0
  volumeSerial := 1
  firstSector := 0

theorem megabyte_accepted : megabyte.Accepted where
  sector := rfl
  spc := ⟨none, { dev := fun _ => 0 }, { dev := fun _ => 0 }, rfl⟩
  room := by
    simp only [endPosition, objects, FsObject.size, upcaseTable_length]
    decide +kernel

end Proofs

end Exfat
