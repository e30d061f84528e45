import Exfat.Model.Bptree

namespace Exfat
open Lib

/-! Where the recovery tool's tree keeps its levels: the computed places against the true ones. -/

/-- The number of nodes above a level of a full tree, which is the place of its first node. -/
def levelStart (height : Nat) : Nat := ∑ i ∈ Finset.range height, 8 ^ i

namespace Proofs

/-- A place in a level, with a heap index of 32 bits. -/
structure ValidPlace (height levelOffset : Nat) : Prop where
  inside : levelOffset < 8 ^ height
  fits : levelStart height + levelOffset < 2 ^ 32

variable {h j k lo levels : Nat}

theorem levelStart_succ (h : Nat) : levelStart (h + 1) = levelStart h + 8 ^ h :=
  Finset.sum_range_succ _ _

/-- A tree is a root and eight smaller trees. -/
theorem levelStart_succ' (h : Nat) : levelStart (h + 1) = 1 + 8 * levelStart h := by
  rw [levelStart, Finset.sum_range_succ', Nat.add_comm, levelStart, Finset.mul_sum]
  simp only [pow_zero, pow_succ, Nat.mul_comm]

theorem levelStart_add (h k : Nat) : levelStart (h + k) = levelStart h + 8 ^ h * levelStart k := by
  rw [levelStart, Finset.sum_range_add, levelStart, levelStart, Finset.mul_sum]
  simp only [pow_add]

theorem levelStart_strictMono : StrictMono levelStart := by
  apply strictMono_nat_of_lt_succ
  intro h
  rw [levelStart_succ]
  exact Nat.lt_add_of_pos_right (by positivity)

theorem levelStart_eleven : levelStart 11 < 2 ^ 32 := by decide

/-- Levels from the twelfth on do not count modulo 2^32. -/
theorem levelStart_mod (h : Nat) : levelStart h % 2 ^ 32 = levelStart (min h 11) := by
  rcases Nat.le_total h 11 with hle | hle
  · rw [Nat.min_eq_left hle]
    exact Nat.mod_eq_of_lt
      ((levelStart_strictMono.monotone hle).trans_lt levelStart_eleven)
  · obtain ⟨k, rfl⟩ := Nat.exists_eq_add_of_le hle
    rw [Nat.min_eq_right hle, levelStart_add, show 8 ^ 11 = 2 ^ 32 * 2 by norm_num, Nat.mul_assoc,
      Nat.add_mul_mod_self_left, Nat.mod_eq_of_lt levelStart_eleven]

/-- Levels from the twenty-third on do not count modulo 2^64. -/
theorem levelStart_mod64 (h : Nat) : levelStart h % 2 ^ 64 = levelStart (min h 22) := by
  have h22 : levelStart 22 < 2 ^ 64 := by decide
  rcases Nat.le_total h 22 with hle | hle
  · rw [Nat.min_eq_left hle]
    exact Nat.mod_eq_of_lt ((levelStart_strictMono.monotone hle).trans_lt h22)
  · obtain ⟨k, rfl⟩ := Nat.exists_eq_add_of_le hle
    rw [Nat.min_eq_right hle, levelStart_add, show 8 ^ 22 = 2 ^ 64 * 4 by norm_num, Nat.mul_assoc,
      Nat.add_mul_mod_self_left, Nat.mod_eq_of_lt h22]

theorem heapOffsetLoop_eq (h o s : Nat) : heapOffsetLoop h (o % 2 ^ 32) (s % 2 ^ 32) =
    ((o + s * levelStart h) % 2 ^ 32, s * 8 ^ h % 2 ^ 32) := by
  induction h generalizing o s with
  | zero => simp [heapOffsetLoop, levelStart]
  | succ h ih =>
    rw [heapOffsetLoop, ← Nat.add_mod, bptreeChildNodes, Nat.mod_mul_mod, ih, levelStart_succ']
    congr 2
    · ring
    · rw [pow_succ]
      ring

/-- The computed place is the start of the next level, and of the twelfth for every level after it. -/
theorem getBptreeEntryHeapOffset_eq (h lo : Nat) :
    getBptreeEntryHeapOffset h lo = levelStart (min (h + 1) 11) := by
  have hloop := heapOffsetLoop_eq h 0 1
  norm_num at hloop
  rw [getBptreeEntryHeapOffset, hloop, ← levelStart_mod, levelStart_succ]
  norm_num

theorem heapSizeLoop_eq (n k : Nat) :
    heapSizeLoop n (8 ^ k % 2 ^ 64) (levelStart (k + 1) % 2 ^ 64) =
      levelStart (k + 1 + n) % 2 ^ 64 := by
  induction n generalizing k with
  | zero => rfl
  | succ n ih =>
    rw [heapSizeLoop, bptreeChildNodes, Nat.mod_mul_mod, ← pow_succ, ← Nat.add_mod,
      ← levelStart_succ, ih, show k + 1 + 1 + n = k + 1 + (n + 1) by omega]

theorem allocHeapSize_eq (hl : 1 ≤ levels) : allocHeapSize levels = levelStart (min levels 22) := by
  have hloop := heapSizeLoop_eq (levels - 1) 0
  rw [allocHeapSize, ← levelStart_mod64]
  rwa [show 0 + 1 + (levels - 1) = levels by omega] at hloop

/-- The loop only ends where the sizes of some levels have used up the offset. -/
theorem heightAndIndexLoop_some {fuel off size height : Nat} {r : Nat × Nat} (ho : off < 2 ^ 32)
    (hs : size < 2 ^ 32) (hh : height < 2 ^ 8)
    (h : heightAndIndexLoop fuel off size height = some r) :
    ∃ j, off = size * levelStart j % 2 ^ 32 ∧ r = ((height + j) % 2 ^ 8, 0) := by
  induction fuel generalizing off size height with
  | zero => cases h
  | succ fuel ih =>
    rw [heightAndIndexLoop] at h
    split at h
    · obtain ⟨j, hj, rfl⟩ := ih (Nat.mod_lt _ (by norm_num)) (Nat.mod_lt _ (by norm_num))
        (Nat.mod_lt _ (by norm_num)) h
      refine ⟨j + 1, ?_, ?_⟩
      · rw [levelStart_succ', Nat.mul_add, Nat.mul_one, ← Nat.mul_assoc]
        rw [bptreeChildNodes, Nat.mod_mul_mod] at hj
        omega
      · rw [Nat.mod_add_mod, Nat.add_assoc, Nat.add_comm 1 j]
    · cases h
      refine ⟨0, ?_, ?_⟩
      · rw [levelStart, Finset.range_zero, Finset.sum_empty, Nat.mul_zero]
        omega
      · rw [Nat.add_zero, Nat.mod_eq_of_lt hh]
        simp only [Prod.mk.injEq, true_and]
        omega

theorem heightAndIndex_some {fuel x : Nat} {r : Nat × Nat} (hx : x < 2 ^ 32)
    (h : getBptreeEntryHeightAndIndex fuel x = some r) :
    ∃ j, x = levelStart (min j 11) ∧ r = (j % 2 ^ 8, 0) := by
  obtain ⟨j, hj, rfl⟩ := heightAndIndexLoop_some hx (by norm_num) (by norm_num) h
  rw [Nat.one_mul, levelStart_mod] at hj
  exact ⟨j, hj, by rw [Nat.zero_add]⟩

/-- From the start of a level the loop counts the levels above it. -/
theorem heightAndIndexLoop_level (hk : k + j ≤ 11) :
    heightAndIndexLoop (j + 1) (8 ^ k * levelStart j) (8 ^ k % 2 ^ 32) k = some (k + j, 0) := by
  induction j generalizing k with
  | zero => simp [heightAndIndexLoop, levelStart]
  | succ j ih =>
    have hpos : 0 < 8 ^ k := by positivity
    have hlt : 8 ^ k * levelStart (j + 1) < 2 ^ 32 := by
      have hle : levelStart (k + (j + 1)) ≤ levelStart 11 := levelStart_strictMono.monotone hk
      rw [levelStart_add] at hle
      have := levelStart_eleven
      omega
    have hsplit : 8 ^ k * levelStart (j + 1) = 8 ^ k + 8 ^ (k + 1) * levelStart j := by
      rw [levelStart_succ', pow_succ]
      ring
    have hnext := ih (k := k + 1) (by omega)
    rw [heightAndIndexLoop, if_pos (by omega), Nat.mod_eq_of_lt (show 8 ^ k < 2 ^ 32 by omega),
      bptreeChildNodes, ← pow_succ, Nat.mod_eq_of_lt (show k + 1 < 2 ^ 8 by omega), hsplit,
      show (8 ^ k + 8 ^ (k + 1) * levelStart j + 2 ^ 32 - 8 ^ k) % 2 ^ 32 =
        8 ^ (k + 1) * levelStart j by omega, hnext]
    congr 2
    omega

theorem ValidPlace.le (hv : ValidPlace h lo) : h ≤ 11 := by
  by_contra hn
  have h12 : levelStart 12 ≤ levelStart h := levelStart_strictMono.monotone (by omega)
  have : 2 ^ 32 ≤ levelStart 12 := by decide
  have := hv.fits
  omega

theorem ValidPlace.lt (hv : ValidPlace h lo) : levelStart h + lo < levelStart (h + 1) := by
  rw [levelStart_succ]
  exact Nat.add_lt_add_left hv.inside _

/-- A place is the start of a level only with offset 0. -/
theorem ValidPlace.start_iff (hv : ValidPlace h lo) :
    levelStart h + lo = levelStart k ↔ h = k ∧ lo = 0 := by
  constructor
  · intro he
    have h1 : levelStart k < levelStart (h + 1) := he ▸ hv.lt
    have h2 := levelStart_strictMono.lt_iff_lt.mp h1
    have h3 : levelStart h ≤ levelStart k := by omega
    have h4 := levelStart_strictMono.le_iff_le.mp h3
    obtain rfl : h = k := by omega
    exact ⟨rfl, by omega⟩
  · rintro ⟨rfl, rfl⟩
    rfl

/-- The computed place is right for the one node of the twelfth level that comes first. -/
theorem heapOffset_right_iff (hv : ValidPlace h lo) :
    getBptreeEntryHeapOffset h lo = levelStart h + lo ↔ h = 11 ∧ lo = 0 := by
  rw [getBptreeEntryHeapOffset_eq, eq_comm, hv.start_iff]
  have := hv.le
  omega

theorem heapOffset_lt_iff (hv : ValidPlace h lo) (hl : h < levels) :
    getBptreeEntryHeapOffset h lo < allocHeapSize levels ↔ h + 1 < levels ∨ h = 11 := by
  have := hv.le
  rw [getBptreeEntryHeapOffset_eq, allocHeapSize_eq (by omega), levelStart_strictMono.lt_iff_lt]
  omega

theorem heapOffset_distinct_iff {h' lo' : Nat} :
    getBptreeEntryHeapOffset h lo ≠ getBptreeEntryHeapOffset h' lo' ↔ min h 10 ≠ min h' 10 := by
  rw [getBptreeEntryHeapOffset_eq, getBptreeEntryHeapOffset_eq, ne_eq,
    levelStart_strictMono.injective.eq_iff]
  omega

theorem heightAndIndex_ends_iff (hv : ValidPlace h lo) :
    (∃ fuel r, getBptreeEntryHeightAndIndex fuel (levelStart h + lo) = some r) ↔ lo = 0 := by
  constructor
  · rintro ⟨fuel, r, hr⟩
    obtain ⟨j, hj, -⟩ := heightAndIndex_some hv.fits hr
    exact (hv.start_iff.mp hj).2
  · rintro rfl
    have hloop := heightAndIndexLoop_level (k := 0) (j := h) (by have := hv.le; omega)
    norm_num at hloop
    exact ⟨h + 1, _, hloop⟩

theorem heightAndIndex_right_iff (hv : ValidPlace h lo) :
    (∃ fuel, getBptreeEntryHeightAndIndex fuel (levelStart h + lo) = some (h, lo)) ↔ lo = 0 := by
  constructor
  · rintro ⟨fuel, hr⟩
    exact (heightAndIndex_ends_iff hv).mp ⟨fuel, _, hr⟩
  · rintro rfl
    have hloop := heightAndIndexLoop_level (k := 0) (j := h) (by have := hv.le; omega)
    norm_num at hloop
    exact ⟨h + 1, hloop⟩

/-- When the tree's index functions do what they are for: the place of a node is right for one node
only, two nodes share their place unless their levels differ (and the last two levels share it
always), the place lies inside the tree except for the last level, and only the first node of
a level is found again, while the search for any other never ends. No node has a right place of its
own. -/
theorem bptree_indexing_iff (hv : ValidPlace h lo) :
    (getBptreeEntryHeapOffset h lo = levelStart h + lo ↔ h = 11 ∧ lo = 0) ∧
    (∀ h' lo', ValidPlace h' lo' → (getBptreeEntryHeapOffset h lo ≠
      getBptreeEntryHeapOffset h' lo' ↔ min h 10 ≠ min h' 10)) ∧
    (∀ levels, h < levels → (getBptreeEntryHeapOffset h lo < allocHeapSize levels ↔
      h + 1 < levels ∨ h = 11)) ∧
    ((∃ fuel r, getBptreeEntryHeightAndIndex fuel (levelStart h + lo) = some r) ↔ lo = 0) ∧
    ((∃ fuel, getBptreeEntryHeightAndIndex fuel (levelStart h + lo) = some (h, lo)) ↔ lo = 0) ∧
    ¬(getBptreeEntryHeapOffset h lo = levelStart h + lo ∧ ∀ h' lo', ValidPlace h' lo' →
      (h', lo') ≠ (h, lo) → getBptreeEntryHeapOffset h' lo' ≠ getBptreeEntryHeapOffset h lo) := by
  refine ⟨heapOffset_right_iff hv, fun _ _ _ => heapOffset_distinct_iff,
    fun _ hl => heapOffset_lt_iff hv hl, heightAndIndex_ends_iff hv, heightAndIndex_right_iff hv, ?_⟩
  rintro ⟨hright, hdistinct⟩
  obtain ⟨rfl, rfl⟩ := (heapOffset_right_iff hv).mp hright
  exact hdistinct 10 0 ⟨by norm_num, by decide⟩ (by decide) (by decide)

/-- The second node of the second level. -/
theorem bptree_indexing_second : getBptreeEntryHeapOffset 1 1 ≠ levelStart 1 + 1 ∧
    ¬∃ fuel, getBptreeEntryHeightAndIndex fuel (levelStart 1 + 1) = some (1, 1) := by
  obtain ⟨hright, -, -, -, hfound, -⟩ := @bptree_indexing_iff 1 1 ⟨by norm_num, by decide⟩
  exact ⟨fun he => absurd (hright.mp he).1 (by norm_num), fun hf => absurd (hfound.mp hf) (by norm_num)⟩

/-- It is put where the first node of the third level belongs. -/
theorem heapOffset_wrong : 1 < 8 ^ 1 ∧ levelStart 1 + 1 < 2 ^ 32 ∧
    getBptreeEntryHeapOffset 1 1 ≠ levelStart 1 + 1 := by decide

end Proofs

end Exfat
