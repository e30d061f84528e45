import Exfat.Proofs.Shrink

namespace Exfat
open Lib

/-! Allocation: `allocate_cluster` takes the first free cluster from a hint on. -/

namespace Proofs

/-- Bits that are clear among the first `count`. -/
def freeSet (bits : Nat → Bool) (count : Nat) : Finset Nat :=
  (Finset.range count).filter fun i => bits i = false

/-- The bit that first fit from `start` on finds: the first clear one from `start` on, or the first
clear one of all. -/
structure FirstFit (bits : Nat → Bool) (count start i : Nat) : Prop where
  lt : i < count
  clear : bits i = false
  first : (start ≤ i ∧ ∀ j, start ≤ j → j < i → bits j = true) ∨
    (i < start ∧ (∀ j, start ≤ j → j < count → bits j = true) ∧ ∀ j, j < i → bits j = true)

variable {E : Halt → Prop} {w : World} {bits : Nat → Bool} {start stop : Nat}

theorem mem_freeSet {count i : Nat} : i ∈ freeSet bits count ↔ i < count ∧ bits i = false := by
  simp [freeSet]

theorem freeSet_bmapSet {count i : Nat} : freeSet (bmapSet bits i) count =
    (freeSet bits count).erase i := by
  ext j
  rw [Finset.mem_erase, mem_freeSet, mem_freeSet]
  by_cases hj : j = i <;> simp [bmapSet, hj]

theorem findBit_some {n c x : Nat} (h : findBit bits n c = some x) :
    c ≤ x ∧ x < c + n ∧ bits x = false ∧ ∀ j, c ≤ j → j < x → bits j = true := by
  induction n generalizing c with
  | zero => simp [findBit] at h
  | succ n ih =>
    rw [findBit] at h
    split at h
    · rename_i hc
      obtain ⟨h1, h2, h3, h4⟩ := ih h
      refine ⟨by omega, by omega, h3, fun j hj hx => ?_⟩
      rcases Nat.lt_or_eq_of_le hj with hlt | rfl
      · exact h4 j hlt hx
      · exact hc
    · rename_i hc
      obtain rfl := Option.some.inj h
      exact ⟨Nat.le_refl _, by omega, by simpa using hc, fun j h1 h2 => by omega⟩

theorem findBit_none {n c : Nat} (h : findBit bits n c = none) :
    ∀ j, c ≤ j → j < c + n → bits j = true := by
  induction n generalizing c with
  | zero => intro j h1 h2; omega
  | succ n ih =>
    rw [findBit] at h
    split at h
    · rename_i hc
      intro j h1 h2
      rcases Nat.lt_or_eq_of_le h1 with hlt | rfl
      · exact ih h j hlt (by omega)
      · exact hc
    · cases h

theorem wordFull_spec {i : Nat} (h : wordFull bits i = true) :
    ∀ j, i * 64 ≤ j → j < (i + 1) * 64 → bits j = true := by
  intro j h1 h2
  have := List.all_eq_true.mp h (j - i * 64) (List.mem_range.mpr (by simp only [bitmapBits]; omega))
  simpa [show i * 64 + (j - i * 64) = j by omega] using this

theorem findWord_some {n i c : Nat} (h : findWord bits start stop n i = some c) :
    start ≤ c ∧ c < stop ∧ bits c = false ∧
      ∀ j, start ≤ j → i * 64 ≤ j → j < c → bits j = true := by
  induction n generalizing i with
  | zero => simp [findWord] at h
  | succ n ih =>
    simp only [findWord, bitmapBits] at h
    -- everything before the next word is set
    have hnext : (∀ j, start ≤ j → i * 64 ≤ j → j < (i + 1) * 64 → j < stop → bits j = true) →
        findWord bits start stop n (i + 1) = some c → start ≤ c ∧ c < stop ∧ bits c = false ∧
          ∀ j, start ≤ j → i * 64 ≤ j → j < c → bits j = true := by
      intro hset hrest
      obtain ⟨h1, h2, h3, h4⟩ := ih hrest
      refine ⟨h1, h2, h3, fun j hs hi hc => ?_⟩
      by_cases hj : j < (i + 1) * 64
      · exact hset j hs hi hj (by omega)
      · exact h4 j hs (Nat.le_of_not_lt hj) hc
    split at h
    · rename_i hfull
      exact hnext (fun j _ h1 h2 _ => wordFull_spec hfull j h1 h2) h
    · split at h
      · rename_i x hx
        obtain rfl := Option.some.inj h
        obtain ⟨h1, h2, h3, h4⟩ := findBit_some hx
        exact ⟨by omega, by omega, h3, fun j hs hi hc => h4 j (by omega) hc⟩
      · rename_i hx
        refine hnext (fun j hs h1 h2 hstop => findBit_none hx j (by omega) ?_) h
        omega

theorem findWord_none {n i : Nat} (h : findWord bits start stop n i = none) :
    ∀ j, start ≤ j → i * 64 ≤ j → j < stop → j < (i + n) * 64 → bits j = true := by
  induction n generalizing i with
  | zero => intro j _ h1 _ h2; omega
  | succ n ih =>
    simp only [findWord, bitmapBits] at h
    intro j hs hi hstop hn
    split at h
    · rename_i hfull
      by_cases hj : j < (i + 1) * 64
      · exact wordFull_spec hfull j hi hj
      · exact ih h j hs (Nat.le_of_not_lt hj) hstop (by omega)
    · split at h
      · cases h
      · rename_i hx
        by_cases hj : j < (i + 1) * 64
        · exact findBit_none hx j (by omega) (by omega)
        · exact ih h j hs (Nat.le_of_not_lt hj) hstop (by omega)

/-- `find_bit_and_set` takes the first clear bit of its range. -/
theorem findBitAndSet_spec (hstop : stop + 2 < 2 ^ 32) :
    (∃ i, start ≤ i ∧ i < stop ∧ bits i = false ∧ (∀ j, start ≤ j → j < i → bits j = true) ∧
      findBitAndSet bits start stop = (i + 2, bmapSet bits i)) ∨
    ((∀ j, start ≤ j → j < stop → bits j = true) ∧
      findBitAndSet bits start stop = (exfatClusterEnd, bits)) := by
  simp only [findBitAndSet, bitmapBits]
  have hcover := le_divRoundUp_mul stop (d := 64) (by decide)
  have hlow := Nat.div_mul_le_self start 64
  cases h : findWord bits start stop (divRoundUp stop 64 - start / 64) (start / 64) with
  | some i =>
    obtain ⟨h1, h2, h3, h4⟩ := findWord_some h
    refine Or.inl ⟨i, h1, h2, h3, fun j hs hi => h4 j hs (by omega) hi, ?_⟩
    simp only [exfatFirstDataCluster, Prod.mk.injEq, and_true]
    omega
  | none =>
    refine Or.inr ⟨fun j hs hj => findWord_none h j hs (by omega) hj ?_, rfl⟩
    by_cases hle : start / 64 ≤ divRoundUp stop 64
    · rw [Nat.add_sub_cancel' hle]
      omega
    · have := Nat.mul_le_mul_right 64 (Nat.le_of_lt (Nat.lt_of_not_le hle))
      omega

/-- The world after `allocate_cluster` took a cluster. -/
def World.took (w : World) (bits : Nat → Bool) (c : Nat) : World :=
  w.withCmap { w.cmap with chunk := some (bmapSet bits (c - 2)), dirty := true }

/-- Where the search for a cluster starts. -/
def hintIndex (w : World) (hint : Nat) : Nat :=
  if (hint + 2 ^ 32 - 2) % 2 ^ 32 ≥ w.sb.clusterCount then 0 else (hint + 2 ^ 32 - 2) % 2 ^ 32

/-- Where `allocate_cluster` starts in a bitmap of a given size. -/
def firstIndex (size hint : Nat) : Nat :=
  if (hint + 2 ^ 32 - 2) % 2 ^ 32 < size then (hint + 2 ^ 32 - 2) % 2 ^ 32 else 0

theorem hintIndex_eq (w : World) (hint : Nat) :
    hintIndex w hint = firstIndex w.sb.clusterCount hint := by
  unfold hintIndex firstIndex
  split <;> split <;> omega

/-- `allocate_cluster` on a bitmap with at least one clear bit, and on a full one. -/
theorem allocateCluster_run (hc : w.cmap.chunk = some bits) (hend : w.cmap.chunkSize + 2 < 2 ^ 32)
    (hint : Nat) :
    Wp E (allocateCluster hint) w fun c v =>
      (∃ i, c = i + 2 ∧ FirstFit bits w.cmap.chunkSize (firstIndex w.cmap.chunkSize hint) i ∧
        v = World.took w bits c) ∨
      ((∀ i < w.cmap.chunkSize, bits i = true) ∧ c = exfatClusterEnd ∧
        v = w.erred (w.errors + 1)) := by
  have hlt : firstIndex w.cmap.chunkSize hint ≤ w.cmap.chunkSize := by
    rw [firstIndex]
    split <;> omega
  have hcmap : ∀ b, w.withCmap { w.cmap with chunk := some bits, dirty := b } =
      w.withCmap { w.cmap with dirty := b } := by
    intro b
    rw [← hc]
  have hstart : (if (hint + 2 ^ 32 - exfatFirstDataCluster) % 2 ^ 32 ≥ w.cmap.chunkSize then 0
      else (hint + 2 ^ 32 - exfatFirstDataCluster) % 2 ^ 32) =
        firstIndex w.cmap.chunkSize hint := by
    unfold firstIndex
    split <;> split <;> simp only [exfatFirstDataCluster] at * <;> omega
  simp only [allocateCluster, wp_bind, wp_get, wp_getChunk hc]
  rw [hstart]
  obtain ⟨i, h1, h2, h3, h4, he⟩ | ⟨hall, he⟩ :=
    @findBitAndSet_spec bits (firstIndex w.cmap.chunkSize hint) w.cmap.chunkSize hend
  · have hne : ¬i + 2 = exfatClusterEnd := by
      simp only [exfatClusterEnd]
      omega
    simp only [he, if_neg hne, wp_bind, wp_setChunk, wp_pure]
    exact Or.inl ⟨i, rfl, ⟨h2, h3, Or.inl ⟨h1, h4⟩⟩, rfl⟩
  · simp only [he, if_true]
    obtain ⟨i, h1, h2, h3, h4, he2⟩ | ⟨hall2, he2⟩ := @findBitAndSet_spec bits 0
      (firstIndex w.cmap.chunkSize hint) (Nat.lt_of_le_of_lt (Nat.add_le_add_right hlt 2) hend)
    · have hne : ¬i + 2 = exfatClusterEnd := by
        simp only [exfatClusterEnd]
        omega
      simp only [he2, if_neg hne, wp_bind, wp_setChunk, wp_pure]
      exact Or.inl ⟨i, rfl, ⟨h2.trans_le hlt, h3,
        Or.inr ⟨h2, hall, fun j hj => h4 j (Nat.zero_le _) hj⟩⟩, rfl⟩
    · simp only [he2, if_true, wp_bind, wp_setChunk, wp_exfatError, wp_pure]
      refine Or.inr ⟨fun j hj => ?_, trivial, ?_⟩
      · by_cases hh : firstIndex w.cmap.chunkSize hint ≤ j
        · exact hall j hh hj
        · exact hall2 j (Nat.zero_le _) (Nat.lt_of_not_le hh)
      · rw [hcmap]
        rfl

/-- `allocate_cluster` takes the first free cluster, if there is one. -/
theorem allocateCluster_spec (hm : Mapped w bits) (hend : w.sb.clusterCount + 2 < 2 ^ 32)
    (hint : Nat) :
    Wp E (allocateCluster hint) w fun c v =>
      (∃ i, c = i + 2 ∧ FirstFit bits w.sb.clusterCount (hintIndex w hint) i ∧
        v = World.took w bits c) ∨
      (freeSet bits w.sb.clusterCount = ∅ ∧ c = exfatClusterEnd ∧
        v = w.erred (w.errors + 1)) := by
  rw [hintIndex_eq, ← hm.chunkSize]
  refine (allocateCluster_run hm.chunk (by rwa [hm.chunkSize]) hint).mono fun c v h => ?_
  rcases h with h | ⟨hall, hc, hv⟩
  · exact .inl h
  · refine .inr ⟨?_, hc, hv⟩
    rw [freeSet, Finset.filter_eq_empty_iff]
    intro i hi
    rw [hall i (Finset.mem_range.mp hi)]
    exact Bool.noConfusion

/-- `allocate_cluster` takes the first clear bit from the hint on, or else the first of all, and
sets no other bit; it fails when every bit is set, and leaves the bitmap as it is then. -/
theorem allocateCluster_firstFit (hc : w.cmap.chunk = some bits)
    (hsize : w.cmap.chunkSize ≤ exfatLastDataCluster - 1) (hint : Nat) :
    ∃ c v, allocateCluster hint w = .ok (c, v) ∧
      (c = exfatClusterEnd ↔ ∀ i < w.cmap.chunkSize, bits i = true) ∧
      (c = exfatClusterEnd → v = w.erred (w.errors + 1)) ∧
      (c ≠ exfatClusterEnd → ∃ i,
        FirstFit bits w.cmap.chunkSize (firstIndex w.cmap.chunkSize hint) i ∧ c = i + 2 ∧
        v = w.withCmap { w.cmap with chunk := some (bmapSet bits i), dirty := true }) := by
  simp only [exfatLastDataCluster] at hsize
  obtain ⟨c, v, hrun, h⟩ := (allocateCluster_run (E := fun _ => False) hc (by omega) hint).returns
  refine ⟨c, v, hrun, ?_⟩
  rcases h with ⟨i, rfl, hfit, rfl⟩ | ⟨hall, rfl, rfl⟩
  · have hne : i + 2 ≠ exfatClusterEnd := by
      have := hfit.lt
      simp only [exfatClusterEnd]
      omega
    refine ⟨⟨fun he => absurd he hne, fun hall => ?_⟩, fun he => absurd he hne, fun _ => ?_⟩
    · have := hall i hfit.lt
      rw [hfit.clear] at this
      cases this
    · exact ⟨i, hfit, rfl, rfl⟩
  · exact ⟨⟨fun _ => hall, fun _ => rfl⟩, fun _ => rfl, fun hne => absurd rfl hne⟩

/-- A bitmap of one word in which only a padding bit is clear. -/
theorem allocateCluster_firstFit_padding : ∃ c v,
    allocateCluster 2 { dev := fun _ => 0, cmap := { chunk := some (· < 3), chunkSize := 3 } } =
      .ok (c, v) ∧ c = exfatClusterEnd := by
  obtain ⟨c, v, hrun, hfull, -⟩ := @allocateCluster_firstFit
    { dev := fun _ => 0, cmap := { chunk := some (· < 3), chunkSize := 3 } } (· < 3) rfl
    (by decide) 2
  exact ⟨c, v, hrun, hfull.mpr fun i hi => decide_eq_true hi⟩

theorem Mapped.took {c : Nat} (hm : Mapped w bits) :
    Mapped (World.took w bits c) (bmapSet bits (c - 2)) :=
  ⟨hm.cluster, hm.count, hm.size, hm.chunkSize, rfl⟩

theorem FirstFit.card {count i : Nat} (h : FirstFit bits count start i) :
    (freeSet (bmapSet bits i) count).card + 1 = (freeSet bits count).card := by
  rw [freeSet_bmapSet]
  exact Finset.card_erase_add_one (mem_freeSet.mpr ⟨h.lt, h.clear⟩)

end Proofs

end Exfat
