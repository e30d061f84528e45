import Mathlib.Data.List.Basic
import Mathlib.Data.List.Pairwise

namespace Exfat.Lib

variable {bit : Nat → Bool} {p stop a b c : Nat} {rs : List (Nat × Nat)} {r s : Nat × Nat}

/-- The maximal runs of set bits from `p` up to `stop`, in order, each with its first and its last
bit. -/
structure Runs (bit : Nat → Bool) (p stop : Nat) (rs : List (Nat × Nat)) : Prop where
  sorted : rs.Pairwise fun r s => r.2 + 1 < s.1
  inside : ∀ r ∈ rs, p ≤ r.1 ∧ r.1 ≤ r.2 ∧ r.2 < stop
  covers : ∀ c, p ≤ c → c < stop → (bit c = true ↔ ∃ r ∈ rs, r.1 ≤ c ∧ c ≤ r.2)

theorem runs_nil (h : ∀ c, p ≤ c → c < stop → bit c = false) : Runs bit p stop [] where
  sorted := List.Pairwise.nil
  inside := nofun
  covers c hp hs := by simp [h c hp hs]

theorem Runs.none (h : Runs bit p stop rs) (hp : stop ≤ p) : rs = [] := by
  cases rs with
  | nil => rfl
  | cons r rs =>
    obtain ⟨h1, h2, h3⟩ := h.inside r List.mem_cons_self
    omega

/-- The first run in front of the others. -/
theorem Runs.cons (h : Runs bit (b + 1) stop rs) (hpa : p ≤ a) (hab : a ≤ b) (hb : b < stop)
    (hfirst : ∀ c, p ≤ c → c < a → bit c = false) (hrun : ∀ c, a ≤ c → c ≤ b → bit c = true)
    (hend : b + 1 < stop → bit (b + 1) = false) : Runs bit p stop ((a, b) :: rs) where
  sorted := by
    refine List.pairwise_cons.mpr ⟨fun s hs => ?_, h.sorted⟩
    obtain ⟨h1, h2, h3⟩ := h.inside s hs
    by_contra hn
    obtain heq : s.1 = b + 1 := by omega
    have hbit := (h.covers s.1 h1 (by omega)).mpr ⟨s, hs, Nat.le_refl _, h2⟩
    rw [heq, hend (by omega)] at hbit
    exact absurd hbit Bool.false_ne_true
  inside := by
    intro r hr
    rcases List.mem_cons.mp hr with rfl | hr
    · exact ⟨hpa, hab, hb⟩
    · obtain ⟨h1, h2, h3⟩ := h.inside r hr
      exact ⟨by omega, h2, h3⟩
  covers := by
    intro c hp hs
    rcases Nat.lt_or_ge b c with hlt | hge
    · rw [h.covers c hlt hs]
      constructor
      · rintro ⟨r, hr, hc⟩
        exact ⟨r, List.mem_cons_of_mem _ hr, hc⟩
      · rintro ⟨r, hr, hc⟩
        rcases List.mem_cons.mp hr with rfl | hr
        · exact absurd hc.2 (by simpa using hlt)
        · exact ⟨r, hr, hc⟩
    · rcases Nat.lt_or_ge c a with hca | hac
      · rw [hfirst c hp hca]
        refine ⟨fun h => absurd h Bool.false_ne_true, ?_⟩
        rintro ⟨r, hr, hc⟩
        rcases List.mem_cons.mp hr with rfl | hr
        · exact absurd hc.1 (by simpa using hca)
        · have := (h.inside r hr).1
          omega
      · exact ⟨fun _ => ⟨(a, b), List.mem_cons_self, hac, hge⟩, fun _ => hrun c hac hge⟩

theorem Runs.isSet (h : Runs bit p stop rs) (hr : r ∈ rs) (h1 : r.1 ≤ c) (h2 : c ≤ r.2) :
    bit c = true := by
  obtain ⟨hp, -, hs⟩ := h.inside r hr
  exact (h.covers c (by omega) (by omega)).mpr ⟨r, hr, h1, h2⟩

/-- Of two runs one ends before the other begins. -/
theorem Runs.apart (h : Runs bit p stop rs) (hr : r ∈ rs) (hs : s ∈ rs) (hne : r ≠ s) :
    r.2 + 1 < s.1 ∨ s.2 + 1 < r.1 := by
  obtain ⟨i, hi, rfl⟩ := List.getElem_of_mem hr
  obtain ⟨j, hj, rfl⟩ := List.getElem_of_mem hs
  have hpair := List.pairwise_iff_getElem.mp h.sorted
  rcases Nat.lt_trichotomy i j with hij | rfl | hij
  · exact Or.inl (hpair i j hi hj hij)
  · exact absurd rfl hne
  · exact Or.inr (hpair j i hj hi hij)

/-- A run ends in front of a clear bit. -/
theorem Runs.after (h : Runs bit p stop rs) (hr : r ∈ rs) (hs : r.2 + 1 < stop) :
    bit (r.2 + 1) = false := by
  by_contra hbit
  obtain ⟨h1, h2, -⟩ := h.inside r hr
  obtain ⟨s, hs', hc⟩ := (h.covers _ (by omega) hs).mp (by simpa using hbit)
  rcases h.apart hr hs' (by rintro rfl; omega) with h3 | h3
  · omega
  · omega

end Exfat.Lib
