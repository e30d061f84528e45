import Exfat.Lib.Bytes

namespace Exfat.Lib

/-! Pieces laid one behind the other, each where its alignment allows it. -/

variable {α : Type}

/-- The places of pieces from `x` on: `up` is the first place allowed for a piece. -/
def place (up : α → Nat → Nat) (size : α → Nat) : List α → Nat → List (α × Nat)
  | [], _ => []
  | a :: as, x => (a, up a x) :: place up size as (up a x + size a)

/-- Where the last piece ends. -/
def placeEnd (up : α → Nat → Nat) (size : α → Nat) : List α → Nat → Nat
  | [], x => x
  | a :: as, x => placeEnd up size as (up a x + size a)

variable {up : α → Nat → Nat} {size : α → Nat} {as : List α} {x : Nat} {s : α × Nat}

theorem le_placeEnd (hup : ∀ a x, x ≤ up a x) : x ≤ placeEnd up size as x := by
  induction as generalizing x with
  | nil => exact le_rfl
  | cons a as ih => exact ((hup a x).trans (Nat.le_add_right _ _)).trans ih

/-- Every piece lies between the start and the end. -/
theorem place_inside (hup : ∀ a x, x ≤ up a x) (hs : s ∈ place up size as x) :
    x ≤ s.2 ∧ s.2 + size s.1 ≤ placeEnd up size as x := by
  induction as generalizing x with
  | nil => exact absurd hs List.not_mem_nil
  | cons a as ih =>
    rcases List.mem_cons.mp hs with rfl | hs
    · exact ⟨hup a x, le_placeEnd hup⟩
    · obtain ⟨h1, h2⟩ := ih hs
      exact ⟨((hup a x).trans (Nat.le_add_right _ _)).trans h1, h2⟩

/-- A piece ends before every later one starts. -/
theorem place_ordered (hup : ∀ a x, x ≤ up a x) :
    (place up size as x).Pairwise fun s t => s.2 + size s.1 ≤ t.2 := by
  induction as generalizing x with
  | nil => exact .nil
  | cons a as ih =>
    refine List.pairwise_cons.mpr ⟨fun t ht => ?_, ih⟩
    exact (place_inside hup ht).1

namespace Store

variable {d : Store} {ws : List (Nat × List UInt8)} {i : Nat}

/-- Writes one after the other. -/
def writeAll (d : Store) (ws : List (Nat × List UInt8)) : Store :=
  ws.foldl (fun e w => e.write w.1 w.2) d

theorem write_nil (d : Store) (off : Nat) : d.write off [] = d :=
  funext fun _ => d.write_out (by simp; omega)

/-- Writes that begin behind a byte leave it alone. -/
theorem writeAll_before (h : ∀ w ∈ ws, i < w.1) : d.writeAll ws i = d i := by
  induction ws generalizing d with
  | nil => rfl
  | cons w ws ih =>
    exact (ih fun v hv => h v (List.mem_cons_of_mem _ hv)).trans
      (d.write_out (.inl (h w List.mem_cons_self)))

/-- Writes beside a byte leave it alone. -/
theorem writeAll_out (h : ∀ w ∈ ws, i < w.1 ∨ w.1 + w.2.length ≤ i) : d.writeAll ws i = d i := by
  induction ws generalizing d with
  | nil => rfl
  | cons w ws ih =>
    exact (ih fun v hv => h v (List.mem_cons_of_mem _ hv)).trans
      (d.write_out (h w List.mem_cons_self))

/-- Of writes one behind the other each is there at the end. -/
theorem writeAll_in {w : Nat × List UInt8} (ho : ws.Pairwise fun u v => u.1 + u.2.length ≤ v.1)
    (hw : w ∈ ws) (h1 : w.1 ≤ i) (h2 : i < w.1 + w.2.length) :
    d.writeAll ws i = w.2.getD (i - w.1) 0 := by
  induction ws generalizing d with
  | nil => exact absurd hw List.not_mem_nil
  | cons u ws ih =>
    obtain ⟨hu, ho⟩ := List.pairwise_cons.mp ho
    rcases List.mem_cons.mp hw with rfl | hw
    · exact (writeAll_before fun v hv => h2.trans_le (hu v hv)).trans (d.write_in h1 h2)
    · exact ih ho hw

/-- Two writes next to each other are one. -/
theorem write_append (d : Store) (off : Nat) (as bs : List UInt8) :
    (d.write off as).write (off + as.length) bs = d.write off (as ++ bs) := by
  funext i
  simp only [write, List.length_append]
  by_cases h1 : off ≤ i ∧ i < off + as.length
  · rw [if_neg (by omega), if_pos h1, if_pos (by omega), List.getD_append _ _ _ _ (by omega)]
  · by_cases h2 : off + as.length ≤ i ∧ i < off + as.length + bs.length
    · rw [if_pos h2, if_pos (by omega), List.getD_append_right _ _ _ _ (by omega)]
      congr 1
      omega
    · rw [if_neg h2, if_neg h1, if_neg (by omega)]

end Store

end Exfat.Lib
