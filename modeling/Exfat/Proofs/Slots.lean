import Exfat.Proofs.Lookup

namespace Exfat
open Lib

/-! The slots of a directory: the search of `find_slot` ends at entries that no child occupies. -/

/-- The first entry of a node's set. -/
def Node.slot (n : Node) : Nat := n.entryOffset / entrySize

/-- The entry after the last one of a node's set. -/
def Node.slotEnd (n : Node) : Nat := n.slot + 1 + n.continuations

namespace Proofs

variable {w v : World} {kids : NodeId → List NodeId} {dir : NodeId} {dmap : Nat → Bool}
  {total n : Nat}

theorem getNodes_spec {E : Halt → Prop} {ids : List NodeId}
    (h : ∀ i ∈ ids, ∃ m, w.nodes i = some m) :
    Wp E (getNodes ids) w fun l v => l = ids.filterMap w.nodes ∧ w = v := by
  induction ids with
  | nil => exact ⟨rfl, rfl⟩
  | cons i is ih =>
    obtain ⟨m, hm⟩ := h i (by simp)
    simp only [getNodes, wp_bind, wp_getNode hm]
    apply (ih fun j hj => h j (by simp [hj])).mono
    rintro _ _ ⟨rfl, rfl⟩
    exact ⟨by simp [hm], rfl⟩

variable [Env]

/-- `check_slot` inside the directory: the slot is free, occupied, or cannot be read. -/
theorem checkSlot_calm {off : Nat} (hn : 0 < n)
    (hr : dir = w.root → ∃ m, w.nodes dir = some m ∧ off + entrySize * n ≤ m.size) :
    Wp (fun _ => True) (checkSlot dir off n) w fun rc v => Calm w v ∧
      (rc = .ok ∨ rc = .err .eio ∨ rc = .err .einval) := by
  simp only [checkSlot, wp_bind, wp_get]
  split
  · exact ⟨.refl w, Or.inl rfl⟩
  · rename_i hd
    obtain ⟨m, hm, hin⟩ := hr (not_not.mp hd)
    simp only [wp_bind]
    apply (readEntries_calm dir n off).mono
    rintro r v ⟨hv, -, he⟩
    cases r with
    | error e => exact ⟨hv, Or.inr (Or.inl (by rw [he e m rfl hm hn hin]))⟩
    | ok entries =>
      dsimp only
      split
      · exact ⟨hv, Or.inr (Or.inr rfl)⟩
      · exact ⟨hv, Or.inl rfl⟩

/-- What the search loop of `find_slot` returns. -/
def SearchOk (dmap : Nat → Bool) (total n : Nat) : Search → Prop
  | .found o => ∃ k, o = k * entrySize ∧ k + n ≤ total ∧ ∀ j, k ≤ j → j < k + n → dmap j = false
  | .failed _ => True
  | .exhausted c o => c ≤ total ∧ c ≤ n ∧ (c ≠ 0 → o = (total - c) * entrySize) ∧
      ∀ j, total - c ≤ j → j < total → dmap j = false

/-- The loop counts the free entries that end at the current one. -/
theorem slotLoop_spec {fuel i c off : Nat}
    (hr : dir = w.root → ∃ m, w.nodes dir = some m ∧ total * entrySize ≤ m.size)
    (hc : c < n) (hci : c ≤ i) (hit : i ≤ total) (ho : c ≠ 0 → off = (i - c) * entrySize)
    (hf : ∀ j, i - c ≤ j → j < i → dmap j = false) :
    Wp (fun _ => True) (slotLoop dir dmap total n fuel i c off) w fun r _ =>
      SearchOk dmap total n r := by
  induction fuel generalizing w i c off with
  | zero => trivial
  | succ fuel ih =>
    have hskip : ∀ {v o k}, Calm w v → k ≤ total →
        Wp (fun _ => True) (slotLoop dir dmap total n fuel k 0 o) v fun r _ =>
          SearchOk dmap total n r := by
      intro v o k hv hk
      refine ih (fun hd => ?_) (by omega) (by omega) hk (fun h0 => absurd rfl h0) (fun j _ _ => by omega)
      obtain ⟨m, hm, hs⟩ := hr (hd.trans hv.root)
      obtain ⟨m', hm', hsk⟩ := hv.node hm
      exact ⟨m', hm', by rw [skel_size hsk]; exact hs⟩
    unfold slotLoop
    split
    · obtain rfl : i = total := by omega
      exact ⟨hci, hc.le, ho, hf⟩
    · split
      · exact hskip (.refl w) (by omega)
      · rename_i hi hd
        have hoff : (if c = 0 then i * entrySize else off) = (i - c) * entrySize := by
          split
          · rename_i h0
            simp [h0]
          · rename_i h0
            exact ho h0
        have hfree : ∀ j, i - c ≤ j → j < i + 1 → dmap j = false := by
          intro j h1 h2
          by_cases hj : j = i
          · subst hj
            simpa using hd
          · exact hf j h1 (by omega)
        dsimp only
        rw [hoff]
        split
        · rename_i hcn
          simp only [wp_bind]
          have hslot : dir = w.root → ∃ m, w.nodes dir = some m ∧
              (i - c) * entrySize + entrySize * n ≤ m.size := by
            intro hd
            obtain ⟨m, hm, hs⟩ := hr hd
            refine ⟨m, hm, ?_⟩
            simp only [entrySize] at hs ⊢
            omega
          apply (checkSlot_calm (by omega) hslot).mono
          rintro rc v ⟨hv, rfl | rfl | rfl⟩
          · exact ⟨i - c, rfl, by omega, fun j h1 h2 => hfree j h1 (by omega)⟩
          · trivial
          · exact hskip hv (by omega)
        · rename_i hcn
          exact ih hr (by omega) (by omega) (by omega)
            (fun _ => by rw [Nat.add_sub_add_right]) (fun j h1 h2 => hfree j (by omega) h2)

omit [Env] in
/-- A directory resized to the size it has. -/
theorem Calm.resized_same {m : Node} (h : Calm w v) (hd : w.nodes dir = some m) :
    Resized dir m.size w v := by
  refine ⟨fun i => (h.skel i).trans ?_, h.fresh, h.root, h.upcase, h.sb⟩
  cases hi : w.nodes i with
  | none => rfl
  | some a =>
    rw [Option.map_some, Option.map_some]
    split
    · rename_i hid
      subst hid
      obtain rfl := Option.some.inj (hi.symm.trans hd)
      rfl
    · rfl

end Proofs

end Exfat
