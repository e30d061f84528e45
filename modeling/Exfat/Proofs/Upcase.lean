import Exfat.Model.Upcase

namespace Exfat

/-! The compressed form of the upper case table, and what `decompress_upcase` makes of it. -/

/-- A piece of a compressed table: units as they are, or a number of units that map to themselves. -/
inductive Segment where
  | literal (units : List Nat) (plain : 0xffff ∉ units)
  | run (count : Nat)

namespace Segment

def encode : Segment → List Nat
  | literal units _ => units
  | run count => [0xffff, count]

/-- What a segment says of the units it covers; `none` is "maps to itself". -/
def expand : Segment → List (Option Nat)
  | literal units _ => units.map some
  | run count => List.replicate count none

end Segment

/-- The compressed form of a table. -/
def encodeSegments (segments : List Segment) : List Nat := segments.flatMap Segment.encode

/-- What the segments say of the units of the table, from unit 0 on. -/
def expandSegments (segments : List Segment) : List (Option Nat) := segments.flatMap Segment.expand

namespace Proofs

variable {source output : List Nat} {f : Nat → Nat} {oi : Nat}

/-- The array holds the units of a table. -/
structure HoldsTable (output : List Nat) (f : Nat → Nat) : Prop where
  size : output.length = exfatUpcaseChars
  units : ∀ c < exfatUpcaseChars, output[c]? = some (f c)

theorem storeUnit_ok {ch : Nat} (h : oi < output.length) :
    storeUnit output oi ch = .ok (output.set oi ch) := if_pos h

theorem HoldsTable.store (h : HoldsTable output f) (oi ch : Nat) :
    HoldsTable (output.set oi ch) fun c => if c = oi then ch else f c := by
  refine ⟨by rw [List.length_set, h.size], fun c hc => ?_⟩
  by_cases hcoi : c = oi
  · subst hcoi
    rw [List.getElem?_set_self (by rw [h.size]; exact hc), if_pos rfl]
  · rw [List.getElem?_set_ne (Ne.symm hcoi), if_neg hcoi, h.units c hc]

/-- The first loop fills the array without leaving it. -/
theorem identityUnits_fills {n : Nat} (hlen : output.length = exfatUpcaseChars)
    (hn : oi + n = exfatUpcaseChars) (hbelow : ∀ c < oi, output[c]? = some c) :
    ∃ out, identityUnits n oi output = .ok out ∧ HoldsTable out id := by
  induction n generalizing oi output with
  | zero =>
    have hoi : oi = exfatUpcaseChars := hn
    exact ⟨output, rfl, hlen, fun c hc => hbelow c (hoi ▸ hc)⟩
  | succ n ih =>
    have hoi : oi < output.length := by omega
    have hlen' : (output.set oi oi).length = exfatUpcaseChars := by rw [List.length_set, hlen]
    have hbelow' : ∀ c < oi + 1, (output.set oi oi)[c]? = some c := by
      intro c hc
      by_cases hcoi : c = oi
      · subst hcoi
        exact List.getElem?_set_self hoi
      · rw [List.getElem?_set_ne (Ne.symm hcoi)]
        exact hbelow c (by omega)
    obtain ⟨out, hrun, hout⟩ := ih hlen' (by omega) hbelow'
    refine ⟨out, ?_, hout⟩
    rw [identityUnits, storeUnit_ok hoi]
    exact hrun

theorem decompressLoop_full (h : exfatUpcaseChars ≤ oi) : decompressLoop source oi f = f := by
  have hoi := Nat.not_lt.mpr h
  cases source with
  | nil => rfl
  | cons ch rest =>
    cases rest with
    | nil => exact if_neg hoi
    | cons run rest => exact if_neg hoi

theorem decompressLoop_unit {ch : Nat} (h : oi < exfatUpcaseChars)
    (hch : ¬(ch = 0xffff ∧ source ≠ [])) :
    decompressLoop (ch :: source) oi f =
      decompressLoop source (oi + 1) fun c => if c = oi then ch else f c := by
  cases source with
  | nil => exact if_pos h
  | cons run rest =>
    have hplain : ch ≠ 0xffff := fun he => hch ⟨he, List.cons_ne_nil _ _⟩
    rw [decompressLoop, if_pos h, if_neg hplain]

theorem decompressLoop_run {run : Nat} (h : oi < exfatUpcaseChars) :
    decompressLoop (0xffff :: run :: source) oi f = decompressLoop source (oi + run) f := by
  rw [decompressLoop, if_pos h, if_pos rfl]

theorem loadUnit_drop {si : Nat} (h : si < source.length) :
    ∃ ch, loadUnit source si = .ok ch ∧ source.drop si = ch :: source.drop (si + 1) := by
  refine ⟨source.getD si 0, if_pos h, ?_⟩
  rw [List.drop_eq_getElem_cons h, List.getD_eq_getElem _ _ h]

/-- The second loop stays inside of both arrays, and writes what the recursion over the source
says. -/
theorem decompressUnits_holds {fuel si : Nat} (hout : HoldsTable output f)
    (hfuel : source.length - si < fuel) :
    ∃ out, decompressUnits source fuel si oi output = .ok out ∧
      HoldsTable out (decompressLoop (source.drop si) oi f) := by
  induction fuel generalizing si oi output f with
  | zero => omega
  | succ fuel ih =>
    rw [decompressUnits]
    by_cases hloop : si < source.length ∧ oi < exfatUpcaseChars
    · obtain ⟨hsi, hoi⟩ := hloop
      obtain ⟨ch, hload, hdrop⟩ := loadUnit_drop hsi
      rw [if_pos ⟨hsi, hoi⟩, hload, hdrop]
      by_cases hrun : ch = 0xffff ∧ si + 1 < source.length
      · obtain ⟨rfl, hnext⟩ := hrun
        obtain ⟨run, hload', hdrop'⟩ := loadUnit_drop hnext
        obtain ⟨out, hok, hholds⟩ := @ih output f (oi + run) (si + 2) hout (by omega)
        refine ⟨out, ?_, ?_⟩
        · simp only [bind, Except.bind, hnext, and_self, if_true, hload', hok]
        · rw [hdrop', decompressLoop_run hoi]
          exact hholds
      · have hstore := @storeUnit_ok output oi ch (hout.size ▸ hoi)
        obtain ⟨out, hok, hholds⟩ :=
          @ih _ _ (oi + 1) (si + 1) (hout.store oi ch) (by omega)
        refine ⟨out, ?_, ?_⟩
        · simp only [bind, Except.bind, hrun, if_false, hstore, hok]
        · rw [decompressLoop_unit hoi]
          · exact hholds
          · rintro ⟨he, hne⟩
            exact hrun ⟨he, by simpa using hne⟩
    · rw [if_neg hloop]
      refine ⟨output, rfl, ?_⟩
      by_cases hsi : si < source.length
      · have hoi : exfatUpcaseChars ≤ oi := Nat.not_lt.mp fun h => hloop ⟨hsi, h⟩
        rw [decompressLoop_full hoi]
        exact hout
      · rw [List.drop_of_length_le (Nat.not_lt.mp hsi)]
        exact hout

/-- On whatever array of units, the decompression returns: it accesses no unit outside of its two
arrays. -/
theorem decompressUpcaseInto_holds (hlen : output.length = exfatUpcaseChars) (source : List Nat) :
    ∃ out, decompressUpcaseInto output source = .ok out ∧ HoldsTable out (decompressUpcase source) := by
  obtain ⟨first, hfirst, hid⟩ := @identityUnits_fills output 0 _ hlen (Nat.zero_add _) (by simp)
  obtain ⟨out, hok, hout⟩ :=
    @decompressUnits_holds source first id 0 (source.length + 1) 0 hid (Nat.lt_succ_self _)
  refine ⟨out, ?_, hout⟩
  rw [decompressUpcaseInto, hfirst]
  exact hok

/-- What a list of covered units says of unit `c`, when it starts at unit `oi`. -/
def covered (items : List (Option Nat)) (oi : Nat) (f : Nat → Nat) (c : Nat) : Nat :=
  if c < oi then f c else (items.getD (c - oi) none).getD (f c)

theorem covered_nil (c : Nat) : covered [] oi f c = f c := by
  simp [covered]

theorem covered_full {items : List (Option Nat)} {c : Nat} (h : c < oi) :
    covered items oi f c = f c := if_pos h

theorem covered_literal {ch : Nat} {items : List (Option Nat)} (c : Nat) :
    covered (some ch :: items) oi f c =
      covered items (oi + 1) (fun c => if c = oi then ch else f c) c := by
  rcases Nat.lt_trichotomy c oi with hlt | rfl | hgt
  · rw [covered_full hlt, covered_full (Nat.lt_succ_of_lt hlt), if_neg (Nat.ne_of_lt hlt)]
  · rw [covered_full (Nat.lt_succ_self c), if_pos rfl, covered, if_neg (Nat.lt_irrefl c),
      Nat.sub_self]
    rfl
  · obtain ⟨k, rfl⟩ := Nat.exists_eq_add_of_lt hgt
    have hleft : oi + k + 1 - oi = k + 1 := by omega
    have hright : oi + k + 1 - (oi + 1) = k := by omega
    rw [covered, covered, if_neg (by omega), if_neg (by omega), hleft, hright, if_neg (by omega),
      List.getD_cons_succ]

theorem covered_run {count : Nat} {items : List (Option Nat)} (c : Nat) :
    covered (List.replicate count none ++ items) oi f c = covered items (oi + count) f c := by
  by_cases hlt : c < oi
  · rw [covered_full hlt, covered_full (by omega)]
  · rw [covered, if_neg hlt]
    by_cases hin : c < oi + count
    · have hnone : (List.replicate count (none : Option Nat)).getD (c - oi) none = none := by simp
      rw [covered_full hin, List.getD_append _ _ _ _ (by rw [List.length_replicate]; omega), hnone]
      rfl
    · rw [covered, if_neg hin, List.getD_append_right _ _ _ _ (by rw [List.length_replicate]; omega),
        List.length_replicate, Nat.sub_add_eq]

/-- A literal piece writes its units, as far as the table goes. -/
theorem decompressLoop_literal {units : List Nat} (plain : 0xffff ∉ units) {c : Nat}
    (hc : c < exfatUpcaseChars) {items : List (Option Nat)}
    (hrest : ∀ oi f, decompressLoop source oi f c = covered items oi f c) :
    decompressLoop (units ++ source) oi f c = covered (units.map some ++ items) oi f c := by
  induction units generalizing oi f with
  | nil => exact hrest oi f
  | cons ch units ih =>
    obtain ⟨hch, hunits⟩ := not_or.mp (List.mem_cons.not.mp plain)
    rw [List.map_cons, List.cons_append, List.cons_append]
    by_cases hoi : oi < exfatUpcaseChars
    · rw [decompressLoop_unit hoi fun h => hch h.1.symm, ih hunits, covered_literal]
    · rw [decompressLoop_full (Nat.not_lt.mp hoi), covered_full (by omega)]

/-- The table of a compressed form, whatever unit the output has reached. -/
theorem decompressLoop_segments (segments : List Segment) {c : Nat} (hc : c < exfatUpcaseChars)
    (oi : Nat) (f : Nat → Nat) :
    decompressLoop (encodeSegments segments) oi f c = covered (expandSegments segments) oi f c := by
  induction segments generalizing oi f with
  | nil => exact (covered_nil c).symm
  | cons segment segments ih =>
    rw [encodeSegments, expandSegments, List.flatMap_cons, List.flatMap_cons]
    cases segment with
    | literal units plain => exact decompressLoop_literal plain hc ih
    | run count =>
      rw [Segment.encode, Segment.expand, covered_run]
      by_cases hoi : oi < exfatUpcaseChars
      · exact (congrFun (decompressLoop_run hoi) c).trans (ih (oi + count) f)
      · rw [decompressLoop_full (Nat.not_lt.mp hoi), covered_full (by omega)]

/-- `decompress_upcase` never leaves its arrays, and of a compressed form it makes the table that the
form says. -/
theorem decompressUpcase_format (output : List Nat) (hlen : output.length = exfatUpcaseChars) :
    (∀ source, ∃ out, decompressUpcaseInto output source = .ok out ∧
      out.length = exfatUpcaseChars ∧
      ∀ c < exfatUpcaseChars, out[c]? = some (decompressUpcase source c)) ∧
    (∀ segments, ∃ out, decompressUpcaseInto output (encodeSegments segments) = .ok out ∧
      out.length = exfatUpcaseChars ∧
      ∀ c < exfatUpcaseChars,
        out[c]? = some (((expandSegments segments).getD c none).getD c)) := by
  constructor
  · intro source
    obtain ⟨out, hok, hout⟩ := decompressUpcaseInto_holds hlen source
    exact ⟨out, hok, hout.size, hout.units⟩
  · intro segments
    obtain ⟨out, hok, hout⟩ := decompressUpcaseInto_holds hlen (encodeSegments segments)
    refine ⟨out, hok, hout.size, fun c hc => ?_⟩
    rw [hout.units c hc, decompressUpcase, decompressLoop_segments segments hc]
    rfl

/-- A literal, a run, a literal, and a marker that nothing follows. -/
theorem decompressUpcase_format_marker :
    ∃ out, decompressUpcaseInto (List.replicate exfatUpcaseChars 0)
        [0x41, 0xffff, 0x60, 0x42, 0xffff] = .ok out ∧
      out[0x60]? = some 0x60 ∧ out[0x61]? = some 0x42 ∧ out[0x62]? = some 0xffff := by
  obtain ⟨out, hok, -, hunits⟩ := (decompressUpcase_format (List.replicate exfatUpcaseChars 0)
    List.length_replicate).1 [0x41, 0xffff, 0x60, 0x42, 0xffff]
  refine ⟨out, hok, ?_, ?_, ?_⟩
  · exact (hunits 0x60 (by decide)).trans (congrArg some (by decide))
  · exact (hunits 0x61 (by decide)).trans (congrArg some (by decide))
  · exact (hunits 0x62 (by decide)).trans (congrArg some (by decide))

end Proofs
end Exfat
