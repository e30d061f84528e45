import Exfat.Model.Restore
import Exfat.Proofs.Names
import Exfat.Proofs.Parse

namespace Exfat
open Lib

/-! The name that a restore assembles beside the name that the file system reads from the same
entries. -/

namespace Proofs

variable {set : List UInt8} {k : Nat}

/-- Unit `i` of the name entries of a set, which begin at its third entry. -/
def unitAt (set : List UInt8) (i : Nat) : Nat :=
  leAt set (entrySize * (2 + i / exfatEnameMax) + 2 + 2 * (i % exfatEnameMax)) 2

/-- Unit `i` of the name of a set; nothing but zeros behind the entries that its length asks for. -/
def nameUnit (set : List UInt8) (i : Nat) : Nat :=
  if i < exfatEnameMax * nameNeed set then unitAt set i else 0

/-- Unit `i` of the name entries behind the first one; nothing but zeros behind the last. -/
def laterUnit (set : List UInt8) (i : Nat) : Nat :=
  if entryType set (3 + i / exfatEnameMax) = exfatEntryFileName then unitAt set (exfatEnameMax + i)
  else 0

/-- The sets whose name a restore gives back: every unit of it, the terminator too, stands once more
one entry later, and its UTF-8 form fits into the buffer for a single name entry. -/
structure Restorable (set : List UInt8) : Prop where
  again : ∀ i, (∀ j < i, nameUnit set j ≠ 0) → laterUnit set i = nameUnit set i
  short : ∀ cs, ofUtf16 ((List.range (exfatEnameMax * nameNeed set)).map (unitAt set)) = some cs →
    (cs.flatMap toUtf8).length < exfatUtf8EnameBufferMax

/-- A restore and the file system agree on a name: no access is out of bounds, the units are the same
up to the terminator, and the conversion succeeds when `exfat_get_name` does. -/
def NameRestored (entry : NodeEntry) (name : List Nat) : Prop :=
  ∃ units, ∀ memory, ∃ res, processFileDirectoryEntry memory entry = .ok (some (units, res)) ∧
    units.takeWhile (· ≠ 0) = name.takeWhile (· ≠ 0) ∧
    ((∃ s, utf16ToUtf8 name exfatUtf8NameBufferMax exfatNameMax = .ok s) → ∃ s, res = .ok s)

theorem le16s_getD (n : Nat) (bs : List UInt8) {j : Nat} (h : j < n) :
    (le16s n bs).getD j 0 = leAt bs (2 * j) 2 := by
  induction n generalizing bs j with
  | zero => exact absurd h (Nat.not_lt_zero j)
  | succ n ih =>
    cases j with
    | zero => rfl
    | succ j =>
      rw [le16s, List.getD_cons_succ, ih _ (Nat.lt_of_succ_lt_succ h), leAt_drop]
      congr 1
      omega

/-- The units of entries in a row, one by one. -/
theorem units_eq_map (set : List UInt8) (n c : Nat) :
    ((List.range n).flatMap fun i => nameUnits set (2 + c + i)) =
      (List.range (exfatEnameMax * n)).map fun p => unitAt set (exfatEnameMax * c + p) := by
  induction n with
  | zero => rfl
  | succ n ih =>
    rw [List.range_succ, List.flatMap_append, ih, Nat.mul_succ, List.range_add, List.map_append,
      List.flatMap_singleton, List.map_map]
    congr 1
    apply List.ext_getElem
    · rw [nameUnits_length, List.length_map, List.length_range]
    · intro j h1 h2
      rw [nameUnits_length] at h1
      rw [← List.getD_eq_getElem _ 0 (by rw [nameUnits_length]; exact h1), nameUnits,
        le16s_getD _ _ h1, leAt_drop, List.getElem_map, List.getElem_range]
      have hd : (exfatEnameMax * c + (exfatEnameMax * n + j)) / exfatEnameMax = c + n := by
        rw [← Nat.add_assoc, ← Nat.mul_add, Nat.mul_add_div (by decide), Nat.div_eq_of_lt h1]
        rfl
      have hm : (exfatEnameMax * c + (exfatEnameMax * n + j)) % exfatEnameMax = j := by
        rw [← Nat.add_assoc, ← Nat.mul_add, Nat.mul_add_mod, Nat.mod_eq_of_lt h1]
      rw [Function.comp, unitAt, hd, hm, Nat.add_assoc 2 c n]

theorem map_range_getD (f : Nat → Nat) (n i : Nat) :
    ((List.range n).map f).getD i 0 = if i < n then f i else 0 := by
  by_cases h : i < n
  · rw [if_pos h, List.getD_eq_getElem _ _ (by simpa using h), List.getElem_map, List.getElem_range]
  · rw [if_neg h, List.getD_eq_default _ _ (by simpa using Nat.not_lt.mp h)]

theorem le16s_take {n m : Nat} (bs : List UInt8) (h : 2 * n ≤ m) :
    le16s n (bs.take m) = le16s n bs := by
  induction n generalizing bs m with
  | zero => rfl
  | succ n ih =>
    rw [le16s, le16s, List.take_take, Nat.min_eq_left (by omega), List.drop_take, ih _ (by omega)]

/-- One entry of a set, cut out. -/
theorem entry_cut (set : List UInt8) (i : Nat) :
    entryType ((set.drop (entrySize * i)).take entrySize) 0 = entryType set i ∧
      nameUnits ((set.drop (entrySize * i)).take entrySize) 0 = nameUnits set i := by
  constructor
  · simp [entryType, List.getD_eq_getElem?_getD]
  · rw [nameUnits, nameUnits, List.drop_take, List.drop_drop, le16s_take _ (by decide), Nat.mul_zero,
      Nat.zero_add]

section
variable {entry : NodeEntry} {rest : List UInt8}

theorem uContinuation_eq (he : entry.bytes = set ++ rest) (hl : set.length = entrySize * k)
    (hk : k ≤ 19) {c : Nat} (hc : 3 + c < k) :
    entry.uContinuation c = .ok ((set.drop (entrySize * (3 + c))).take entrySize) := by
  have hend : entrySize * (3 + c) + entrySize ≤ set.length := by
    rw [hl, ← Nat.mul_succ]
    exact Nat.mul_le_mul_left _ hc
  rw [NodeEntry.uContinuation, if_pos (by omega), he, List.drop_append_of_le_length (by omega),
    List.take_append_of_le_length (by rw [List.length_drop]; omega)]

/-- The loop gathers the units of the name entries among those it visits. -/
theorem assembleName_eq (he : entry.bytes = set ++ rest) (hl : set.length = entrySize * k)
    (hk : k ≤ 19) {n c : Nat} {fname : List Nat} (hc : 3 + (c + n) ≤ k)
    (hf : fname.length + exfatEnameMax * n ≤ exfatNameMax) :
    assembleName entry n c fname = .ok (fname ++ ((List.range' (3 + c) n).filter fun i =>
      entryType set i = exfatEntryFileName).flatMap (nameUnits set)) := by
  induction n generalizing c fname with
  | zero => simp [assembleName]
  | succ n ih =>
    obtain ⟨htype, hunits⟩ := entry_cut set (3 + c)
    rw [assembleName, uContinuation_eq he hl hk (by omega)]
    simp only [bind, Except.bind, htype, hunits]
    rw [List.range'_succ]
    split
    · rename_i hname
      have hroom : fname.length + (nameUnits set (3 + c)).length ≤ exfatNameMax := by
        rw [nameUnits_length]
        exact le_trans (by rw [Nat.mul_succ]; omega) hf
      rw [putUnits, if_pos hroom, List.filter_cons, if_pos (decide_eq_true hname), List.flatMap_cons,
        ← List.append_assoc]
      refine ih (by omega) ?_
      rw [List.length_append, nameUnits_length]
      rw [Nat.mul_succ] at hf
      omega
    · rename_i hname
      rw [List.filter_cons, if_neg fun hp => hname (of_decide_eq_true hp)]
      exact ih (by omega) (le_trans (by rw [Nat.mul_succ]; omega) hf)

theorem Typed.later {names : Nat} (h : Typed set k names) (hk : 3 ≤ k) :
    ((List.range' 3 (k - 3)).filter fun i => entryType set i = exfatEntryFileName).flatMap
        (nameUnits set) =
      (List.range (names - 1)).flatMap fun i => nameUnits set (2 + 1 + i) := by
  have hcount := h.count
  have hnames : (List.range' 3 (names - 1)).filter
      (fun i => entryType set i = exfatEntryFileName) = List.range' 3 (names - 1) := by
    rw [List.filter_eq_self]
    intro i hi
    rw [List.mem_range'_1] at hi
    obtain ⟨j, rfl⟩ := Nat.exists_eq_add_of_le (show 2 ≤ i by omega)
    exact decide_eq_true (h.name j (by omega))
  have htails : (List.range' (3 + (names - 1)) (k - 3 - (names - 1))).filter
      (fun i => entryType set i = exfatEntryFileName) = [] := by
    rw [List.filter_eq_nil_iff]
    intro i hi hp
    rw [List.mem_range'_1] at hi
    have htail := h.tail i (by omega) (by omega)
    rw [of_decide_eq_true hp] at htail
    exact absurd htail (by decide)
  rw [show k - 3 = names - 1 + (k - 3 - (names - 1)) by omega, ← List.range'_append_1,
    List.filter_append, hnames, htails, List.append_nil, List.range'_eq_map_range, List.flatMap_map]

/-- What is assembled from an accepted set: the units of all name entries but the first. -/
theorem processFileDirectoryEntry_eq {names : Nat} (he : entry.bytes = set ++ rest)
    (hl : set.length = entrySize * k) (hk : k ≤ 19) (hc : k = 1 + leAt set 1 1) (h3 : 3 ≤ k)
    (ht : Typed set k names) (hfile : leAt set 4 2 &&& exfatAttribDir = 0) (memory : List UInt16) :
    let units := (List.range (exfatEnameMax * (names - 1))).map fun i =>
      unitAt set (exfatEnameMax + i)
    processFileDirectoryEntry memory entry = .ok (some (units ++ [0],
      utf16ToUtf8 (units ++ 0 :: memory.map UInt16.toNat) exfatUtf8EnameBufferMax
        (2 * exfatNameMax))) := by
  intro units
  have hcount := ht.count
  have hfde : ∀ {off n : Nat}, off + n ≤ entrySize → leAt entry.fde off n = leAt set off n := by
    intro off n hn
    have hlen : entrySize ≤ set.length := by
      rw [hl]
      exact Nat.le_mul_of_pos_right _ (by omega)
    rw [NodeEntry.fde, he, List.take_append_of_le_length hlen]
    conv_rhs => rw [← List.take_append_drop entrySize set]
    rw [leAt_append_left]
    rw [List.length_take, Nat.min_eq_left hlen]
    exact hn
  have hunits : assembleName entry (leAt set 1 1 - 2) 0 [] = .ok units := by
    have hspace : ([] : List Nat).length + exfatEnameMax * (leAt set 1 1 - 2) ≤ exfatNameMax := by
      simp only [exfatEnameMax, exfatNameMax, List.length_nil]
      omega
    rw [assembleName_eq he hl hk (by omega) hspace, List.nil_append,
      show leAt set 1 1 - 2 = k - 3 by omega, ht.later h3, units_eq_map]
    rfl
  have hroom : units.length + 1 ≤ exfatNameMax := by
    simp only [units, List.length_map, List.length_range, exfatEnameMax, exfatNameMax]
    omega
  rw [processFileDirectoryEntry, hfde (by decide), hfde (by decide),
    if_neg (not_not.mpr hfile), hunits]
  simp only [bind, Except.bind, putUnits, List.length_singleton, if_pos hroom, List.append_assoc,
    List.singleton_append]

end

theorem unitAt_lt (set : List UInt8) (i : Nat) : unitAt set i < 0x10000 := leAt_lt _ _ 2

theorem map_range_lt {f : Nat → Nat} (hf : ∀ i, f i < 0x10000) (n : Nat) :
    ∀ u ∈ (List.range n).map f, u < 0x10000 := by
  intro u hu
  obtain ⟨i, -, rfl⟩ := List.mem_map.mp hu
  exact hf i

theorem initNodeName_eq (set : List UInt8) (n : Nat) :
    initNodeName set n = padName ((List.range (exfatEnameMax * n)).map (unitAt set)) := by
  have hunits := units_eq_map set n 0
  simp only [Nat.add_zero, Nat.mul_zero, Nat.zero_add] at hunits
  rw [initNodeName, hunits]

/-- The units behind the first name entry of an accepted set. -/
theorem Typed.laterUnit_eq {names : Nat} (h : Typed set k names) (hl : set.length = entrySize * k)
    (i : Nat) : ((List.range (exfatEnameMax * (names - 1))).map fun i =>
      unitAt set (exfatEnameMax + i)).getD i 0 = laterUnit set i := by
  have hcount := h.count
  have hdiv : i / exfatEnameMax < names - 1 ↔ i < exfatEnameMax * (names - 1) := by
    rw [Nat.div_lt_iff_lt_mul (by decide), Nat.mul_comm]
  rw [map_range_getD, laterUnit]
  generalize i / exfatEnameMax = q at hdiv ⊢
  by_cases hq : q < names - 1
  · obtain ⟨j, hj⟩ : ∃ j, 3 + q = 2 + j := ⟨1 + q, by omega⟩
    rw [if_pos (hdiv.mp hq), hj, if_pos (h.name j (by omega))]
  · rw [if_neg fun hlt => hq (hdiv.mpr hlt), if_neg]
    intro hname
    rcases Nat.lt_or_ge (3 + q) k with hlt | hge
    · have htail := h.tail _ (by omega) hlt
      rw [hname] at htail
      exact absurd htail (by decide)
    · rw [entryType, List.getD_eq_default _ _ (by rw [hl]; exact Nat.mul_le_mul_left _ hge)] at hname
      exact absurd hname (by decide)

theorem nameNeed_room (set : List UInt8) : exfatEnameMax * nameNeed set ≤ exfatNameMax := by
  have hlt := leAt_lt (set.drop entrySize) 3 1
  simp only [nameNeed, divRoundUp, exfatEnameMax, exfatNameMax]
  omega

/-- A name that fits into its array can be printed when its units can be read. -/
theorem padName_prints {name : List Nat} (hu : ∀ u ∈ name, u < 0x10000)
    (hl : name.length ≤ exfatNameMax) :
    (∃ s, utf16ToUtf8 (padName name) exfatUtf8NameBufferMax exfatNameMax = .ok s) ↔
      ∃ cs, ofUtf16 name = some cs := by
  have hzero : ∀ u ∈ List.replicate (exfatNameMax - name.length) 0, u < 0x10000 := by
    intro u hm
    rw [List.eq_of_mem_replicate hm]
    decide
  rw [padName_terminated hl, utf16ToUtf8_succeeds hu hzero hl]
  constructor
  · rintro ⟨cs, hcs, -⟩
    exact ⟨cs, hcs⟩
  · rintro ⟨cs, hcs⟩
    have hle := flatMap_toUtf8_length_le cs
    have hunits := (List.takeWhile_sublist (· ≠ 0)).length_le.trans hl
    rw [← toUtf16_ofUtf16 hcs hu] at hunits
    refine ⟨cs, hcs, ?_⟩
    simp only [exfatUtf8NameBufferMax, exfatNameMax] at hunits ⊢
    omega

/-- What it takes for the units `later` to be the name `name`. -/
theorem nameRestored_units {entry : NodeEntry} {name later : List Nat}
    (hn : ∀ u ∈ name, u < 0x10000) (hnl : name.length ≤ exfatNameMax)
    (hu : ∀ u ∈ later, u < 0x10000) (hul : later.length ≤ 2 * exfatNameMax)
    (hrun : ∀ memory, processFileDirectoryEntry memory entry = .ok (some (later ++ [0],
      utf16ToUtf8 (later ++ 0 :: memory.map UInt16.toNat) exfatUtf8EnameBufferMax
        (2 * exfatNameMax)))) :
    NameRestored entry (padName name) ↔ later.takeWhile (· ≠ 0) = name.takeWhile (· ≠ 0) ∧
      ∀ cs, ofUtf16 name = some cs → (cs.flatMap toUtf8).length < exfatUtf8EnameBufferMax := by
  have hmemory : ∀ memory : List UInt16, ∀ u ∈ memory.map UInt16.toNat, u < 0x10000 := by
    intro memory u hm
    obtain ⟨x, -, rfl⟩ := List.mem_map.mp hm
    exact x.toNat_lt
  have hpad : (padName name).takeWhile (· ≠ 0) = name.takeWhile (· ≠ 0) := by
    rw [padName_terminated hnl, takeWhile_terminated]
  constructor
  · rintro ⟨units, h⟩
    obtain ⟨res, hres, hsame, hconv⟩ := h []
    rw [hrun] at hres
    cases hres
    rw [hpad, takeWhile_terminated] at hsame
    refine ⟨hsame, fun cs hcs => ?_⟩
    rw [padName_prints hn hnl, utf16ToUtf8_succeeds hu (hmemory []) hul, ← ofUtf16_takeWhile later,
      hsame, ofUtf16_takeWhile] at hconv
    obtain ⟨ds, hds, hlt⟩ := hconv ⟨cs, hcs⟩
    cases hcs.symm.trans hds
    exact hlt
  · rintro ⟨hsame, hshort⟩
    refine ⟨later ++ [0], fun memory => ⟨_, hrun memory, ?_, ?_⟩⟩
    · rw [hpad, takeWhile_terminated, hsame]
    · rw [padName_prints hn hnl, utf16ToUtf8_succeeds hu (hmemory memory) hul,
        ← ofUtf16_takeWhile later, hsame, ofUtf16_takeWhile]
      rintro ⟨cs, hcs⟩
      exact ⟨cs, hcs, hshort cs hcs⟩

/-- The names agree exactly on the sets that are `Restorable`. -/
theorem nameRestored_iff {entry : NodeEntry} {rest : List UInt8} {names : Nat}
    (he : entry.bytes = set ++ rest) (hl : set.length = entrySize * k) (hk : k ≤ 19)
    (hc : k = 1 + leAt set 1 1) (h3 : 3 ≤ k) (ht : Typed set k names)
    (hfile : leAt set 4 2 &&& exfatAttribDir = 0) :
    NameRestored entry (initNodeName set (nameNeed set)) ↔ Restorable set := by
  have hcount := ht.count
  have hroom := nameNeed_room set
  rw [initNodeName_eq, nameRestored_units (map_range_lt (unitAt_lt set) _) (by simpa using hroom)
    (map_range_lt (fun _ => unitAt_lt set _) _) _
    (processFileDirectoryEntry_eq he hl hk hc h3 ht hfile), takeWhile_eq_iff]
  · simp only [ht.laterUnit_eq hl, map_range_getD]
    exact ⟨fun h => ⟨h.1, h.2⟩, fun h => ⟨h.again, h.short⟩⟩
  · simp only [List.length_map, List.length_range, exfatEnameMax, exfatNameMax]
    omega

/-- A restore reads the same name as the file system exactly when the units of the name stand once
more one entry later, and their UTF-8 form fits into the buffer for a single name entry: the first
name entry is never read. -/
theorem restored_name_iff [Env] {w v : World} {n : Node} {id : NodeId} {entry : NodeEntry}
    (hn : w.nodes id = some n) (hc : k = 1 + leAt set 1 1) (hk : k ≤ 19)
    (hfile : leAt set 4 2 &&& exfatAttribDir = 0)
    (h : parseFileEntries id set k w = .ok (.ok, v))
    (he : entry.bytes.take (entrySize * k) = set) :
    (∃ m, v.nodes id = some m ∧ NameRestored entry m.name) ↔ Restorable set := by
  have hrun := parseFileEntries_run set k hn
  rw [Wp, h] at hrun
  obtain ⟨-, hset, ⟨d, hd⟩, -⟩ := hrun rfl
  obtain ⟨names, ht⟩ := typed_of_check hset.types
  have htwo := hset.two
  have hl : set.length = entrySize * k := by
    rw [← he, List.length_take, entry.size]
    simp only [entrySize, nodeEntrySize]
    omega
  have hbytes : entry.bytes = set ++ entry.bytes.drop (entrySize * k) := by
    rw [← he, List.take_append_drop]
  rw [← nameRestored_iff hbytes hl hk hc (by omega) ht hfile]
  constructor
  · rintro ⟨m, hm, hname⟩
    cases hd.symm.trans hm
    exact hname
  · intro hname
    exact ⟨_, hd, hname⟩

/-- A record with nothing but zeros behind a set. -/
def recordOf (set : List UInt8) (h : set.length ≤ nodeEntrySize) : NodeEntry where
  bytes := set ++ List.replicate (nodeEntrySize - set.length) 0
  size := by
    rw [List.length_append, List.length_replicate]
    omega

theorem recordOf_take (h : set.length ≤ nodeEntrySize) (hl : set.length = entrySize * k) :
    (recordOf set h).bytes.take (entrySize * k) = set := by
  rw [recordOf]
  exact List.take_left' hl

/-- The file `a`, whose name stands in both of its name entries. -/
def twiceSet : List UInt8 :=
  withChecksum (([0x85, 3, 0, 0, 0x20] ++ List.replicate 27 0) ++
    ([0xc0, 1, 0, 1] ++ List.replicate 28 0) ++
    ([0xc1, 0, 0x61] ++ List.replicate 29 0) ++ ([0xc1, 0, 0x61] ++ List.replicate 29 0))

theorem twiceSet_accepted :
    ∃ v, @parseFileEntries calmEnv 0 twiceSet 4 newNode = .ok (.ok, v) := by
  have hset : @SetOk calmEnv newNode.sb twiceSet 4 := @SetOk.mk calmEnv _ _ _ (by decide +kernel)
    (by decide +kernel) (by decide +kernel) (by decide +kernel) ⟨by decide +kernel,
      by decide +kernel, by decide +kernel, by decide +kernel, by decide +kernel, by decide +kernel⟩
  have hsum : leAt twiceSet 2 2 = exfatCalcChecksum twiceSet := by
    unfold twiceSet
    exact withChecksum_ok (by simp)
  obtain ⟨v, hrun, -⟩ := @newNode_accepts _ _ calmEnv hset hsum
  exact ⟨v, hrun⟩

theorem twiceSet_restorable : Restorable twiceSet := by
  have h1 : nameUnit twiceSet 1 = 0 := by decide +kernel
  refine ⟨fun i hi => ?_, fun cs hcs => ?_⟩
  · have hlt : i < 2 := by
      by_contra hge
      exact hi 1 (by omega) h1
    interval_cases i <;> decide +kernel
  · have ha : ofUtf16 ((List.range (exfatEnameMax * nameNeed twiceSet)).map (unitAt twiceSet)) =
        some [0x61] := by decide +kernel
    cases ha.symm.trans hcs
    decide

theorem restored_name_iff_twice :
    ∃ v, @parseFileEntries calmEnv 0 twiceSet 4 newNode = .ok (.ok, v) ∧
      ∃ m, v.nodes 0 = some m ∧ NameRestored (recordOf twiceSet (by decide +kernel)) m.name := by
  obtain ⟨v, hrun⟩ := twiceSet_accepted
  refine ⟨v, hrun, (@restored_name_iff _ _ calmEnv _ v _ _ _ (World.setNode_self _ _ _)
    (by decide +kernel) (by decide) (by decide +kernel) hrun ?_).mpr twiceSet_restorable⟩
  exact recordOf_take _ (by decide +kernel)

/-- A file with a single name entry is given back without a name. -/
theorem restored_name_lost :
    ∃ v, @parseFileEntries calmEnv 0 (tailSet 15) 4 newNode = .ok (.ok, v) ∧
      4 = 1 + leAt (tailSet 15) 1 1 ∧ leAt (tailSet 15) 4 2 &&& exfatAttribDir = 0 ∧
      ∃ m, v.nodes 0 = some m ∧ m.name = padName (List.replicate 15 0x61) ∧
        ¬NameRestored (recordOf (tailSet 15) (by decide +kernel)) m.name := by
  have hset := tailSet_ok 15 (.inl rfl)
  obtain ⟨v, hrun, hv⟩ := @newNode_accepts _ _ calmEnv hset (tailSet_sum 15)
  obtain ⟨names, ht⟩ := typed_of_check (@SetOk.types calmEnv _ _ _ hset)
  refine ⟨v, hrun, by decide +kernel, by decide +kernel, _, hv, ?_, fun hname => ?_⟩
  · have hone : initNodeName (tailSet 15) (nameNeed (tailSet 15)) =
        padName (List.replicate 15 0x61) := by decide +kernel
    exact hone
  · have hagain := ((nameRestored_iff rfl (by decide +kernel) (by decide) (by decide +kernel)
      (by decide) ht (by decide +kernel)).mp hname).again 0 (by simp)
    exact absurd hagain (by decide +kernel)

end Proofs

end Exfat
