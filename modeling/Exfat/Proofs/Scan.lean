import Exfat.Lib.Greedy
import Exfat.Model.Nuked
import Exfat.Model.Restore

namespace Exfat
open Lib

/-! The scan of a cluster for entry sets: which lines it logs, when it stays inside its buffer, and
what can be read at the offsets it logs. -/

namespace Proofs

variable {buf : List UInt8} {size base p q : Nat} {s t : ClusterSearch}

/-- The byte at `p`; nothing but zeros behind the buffer. -/
def byteOf (buf : List UInt8) (p : Nat) : Nat := (buf.getD p 0).toNat

/-- Where the set that begins at `p` ends. -/
def setEnd (buf : List UInt8) (p : Nat) : Nat := p + entrySize * (byteOf buf (p + 1) + 1)

/-- The bytes of the set that begins at `p`. -/
def setBytes (buf : List UInt8) (p : Nat) : List UInt8 :=
  (buf.drop p).take (entrySize * (byteOf buf (p + 1) + 1))

/-- What makes `p` look like the beginning of a set: the types of three entries and the count. -/
structure HeadAt (buf : List UInt8) (p : Nat) : Prop where
  file : byteOf buf p = exfatEntryFile
  info : byteOf buf (p + entrySize) = exfatEntryFileInfo
  name : byteOf buf (p + 2 * entrySize) = exfatEntryFileName
  two : 2 ≤ byteOf buf (p + 1)
  most : byteOf buf (p + 1) ≤ 18

/-- An entry set at `p`, with its checksum. -/
structure FileSet (buf : List UInt8) (p : Nat) : Prop extends HeadAt buf p where
  fits : setEnd buf p ≤ buf.length
  checksum : exfatCalcChecksum (setBytes buf p) = leAt (setBytes buf p) 2 2

/-- An entry set that is not inside an earlier one. -/
abbrev Reported (buf : List UInt8) : Nat → Prop := Chosen (FileSet buf) (setEnd buf)

/-- No set that was found earlier reaches behind `p`. -/
abbrev OutsideSets (buf : List UInt8) : Nat → Prop := Outside (FileSet buf) (setEnd buf)

/-- A label at `q` has fewer units than `namebuf` has bytes, or as many and one of them ends the
text. -/
def LabelFits (buf : List UInt8) (q : Nat) : Prop :=
  byteOf buf q = exfatEntryLabel → byteOf buf (q + 1) < namebufSize ∨
    byteOf buf (q + 1) = namebufSize ∧ ∃ i < namebufSize, byteOf buf (q + 2 + 2 * i) = 0

/-- `namebuf` with the first `n` units of the name at `q`. -/
def namebufOf (buf : List UInt8) (q n : Nat) : List UInt8 :=
  (List.range n).map (fun i => buf.getD (q + 2 + 2 * i) 0) ++ List.replicate (namebufSize - n) 0

def fdeOffset : LogLine → Option Nat
  | .fde ofs => some ofs
  | _ => none

/-- The offsets of the FDE lines of a log. -/
def fdeOffsets (log : List LogLine) : List Nat := log.filterMap fdeOffset

theorem byteAt_ok (h : p < buf.length) : byteAt buf p = .ok (byteOf buf p) := if_pos h

theorem byteAt_fault (h : buf.length ≤ p) : byteAt buf p = .error .fault :=
  if_neg (Nat.not_lt.mpr h)

theorem entriesAt_ok {n : Nat} (h : p + entrySize * n ≤ buf.length) :
    entriesAt buf p n = .ok ((buf.drop p).take (entrySize * n)) := if_pos h

theorem entriesAt_fault {n : Nat} (h : buf.length < p + entrySize * n) :
    entriesAt buf p n = .error .fault := if_neg (Nat.not_le.mpr h)

theorem leAt_byte (bs : List UInt8) {i n : Nat} (h : i < bs.length) (hn : i < n) :
    leAt (bs.take n) i 1 = (bs.getD i 0).toNat := by
  rw [leAt_one (by rw [List.length_take]; omega)]
  simp [List.getD_eq_getElem?_getD, hn]

/-- The type and the second byte of an entry in the buffer. -/
theorem entry_bytes (h : p + entrySize ≤ buf.length) :
    entryType ((buf.drop p).take (entrySize * 1)) 0 = byteOf buf p ∧
      leAt ((buf.drop p).take (entrySize * 1)) 1 1 = byteOf buf (p + 1) := by
  have hlen : (buf.drop p).length = buf.length - p := List.length_drop
  simp only [entrySize] at h
  constructor
  · simp [entryType, byteOf, List.getD_eq_getElem?_getD]
  · rw [leAt_byte _ (by omega) (by decide), byteOf]
    simp [List.getD_eq_getElem?_getD]

theorem fileTypesAt_ok (h : p + 2 * entrySize < buf.length) :
    fileTypesAt buf p = .ok (decide (byteOf buf p = exfatEntryFile ∧
      byteOf buf (p + entrySize) = exfatEntryFileInfo ∧
      byteOf buf (p + 2 * entrySize) = exfatEntryFileName)) := by
  simp only [entrySize] at h
  simp only [fileTypesAt, byteAt_ok (show p < buf.length by omega),
    byteAt_ok (show p + entrySize < buf.length by simp only [entrySize]; omega),
    byteAt_ok (show p + 2 * entrySize < buf.length from h), bind, Except.bind]
  by_cases h0 : byteOf buf p = exfatEntryFile
  · by_cases h1 : byteOf buf (p + entrySize) = exfatEntryFileInfo
    · simp only [h0, h1, ne_eq, not_true, if_false, true_and]
    · simp only [h0, h1, ne_eq, not_true, not_false_eq_true, if_false, if_true, false_and,
        and_false, decide_false]
  · simp only [h0, ne_eq, not_false_eq_true, if_true, false_and, decide_false]

/-- The search moves on by one byte where no set begins. -/
theorem searchStep_next (hr : s.clusterPtr + 2 * entrySize < buf.length)
    (h : ¬HeadAt buf s.clusterPtr) :
    searchStep buf size base s = .ok { s with clusterPtr := s.clusterPtr + 1 } := by
  have hr' : s.clusterPtr + entrySize * 1 ≤ buf.length := by
    simp only [entrySize] at hr ⊢
    omega
  obtain ⟨-, hcount⟩ := entry_bytes hr'
  simp only [searchStep, fileTypesAt_ok hr, bind, Except.bind, entriesAt_ok hr', hcount]
  split
  · rename_i htypes
    obtain ⟨h0, h1, h2⟩ := of_decide_eq_true htypes
    rw [if_neg fun hc => h ⟨h0, h1, h2, hc.1, hc.2⟩]
  · rfl

theorem leAt_take (bs : List UInt8) {off n k : Nat} (h : off + n ≤ k) :
    leAt (bs.take k) off n = leAt bs off n := by
  rw [leAt, leAt, List.drop_take, List.take_take, Nat.min_eq_left (by omega)]

/-- The search at what looks like the beginning of a set. -/
theorem searchStep_head (hr : s.clusterPtr + 2 * entrySize < buf.length)
    (h : HeadAt buf s.clusterPtr) :
    searchStep buf size base s = if buf.length < setEnd buf s.clusterPtr then .error .fault
      else if exfatCalcChecksum (setBytes buf s.clusterPtr) =
          leAt (setBytes buf s.clusterPtr) 2 2 then
        .ok
          { clusterPtr := s.clusterPtr + entrySize, fileDirectoryEntry := some s.clusterPtr
            subcount := byteOf buf (s.clusterPtr + 1)
            log := s.log ++ [.fde (clusterOfs size base s.clusterPtr)] }
      else .ok { s with clusterPtr := s.clusterPtr + 1 } := by
  have hr' : s.clusterPtr + entrySize * 1 ≤ buf.length := by
    simp only [entrySize] at hr ⊢
    omega
  obtain ⟨-, hcount⟩ := entry_bytes hr'
  have hsum : leAt ((buf.drop s.clusterPtr).take (entrySize * 1)) 2 2 =
      leAt (setBytes buf s.clusterPtr) 2 2 := by
    rw [setBytes, leAt_take _ (by decide), leAt_take]
    simp only [entrySize]
    omega
  simp only [searchStep, fileTypesAt_ok hr, bind, Except.bind, entriesAt_ok hr', hcount,
    decide_eq_true (And.intro h.file (And.intro h.info h.name)), if_true,
    if_pos (And.intro h.two h.most)]
  by_cases hout : buf.length < setEnd buf s.clusterPtr
  · rw [if_pos hout, entriesAt_fault hout]
  · rw [if_neg hout, entriesAt_ok (Nat.not_lt.mp hout)]
    simp only [hsum]
    rfl

/-- The units copied stand behind those that were there. -/
theorem copyName_eq (front : List UInt8) {n m : Nat} (hn : n ≤ m)
    (hm : front.length + m ≤ namebufSize)
    (hb : q + 2 + 2 * (front.length + n) ≤ buf.length) :
    copyName buf q n front.length (front ++ List.replicate m 0) =
      .ok (front ++ (List.range n).map (fun i => buf.getD (q + 2 + 2 * (front.length + i)) 0) ++
        List.replicate (m - n) 0) := by
  induction n generalizing front m with
  | zero => simp [copyName]
  | succ n ih =>
    obtain ⟨m, rfl⟩ := Nat.exists_eq_add_of_lt (Nat.lt_of_lt_of_le (Nat.succ_pos n) hn)
    rw [Nat.zero_add] at hn hm ⊢
    have hset : (front ++ List.replicate (m + 1) 0).set front.length
        (UInt8.ofNat (byteOf buf (q + 2 + 2 * front.length))) =
          (front ++ [buf.getD (q + 2 + 2 * front.length) 0]) ++ List.replicate m 0 := by
      rw [byteOf, UInt8.ofNat_toNat, List.set_append_right _ _ le_rfl, Nat.sub_self,
        List.replicate_succ, List.set_cons_zero, List.append_assoc, List.singleton_append]
    have hi := ih (front ++ [buf.getD (q + 2 + 2 * front.length) 0]) (m := m) (by omega)
      (by rw [List.length_append, List.length_singleton]; omega)
      (by rw [List.length_append, List.length_singleton]; omega)
    rw [List.length_append, List.length_singleton] at hi
    simp only [copyName, byteAt_ok (show q + 2 + 2 * front.length < buf.length by omega),
      byteAt_ok (show q + 2 + 2 * front.length + 1 < buf.length by omega), bind, Except.bind,
      if_pos (show front.length < namebufSize by omega), hset, hi]
    rw [List.range_succ_eq_map, List.map_cons, List.map_map, Nat.add_sub_add_right]
    simp only [List.append_assoc, List.nil_append, List.cons_append, Function.comp_def,
      Nat.succ_eq_add_one, Nat.add_zero, Nat.add_right_comm, Nat.add_assoc]

/-- A name that fits into `namebuf` and lies in the buffer is copied. -/
theorem copyName_ok {n : Nat} (hn : n ≤ namebufSize) (hb : q + 2 + 2 * n ≤ buf.length) :
    copyName buf q n 0 (List.replicate namebufSize 0) = .ok (namebufOf buf q n) := by
  have hcopy := @copyName_eq buf q [] n namebufSize hn (by simp) (by simpa using hb)
  simp only [List.length_nil, List.nil_append, Nat.zero_add] at hcopy
  exact hcopy

/-- Where the text of a name ends in `namebuf`. -/
theorem zero_mem_namebufOf {n : Nat} (hn : n ≤ namebufSize) : 0 ∈ namebufOf buf q n ↔
    n < namebufSize ∨ n = namebufSize ∧ ∃ i < namebufSize, byteOf buf (q + 2 + 2 * i) = 0 := by
  have hunit (i : Nat) : buf.getD (q + 2 + 2 * i) 0 = 0 ↔ byteOf buf (q + 2 + 2 * i) = 0 :=
    UInt8.toNat_inj.symm
  rw [namebufOf, List.mem_append, List.mem_map, List.mem_replicate]
  constructor
  · rintro (⟨i, hi, hzero⟩ | ⟨hlt, -⟩)
    · rcases Nat.lt_or_eq_of_le hn with hlt | rfl
      · exact .inl hlt
      · exact .inr ⟨rfl, i, List.mem_range.mp hi, (hunit i).mp hzero⟩
    · exact .inl (by omega)
  · rintro (hlt | ⟨rfl, i, hi, hzero⟩)
    · exact .inr ⟨by omega, rfl⟩
    · exact .inl ⟨i, List.mem_range.mpr hi, (hunit i).mpr hzero⟩

/-- A copy of more units than `namebuf` has bytes goes out of bounds. -/
theorem copyName_fault {n i : Nat} {namebuf : List UInt8} (hi : i ≤ namebufSize)
    (hn : namebufSize < i + n) : copyName buf q n i namebuf = .error .fault := by
  induction n generalizing i namebuf with
  | zero => exact absurd hn (by omega)
  | succ n ih =>
    rcases Nat.lt_or_ge (q + 2 + 2 * i) buf.length with h1 | h1
    · rcases Nat.lt_or_ge (q + 2 + 2 * i + 1) buf.length with h2 | h2
      · simp only [copyName, byteAt_ok h1, byteAt_ok h2, bind, Except.bind]
        split
        · exact ih (by omega) (by omega)
        · rfl
      · simp only [copyName, byteAt_ok h1, byteAt_fault h2, bind, Except.bind]
    · simp only [copyName, byteAt_fault h1, bind, Except.bind]

theorem logEntry_ok (hr : q + 2 * entrySize < buf.length) (hl : LabelFits buf q) :
    ∃ lines, logEntry buf size base q = .ok lines ∧ fdeOffsets lines = [] := by
  have hr' : q + entrySize * 1 ≤ buf.length := by
    simp only [entrySize] at hr ⊢
    omega
  obtain ⟨htype, hcount⟩ := entry_bytes hr'
  simp only [logEntry, entriesAt_ok hr', bind, Except.bind, htype, hcount]
  simp only [entrySize] at hr
  split
  · rename_i hlabel
    have hfits := hl hlabel
    have hle : byteOf buf (q + 1) ≤ namebufSize := by omega
    rw [copyName_ok hle (by simp only [namebufSize, exfatEnameMax] at hle; omega)]
    simp only [printArray, if_pos ((zero_mem_namebufOf hle).mpr hfits)]
    exact ⟨_, rfl, rfl⟩
  · split
    · exact ⟨_, rfl, rfl⟩
    · split
      · have hle : exfatEnameMax ≤ namebufSize := Nat.le_succ _
        rw [copyName_ok hle (by simp only [exfatEnameMax]; omega)]
        simp only [printArray, if_pos ((zero_mem_namebufOf hle).mpr (.inl (Nat.lt_succ_self _)))]
        exact ⟨_, rfl, rfl⟩
      · exact ⟨_, rfl, rfl⟩

/-- A label that does not fit is copied out of bounds, or has no end when it is printed. -/
theorem logEntry_fault (hr : q + 2 * entrySize < buf.length) (hl : ¬LabelFits buf q) :
    logEntry buf size base q = .error .fault := by
  have hr' : q + entrySize * 1 ≤ buf.length := by
    simp only [entrySize] at hr ⊢
    omega
  obtain ⟨htype, hcount⟩ := entry_bytes hr'
  obtain ⟨hlabel, hlong⟩ := Classical.not_imp.mp hl
  simp only [logEntry, entriesAt_ok hr', bind, Except.bind, htype, hcount, if_pos hlabel]
  rcases Nat.lt_or_ge namebufSize (byteOf buf (q + 1)) with hlt | hle
  · rw [copyName_fault (Nat.zero_le _) (by omega)]
  · simp only [entrySize] at hr
    rw [copyName_ok hle (by simp only [namebufSize, exfatEnameMax] at hle; omega)]
    simp only [printArray, if_neg (fun hzero => hlong ((zero_mem_namebufOf hle).mp hzero))]

/-- What one iteration of the loop can do. -/
inductive Moves (buf : List UInt8) (size base : Nat) (s : ClusterSearch) : ClusterSearch → Prop
  | next (hs : s.fileDirectoryEntry = none) (hset : ¬FileSet buf s.clusterPtr)
    (hfit : HeadAt buf s.clusterPtr → setEnd buf s.clusterPtr ≤ buf.length) :
    Moves buf size base s { s with clusterPtr := s.clusterPtr + 1 }
  | found (hs : s.fileDirectoryEntry = none) (hset : FileSet buf s.clusterPtr) :
    Moves buf size base s
      { clusterPtr := s.clusterPtr + entrySize, fileDirectoryEntry := some s.clusterPtr
        subcount := byteOf buf (s.clusterPtr + 1)
        log := s.log ++ [.fde (clusterOfs size base s.clusterPtr)] }
  | leave {p : Nat} (hs : s.fileDirectoryEntry = some p) (hsub : s.subcount = 0) :
    Moves buf size base s { s with fileDirectoryEntry := none }
  | entry {p n : Nat} {lines : List LogLine} (hs : s.fileDirectoryEntry = some p)
    (hsub : s.subcount = n + 1) (hlabel : LabelFits buf s.clusterPtr)
    (hlines : fdeOffsets lines = []) :
    Moves buf size base s
      { s with clusterPtr := s.clusterPtr + entrySize, subcount := n, log := s.log ++ lines }

theorem searchStep_moves (hr : s.clusterPtr + 2 * entrySize < buf.length)
    (hs : s.fileDirectoryEntry = none) (h : searchStep buf size base s = .ok t) :
    Moves buf size base s t := by
  by_cases hhead : HeadAt buf s.clusterPtr
  · rw [searchStep_head hr hhead] at h
    split at h
    · cases h
    · rename_i hfit
      split at h
      · rename_i hsum
        cases h
        exact .found hs ⟨hhead, Nat.not_lt.mp hfit, hsum⟩
      · rename_i hsum
        cases h
        exact .next hs (fun hset => hsum hset.checksum) fun _ => Nat.not_lt.mp hfit
  · rw [searchStep_next hr hhead] at h
    cases h
    exact .next hs (fun hset => hhead hset.toHeadAt) fun hh => absurd hh hhead

theorem clusterSearchStep_moves (hr : s.clusterPtr + 2 * entrySize < buf.length)
    (h : clusterSearchStep buf size base s = .ok t) : Moves buf size base s t := by
  cases hs : s.fileDirectoryEntry with
  | none =>
    rw [clusterSearchStep, hs] at h
    exact searchStep_moves hr hs h
  | some p =>
    rw [clusterSearchStep, hs] at h
    cases hsub : s.subcount with
    | zero =>
      simp only [hsub, if_true] at h
      cases h
      rw [← hsub]
      exact .leave hs hsub
    | succ n =>
      by_cases hlabel : LabelFits buf s.clusterPtr
      · obtain ⟨lines, hlog, hlines⟩ := @logEntry_ok buf size base _ hr hlabel
        simp only [hsub, Nat.succ_ne_zero, if_false, hlog, bind, Except.bind,
          Nat.add_sub_cancel] at h
        cases h
        rw [← hs]
        exact .entry hs hsub hlabel hlines
      · simp only [hsub, Nat.succ_ne_zero, if_false, logEntry_fault hr hlabel, bind,
          Except.bind] at h
        cases h

/-- An iteration stays in bounds when the set it looks at, or the label, does. -/
theorem clusterSearchStep_ok (hr : s.clusterPtr + 2 * entrySize < buf.length)
    (hfit : s.fileDirectoryEntry = none → HeadAt buf s.clusterPtr →
      setEnd buf s.clusterPtr ≤ buf.length)
    (hlabel : s.fileDirectoryEntry ≠ none → s.subcount ≠ 0 → LabelFits buf s.clusterPtr) :
    ∃ t, clusterSearchStep buf size base s = .ok t := by
  cases hs : s.fileDirectoryEntry with
  | none =>
    simp only [clusterSearchStep, hs]
    by_cases hhead : HeadAt buf s.clusterPtr
    · rw [searchStep_head hr hhead, if_neg (Nat.not_lt.mpr (hfit hs hhead))]
      split
      · exact ⟨_, rfl⟩
      · exact ⟨_, rfl⟩
    · exact ⟨_, searchStep_next hr hhead⟩
  | some p =>
    simp only [clusterSearchStep, hs]
    split
    · exact ⟨_, rfl⟩
    · rename_i hsub
      obtain ⟨lines, hlog, -⟩ := @logEntry_ok buf size base _ hr (hlabel (by simp [hs]) hsub)
      rw [hlog]
      exact ⟨_, rfl⟩

/-- The iterations that are left at most, the one that ends the loop included. -/
def stepsLeft (buf : List UInt8) (s : ClusterSearch) : Nat :=
  2 * (buf.length - s.clusterPtr) + s.fileDirectoryEntry.toList.length + 1

theorem Moves.stepsLeft_lt (hr : s.clusterPtr + 2 * entrySize < buf.length)
    (h : Moves buf size base s t) : stepsLeft buf t < stepsLeft buf s := by
  simp only [entrySize] at hr
  unfold stepsLeft
  cases h with
  | next hs hset hfit =>
    simp only [hs, Option.toList_none, List.length_nil]
    omega
  | found hs hset =>
    simp only [hs, Option.toList_none, Option.toList_some, List.length_nil, List.length_singleton,
      entrySize]
    omega
  | leave hs hsub =>
    simp only [hs, Option.toList_none, Option.toList_some, List.length_nil, List.length_singleton]
    omega
  | entry hs hsub hlabel hlines =>
    simp only [hs, Option.toList_some, List.length_singleton, entrySize]
    omega

/-- An iteration that fails has made an access out of bounds. -/
theorem clusterSearchStep_fault {e : Halt} (hr : s.clusterPtr + 2 * entrySize < buf.length)
    (h : clusterSearchStep buf size base s = .error e) : e = .fault := by
  cases hs : s.fileDirectoryEntry with
  | none =>
    simp only [clusterSearchStep, hs] at h
    by_cases hhead : HeadAt buf s.clusterPtr
    · rw [searchStep_head hr hhead] at h
      split at h
      · cases h
        rfl
      · split at h <;> cases h
    · rw [searchStep_next hr hhead] at h
      cases h
  | some p =>
    simp only [clusterSearchStep, hs] at h
    split at h
    · cases h
    · by_cases hlabel : LabelFits buf s.clusterPtr
      · obtain ⟨lines, hlog, -⟩ := @logEntry_ok buf size base _ hr hlabel
        rw [hlog] at h
        cases h
      · rw [logEntry_fault hr hlabel] at h
        cases h
        rfl

/-- A run of the loop, and how it ends. -/
inductive SearchRuns (buf : List UInt8) (size base : Nat) :
    ClusterSearch → Except Halt ClusterSearch → Prop
  | done {s : ClusterSearch} (hr : ¬s.clusterPtr + 2 * entrySize < size) :
    SearchRuns buf size base s (.ok s)
  | halt {s : ClusterSearch} {e : Halt} (hr : s.clusterPtr + 2 * entrySize < size)
    (h : clusterSearchStep buf size base s = .error e) : SearchRuns buf size base s (.error e)
  | step {s t : ClusterSearch} {r : Except Halt ClusterSearch}
    (hr : s.clusterPtr + 2 * entrySize < size) (h : clusterSearchStep buf size base s = .ok t)
    (hrest : SearchRuns buf size base t r) : SearchRuns buf size base s r

/-- Every run ends. -/
theorem searchRuns_total (hsize : size ≤ buf.length) (base : Nat) (s : ClusterSearch) :
    ∃ r, SearchRuns buf size base s r := by
  induction hn : stepsLeft buf s using Nat.strong_induction_on generalizing s with
  | _ n ih =>
    by_cases hr : s.clusterPtr + 2 * entrySize < size
    · have hroom := hr.trans_le hsize
      cases h : clusterSearchStep buf size base s with
      | error e => exact ⟨_, .halt hr h⟩
      | ok t =>
        obtain ⟨r, hrest⟩ := ih _ (hn ▸ (clusterSearchStep_moves hroom h).stepsLeft_lt hroom) t rfl
        exact ⟨r, .step hr h hrest⟩
    · exact ⟨_, .done hr⟩

/-- The loop makes the run when it has fuel for the iterations that are left. -/
theorem SearchRuns.loop {r : Except Halt ClusterSearch} (hsize : size ≤ buf.length)
    (h : SearchRuns buf size base s r) :
    ∀ fuel, stepsLeft buf s ≤ fuel → clusterSearchLoop buf size base fuel s = r := by
  induction h with
  | done hr =>
    intro fuel hf
    cases fuel with
    | zero => exact absurd hf (by simp [stepsLeft])
    | succ fuel => rw [clusterSearchLoop, if_neg hr]
  | halt hr hstep =>
    intro fuel hf
    cases fuel with
    | zero => exact absurd hf (by simp [stepsLeft])
    | succ fuel =>
      rw [clusterSearchLoop, if_pos hr, hstep]
      rfl
  | step hr hstep hrest ih =>
    intro fuel hf
    have hroom := hr.trans_le hsize
    have hlt := (clusterSearchStep_moves hroom hstep).stepsLeft_lt hroom
    cases fuel with
    | zero => exact absurd hf (by simp [stepsLeft])
    | succ fuel =>
      rw [clusterSearchLoop, if_pos hr, hstep]
      exact ih fuel (by omega)

/-- A search is one run, whatever its fuel, as long as there is enough. -/
theorem clusterSearchLoop_run (hsize : size ≤ buf.length) (base : Nat) :
    ∃ r, SearchRuns buf size base {} r ∧ ∀ fuel, 2 * buf.length + 1 ≤ fuel →
      clusterSearchLoop buf size base fuel {} = r := by
  obtain ⟨r, hr⟩ := searchRuns_total hsize base {}
  exact ⟨r, hr, fun fuel hf => hr.loop hsize fuel hf⟩

theorem SearchRuns.fault {r : Except Halt ClusterSearch} (hsize : size ≤ buf.length)
    (h : SearchRuns buf size base s r) : ∀ e, r = .error e → e = .fault := by
  induction h with
  | done hr =>
    intro e he
    cases he
  | halt hr hstep =>
    intro e he
    cases he
    exact clusterSearchStep_fault (hr.trans_le hsize) hstep
  | step hr hstep hrest ih => exact ih

/-- What every iteration keeps holds at the end of a run. -/
theorem SearchRuns.keeps {I : ClusterSearch → Prop} {r : Except Halt ClusterSearch}
    (h : SearchRuns buf size base s r)
    (hstep : ∀ s t, I s → s.clusterPtr + 2 * entrySize < size →
      clusterSearchStep buf size base s = .ok t → I t) (hs : I s) :
    ∀ t, r = .ok t → I t ∧ ¬t.clusterPtr + 2 * entrySize < size := by
  induction h with
  | done hr =>
    intro t ht
    cases ht
    exact ⟨hs, hr⟩
  | halt hr hnext =>
    intro t ht
    cases ht
  | step hr hnext hrest ih => exact ih (hstep _ _ hs hr hnext)

/-- If every iteration succeeds and keeps something, the run does. -/
theorem SearchRuns.reaches {I : ClusterSearch → Prop} {r : Except Halt ClusterSearch}
    (h : SearchRuns buf size base s r)
    (hstep : ∀ s, I s → s.clusterPtr + 2 * entrySize < size →
      ∃ t, clusterSearchStep buf size base s = .ok t ∧ I t) (hs : I s) :
    ∃ t, r = .ok t ∧ I t := by
  induction h with
  | done hr => exact ⟨_, rfl, hs⟩
  | halt hr hnext =>
    obtain ⟨t, ht, -⟩ := hstep _ hs hr
    cases hnext.symm.trans ht
  | step hr hnext hrest ih =>
    obtain ⟨t, ht, hi⟩ := hstep _ hs hr
    cases hnext.symm.trans ht
    exact ih hi

theorem mem_set {j : Nat} (hj : j ≤ byteOf buf (p + 1)) : p + entrySize * j < setEnd buf p := by
  simp only [setEnd, entrySize]
  omega

/-- What holds at every iteration: the sets met so far are those that a search from left to right
finds, all of them are logged, and neither they nor their labels left the buffer. -/
structure Scanned (buf : List UInt8) (size base : Nat) (s : ClusterSearch) : Prop where
  outside : s.fileDirectoryEntry = none → OutsideSets buf s.clusterPtr
  inside : ∀ p, s.fileDirectoryEntry = some p → Reported buf p ∧ p < s.clusterPtr ∧
    s.clusterPtr + entrySize * s.subcount = setEnd buf p
  logged : fdeOffsets s.log =
    (chosenBefore (FileSet buf) (setEnd buf) s.clusterPtr).map (clusterOfs size base)
  heads : ∀ q < s.clusterPtr, OutsideSets buf q → HeadAt buf q → setEnd buf q ≤ buf.length
  labels : ∀ p j, Reported buf p → 1 ≤ j → j ≤ byteOf buf (p + 1) →
    p + entrySize * j < s.clusterPtr → LabelFits buf (p + entrySize * j)

theorem scanned_start : Scanned buf size base {} where
  outside _ := outside_zero
  inside _ h := nomatch h
  logged := rfl
  heads q hq := absurd hq (Nat.not_lt_zero q)
  labels _ _ _ _ _ h := absurd h (Nat.not_lt_zero _)

/-- Inside a set the pointer stands at one of its entries. -/
theorem Scanned.position (h : Scanned buf size base s) (hs : s.fileDirectoryEntry = some p)
    (hsub : s.subcount ≠ 0) :
    ∃ j, 1 ≤ j ∧ j ≤ byteOf buf (p + 1) ∧ s.clusterPtr = p + entrySize * j := by
  obtain ⟨-, hlt, hend⟩ := h.inside p hs
  simp only [setEnd, entrySize] at hend
  refine ⟨byteOf buf (p + 1) + 1 - s.subcount, ?_, ?_, ?_⟩
  · omega
  · omega
  · simp only [entrySize]
    omega

/-- An iteration comes past no entry of a set but the one it looks at. -/
theorem Scanned.visited (h : Scanned buf size base s) (hm : Moves buf size base s t) {j : Nat}
    (hp : Reported buf p) (h1 : 1 ≤ j) (hj : j ≤ byteOf buf (p + 1))
    (hq : p + entrySize * j < t.clusterPtr) : p + entrySize * j < s.clusterPtr ∨
      p + entrySize * j = s.clusterPtr ∧ s.fileDirectoryEntry ≠ none ∧ s.subcount ≠ 0 := by
  rcases Nat.lt_or_ge (p + entrySize * j) s.clusterPtr with hlt | hge
  · exact .inl hlt
  have hin := mem_set hj
  cases hm with
  | next hs hset hfit =>
    have heq := Nat.le_antisymm (Nat.lt_succ_iff.mp hq) hge
    rw [heq] at hin
    refine absurd (h.outside hs) (hp.not_outside ?_ hin)
    simp only [entrySize] at heq
    omega
  | found hs hset =>
    have hrep : Reported buf s.clusterPtr := chosen_iff.mpr ⟨hset, h.outside hs⟩
    rcases Nat.lt_trichotomy p s.clusterPtr with hlt | rfl | hgt
    · exact absurd (hin.trans_le (h.outside hs p hlt hp)) (Nat.not_lt.mpr hge)
    · simp only [entrySize] at hq
      omega
    · have hlt : p < setEnd buf s.clusterPtr := by
        simp only [setEnd, entrySize] at hq ⊢
        omega
      exact absurd hp (hrep.not_chosen hgt hlt)
  | leave hs hsub => exact absurd hq (Nat.not_lt.mpr hge)
  | @entry p' n _ hs hsub hlabel hlines =>
    obtain ⟨hp', hlt', hend⟩ := h.inside p' hs
    simp only [setEnd, entrySize] at hin hend hq hge ⊢
    rcases Nat.lt_trichotomy p p' with hl | rfl | hg
    · have hstop := (chosen_iff.mp hp').2 p hl hp
      simp only [setEnd, entrySize] at hstop
      omega
    · exact .inr ⟨by omega, by rw [hs]; exact Option.some_ne_none _, by rw [hsub]; omega⟩
    · have hlt : p < setEnd buf p' := by
        simp only [setEnd, entrySize]
        omega
      exact absurd hp (hp'.not_chosen hg hlt)

theorem Scanned.next (h : Scanned buf size base s) (hs : s.fileDirectoryEntry = none)
    (hset : ¬FileSet buf s.clusterPtr)
    (hfit : HeadAt buf s.clusterPtr → setEnd buf s.clusterPtr ≤ buf.length) :
    Scanned buf size base { s with clusterPtr := s.clusterPtr + 1 } where
  outside _ := (h.outside hs).succ hset
  inside p hp := nomatch hs.symm.trans hp
  logged := by
    rw [h.logged, ← chosenBefore_skip (Nat.le_succ s.clusterPtr)]
    intro q hl hr hc
    obtain rfl : q = s.clusterPtr := by omega
    exact hset (chosen_iff.mp hc).1
  heads q hq ho hh := by
    rcases Nat.lt_succ_iff_lt_or_eq.mp hq with hlt | rfl
    · exact h.heads q hlt ho hh
    · exact hfit hh
  labels p j hp h1 hj hq := by
    rcases h.visited (.next hs hset hfit) hp h1 hj hq with hlt | ⟨-, hin, -⟩
    · exact h.labels p j hp h1 hj hlt
    · exact absurd hs hin

theorem Scanned.found (h : Scanned buf size base s) (hs : s.fileDirectoryEntry = none)
    (hset : FileSet buf s.clusterPtr) :
    Scanned buf size base
      { clusterPtr := s.clusterPtr + entrySize, fileDirectoryEntry := some s.clusterPtr
        subcount := byteOf buf (s.clusterPtr + 1)
        log := s.log ++ [.fde (clusterOfs size base s.clusterPtr)] } := by
  have hout := h.outside hs
  have hrep : Reported buf s.clusterPtr := chosen_iff.mpr ⟨hset, hout⟩
  have hend : s.clusterPtr + entrySize ≤ setEnd buf s.clusterPtr := by
    simp only [setEnd, entrySize]
    omega
  refine ⟨nofun, fun p hp => ?_, ?_, fun q hq ho hh => ?_,
    fun p j hp h1 hj hq => ?_⟩
  · cases hp
    refine ⟨hrep, by simp only [entrySize]; omega, ?_⟩
    simp only [setEnd, entrySize]
    omega
  · rw [chosenBefore_skip (m := s.clusterPtr + 1) (by simp only [entrySize]; omega)
      fun q hl hr => hrep.not_chosen hl (hr.trans_le hend), hrep.chosenBefore_succ, List.map_append,
      fdeOffsets, List.filterMap_append]
    exact congrArg (· ++ _) h.logged
  · rcases Nat.lt_trichotomy q s.clusterPtr with hlt | rfl | hgt
    · exact h.heads q hlt ho hh
    · exact hset.fits
    · exact absurd ho (hrep.not_outside hgt (hq.trans_le hend))
  · rcases h.visited (.found hs hset) hp h1 hj hq with hlt | ⟨-, hin, -⟩
    · exact h.labels p j hp h1 hj hlt
    · exact absurd hs hin

theorem Scanned.leave (h : Scanned buf size base s) (hs : s.fileDirectoryEntry = some p)
    (hsub : s.subcount = 0) : Scanned buf size base { s with fileDirectoryEntry := none } where
  outside _ := by
    obtain ⟨hp, hlt, hend⟩ := h.inside p hs
    rw [hsub, Nat.mul_zero, Nat.add_zero] at hend
    have ho := hp.outside_stop (hend ▸ hlt)
    rwa [← hend] at ho
  inside _ hp := nomatch hp
  logged := h.logged
  heads := h.heads
  labels := h.labels

theorem Scanned.entry {n : Nat} {lines : List LogLine} (h : Scanned buf size base s)
    (hs : s.fileDirectoryEntry = some p) (hsub : s.subcount = n + 1)
    (hlabel : LabelFits buf s.clusterPtr) (hlines : fdeOffsets lines = []) :
    Scanned buf size base
      { s with clusterPtr := s.clusterPtr + entrySize, subcount := n, log := s.log ++ lines } := by
  obtain ⟨hp, hlt, hend⟩ := h.inside p hs
  have hstop : s.clusterPtr + entrySize ≤ setEnd buf p := by
    rw [← hend, hsub]
    simp only [entrySize]
    omega
  refine ⟨fun hn => (nomatch hs.symm.trans hn), fun p' hp' => ?_, ?_, fun q hq ho hh => ?_,
    fun p' j hp' h1 hj hq => ?_⟩
  · cases hs.symm.trans hp'
    refine ⟨hp, hlt.trans_le (Nat.le_add_right _ _), ?_⟩
    rw [← hend, hsub]
    simp only [entrySize]
    omega
  · rw [chosenBefore_skip (Nat.le_add_right s.clusterPtr entrySize)
      fun q hl hr => hp.not_chosen (hlt.trans_le hl) (hr.trans_le hstop), fdeOffsets,
      List.filterMap_append]
    rw [fdeOffsets] at hlines
    rw [hlines, List.append_nil]
    exact h.logged
  · rcases Nat.lt_or_ge q s.clusterPtr with hl | hl
    · exact h.heads q hl ho hh
    · exact absurd ho (hp.not_outside (hlt.trans_le hl) (hq.trans_le hstop))
  · rcases h.visited (.entry hs hsub hlabel hlines) hp' h1 hj hq with hbefore | ⟨heq, -, -⟩
    · exact h.labels p' j hp' h1 hj hbefore
    · rw [heq]
      exact hlabel

theorem Moves.scanned (h : Scanned buf size base s) (hm : Moves buf size base s t) :
    Scanned buf size base t := by
  cases hm with
  | next hs hset hfit => exact h.next hs hset hfit
  | found hs hset => exact h.found hs hset
  | leave hs hsub => exact h.leave hs hsub
  | entry hs hsub hlabel hlines => exact h.entry hs hsub hlabel hlines

/-- The buffers that the scan stays inside: outside of the sets found, no head of a set whose entries
do not fit, and inside of them no label whose text does not end in `namebuf`. -/
structure StaysInside (buf : List UInt8) : Prop where
  heads : ∀ p, p + 2 * entrySize < buf.length → OutsideSets buf p → HeadAt buf p →
    setEnd buf p ≤ buf.length
  labels : ∀ p j, Reported buf p → 1 ≤ j → j ≤ byteOf buf (p + 1) →
    p + entrySize * j + 2 * entrySize < buf.length → LabelFits buf (p + entrySize * j)

theorem Scanned.step_ok (h : Scanned buf size base s) (hin : StaysInside buf)
    (hr : s.clusterPtr + 2 * entrySize < buf.length) :
    ∃ t, clusterSearchStep buf size base s = .ok t := by
  refine clusterSearchStep_ok hr (fun hs => hin.heads _ hr (h.outside hs)) fun hs hsub => ?_
  obtain ⟨p, hp⟩ := Option.ne_none_iff_exists'.mp hs
  obtain ⟨j, h1, hj, heq⟩ := h.position hp hsub
  rw [heq] at hr ⊢
  exact hin.labels p j (h.inside p hp).1 h1 hj hr

/-- A scan that has seen the whole buffer stayed inside. -/
theorem Scanned.staysInside (h : Scanned buf size base s)
    (hr : ¬s.clusterPtr + 2 * entrySize < buf.length) : StaysInside buf where
  heads p hp := h.heads p (by omega)
  labels p j hp h1 hj hq := h.labels p j hp h1 hj (by omega)

theorem clusterSearch_eq {r : Except Halt ClusterSearch} {fuel : Nat}
    (h : clusterSearchLoop buf buf.length base fuel {} = r) :
    clusterSearchFileDirectoryEntries fuel buf base = r.map ClusterSearch.log := by
  rw [clusterSearchFileDirectoryEntries, h]
  cases r with
  | error e => rfl
  | ok t => rfl

/-- A scan that succeeds ends in a state that has seen the whole buffer. -/
theorem clusterSearch_ok {log : List LogLine}
    (h : ∀ fuel, 2 * buf.length + 1 ≤ fuel →
      clusterSearchFileDirectoryEntries fuel buf base = .ok log) :
    ∃ t, Scanned buf buf.length base t ∧ ¬t.clusterPtr + 2 * entrySize < buf.length ∧
      t.log = log := by
  obtain ⟨r, hr, hrun⟩ := clusterSearchLoop_run (le_refl buf.length) base
  have hlog := (clusterSearch_eq (hrun _ le_rfl)).symm.trans (h _ le_rfl)
  cases r with
  | error e => cases hlog
  | ok t =>
    obtain ⟨hs, hend⟩ := hr.keeps
      (fun s u hs hroom hstep => Moves.scanned hs (clusterSearchStep_moves hroom hstep))
      scanned_start t rfl
    exact ⟨t, hs, hend, Except.ok.inj hlog⟩

/-- A scan that can stay inside its buffer succeeds. -/
theorem StaysInside.run (h : StaysInside buf) (base : Nat) :
    ∃ log, ∀ fuel, 2 * buf.length + 1 ≤ fuel →
      clusterSearchFileDirectoryEntries fuel buf base = .ok log := by
  obtain ⟨r, hr, hrun⟩ := clusterSearchLoop_run (le_refl buf.length) base
  obtain ⟨t, rfl, -⟩ := hr.reaches (I := Scanned buf buf.length base) (fun s hs hroom => by
    obtain ⟨u, hu⟩ := hs.step_ok h hroom
    exact ⟨u, hu, Moves.scanned hs (clusterSearchStep_moves hroom hu)⟩) scanned_start
  exact ⟨t.log, fun fuel hf => clusterSearch_eq (hrun fuel hf)⟩

/-- A scan does not run forever. -/
theorem clusterSearch_ends (buf : List UInt8) (base : Nat) {fuel : Nat}
    (hf : 2 * buf.length + 1 ≤ fuel) :
    clusterSearchFileDirectoryEntries fuel buf base ≠ .error .fuel := by
  obtain ⟨r, hr, hrun⟩ := clusterSearchLoop_run (le_refl buf.length) base
  rw [clusterSearch_eq (hrun fuel hf)]
  cases r with
  | error e =>
    rw [hr.fault le_rfl e rfl]
    intro h
    cases h
  | ok t =>
    intro h
    cases h

/-- The scan ends, and it ends without an access out of bounds exactly when, outside of the sets it
finds, no head of a set announces entries behind the end of the buffer, and no label entry of such a
set announces more than sixteen units, or sixteen none of which ends the text. -/
theorem scan_staysInside_iff (buf : List UInt8) (base : Nat) :
    (∀ fuel, 2 * buf.length + 1 ≤ fuel →
      clusterSearchFileDirectoryEntries fuel buf base ≠ .error .fuel) ∧
    ((∃ log, ∀ fuel, 2 * buf.length + 1 ≤ fuel →
      clusterSearchFileDirectoryEntries fuel buf base = .ok log) ↔ StaysInside buf) := by
  refine ⟨fun fuel hf => clusterSearch_ends buf base hf, ?_, fun h => h.run base⟩
  rintro ⟨log, hlog⟩
  obtain ⟨t, hs, hend, -⟩ := clusterSearch_ok hlog
  exact hs.staysInside hend

/-- The head of a set of nineteen entries, in a buffer with room for three. -/
def tornSet : List UInt8 :=
  [0x85, 18] ++ List.replicate 30 0 ++ [0xc0] ++ List.replicate 31 0 ++ [0xc1] ++ List.replicate 32 0

/-- The checksum of a set that does not fit is computed all the same. -/
theorem scan_leaves_buffer :
    ¬∃ log, ∀ fuel, 2 * tornSet.length + 1 ≤ fuel →
      clusterSearchFileDirectoryEntries fuel tornSet 0 = .ok log := by
  rintro ⟨log, hlog⟩
  have hfault : clusterSearchFileDirectoryEntries 195 tornSet 0 = .error .fault := by
    decide +kernel
  cases hfault.symm.trans (hlog 195 (by decide))

theorem HeadAt.room (h : HeadAt buf p) (hfit : setEnd buf p ≤ buf.length) :
    p + 2 * entrySize < buf.length := by
  have htwo := h.two
  simp only [setEnd, entrySize] at *
  omega

/-- The entry sets in a buffer, from left to right, those inside others left out. -/
noncomputable def reportedSets (buf : List UInt8) : List Nat :=
  chosenBefore (FileSet buf) (setEnd buf) buf.length

theorem Reported.lt (h : Reported buf p) : p < buf.length := by
  have hset := (chosen_iff.mp h).1
  have hroom := hset.room hset.fits
  simp only [entrySize] at hroom
  omega

/-- A scan logs the sets that were to be reported, at the places that it computes for them. -/
theorem clusterSearch_logged {log : List LogLine}
    (h : ∀ fuel, 2 * buf.length + 1 ≤ fuel →
      clusterSearchFileDirectoryEntries fuel buf base = .ok log) :
    fdeOffsets log = (reportedSets buf).map (clusterOfs buf.length base) := by
  obtain ⟨t, hs, hend, rfl⟩ := clusterSearch_ok h
  rw [hs.logged, reportedSets]
  have hlt : ∀ q, Reported buf q → q < t.clusterPtr := fun q hq => by
    have hset := (chosen_iff.mp hq).1
    have hroom := hset.room hset.fits
    omega
  rcases Nat.le_total t.clusterPtr buf.length with hle | hle
  · rw [chosenBefore_skip hle fun q hl _ hq => Nat.not_lt.mpr hl (hlt q hq)]
  · rw [chosenBefore_skip hle fun q hl _ hq => Nat.not_lt.mpr hl (Reported.lt hq)]

/-- What a log has to say about a buffer that was read at `base`: the sets at their places, and that
a record read there begins with the set. -/
structure Reports (buf : List UInt8) (base : Nat) (log : List LogLine) : Prop where
  offsets : fdeOffsets log = (reportedSets buf).map (base + ·)
  found : ∀ dev : List UInt8, (dev.drop base).take buf.length = buf → ∀ ofs ∈ fdeOffsets log,
    ∃ p entry, Reported buf p ∧ processFileDirectoryEntryCb dev ofs = some entry ∧
      entry.bytes.take (entrySize * (byteOf buf (p + 1) + 1)) = setBytes buf p

/-- The place computed for a set is never its own: it is relative to the end of the buffer. -/
theorem clusterOfs_ne (hb : buf.length < 2 ^ 64) (hp : p < buf.length) :
    clusterOfs buf.length base p ≠ base + p := by
  unfold clusterOfs
  omega

theorem no_set_of_reports (hb : buf.length < 2 ^ 64) {log : List LogLine}
    (h : ∀ fuel, 2 * buf.length + 1 ≤ fuel →
      clusterSearchFileDirectoryEntries fuel buf base = .ok log)
    (hr : Reports buf base log) (p : Nat) : ¬Reported buf p := by
  intro hp
  have hmap := hr.offsets.symm.trans (clusterSearch_logged h)
  have heq := List.map_inj_left.mp hmap p (mem_chosenBefore.mpr ⟨hp.lt, hp⟩)
  exact clusterOfs_ne hb hp.lt heq.symm

/-- The log is right exactly when there is nothing to report: no position looks like the beginning of
a set, unless the entries fit into the buffer and their checksum is wrong. -/
theorem scan_reports_iff (hb : buf.length < 2 ^ 64) (base : Nat) :
    (∃ log, (∀ fuel, 2 * buf.length + 1 ≤ fuel →
        clusterSearchFileDirectoryEntries fuel buf base = .ok log) ∧ Reports buf base log) ↔
      ∀ p, p + 2 * entrySize < buf.length → HeadAt buf p → setEnd buf p ≤ buf.length ∧
        exfatCalcChecksum (setBytes buf p) ≠ leAt (setBytes buf p) 2 2 := by
  constructor
  · rintro ⟨log, hlog, hr⟩ p hroom hhead
    have hnone := no_set_of_reports hb hlog hr
    have hout : OutsideSets buf p := fun q _ hq => absurd hq (hnone q)
    obtain ⟨t, hs, hend, -⟩ := clusterSearch_ok hlog
    have hfit := (hs.staysInside hend).heads p hroom hout hhead
    exact ⟨hfit, fun hsum => hnone p (chosen_iff.mpr ⟨⟨hhead, hfit, hsum⟩, hout⟩)⟩
  · intro h
    have hnone : ∀ p, ¬Reported buf p := fun p hp => by
      have hset := (chosen_iff.mp hp).1
      exact (h p (hset.room hset.fits) hset.toHeadAt).2 hset.checksum
    have hin : StaysInside buf :=
      ⟨fun p hroom _ hhead => (h p hroom hhead).1, fun p _ hp => absurd hp (hnone p)⟩
    have hempty : reportedSets buf = [] :=
      List.eq_nil_iff_forall_not_mem.mpr fun p hp => hnone p (mem_chosenBefore.mp hp).2
    obtain ⟨log, hlog⟩ := hin.run base
    have hfde := clusterSearch_logged hlog
    rw [hempty, List.map_nil] at hfde
    refine ⟨log, hlog, by rw [hfde, hempty, List.map_nil], fun dev _ ofs hofs => ?_⟩
    rw [hfde] at hofs
    exact absurd hofs List.not_mem_nil

theorem not_headAt_zeros (n p : Nat) : ¬HeadAt (List.replicate n 0) p := by
  intro hhead
  have hfile := hhead.file
  rw [byteOf, List.getD_eq_getElem?_getD, List.getElem?_getD_replicate_default_eq] at hfile
  cases hfile

theorem scan_reports_iff_zeros :
    ∃ log, (∀ fuel, 2 * (List.replicate 512 (0 : UInt8)).length + 1 ≤ fuel →
        clusterSearchFileDirectoryEntries fuel (List.replicate 512 0) 0x40000 = .ok log) ∧
      Reports (List.replicate 512 0) 0x40000 log :=
  (scan_reports_iff (by rw [List.length_replicate]; decide) 0x40000).mpr fun p _ hhead =>
    absurd hhead (not_headAt_zeros 512 p)

/-- An entry set of a file entry, an info entry and a name entry. -/
def oneSet : List UInt8 :=
  [0x85, 2, 0x4a, 0x07] ++ List.replicate 28 0 ++ [0xc0] ++ List.replicate 31 0 ++ [0xc1] ++
    List.replicate 31 0

theorem oneSet_reported : Reported oneSet 0 :=
  chosen_iff.mpr ⟨⟨⟨by decide, by decide, by decide, by decide, by decide⟩, by decide,
    by decide +kernel⟩, outside_zero⟩

/-- The set at the beginning of a cluster is logged ninety-six bytes before the cluster. -/
theorem scan_misplaces_set :
    Reported oneSet 0 ∧
      clusterSearchFileDirectoryEntries 193 oneSet 0x40000 = .ok [.fde 0x3ffa0] ∧
      ¬∃ log, (∀ fuel, 2 * oneSet.length + 1 ≤ fuel →
        clusterSearchFileDirectoryEntries fuel oneSet 0x40000 = .ok log) ∧
          Reports oneSet 0x40000 log := by
  refine ⟨oneSet_reported, by decide +kernel, ?_⟩
  rintro ⟨log, hlog, hr⟩
  exact no_set_of_reports (by decide) hlog hr 0 oneSet_reported

end Proofs

end Exfat
