import Exfat.Proofs.Create
import Exfat.Proofs.Parse
import Exfat.Proofs.Utf

namespace Exfat
open Lib

/-! The entry sets that `commit_entry` and `rename_entry` write, and what `parse_file_entries` makes of
them. -/

namespace Proofs

variable {w : World} {n : Node} {id : NodeId} {name : List Nat} {head set : List UInt8}

/-- A name of 1 to 255 units in an array of 256, as `exfat_split` returns it. -/
structure StoredName (name : List Nat) : Prop extends NameOk name where
  nonempty : 0 < utf16Length name
  units : ∀ c ∈ name, c < 2 ^ 16
  padded : name = padName (name.take (utf16Length name))

theorem storedName_padName {units : List Nat} (h0 : units ≠ []) (hl : units.length ≤ exfatNameMax)
    (hu : ∀ c ∈ units, 0 < c ∧ c < 2 ^ 16) :
    StoredName (padName units) ∧ utf16Length (padName units) = units.length := by
  have hlen : utf16Length (padName units) = units.length := by
    rw [utf16Length_padName, utf16Length_eq fun c hc => (hu c hc).1]
  refine ⟨⟨nameOk_padName hl, ?_, fun c hc => ?_, ?_⟩, hlen⟩
  · rw [hlen]
    exact List.length_pos_iff.mpr h0
  · rcases List.mem_append.mp hc with hc | hc
    · exact (hu c hc).2
    · rw [List.eq_of_mem_replicate hc]
      norm_num
  · rw [hlen, padName, List.take_left]
    rfl

/-- The two meta data entries in front of a name. -/
structure HeadOk (head : List UInt8) (name : List Nat) : Prop where
  length : head.length = 64
  file : leAt head 0 1 = exfatEntryFile
  info : leAt head 32 1 = exfatEntryFileInfo
  continuations : leAt head 1 1 = 1 + nameEntries name
  nameLength : leAt head 35 1 = utf16Length name

/-- A set as it is written: two meta data entries, the name, and the checksum over all. -/
def writtenSet (head : List UInt8) (name : List Nat) : List UInt8 :=
  withChecksum (head ++ nameTail name)

theorem HeadOk.leAt_written (h : HeadOk head name) {o k : Nat} (ho : 4 ≤ o ∨ o + k ≤ 2)
    (hk : o + k ≤ 64) : leAt (writtenSet head name) o k = leAt head o k := by
  have hl := h.length
  rw [writtenSet, leAt_withChecksum (by rw [List.length_append]; omega) ho,
    leAt_append_left (by omega)]

theorem StoredName.set_length (hn : NameOk name) (h : HeadOk head name) :
    (writtenSet head name).length = 32 * (2 + nameEntries name) := by
  have hl := h.length
  rw [writtenSet, withChecksum_length (by rw [List.length_append]; omega), List.length_append, hl,
    hn.tail_length]
  omega

theorem le16s_toLe (units : List Nat) (h : ∀ c ∈ units, c < 2 ^ 16) (rest : List UInt8) :
    le16s units.length (units.flatMap (toLe 2) ++ rest) = units := by
  induction units with
  | nil => rfl
  | cons c units ih =>
    have hc : leNat (toLe 2 c) = c := by
      rw [leNat_toLe]
      exact Nat.mod_eq_of_lt (h c (by simp))
    rw [List.length_cons, le16s, List.flatMap_cons, List.append_assoc,
      List.take_left' (toLe_length 2 c), List.drop_left' (toLe_length 2 c), hc,
      ih fun x hx => h x (by simp [hx])]

/-- What stands behind the first name entries. -/
theorem NameOk.tail_drop (hn : NameOk name) {i : Nat} (hi : i < nameEntries name) :
    ∃ rest, (nameTail name).drop (32 * i) = nameEntry name i ++ rest := by
  have he := hn.entries
  obtain ⟨r, hr⟩ : ∃ r, nameEntries name = i + (r + 1) := ⟨nameEntries name - i - 1, by omega⟩
  rw [nameTail, hr, List.range_add, List.flatMap_append, List.drop_left' (hn.entries_length (by omega)),
    List.range_succ_eq_map, List.map_cons, List.flatMap_cons, Nat.add_zero]
  exact ⟨_, rfl⟩

theorem withChecksum_drop {e : List UInt8} {k : Nat} (hl : 4 ≤ e.length) (hk : 4 ≤ k) :
    (withChecksum e).drop k = e.drop k := by
  have h4 : (e.take 2 ++ toLe 2 (exfatCalcChecksum e)).length = 4 := by
    rw [List.length_append, List.length_take, toLe_length]
    omega
  have he : k = (e.take 2 ++ toLe 2 (exfatCalcChecksum e)).length + (k - 4) := by omega
  rw [withChecksum, setAt, he, ← List.drop_drop, List.drop_left, List.drop_drop, toLe_length, h4]

/-- A written set from one of its name entries on. -/
theorem HeadOk.drop_written (h : HeadOk head name) (hn : NameOk name) {i : Nat}
    (hi : i < nameEntries name) :
    ∃ rest, (writtenSet head name).drop (entrySize * (2 + i)) = nameEntry name i ++ rest := by
  have hl := h.length
  obtain ⟨rest, hr⟩ := hn.tail_drop hi
  refine ⟨rest, ?_⟩
  rw [writtenSet, withChecksum_drop (by rw [List.length_append]; omega) (by simp; omega),
    show entrySize * (2 + i) = head.length + 32 * i by simp only [entrySize]; omega,
    ← List.drop_drop, List.drop_left, hr]

theorem HeadOk.name_type (h : HeadOk head name) (hn : NameOk name) {i : Nat}
    (hi : i < nameEntries name) : entryType (writtenSet head name) (2 + i) = exfatEntryFileName := by
  obtain ⟨rest, hr⟩ := h.drop_written hn hi
  rw [entryType, List.getD_eq_getElem?_getD, ← Nat.add_zero (entrySize * (2 + i)),
    ← List.getElem?_drop, hr]
  rfl

theorem HeadOk.name_units (h : HeadOk head name) (hs : StoredName name) {i : Nat}
    (hi : i < nameEntries name) :
    nameUnits (writtenSet head name) (2 + i) = (name.drop (i * exfatEnameMax)).take exfatEnameMax := by
  have he := hs.entries
  have hlen : ((name.drop (i * exfatEnameMax)).take exfatEnameMax).length = exfatEnameMax := by
    rw [List.length_take, List.length_drop, hs.length]
    simp only [exfatEnameMax]
    omega
  have hlt : ∀ c ∈ (name.drop (i * exfatEnameMax)).take exfatEnameMax, c < 2 ^ 16 := fun c hc =>
    hs.units c (List.mem_of_mem_drop (List.mem_of_mem_take hc))
  obtain ⟨rest, hr⟩ := h.drop_written hs.toNameOk hi
  have hdrop : (writtenSet head name).drop (entrySize * (2 + i) + 2) =
      ((name.drop (i * exfatEnameMax)).take exfatEnameMax).flatMap (toLe 2) ++ rest := by
    rw [← List.drop_drop, hr]
    rfl
  have hread := le16s_toLe _ hlt rest
  rw [hlen] at hread
  rw [nameUnits, hdrop, hread]

theorem flatMap_chunks (l : List Nat) (c m : Nat) :
    ((List.range m).flatMap fun i => (l.drop (i * c)).take c) = l.take (m * c) := by
  induction m with
  | zero => simp
  | succ m ih =>
    rw [List.range_succ, List.flatMap_append, List.flatMap_singleton, ih, Nat.succ_mul, List.take_add]

theorem padName_take {units : List Nat} {m : Nat} (hl : units.length ≤ m)
    (hm : m ≤ exfatNameMax + 1) : padName ((padName units).take m) = padName units := by
  obtain ⟨r, rfl⟩ := Nat.exists_eq_add_of_le hl
  rw [padName, padName, List.take_length_add_append, List.take_replicate, List.append_assoc,
    List.length_append, List.length_replicate, List.replicate_append_replicate]
  congr 2
  omega

/-- The name of a written set is read back. -/
theorem HeadOk.parsed_name (h : HeadOk head name) (hs : StoredName name) :
    initNodeName (writtenSet head name) (nameEntries name) = name := by
  have hunits : ((List.range (nameEntries name)).flatMap fun i =>
      nameUnits (writtenSet head name) (2 + i)) = name.take (nameEntries name * exfatEnameMax) := by
    rw [← flatMap_chunks]
    refine List.flatMap_congr fun i hi => ?_
    exact h.name_units hs (List.mem_range.mp hi)
  have hle : utf16Length name ≤ nameEntries name * exfatEnameMax :=
    le_divRoundUp_mul _ (by decide)
  have he := hs.entries
  rw [initNodeName, hunits, hs.padded, padName_take]
  · rw [← hs.padded, List.length_take]
    omega
  · rw [← hs.padded]
    simp only [exfatEnameMax, exfatNameMax]
    omega

theorem HeadOk.types (h : HeadOk head name) (hs : StoredName name) :
    checkTypes none (entryTypes (writtenSet head name) (2 + nameEntries name)) = true := by
  have hl := StoredName.set_length hs.toNameOk h
  have h0 : entryType (writtenSet head name) 0 = exfatEntryFile := by
    rw [entryType, ← leAt_one (by omega), Nat.mul_zero, h.leAt_written (by omega) (by omega), h.file]
  have h1 : entryType (writtenSet head name) 1 = exfatEntryFileInfo := by
    rw [entryType, ← leAt_one (by simp only [entrySize]; omega), Nat.mul_one,
      h.leAt_written (by simp) (by simp)]
    exact h.info
  have hnames : (List.range (nameEntries name)).map (fun i =>
      entryType (writtenSet head name) (2 + i)) =
        List.replicate (nameEntries name) exfatEntryFileName := by
    rw [List.eq_replicate_iff]
    refine ⟨by simp, fun t ht => ?_⟩
    obtain ⟨i, hi, rfl⟩ := List.mem_map.mp ht
    exact h.name_type hs.toNameOk (List.mem_range.mp hi)
  obtain ⟨j, hj⟩ : ∃ j, nameEntries name = j + 1 := Nat.exists_eq_succ_of_ne_zero
    (Nat.pos_iff_ne_zero.mp ((divRoundUp_pos (by decide)).mpr hs.nonempty))
  have hall : entryTypes (writtenSet head name) (2 + nameEntries name) =
      exfatEntryFile :: exfatEntryFileInfo :: List.replicate (nameEntries name) exfatEntryFileName := by
    rw [entryTypes, List.range_add, List.map_append, List.map_map, ← hnames,
      show List.range 2 = [0, 1] from rfl, List.map_cons, List.map_cons, List.map_nil, h0, h1]
    rfl
  have hgrammar : exfatEntryFile :: exfatEntryFileInfo ::
        List.replicate (nameEntries name) exfatEntryFileName =
      0x85 :: 0xc0 :: (List.replicate (j + 1) 0xc1 ++ []) := by
    rw [hj, List.append_nil]
    rfl
  exact checkTypes_iff.mpr ⟨j, [], hall.trans hgrammar, by simp⟩

theorem HeadOk.need (h : HeadOk head name) : nameNeed (writtenSet head name) = nameEntries name := by
  rw [nameNeed, leAt_drop, h.leAt_written (by simp) (by simp), nameEntries, ← h.nameLength]
  rfl

variable [Env]

theorem HeadOk.initNode_written (h : HeadOk head name) (n : Node) :
    initNode (writtenSet head name) n = initNode head n := by
  have hw : ∀ o k, 4 ≤ o ∨ o + k ≤ 2 → o + k ≤ 64 →
      leAt (writtenSet head name) o k = leAt head o k := fun o k => h.leAt_written
  simp only [initNode, leAt_drop, entrySize]
  rw [hw 1 1 (by omega) (by omega), hw 4 2 (by omega) (by omega), hw 12 2 (by omega) (by omega),
    hw 14 2 (by omega) (by omega), hw 16 2 (by omega) (by omega), hw 18 2 (by omega) (by omega),
    hw 21 1 (by omega) (by omega), hw (32 + 1) 1 (by omega) (by omega),
    hw (32 + 20) 4 (by omega) (by omega), hw (32 + 24) 8 (by omega) (by omega)]

/-- A written set is accepted if its meta data are, and read back with its name. -/
theorem HeadOk.accepted {E : Halt → Prop} (h : HeadOk head name) (hs : StoredName name)
    (hf : leAt head 33 1 &&& (0xff - (exfatFlagAlways1 + exfatFlagContiguous)) = 0)
    (hm : NodeOk w.sb head (initNode head {})) (hn : w.nodes id = some n) :
    Wp E (parseFileEntries id (writtenSet head name) (2 + nameEntries name)) w fun rc v =>
      rc = .ok ∧ ∃ e, v = (w.erred e).setNode id { initNode head n with name := name } := by
  have hl := h.length
  have hpos : 0 < nameEntries name := (divRoundUp_pos (by decide)).mpr hs.nonempty
  have hc : leAt (writtenSet head name) 1 1 = 1 + nameEntries name := by
    rw [h.leAt_written (by omega) (by omega), h.continuations]
  have hparsed : ∀ m, parsed (writtenSet head name) m = { initNode head m with name := name } := by
    intro m
    rw [parsed, h.need, h.parsed_name hs, h.initNode_written]
  have hset : SetOk w.sb (writtenSet head name) (2 + nameEntries name) := by
    refine ⟨h.types hs, by omega, ?_, ?_, ?_⟩
    · rw [leAt_drop, h.leAt_written (by simp) (by simp)]
      exact hf
    · rw [hc, h.need]
    · rw [hparsed]
      refine ⟨?_, hm.empty, hm.start, hm.heap, hm.flag, hm.dir⟩
      rw [leAt_drop, h.leAt_written (by simp) (by simp), ← leAt_drop]
      exact hm.valid
  rw [← hparsed n]
  exact parseFileEntries_ok hn hset (withChecksum_ok (by rw [List.length_append]; omega))

/-- The two meta data entries that `commit_entry` writes. -/
def commitHead (upcase : Nat → Nat) (name : List Nat) (attrib : Nat) (now : Int) : List UInt8 :=
  let (date, time, cs) := exfatUnix2exfat now
  let length := utf16Length name
  (toLe 1 exfatEntryFile ++ toLe 1 (1 + nameEntries name) ++ toLe 2 0 ++
    toLe 2 attrib ++ toLe 2 0 ++ toLe 2 time ++ toLe 2 date ++ toLe 2 time ++ toLe 2 date ++
    toLe 2 time ++ toLe 2 date ++ toLe 1 cs ++ toLe 1 cs ++ toLe 10 0) ++
  (toLe 1 exfatEntryFileInfo ++ toLe 1 exfatFlagAlways1 ++ toLe 1 0 ++
    toLe 1 length ++ toLe 2 (exfatCalcNameHash upcase name length) ++ toLe 2 0 ++ toLe 8 0 ++
    toLe 4 0 ++ toLe 4 exfatClusterFree ++ toLe 8 0)

theorem commitEntries_eq (u : Nat → Nat) (name : List Nat) (attrib : Nat) (now : Int) :
    commitEntries u name attrib now = writtenSet (commitHead u name attrib now) name := rfl

theorem commitHead_headOk (u : Nat → Nat) (hn : NameOk name) (attrib : Nat) (now : Int) :
    HeadOk (commitHead u name attrib now) name := by
  have he := hn.entries
  have hs := hn.short
  unfold commitHead
  generalize exfatUnix2exfat now = t
  refine ⟨?_, ?_, ?_, ?_, ?_⟩
  · simp only [List.length_append, toLe_length]
  · simp (disch := decide) only [List.append_assoc, leAt_toLe_self]
    rfl
  · simp (disch := decide) only [List.append_assoc, leAt_toLe_right, leAt_toLe_self, Nat.reduceSub]
    rfl
  · simp (disch := decide) only [List.append_assoc, leAt_toLe_right, leAt_toLe_self, Nat.reduceSub]
    exact Nat.mod_eq_of_lt (by omega)
  · simp (disch := decide) only [List.append_assoc, leAt_toLe_right, leAt_toLe_self, Nat.reduceSub]
    exact Nat.mod_eq_of_lt (by omega)

/-- The node of a new file. -/
theorem commitHead_node (u : Nat → Nat) (hn : NameOk name) {attrib : Nat} (ha : attrib < 2 ^ 16)
    (now : Int) (n : Node) :
    let m := initNode (commitHead u name attrib now) n
    m.attrib = attrib ∧ m.continuations = 1 + nameEntries name ∧ m.size = 0 ∧ m.startCluster = 0 ∧
      m.isContiguous = false := by
  have hcont := (commitHead_headOk u hn attrib now).continuations
  simp only [initNode, leAt_drop, entrySize]
  refine ⟨?_, hcont, ?_, ?_, ?_⟩
  all_goals
    unfold commitHead
    generalize exfatUnix2exfat now = t
    simp (disch := decide) only [List.append_assoc, leAt_toLe_right, leAt_toLe_self, leAt_toLe,
      Nat.reduceSub, Nat.reduceAdd]
  · exact Nat.mod_eq_of_lt ha
  · rfl
  · rfl
  · rfl

theorem commitHead_mtime (u : Nat → Nat) (name : List Nat) (attrib : Nat) {now : Int}
    (ht : TimeInRange now) (n : Node) : (initNode (commitHead u name attrib now) n).mtime = now := by
  obtain ⟨hd, htm, hcs⟩ := exfatUnix2exfat_lt now
  have htime := timeOf_unix2exfat ht
  simp only [initNode]
  unfold commitHead
  generalize exfatUnix2exfat now = t at *
  simp (disch := decide) only [List.append_assoc, leAt_toLe_right, leAt_toLe_self, Nat.reduceSub]
  rw [Nat.mod_eq_of_lt (show t.1 < 256 ^ 2 from hd), Nat.mod_eq_of_lt (show t.2.1 < 256 ^ 2 from htm),
    Nat.mod_eq_of_lt (show t.2.2 < 256 ^ 1 from hcs)]
  exact htime

theorem commitHead_plain (u : Nat → Nat) (name : List Nat) (attrib : Nat) (now : Int) :
    leAt (commitHead u name attrib now) 33 1 &&& (0xff - (exfatFlagAlways1 + exfatFlagContiguous)) = 0 ∧
      leAt (commitHead u name attrib now) 40 8 = 0 := by
  unfold commitHead
  generalize exfatUnix2exfat now = t
  simp (disch := decide) only [List.append_assoc, leAt_toLe_right, leAt_toLe_self, Nat.reduceSub]
  exact ⟨rfl, rfl⟩

/-- The fields that `rename_entry` fills in. -/
def renameEdits (u : Nat → Nat) (name : List Nat) : List (Nat × List UInt8) :=
  [(1, toLe 1 (1 + nameEntries name)), (32 + 3, toLe 1 (utf16Length name)),
    (32 + 4, toLe 2 (exfatCalcNameHash u name (utf16Length name)))]

omit [Env] in
theorem renameEntries_eq (u : Nat → Nat) (entries : List UInt8) (name : List Nat) :
    renameEntries u entries name = writtenSet (edit entries (renameEdits u name)) name := rfl

omit [Env] in
theorem renameEdits_bound {entries : List UInt8} (hl : entries.length = 64) (u : Nat → Nat)
    (name : List Nat) : ∀ e ∈ renameEdits u name, e.1 + e.2.length ≤ entries.length := by
  intro e he
  simp only [renameEdits, List.mem_cons, List.not_mem_nil, or_false] at he
  rcases he with rfl | rfl | rfl <;> simp only [toLe_length] <;> omega

omit [Env] in
/-- The other fields are kept. -/
theorem leAt_rename {entries : List UInt8} (hl : entries.length = 64) (u : Nat → Nat)
    (name : List Nat) {o k : Nat} (h1 : o + k ≤ 1 ∨ 2 ≤ o) (h2 : o + k ≤ 35 ∨ 38 ≤ o) :
    leAt (edit entries (renameEdits u name)) o k = leAt entries o k := by
  refine leAt_edit (renameEdits_bound hl u name) fun e he => ?_
  simp only [renameEdits, List.mem_cons, List.not_mem_nil, or_false] at he
  rcases he with rfl | rfl | rfl <;> simp only [toLe_length] <;> omega

omit [Env] in
/-- The meta data of a set that was accepted, under a new name. -/
theorem renameHead_ok {entries : List UInt8} (hl : entries.length = 64)
    (h0 : leAt entries 0 1 = exfatEntryFile) (h1 : leAt entries 32 1 = exfatEntryFileInfo)
    (u : Nat → Nat) (hn : NameOk name) : HeadOk (edit entries (renameEdits u name)) name := by
  have he := hn.entries
  have hs := hn.short
  have hb := renameEdits_bound hl u name
  refine ⟨(edit_length hb).trans hl, ?_, ?_, ?_, ?_⟩
  · rw [leAt_rename hl u name (by omega) (by omega), h0]
  · rw [leAt_rename hl u name (by omega) (by omega), h1]
  · refine (leAt_edit_hit [] hb ?_).trans (Nat.mod_eq_of_lt (by omega))
    simp
  · refine (leAt_edit_hit [_] hb ?_).trans (Nat.mod_eq_of_lt (by omega))
    simp

theorem renameHead_node {entries : List UInt8} (hl : entries.length = 64) (u : Nat → Nat)
    (name : List Nat) (n : Node) :
    initNode (edit entries (renameEdits u name)) n =
      { initNode entries n with
        continuations := leAt (edit entries (renameEdits u name)) 1 1 } := by
  have hw : ∀ o k, o + k ≤ 1 ∨ 2 ≤ o → o + k ≤ 35 ∨ 38 ≤ o →
      leAt (edit entries (renameEdits u name)) o k = leAt entries o k := fun o k =>
    leAt_rename hl u name
  simp only [initNode, leAt_drop, entrySize]
  rw [hw 4 2 (by omega) (by omega), hw 12 2 (by omega) (by omega),
    hw 14 2 (by omega) (by omega), hw 16 2 (by omega) (by omega), hw 18 2 (by omega) (by omega),
    hw 21 1 (by omega) (by omega), hw (32 + 1) 1 (by omega) (by omega),
    hw (32 + 20) 4 (by omega) (by omega), hw (32 + 24) 8 (by omega) (by omega)]

/-- The set that `commit_entry` writes is accepted and read back as a new file of that name. -/
theorem commitEntries_read_back (u : Nat → Nat) (hs : StoredName name) {attrib : Nat}
    (ha : attrib < 2 ^ 16) (now : Int) (hn : w.nodes id = some n) :
    ∃ v m, parseFileEntries id (commitEntries u name attrib now) (2 + nameEntries name) w =
        .ok (.ok, v) ∧ v.nodes id = some m ∧ m.name = name ∧ m.attrib = attrib ∧
      m.continuations = 1 + nameEntries name ∧ m.size = 0 ∧ m.startCluster = 0 ∧
      (TimeInRange now → m.mtime = now) := by
  have hhead := commitHead_headOk u hs.toNameOk attrib now
  have hplain := commitHead_plain u name attrib now
  have hnew := commitHead_node u hs.toNameOk ha now
  have htime := fun ht : TimeInRange now => commitHead_mtime u name attrib ht n
  rw [commitEntries_eq]
  generalize commitHead u name attrib now = head at *
  obtain ⟨hflags, hvalid⟩ := hplain
  obtain ⟨-, -, hsize, hstart, hcont⟩ := hnew {}
  have hm : NodeOk w.sb head (initNode head {}) := by
    refine ⟨?_, fun _ => hstart, fun hp => ?_, ?_, fun _ => hcont, fun _ => ?_⟩
    · rw [leAt_drop, hsize]
      exact hvalid.le
    · rw [hsize] at hp
      cases hp
    · rw [hsize]
      exact Nat.zero_le _
    · rw [hsize, Nat.zero_mod]
  obtain ⟨rc, v, hrun, rfl, e, rfl⟩ := (hhead.accepted (E := fun _ => False) hs hflags hm hn).returns
  obtain ⟨h1, h2, h3, h4, -⟩ := hnew n
  exact ⟨_, _, hrun, World.setNode_self _ _ _, rfl, h1, h2, h3, h4, htime⟩

/-- The set that `rename_entry` makes of an accepted one is accepted and read back as the same file
under the new name. -/
theorem renameEntries_read_back (u : Nat → Nat) (hs : StoredName name) {k : Nat} {v w' : World}
    {id' : NodeId} {n' : Node} (hn : w.nodes id = some n) (hlen : set.length = entrySize * k)
    (h : parseFileEntries id set k w = .ok (.ok, v)) (hsb : w'.sb = w.sb)
    (hn' : w'.nodes id' = some n') :
    ∃ m v' m', v.nodes id = some m ∧
      parseFileEntries id' (renameEntries u (set.take (entrySize * 2)) name) (2 + nameEntries name)
        w' = .ok (.ok, v') ∧
      v'.nodes id' = some m' ∧ m'.name = name ∧ m'.attrib = m.attrib ∧ m'.size = m.size ∧
      m'.startCluster = m.startCluster ∧ m'.isContiguous = m.isContiguous ∧ m'.mtime = m.mtime ∧
      m'.atime = m.atime := by
  have hrun := parseFileEntries_run set k hn
  rw [Wp, h] at hrun
  obtain ⟨-, hset, ⟨d, hd⟩, -⟩ := hrun rfl
  obtain ⟨names, htyped⟩ := typed_of_check hset.types
  have hk := htyped.count
  have hl64 : 64 ≤ set.length := by
    rw [hlen]
    simp only [entrySize]
    omega
  have hl : (set.take (entrySize * 2)).length = 64 := by
    rw [List.length_take]
    simp only [entrySize]
    omega
  -- the meta data that were read are those of the set
  have htake : ∀ o c, o + c ≤ 64 → leAt (set.take (entrySize * 2)) o c = leAt set o c := by
    intro o c hoc
    conv_rhs => rw [← List.take_append_drop (entrySize * 2) set]
    rw [leAt_append_left (by omega)]
  have h0 : leAt (set.take (entrySize * 2)) 0 1 = exfatEntryFile := by
    rw [htake 0 1 (by omega), leAt_one (by omega)]
    exact htyped.file
  have h1 : leAt (set.take (entrySize * 2)) 32 1 = exfatEntryFileInfo := by
    rw [htake 32 1 (by omega), leAt_one (by omega)]
    exact htyped.info
  have hhead := renameHead_ok hl h0 h1 u hs.toNameOk
  have hinit : ∀ m, initNode (set.take (entrySize * 2)) m = initNode set m := by
    intro m
    simp only [initNode, leAt_drop, entrySize] at htake ⊢
    rw [htake 1 1 (by omega), htake 4 2 (by omega), htake 12 2 (by omega), htake 14 2 (by omega),
      htake 16 2 (by omega), htake 18 2 (by omega), htake 21 1 (by omega), htake (32 + 1) 1 (by omega),
      htake (32 + 20) 4 (by omega), htake (32 + 24) 8 (by omega)]
  have hnode := fun m => renameHead_node hl u name m
  simp only [hinit] at hnode
  have hflags : leAt (edit (set.take (entrySize * 2)) (renameEdits u name)) 33 1 &&&
      (0xff - (exfatFlagAlways1 + exfatFlagContiguous)) = 0 := by
    rw [leAt_rename hl u name (by omega) (by omega), htake 33 1 (by omega)]
    have := hset.flags
    rwa [leAt_drop] at this
  have hm : NodeOk w'.sb (edit (set.take (entrySize * 2)) (renameEdits u name))
      (initNode (edit (set.take (entrySize * 2)) (renameEdits u name)) {}) := by
    rw [hnode, hsb]
    refine ⟨?_, hset.node.empty, hset.node.start, hset.node.heap, hset.node.flag, hset.node.dir⟩
    have hvalid := hset.node.valid
    rw [leAt_drop] at hvalid ⊢
    rw [leAt_rename hl u name (by simp) (by simp), htake _ _ (by simp)]
    exact hvalid
  obtain ⟨rc, v', hrun', rfl, e, rfl⟩ :=
    (hhead.accepted (E := fun _ => False) hs hflags hm hn').returns
  rw [hnode] at hrun'
  rw [renameEntries_eq]
  exact ⟨_, _, _, hd, hrun', World.setNode_self _ _ _, rfl, rfl, rfl, rfl, rfl, rfl, rfl⟩

/-- Written sets read back. A new file has its name, attribute and entries and is empty; a renamed
one keeps everything but its name. -/
theorem written_sets_read_back (u : Nat → Nat) {units : List Nat} (h0 : units ≠ [])
    (hl : units.length ≤ exfatNameMax) (hu : ∀ c ∈ units, 0 < c ∧ c < 2 ^ 16)
    (hn : w.nodes id = some n) :
    (∀ attrib now, attrib < 2 ^ 16 → TimeInRange now →
      ∃ v m, parseFileEntries id (commitEntries u (padName units) attrib now)
          (2 + divRoundUp units.length exfatEnameMax) w = .ok (.ok, v) ∧ v.nodes id = some m ∧
        m.name = padName units ∧ m.attrib = attrib ∧
        m.continuations = 1 + divRoundUp units.length exfatEnameMax ∧ m.size = 0 ∧
        m.startCluster = 0 ∧ m.mtime = now) ∧
    ∀ set k w' id' n' v', w'.sb = w.sb → w'.nodes id' = some n' → set.length = entrySize * k →
      parseFileEntries id' set k w' = .ok (.ok, v') →
      ∃ m v m', v'.nodes id' = some m ∧
        parseFileEntries id (renameEntries u (set.take (entrySize * 2)) (padName units))
          (2 + divRoundUp units.length exfatEnameMax) w = .ok (.ok, v) ∧ v.nodes id = some m' ∧
        m'.name = padName units ∧ m'.attrib = m.attrib ∧ m'.size = m.size ∧
        m'.startCluster = m.startCluster ∧ m'.isContiguous = m.isContiguous ∧
        m'.mtime = m.mtime ∧ m'.atime = m.atime := by
  obtain ⟨hs, hlen⟩ := storedName_padName h0 hl hu
  have he : divRoundUp units.length exfatEnameMax = nameEntries (padName units) := by
    rw [nameEntries, hlen]
  rw [he]
  refine ⟨fun attrib now ha ht => ?_, fun set k w' id' n' v' hsb hn' hset hrun =>
    renameEntries_read_back u hs hn' hset hrun hsb.symm hn⟩
  obtain ⟨v, m, hrun, hm, h1, h2, h3, h4, h5, h6⟩ := commitEntries_read_back u hs ha now hn
  exact ⟨v, m, hrun, hm, h1, h2, h3, h4, h5, h6 ht⟩

omit [Env] in
/-- A new file `a`, and a file with a tail entry renamed to `a`. -/
theorem written_sets_read_back_letter :
    (∃ v m, @parseFileEntries calmEnv 0
      (@commitEntries calmEnv (fun c => c) (padName [0x61]) exfatAttribArch 1000000000) 3 newNode =
        .ok (.ok, v) ∧ v.nodes 0 = some m ∧ m.name = padName [0x61]) ∧
    ∃ v m, @parseFileEntries calmEnv 0
      (renameEntries (fun c => c) ((tailSet 15).take 64) (padName [0x61])) 3 newNode =
        .ok (.ok, v) ∧ v.nodes 0 = some m ∧ m.name = padName [0x61] := by
  let _ := calmEnv
  have hnode : newNode.nodes 0 = some { name := padName [] } := World.setNode_self _ _ _
  obtain ⟨hnew, hrename⟩ := written_sets_read_back (fun c => c) (List.cons_ne_nil 0x61 [])
    (by decide) (by simp) hnode
  obtain ⟨v, m, hrun, hm, hname, -⟩ := hnew exfatAttribArch 1000000000 (by decide)
    ⟨by decide, by decide⟩
  obtain ⟨v', hset⟩ := tailSet_accepted 15 (.inl rfl)
  obtain ⟨-, v'', m'', -, hrun', hm', hname', -⟩ := hrename (tailSet 15) 4 newNode 0 _ v' rfl
    (World.setNode_self _ _ _) (by decide +kernel) hset
  exact ⟨⟨v, m, hrun, hm, hname⟩, ⟨v'', m'', hrun', hm', hname'⟩⟩

end Proofs

end Exfat
