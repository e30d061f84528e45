import Exfat.Model.ScanLog
import Exfat.Proofs.Scan

namespace Exfat
open Lib

/-! The log of a scan, as it is written and as it is read back. -/

/-- The offset of a file that a record tells. -/
def ScanRecord.fileOffset : ScanRecord → Option Nat
  | .entry line => Proofs.fdeOffset line
  | _ => none

/-- The offsets that the reader passes on, if it takes all the lines. -/
def offsetsOf : List (List UInt8) → Option (List Nat)
  | [] => some []
  | line :: rest => do
    let ofs ← lineOffset line
    let offsets ← offsetsOf rest
    some (ofs.toList ++ offsets)

/-- The reader takes the lines of a record and passes on the offset that it tells. -/
def ReadsBack (r : ScanRecord) : Prop := offsetsOf (getlines [] r.text) = some r.fileOffset.toList

/-- The lines of a name behind the first. -/
def furtherLines (name : List UInt8) : List (List UInt8) := (getlines [] (name ++ [newline])).tail

/-- No line of a name behind the first is of an unknown format or tells a file. -/
def PlainName (name : List UInt8) : Prop := ∀ line ∈ furtherLines name, lineOffset line = some none

/-- The text of the name entry at `q`, as it is logged. -/
def nameText (buf : List UInt8) (q : Nat) : List UInt8 :=
  cString ((List.range exfatEnameMax).map fun i => buf.getD (q + 2 + 2 * i) 0)

/-- The entry at `q` is no label, and if it holds a name, its text is harmless. -/
structure EntryReadable (buf : List UInt8) (q : Nat) : Prop where
  label : Proofs.byteOf buf q ≠ exfatEntryLabel
  name : Proofs.byteOf buf q = exfatEntryFileName → PlainName (nameText buf q)

/-- The first `size` bytes of a buffer can be scanned into a log that is read back: outside of the
sets found, no head of a set whose entries do not fit into the buffer, and inside of them readable
entries only. -/
structure FrontReadable (buf : List UInt8) (size : Nat) : Prop where
  heads : ∀ p, p + 2 * entrySize < size → Proofs.OutsideSets buf p → Proofs.HeadAt buf p →
    Proofs.setEnd buf p ≤ buf.length
  entries : ∀ p j, Proofs.Reported buf p → 1 ≤ j → j ≤ Proofs.byteOf buf (p + 1) →
    p + entrySize * j + 2 * entrySize < size → EntryReadable buf (p + entrySize * j)

/-- Where the device stands and what `cluster_buf` holds before read `n`, if no read failed. -/
def ScanDevice.before (dev : ScanDevice) (memory : Vector UInt8 clusterSizeBytes) :
    Nat → Nat × List UInt8
  | 0 => (startOffsetBytes, memory.toList)
  | n + 1 =>
    let (pos, buf) := dev.before memory n
    let rd := (dev.read n pos).getD []
    (pos + rd.length, rd ++ buf.drop rd.length)

/-- The reads before read `n` did not come to the end of the device. -/
def ScanDevice.Reaches (dev : ScanDevice) (memory : Vector UInt8 clusterSizeBytes) (n : Nat) :
    Prop :=
  ∀ m < n, (dev.before memory m).1 < dev.bytes.length

/-- Read `n` succeeds, and what it returns can be scanned into a log that is read back. -/
structure CleanRead (dev : ScanDevice) (memory : Vector UInt8 clusterSizeBytes) (n : Nat) :
    Prop where
  succeeds : dev.outcome n ≠ none
  readable : ∀ rd, dev.read n (dev.before memory n).1 = some rd →
    FrontReadable (rd ++ (dev.before memory n).2.drop rd.length) rd.length

namespace Proofs

variable {line text word : List UInt8} {ofs n k : Nat}

theorem hexValue_digit {d : Nat} (h : d < 16) : hexValue (hexDigit d) = some d := by
  interval_cases d <;> rfl

theorem hexDigit_plain {d : Nat} (h : d < 16) :
    isSpace (hexDigit d) = false ∧ hexDigit d ≠ newline ∧ hexDigit d ≠ 0x2d ∧ hexDigit d ≠ 0x2b ∧
      hexDigit d ≠ 0x78 ∧ hexDigit d ≠ 0x58 := by
  interval_cases d <;> decide

/-- Digits that are printed are the value when they are read. -/
theorem hexDigits_text (k n acc : Nat) (rest : List UInt8) :
    hexDigits (hexText k n ++ rest) acc = hexDigits rest (acc * 16 ^ k + n % 16 ^ k) := by
  induction k generalizing n acc rest with
  | zero => simp [hexText, Nat.mod_one]
  | succ k ih =>
    rw [hexText, List.append_assoc, ih, List.singleton_append, hexDigits,
      hexValue_digit (Nat.mod_lt _ (by decide))]
    simp only
    have hmod : n % 16 ^ (k + 1) = n / 16 % 16 ^ k * 16 + n % 16 := by
      rw [Nat.pow_succ', Nat.mod_mul]
      omega
    rw [hmod, Nat.pow_succ]
    congr 1
    ring

/-- A number of two or more digits begins with two of them. -/
theorem hexText_cons (k n : Nat) : ∃ a b rest, a < 16 ∧ b < 16 ∧
    hexText (k + 2) n = hexDigit a :: hexDigit b :: rest := by
  induction k generalizing n with
  | zero =>
    exact ⟨n / 16 % 16, n % 16, [], Nat.mod_lt _ (by decide), Nat.mod_lt _ (by decide), rfl⟩
  | succ k ih =>
    obtain ⟨a, b, rest, ha, hb, he⟩ := ih (n / 16)
    exact ⟨a, b, rest ++ [hexDigit (n % 16)], ha, hb, by rw [hexText, he]; rfl⟩

theorem hexText_no_newline (k n : Nat) : newline ∉ hexText k n := by
  induction k generalizing n with
  | zero => exact List.not_mem_nil
  | succ k ih =>
    rw [hexText, List.mem_append, List.mem_singleton]
    rintro (h | h)
    · exact ih _ h
    · exact (hexDigit_plain (Nat.mod_lt n (by decide))).2.1 h.symm

/-- Where a number ends: at the end of the line or at a blank. -/
def EndsNumber (rest : List UInt8) : Prop := ∀ b ∈ rest.head?, b = 0x20

theorem hexDigits_ends {rest : List UInt8} (h : EndsNumber rest) (acc : Nat) :
    hexDigits rest acc = (acc, rest) := by
  cases rest with
  | nil => rfl
  | cons b rest =>
    obtain rfl : b = 0x20 := h b rfl
    rfl

theorem extractSign_digit {d : Nat} (h : d < 16) (s : List UInt8) :
    extractSign (hexDigit d :: s) = (false, hexDigit d :: s) := by
  interval_cases d <;> rfl

theorem skipHexMark_digits {a b : Nat} (hb : b < 16) (s : List UInt8) :
    skipHexMark (hexDigit a :: hexDigit b :: s) = hexDigit a :: hexDigit b :: s := by
  obtain ⟨-, -, -, -, h1, h2⟩ := hexDigit_plain hb
  unfold skipHexMark
  split
  · rename_i heq
    exact absurd (List.cons.inj (List.cons.inj heq).2).1 h1
  · rename_i heq
    exact absurd (List.cons.inj (List.cons.inj heq).2).1 h2
  · rfl

/-- A number that was printed is read back. -/
theorem extractHex_text (h2 : 2 ≤ k) (hk : k ≤ 16) (n : Nat) {rest : List UInt8}
    (h : EndsNumber rest) : extractHex (0x20 :: (hexText k n ++ rest)) = some (n % 16 ^ k, rest) := by
  obtain ⟨a, b, digits, ha, hb, he⟩ := hexText_cons (k - 2) n
  rw [Nat.sub_add_cancel h2] at he
  have hvalue := hexDigits_text k n 0 rest
  rw [hexDigits_ends h, Nat.zero_mul, Nat.zero_add] at hvalue
  have hlt : n % 16 ^ k < 2 ^ 64 := by
    refine (Nat.mod_lt n (by positivity)).trans_le ?_
    calc 16 ^ k ≤ 16 ^ 16 := Nat.pow_le_pow_right (by decide) hk
      _ = 2 ^ 64 := by norm_num
  rw [he, List.cons_append, List.cons_append] at hvalue ⊢
  have hskip : (0x20 :: hexDigit a :: hexDigit b :: (digits ++ rest)).dropWhile isSpace =
      hexDigit a :: hexDigit b :: (digits ++ rest) := by
    rw [List.dropWhile_cons_of_pos (by decide),
      List.dropWhile_cons_of_neg (by rw [(hexDigit_plain ha).1]; decide)]
  have hdigit : ((hexDigit a :: hexDigit b :: (digits ++ rest)).head?.bind hexValue).isSome = true := by
    rw [List.head?_cons, Option.bind_some, hexValue_digit ha]
    rfl
  simp only [extractHex, hskip, extractSign_digit ha, skipHexMark_digits hb, hvalue]
  rw [if_pos ⟨hdigit, hlt⟩, if_neg Bool.false_ne_true]

theorem extractHex_last (h2 : 2 ≤ k) (hk : k ≤ 16) (n : Nat) :
    extractHex (0x20 :: hexText k n) = some (n % 16 ^ k, []) := by
  have h := extractHex_text h2 hk n (fun b (hb : b ∈ [].head?) => by cases hb)
  rwa [List.append_nil] at h

/-- A word and the blank behind it. -/
theorem extractWord_blank (word rest : List UInt8) (hne : word ≠ [])
    (h : ∀ b ∈ word, isSpace b = false) :
    extractWord (word ++ 0x20 :: rest) = some (word, 0x20 :: rest) := by
  have hskip : (word ++ 0x20 :: rest).dropWhile isSpace = word ++ 0x20 :: rest := by
    cases word with
    | nil => exact absurd rfl hne
    | cons b word =>
      rw [List.cons_append, List.dropWhile_cons_of_neg (by rw [h b (by simp)]; decide)]
  have hword : ∀ b ∈ word, (!isSpace b) = true := fun b hb => by rw [h b hb]; rfl
  rw [extractWord, hskip, if_neg (by simp), List.takeWhile_append_of_pos hword,
    List.dropWhile_append_of_pos hword, List.takeWhile_cons_of_neg (by decide),
    List.dropWhile_cons_of_neg (by decide), List.append_nil]

theorem extractWord_skip (s : List UInt8) : extractWord (0x20 :: s) = extractWord s := by
  rw [extractWord, extractWord, List.dropWhile_cons_of_pos (by decide)]

/-- What the reader makes of the line of a file. -/
theorem lineOffset_fde (ofs : Nat) :
    lineOffset (bytesOf "FDE " ++ hexText 16 ofs) = some (some (ofs % 16 ^ 16)) := by
  have hblank : bytesOf "FDE " = bytesOf "FDE" ++ [0x20] := by decide
  rw [lineOffset, hblank, List.append_assoc, List.singleton_append,
    extractWord_blank (bytesOf "FDE") _ (by decide) (by decide +kernel)]
  simp only [Option.bind_eq_bind, Option.bind_some]
  rw [if_neg (by decide), if_pos trivial, extractHex_last (by decide) le_rfl]
  rfl

/-- A line that is no cluster and no file is read by its first word alone. -/
theorem lineOffset_word (word rest : List UInt8) (hne : word ≠ [])
    (h : ∀ b ∈ word, isSpace b = false) (hc : word ≠ bytesOf "CLUSTER")
    (hf : word ≠ bytesOf "FDE") : lineOffset (word ++ 0x20 :: rest) =
      if word = bytesOf "EFI" ∨ word = bytesOf "EFN" then some none else none := by
  rw [lineOffset, extractWord_blank word rest hne h]
  simp only [Option.bind_eq_bind, Option.bind_some, if_neg hc, if_neg hf]
  by_cases h1 : word = bytesOf "EFI"
  · rw [if_pos h1, if_pos (.inl h1)]
    rfl
  · by_cases h2 : word = bytesOf "EFN"
    · rw [if_neg h1, if_pos h2, if_pos (.inr h2)]
      rfl
    · rw [if_neg h1, if_neg h2, if_neg (by rintro (h | h) <;> contradiction)]

theorem lineOffset_cluster (c ofs : Nat) :
    lineOffset (bytesOf "CLUSTER " ++ hexText 8 c ++ bytesOf " OFFSET " ++ hexText 16 ofs) =
      some none := by
  have hfirst : bytesOf "CLUSTER " = bytesOf "CLUSTER" ++ [0x20] := by decide
  have hsecond : bytesOf " OFFSET " = 0x20 :: (bytesOf "OFFSET" ++ [0x20]) := by decide
  rw [lineOffset, hfirst, hsecond]
  simp only [List.append_assoc, List.cons_append, List.nil_append]
  rw [extractWord_blank (bytesOf "CLUSTER") _ (by decide) (by decide +kernel)]
  simp only [Option.bind_eq_bind, Option.bind_some, if_true]
  rw [extractHex_text (by decide) (by decide) c (fun b hb => by cases hb; rfl)]
  simp only [Option.bind_some]
  rw [extractWord_skip, extractWord_blank (bytesOf "OFFSET") _ (by decide) (by decide +kernel)]
  simp only [Option.bind_some]
  rw [extractHex_last (by decide) le_rfl]
  rfl

theorem getlines_append (s line rest : List UInt8) :
    getlines line (s ++ newline :: rest) = getlines line (s ++ [newline]) ++ getlines [] rest := by
  induction s generalizing line with
  | nil => simp [getlines]
  | cons b s ih =>
    simp only [List.cons_append, getlines]
    split
    · rw [ih, List.cons_append]
    · exact ih _

theorem getlines_within {s : List UInt8} (h : newline ∉ s) (line rest : List UInt8) :
    getlines line (s ++ rest) = getlines (line ++ s) rest := by
  induction s generalizing line with
  | nil => rw [List.nil_append, List.append_nil]
  | cons b s ih =>
    simp only [List.mem_cons, not_or] at h
    rw [List.cons_append, getlines, if_neg (Ne.symm h.1), ih h.2, List.append_assoc,
      List.singleton_append]

theorem getlines_line {s : List UInt8} (h : newline ∉ s) : getlines [] (s ++ [newline]) = [s] := by
  rw [getlines_within h]
  rfl

/-- What stands before a name changes only the first of its lines. -/
theorem getlines_name (line name : List UInt8) : getlines line (name ++ [newline]) =
    (line ++ name.takeWhile (· ≠ newline)) :: furtherLines name := by
  induction name generalizing line with
  | nil => simp [getlines, furtherLines]
  | cons b name ih =>
    simp only [furtherLines, List.cons_append, getlines]
    by_cases hb : b = newline
    · rw [if_pos hb, if_pos hb, List.takeWhile_cons_of_neg (by simpa using hb), List.append_nil,
        List.tail_cons]
    · rw [if_neg hb, if_neg hb, ih, ih, List.takeWhile_cons_of_pos (by simpa using hb),
        List.tail_cons, List.append_assoc, List.singleton_append]

theorem offsetsOf_append (s t : List (List UInt8)) :
    offsetsOf (s ++ t) = (offsetsOf s).bind fun x => (offsetsOf t).map (x ++ ·) := by
  induction s with
  | nil => simp [offsetsOf]
  | cons l s ih =>
    simp only [List.cons_append, offsetsOf, ih, Option.bind_eq_bind]
    cases lineOffset l with
    | none => rfl
    | some ofs =>
      cases offsetsOf s with
      | none => rfl
      | some x => cases offsetsOf t <;> simp

/-- A rebuild that throws no exception has taken all the lines. -/
theorem rebuildLoop_iff (lines : List (List UInt8)) (lineNo : Nat) (offsets : List Nat) :
    rebuildLoop lineNo lines = ⟨offsets, none⟩ ↔ offsetsOf lines = some offsets := by
  induction lines generalizing lineNo offsets with
  | nil =>
    rw [rebuildLoop, offsetsOf, Option.some.injEq, Rebuilt.mk.injEq, and_iff_left rfl]
  | cons l lines ih =>
    simp only [rebuildLoop, processLine, offsetsOf, Option.bind_eq_bind]
    cases lineOffset l with
    | none =>
      constructor
      · intro h
        cases h
      · intro h
        cases h
    | some ofs =>
      simp only [Option.bind_some, Rebuilt.mk.injEq]
      have hi := ih (lineNo + 1)
      generalize rebuildLoop (lineNo + 1) lines = r at hi
      constructor
      · rintro ⟨rfl, he⟩
        rw [(hi r.offsets).mp (by rw [← he])]
        rfl
      · intro h
        obtain ⟨x, hx, hsum⟩ := Option.bind_eq_some_iff.mp h
        rw [(hi x).mpr hx]
        exact ⟨Option.some.inj hsum, rfl⟩

/-- Every record ends its last line. -/
theorem text_ends (r : ScanRecord) : ∃ s, r.text = s ++ [newline] := by
  cases r with
  | entry line => cases line <;> exact ⟨_, rfl⟩
  | cluster c ofs => exact ⟨_, rfl⟩
  | badCluster c ofs => exact ⟨_, rfl⟩

theorem offsetsOf_log (r : ScanRecord) (rest : List ScanRecord) :
    offsetsOf (getlines [] ((r :: rest).flatMap ScanRecord.text)) =
      (offsetsOf (getlines [] r.text)).bind fun x =>
        (offsetsOf (getlines [] (rest.flatMap ScanRecord.text))).map (x ++ ·) := by
  obtain ⟨s, hs⟩ := text_ends r
  rw [List.flatMap_cons, hs, List.append_assoc, List.singleton_append, getlines_append,
    offsetsOf_append]

/-- No record that the reader takes passes on less than what it tells, if the files do not. -/
theorem offsetsOf_length {log : List ScanRecord} {x : List Nat}
    (hf : ∀ r ∈ log, r.fileOffset ≠ none → ReadsBack r)
    (h : offsetsOf (getlines [] (log.flatMap ScanRecord.text)) = some x) :
    (log.filterMap ScanRecord.fileOffset).length ≤ x.length := by
  induction log generalizing x with
  | nil => exact Nat.zero_le _
  | cons r log ih =>
    rw [offsetsOf_log] at h
    obtain ⟨y, hy, hmap⟩ := Option.bind_eq_some_iff.mp h
    obtain ⟨z, hz, rfl⟩ := Option.map_eq_some_iff.mp hmap
    have hrest := ih (fun q hq => hf q (by simp [hq])) hz
    rw [List.length_append]
    cases hr : r.fileOffset with
    | none =>
      rw [List.filterMap_cons_none hr]
      omega
    | some ofs =>
      have hback := hf r (by simp) (by rw [hr]; exact Option.some_ne_none _)
      rw [ReadsBack, hy, hr] at hback
      cases hback
      rw [List.filterMap_cons_some hr, List.length_cons, Option.toList_some, List.length_singleton]
      omega

/-- A log is read back exactly when each of its records is. -/
theorem log_readsBack_iff {log : List ScanRecord}
    (hf : ∀ r ∈ log, r.fileOffset ≠ none → ReadsBack r) :
    offsetsOf (getlines [] (log.flatMap ScanRecord.text)) =
      some (log.filterMap ScanRecord.fileOffset) ↔ ∀ r ∈ log, ReadsBack r := by
  induction log with
  | nil => simp [getlines, offsetsOf]
  | cons r log ih =>
    have hfl : ∀ q ∈ log, q.fileOffset ≠ none → ReadsBack q := fun q hq => hf q (by simp [hq])
    have hsplit : (r :: log).filterMap ScanRecord.fileOffset =
        r.fileOffset.toList ++ log.filterMap ScanRecord.fileOffset := by
      cases hr : r.fileOffset with
      | none => rw [List.filterMap_cons_none hr, Option.toList_none, List.nil_append]
      | some ofs => rw [List.filterMap_cons_some hr, Option.toList_some, List.singleton_append]
    rw [offsetsOf_log, hsplit, List.forall_mem_cons, ← ih hfl]
    constructor
    · intro h
      obtain ⟨y, hy, hmap⟩ := Option.bind_eq_some_iff.mp h
      obtain ⟨z, hz, heq⟩ := Option.map_eq_some_iff.mp hmap
      have hrest := offsetsOf_length hfl hz
      have hfirst : r.fileOffset.toList.length ≤ y.length := by
        cases hr : r.fileOffset with
        | none => exact Nat.zero_le _
        | some ofs =>
          have hback := hf r (by simp) (by rw [hr]; exact Option.some_ne_none _)
          rw [ReadsBack, hy, hr] at hback
          cases hback
          exact le_rfl
      have hlen := congrArg List.length heq
      rw [List.length_append, List.length_append] at hlen
      obtain ⟨h1, h2⟩ := List.append_inj heq (by omega)
      exact ⟨by rw [ReadsBack, hy, h1], by rw [hz, h2]⟩
    · rintro ⟨h1, h2⟩
      rw [ReadsBack] at h1
      rw [h1, h2]
      rfl

theorem offsetsOf_nil_iff (lines : List (List UInt8)) :
    offsetsOf lines = some [] ↔ ∀ line ∈ lines, lineOffset line = some none := by
  induction lines with
  | nil => simp [offsetsOf]
  | cons l lines ih =>
    rw [List.forall_mem_cons, ← ih, offsetsOf, Option.bind_eq_bind]
    cases lineOffset l with
    | none => simp
    | some ofs =>
      cases offsetsOf lines with
      | none => simp
      | some x => cases ofs <;> simp

theorem offsetsOf_first {l : List UInt8} {ofs : Option Nat} (h : lineOffset l = some ofs)
    (lines : List (List UInt8)) :
    offsetsOf (l :: lines) = (offsetsOf lines).map (ofs.toList ++ ·) := by
  rw [offsetsOf, h, Option.bind_eq_bind, Option.bind_some, Option.bind_eq_bind, Option.map_eq_bind]
  rfl

/-- A file that is logged is read back. -/
theorem readsBack_fde (h : ofs < 2 ^ 64) : ReadsBack (.entry (.fde ofs)) := by
  have hno : newline ∉ bytesOf "FDE " ++ hexText 16 ofs := by
    rw [List.mem_append, not_or]
    exact ⟨by decide, hexText_no_newline 16 ofs⟩
  rw [ReadsBack, ScanRecord.text, LogLine.text, getlines_line hno,
    offsetsOf_first (lineOffset_fde ofs), Nat.mod_eq_of_lt (h.trans_eq (by norm_num))]
  rfl

theorem readsBack_efi (ofs : Nat) : ReadsBack (.entry (.efi ofs)) := by
  have hno : newline ∉ bytesOf "EFI " ++ hexText 16 ofs := by
    rw [List.mem_append, not_or]
    exact ⟨by decide, hexText_no_newline 16 ofs⟩
  have hblank : bytesOf "EFI " = bytesOf "EFI" ++ [0x20] := by decide
  have hline : lineOffset (bytesOf "EFI " ++ hexText 16 ofs) = some none := by
    rw [hblank, List.append_assoc, List.singleton_append,
      lineOffset_word (bytesOf "EFI") _ (by decide) (by decide +kernel) (by decide) (by decide),
      if_pos (.inl rfl)]
  rw [ReadsBack, ScanRecord.text, LogLine.text, getlines_line hno, offsetsOf_first hline]
  rfl

theorem readsBack_cluster (c ofs : Nat) : ReadsBack (.cluster c ofs) := by
  have hno : newline ∉
      bytesOf "CLUSTER " ++ hexText 8 c ++ bytesOf " OFFSET " ++ hexText 16 ofs := by
    simp only [List.mem_append, not_or]
    exact ⟨⟨⟨by decide, hexText_no_newline 8 c⟩, by decide⟩, hexText_no_newline 16 ofs⟩
  rw [ReadsBack, ScanRecord.text, getlines_line hno, offsetsOf_first (lineOffset_cluster c ofs)]
  rfl

/-- A cluster that could not be read ends a rebuild. -/
theorem not_readsBack_badCluster (c ofs : Nat) : ¬ReadsBack (.badCluster c ofs) := by
  have hno : newline ∉
      bytesOf "BAD_CLUSTER " ++ hexText 8 c ++ bytesOf " OFFSET " ++ hexText 16 ofs := by
    simp only [List.mem_append, not_or]
    exact ⟨⟨⟨by decide, hexText_no_newline 8 c⟩, by decide⟩, hexText_no_newline 16 ofs⟩
  have hblank : bytesOf "BAD_CLUSTER " = bytesOf "BAD_CLUSTER" ++ [0x20] := by decide
  have hline : lineOffset
      (bytesOf "BAD_CLUSTER " ++ hexText 8 c ++ bytesOf " OFFSET " ++ hexText 16 ofs) = none := by
    rw [hblank, List.append_assoc, List.append_assoc, List.append_assoc, List.singleton_append,
      lineOffset_word (bytesOf "BAD_CLUSTER") _ (by decide) (by decide +kernel) (by decide)
        (by decide), if_neg (by decide)]
  rw [ReadsBack, ScanRecord.text, getlines_line hno, offsetsOf, hline]
  intro h
  cases h

/-- The lines of a record with a name. -/
theorem getlines_record {word : List UInt8} (hw : newline ∉ word) (ofs : Nat) (name : List UInt8) :
    getlines [] (word ++ [0x20] ++ hexText 16 ofs ++ bytesOf " " ++ name ++ [newline]) =
      (word ++ 0x20 :: (hexText 16 ofs ++ bytesOf " " ++ name.takeWhile (· ≠ newline))) ::
        furtherLines name := by
  have hno : newline ∉ word ++ [0x20] ++ hexText 16 ofs ++ bytesOf " " := by
    simp only [List.mem_append, not_or]
    exact ⟨⟨⟨hw, by decide⟩, hexText_no_newline 16 ofs⟩, by decide⟩
  rw [List.append_assoc _ name, getlines_within hno, getlines_name]
  simp only [List.nil_append, List.append_assoc, List.cons_append]

/-- No label is read back. -/
theorem not_readsBack_efl (ofs : Nat) (namebuf : List UInt8) :
    ¬ReadsBack (.entry (.efl ofs namebuf)) := by
  have hblank : bytesOf "EFL " = bytesOf "EFL" ++ [0x20] := by decide
  rw [ReadsBack, ScanRecord.text, LogLine.text, hblank, getlines_record (by decide), offsetsOf,
    lineOffset_word (bytesOf "EFL") _ (by decide) (by decide +kernel) (by decide) (by decide),
    if_neg (by decide)]
  intro h
  cases h

/-- A name is read back if its further lines do no harm. -/
theorem readsBack_efn_iff (ofs : Nat) (namebuf : List UInt8) :
    ReadsBack (.entry (.efn ofs namebuf)) ↔ PlainName (cString namebuf) := by
  have hblank : bytesOf "EFN " = bytesOf "EFN" ++ [0x20] := by decide
  have hline (rest : List UInt8) : lineOffset (bytesOf "EFN" ++ 0x20 :: rest) = some none := by
    rw [lineOffset_word (bytesOf "EFN") _ (by decide) (by decide +kernel) (by decide) (by decide),
      if_pos (.inr rfl)]
  rw [ReadsBack, ScanRecord.text, LogLine.text, hblank, getlines_record (by decide),
    offsetsOf_first (hline _), PlainName, ← offsetsOf_nil_iff]
  simp [ScanRecord.fileOffset, fdeOffset]

theorem cString_zero (s : List UInt8) : cString (s ++ [0]) = cString s := by
  induction s with
  | nil => rfl
  | cons b s ih =>
    simp only [cString, List.cons_append, List.takeWhile_cons] at ih ⊢
    split
    · rw [ih]
    · rfl

/-- The line of an entry inside a set is read back exactly when the entry is readable. -/
theorem logEntry_readsBack_iff {buf : List UInt8} {size base q : Nat}
    (hr : q + 2 * entrySize < buf.length) :
    (∃ lines, logEntry buf size base q = .ok lines ∧ ∀ l ∈ lines, ReadsBack (.entry l)) ↔
      EntryReadable buf q := by
  have hr' : q + entrySize * 1 ≤ buf.length := by
    simp only [entrySize] at hr ⊢
    omega
  obtain ⟨htype, hcount⟩ := entry_bytes hr'
  simp only [logEntry, entriesAt_ok hr', bind, Except.bind, htype, hcount]
  by_cases hlabel : byteOf buf q = exfatEntryLabel
  · rw [if_pos hlabel]
    constructor
    · rintro ⟨lines, hlines, hback⟩
      cases hcopy : copyName buf q (byteOf buf (q + 1)) 0 (List.replicate namebufSize 0) with
      | error e =>
        rw [hcopy] at hlines
        cases hlines
      | ok namebuf =>
        simp only [hcopy, printArray] at hlines
        split at hlines
        · cases hlines
        · cases hlines
          exact absurd (hback _ (List.mem_singleton_self _)) (not_readsBack_efl _ _)
    · intro h
      exact absurd hlabel h.label
  rw [if_neg hlabel]
  by_cases hinfo : byteOf buf q = exfatEntryFileInfo
  · rw [if_pos hinfo]
    have hname : byteOf buf q ≠ exfatEntryFileName := by
      rw [hinfo]
      decide
    refine ⟨fun _ => ⟨hlabel, fun hn => absurd hn hname⟩, fun _ => ⟨_, rfl, fun l hl => ?_⟩⟩
    rw [List.mem_singleton.mp hl]
    exact readsBack_efi _
  rw [if_neg hinfo]
  by_cases hname : byteOf buf q = exfatEntryFileName
  · rw [if_pos hname]
    have hle : exfatEnameMax ≤ namebufSize := Nat.le_succ _
    have htext : cString (namebufOf buf q exfatEnameMax) = nameText buf q := cString_zero _
    rw [copyName_ok hle (by simp only [entrySize] at hr; simp only [exfatEnameMax]; omega)]
    simp only [printArray, if_pos ((zero_mem_namebufOf hle).mpr (.inl (Nat.lt_succ_self _)))]
    constructor
    · rintro ⟨lines, hlines, hback⟩
      cases hlines
      have hplain := (readsBack_efn_iff _ _).mp (hback _ (List.mem_singleton_self _))
      exact ⟨hlabel, fun _ => htext ▸ hplain⟩
    · intro h
      refine ⟨_, rfl, fun l hl => ?_⟩
      rw [List.mem_singleton.mp hl, readsBack_efn_iff, htext]
      exact h.name hname
  · rw [if_neg hname]
    refine ⟨fun _ => ⟨hlabel, fun hn => absurd hn hname⟩, fun _ => ⟨[], rfl, fun l hl => ?_⟩⟩
    exact absurd hl List.not_mem_nil

section
variable {buf : List UInt8} {base size : Nat} {s t : ClusterSearch}

/-- What one iteration adds to the log. -/
theorem clusterSearchStep_log (hr : s.clusterPtr + 2 * entrySize < buf.length)
    (h : clusterSearchStep buf size base s = .ok t) :
    t.log = s.log ∨ t.log = s.log ++ [.fde (clusterOfs size base s.clusterPtr)] ∨
      s.fileDirectoryEntry ≠ none ∧ s.subcount ≠ 0 ∧
        ∃ lines, logEntry buf size base s.clusterPtr = .ok lines ∧ t.log = s.log ++ lines := by
  cases hs : s.fileDirectoryEntry with
  | none =>
    simp only [clusterSearchStep, hs] at h
    by_cases hhead : HeadAt buf s.clusterPtr
    · rw [searchStep_head hr hhead] at h
      split at h
      · cases h
      · split at h
        · cases h
          exact .inr (.inl rfl)
        · cases h
          exact .inl rfl
    · rw [searchStep_next hr hhead] at h
      cases h
      exact .inl rfl
  | some p =>
    simp only [clusterSearchStep, hs] at h
    split at h
    · cases h
      exact .inl rfl
    · rename_i hsub
      cases hlines : logEntry buf size base s.clusterPtr with
      | error e =>
        rw [hlines] at h
        cases h
      | ok lines =>
        rw [hlines] at h
        cases h
        exact .inr (.inr ⟨Option.some_ne_none p, hsub, lines, rfl, rfl⟩)

theorem clusterOfs_lt (p : Nat) : clusterOfs size base p < 2 ^ 64 := by
  unfold clusterOfs
  omega

/-- The lines of the entries that were come past are in the log. -/
structure Written (buf : List UInt8) (size base : Nat) (s : ClusterSearch) : Prop
    extends Scanned buf size base s where
  entries : ∀ p j, Reported buf p → 1 ≤ j → j ≤ byteOf buf (p + 1) →
    p + entrySize * j < s.clusterPtr →
      ∃ lines, logEntry buf size base (p + entrySize * j) = .ok lines ∧ ∀ l ∈ lines, l ∈ s.log

theorem Written.step (h : Written buf size base s) (hr : s.clusterPtr + 2 * entrySize < buf.length)
    (hstep : clusterSearchStep buf size base s = .ok t) : Written buf size base t where
  toScanned := Moves.scanned h.toScanned (clusterSearchStep_moves hr hstep)
  entries p j hp h1 hj hq := by
    have hlog := clusterSearchStep_log hr hstep
    have hmore : ∀ l ∈ s.log, l ∈ t.log := by
      intro l hl
      rcases hlog with he | he | ⟨-, -, lines, -, he⟩
      · exact he ▸ hl
      · exact he ▸ List.mem_append_left _ hl
      · exact he ▸ List.mem_append_left _ hl
    rcases h.visited (clusterSearchStep_moves hr hstep) hp h1 hj hq with hlt | ⟨heq, hin, hsub⟩
    · obtain ⟨lines, hlines, hmem⟩ := h.entries p j hp h1 hj hlt
      exact ⟨lines, hlines, fun l hl => hmore l (hmem l hl)⟩
    · obtain ⟨p', hs⟩ := Option.ne_none_iff_exists'.mp hin
      simp only [clusterSearchStep, hs, if_neg hsub] at hstep
      rw [heq]
      cases hlines : logEntry buf size base s.clusterPtr with
      | error e =>
        rw [hlines] at hstep
        cases hstep
      | ok lines =>
        rw [hlines] at hstep
        cases hstep
        exact ⟨lines, rfl, fun l hl => List.mem_append_right _ hl⟩

/-- A buffer is scanned into a log that is read back exactly when its front is readable. -/
theorem front_readsBack_iff (hsize : size ≤ buf.length) (base : Nat) :
    (∃ t, clusterSearchLoop buf size base (2 * buf.length + 1) {} = .ok t ∧
      ∀ l ∈ t.log, ReadsBack (.entry l)) ↔ FrontReadable buf size := by
  obtain ⟨r, hr, hrun⟩ := clusterSearchLoop_run hsize base
  rw [hrun _ le_rfl]
  constructor
  · rintro ⟨t, rfl, hback⟩
    obtain ⟨hw, hend⟩ := hr.keeps
      (fun s u hs hroom hstep => Written.step hs (hroom.trans_le hsize) hstep)
      ⟨scanned_start, fun p j _ _ _ hq => absurd hq (Nat.not_lt_zero _)⟩ t rfl
    refine ⟨fun p hp => hw.heads p (by omega), fun p j hp h1 hj hq => ?_⟩
    obtain ⟨lines, hlines, hmem⟩ := hw.entries p j hp h1 hj (by omega)
    exact (logEntry_readsBack_iff (hq.trans_le hsize)).mp
      ⟨lines, hlines, fun l hl => hback l (hmem l hl)⟩
  · intro h
    have hkeep : ∀ s, (Scanned buf size base s ∧ ∀ l ∈ s.log, ReadsBack (.entry l)) →
        s.clusterPtr + 2 * entrySize < size → ∃ t, clusterSearchStep buf size base s = .ok t ∧
          Scanned buf size base t ∧ ∀ l ∈ t.log, ReadsBack (.entry l) := by
      rintro s ⟨hs, hback⟩ hr
      have hroom := hr.trans_le hsize
      have hentry : s.fileDirectoryEntry ≠ none → s.subcount ≠ 0 →
          EntryReadable buf s.clusterPtr := by
        intro hin hsub
        obtain ⟨p, hp⟩ := Option.ne_none_iff_exists'.mp hin
        obtain ⟨j, h1, hj, heq⟩ := hs.position hp hsub
        rw [heq] at hr ⊢
        exact h.entries p j (hs.inside p hp).1 h1 hj hr
      obtain ⟨u, hu⟩ := clusterSearchStep_ok hroom
        (fun hnone => h.heads _ hr (hs.outside hnone))
        (fun hin hsub hlabel => absurd hlabel (hentry hin hsub).label)
      refine ⟨u, hu, Moves.scanned hs (clusterSearchStep_moves hroom hu), fun l hl => ?_⟩
      rcases clusterSearchStep_log hroom hu with he | he | ⟨hin, hsub, lines, hlines, he⟩
      · exact hback l (he ▸ hl)
      · rw [he, List.mem_append, List.mem_singleton] at hl
        rcases hl with hl | rfl
        · exact hback l hl
        · exact readsBack_fde (clusterOfs_lt _)
      · rw [he, List.mem_append] at hl
        rcases hl with hl | hl
        · exact hback l hl
        · obtain ⟨lines', hlines', hread⟩ :=
            (logEntry_readsBack_iff hroom).mpr (hentry hin hsub)
          cases hlines.symm.trans hlines'
          exact hread l hl
    obtain ⟨t, ht, -, hback⟩ :=
      hr.reaches hkeep ⟨scanned_start, fun l hl => absurd hl List.not_mem_nil⟩
    exact ⟨t, ht, hback⟩

end

section
variable {dev : ScanDevice} {memory : Vector UInt8 clusterSizeBytes} {s t : DirLog}

/-- The files that a scan logs have offsets of 64 bits. -/
theorem search_files {buf : List UInt8} {size base : Nat} {t : ClusterSearch}
    (hsize : size ≤ buf.length)
    (h : clusterSearchLoop buf size base (2 * buf.length + 1) {} = .ok t) :
    ∀ l ∈ t.log, (ScanRecord.entry l).fileOffset ≠ none → ReadsBack (.entry l) := by
  obtain ⟨r, hr, hrun⟩ := clusterSearchLoop_run hsize base
  obtain ⟨hs, -⟩ := hr.keeps
    (fun s u hs hroom hstep =>
      Moves.scanned hs (clusterSearchStep_moves (hroom.trans_le hsize) hstep))
    scanned_start t ((hrun _ le_rfl).symm.trans h)
  intro l hl hf
  cases l with
  | fde ofs =>
    have hmem : ofs ∈ fdeOffsets t.log := List.mem_filterMap.mpr ⟨_, hl, rfl⟩
    rw [hs.logged] at hmem
    obtain ⟨p, -, rfl⟩ := List.mem_map.mp hmem
    exact readsBack_fde (clusterOfs_lt p)
  | efl ofs namebuf => exact absurd rfl hf
  | efi ofs => exact absurd rfl hf
  | efn ofs namebuf => exact absurd rfl hf

/-- The scan stands before read `n`. -/
structure Stands (dev : ScanDevice) (memory : Vector UInt8 clusterSizeBytes) (n : Nat)
    (s : DirLog) : Prop where
  running : s.eof = false
  reads : s.reads = n
  place : (s.pos, s.clusterBuf) = dev.before memory n

theorem Stands.failed (h : Stands dev memory n s) (hn : dev.outcome n = none) :
    ∃ t, logDirEntriesStep dev s = .ok t ∧ ∃ c ofs, .badCluster c ofs ∈ t.log := by
  have hread : dev.read s.reads s.pos = none := by
    rw [ScanDevice.read, h.reads, hn]
    rfl
  simp only [logDirEntriesStep, h.running, hread]
  exact ⟨_, rfl, s.c, s.c * clusterSizeBytes, List.mem_append_right _ (List.mem_singleton_self _)⟩

theorem Stands.ended (h : Stands dev memory n s)
    (hn : dev.read n (dev.before memory n).1 = some []) :
    logDirEntriesStep dev s = .ok { s with eof := true } := by
  rw [← h.place, ← h.reads] at hn
  simp only [logDirEntriesStep, h.running, hn]
  rfl

/-- A read that returns something: what is logged is that of the search, and perhaps the cluster. -/
theorem Stands.got (h : Stands dev memory n s) {rd : List UInt8} (hne : rd ≠ [])
    (hn : dev.read n (dev.before memory n).1 = some rd) :
    let buf := rd ++ (dev.before memory n).2.drop rd.length
    ∃ base, ∀ r, clusterSearchLoop buf rd.length base (2 * buf.length + 1) {} = r →
      match r with
      | .error e => logDirEntriesStep dev s = .error e
      | .ok search => ∃ t, logDirEntriesStep dev s = .ok t ∧ Stands dev memory (n + 1) t ∧
          ∃ cluster, t.log = s.log ++ search.log.map .entry ++ cluster ∧
            ∀ r ∈ cluster, ∃ c ofs, r = .cluster c ofs := by
  intro buf
  refine ⟨s.c * clusterSizeBytes, fun r hr => ?_⟩
  have hpos : s.pos = (dev.before memory n).1 := congrArg Prod.fst h.place
  have hbuf : s.clusterBuf = (dev.before memory n).2 := congrArg Prod.snd h.place
  have hread : dev.read s.reads s.pos = some rd := by rw [h.reads, hpos, hn]
  obtain ⟨b, rest, rfl⟩ := List.exists_cons_of_ne_nil hne
  simp only [logDirEntriesStep, h.running, hread]
  rw [hbuf]
  cases r with
  | error e =>
    simp only [Bool.false_eq_true, if_false]
    rw [hr]
    rfl
  | ok search =>
    simp only [Bool.false_eq_true, if_false]
    rw [hr]
    refine ⟨_, rfl, ⟨rfl, ?_, ?_⟩, _, rfl, fun r hr => ?_⟩
    · simp only [h.reads]
    · simp only [ScanDevice.before, hn, Option.getD_some, hpos]
    · split at hr
      · exact ⟨_, _, List.mem_singleton.mp hr⟩
      · exact absurd hr List.not_mem_nil

theorem logDirEntriesStep_files (h : logDirEntriesStep dev s = .ok t)
    (hs : ∀ r ∈ s.log, r.fileOffset ≠ none → ReadsBack r) :
    ∀ r ∈ t.log, r.fileOffset ≠ none → ReadsBack r := by
  simp only [logDirEntriesStep] at h
  split at h
  · cases h
    exact hs
  · split at h
    · cases h
      intro r hr hf
      rcases List.mem_append.mp hr with hr | hr
      · exact hs r hr hf
      · rw [List.mem_singleton.mp hr] at hf
        exact absurd rfl hf
    · cases h
      exact hs
    · rename_i rd hne hread
      generalize hbuf : rd ++ s.clusterBuf.drop rd.length = buf at h
      have hsize : rd.length ≤ buf.length := by
        rw [← hbuf, List.length_append]
        exact Nat.le_add_right _ _
      cases hsearch : clusterSearchLoop buf rd.length (s.c * clusterSizeBytes)
          (2 * buf.length + 1) {} with
      | error e =>
        rw [hsearch] at h
        cases h
      | ok search =>
        rw [hsearch] at h
        cases h
        intro r hr hf
        rcases List.mem_append.mp hr with hr | hr
        · rcases List.mem_append.mp hr with hr | hr
          · exact hs r hr hf
          · obtain ⟨l, hl, rfl⟩ := List.mem_map.mp hr
            exact search_files hsize hsearch l hl hf
        · split at hr
          · rw [List.mem_singleton.mp hr] at hf
            exact absurd rfl hf
          · exact absurd hr List.not_mem_nil

theorem logDirEntries_files {n : Nat} (h : logDirEntries dev memory n = .ok s) :
    ∀ r ∈ s.log, r.fileOffset ≠ none → ReadsBack r := by
  induction n generalizing s with
  | zero =>
    cases h
    exact fun r hr => absurd hr List.not_mem_nil
  | succ n ih =>
    rw [logDirEntries] at h
    cases hs : logDirEntries dev memory n with
    | error e =>
      rw [hs] at h
      cases h
    | ok u =>
      rw [hs] at h
      exact logDirEntriesStep_files h (ih hs)

/-- The file that was written is read back when each of its records is. -/
theorem rebuild_iff {n : Nat} (h : logDirEntries dev memory n = .ok s) :
    rebuildFromScanLogfile s.stdout = ⟨s.log.filterMap ScanRecord.fileOffset, none⟩ ↔
      ∀ r ∈ s.log, ReadsBack r :=
  (rebuildLoop_iff _ _ _).trans (log_readsBack_iff (logDirEntries_files h))

theorem logDirEntries_succ {n : Nat} (h : logDirEntries dev memory n = .ok s) :
    logDirEntries dev memory (n + 1) = logDirEntriesStep dev s := by
  rw [logDirEntries, h]
  rfl

theorem read_ne_nil {rd : List UInt8} {n pos : Nat} (h : dev.read n pos = some rd)
    (hpos : pos < dev.bytes.length) : rd ≠ [] := by
  obtain ⟨most, -, rfl⟩ := Option.map_eq_some_iff.mp h
  intro hnil
  have hlen := congrArg List.length hnil
  rw [List.length_take, List.length_drop, List.length_nil] at hlen
  simp only [clusterSizeBytes, sectorSizeBytes, sectorsPerCluster] at hlen
  omega

theorem read_eq_nil {n pos : Nat} (h : dev.read n pos = some []) : dev.bytes.length ≤ pos := by
  by_contra hpos
  exact read_ne_nil h (Nat.not_le.mp hpos) rfl

/-- A round whose log is read back had a clean read, and leads to the next read. -/
theorem Stands.clean {n : Nat} (h : Stands dev memory n s)
    (ht : logDirEntriesStep dev s = .ok t) (hback : ∀ r ∈ t.log, ReadsBack r) :
    CleanRead dev memory n ∧
      ((dev.before memory n).1 < dev.bytes.length → Stands dev memory (n + 1) t) := by
  cases hn : dev.outcome n with
  | none =>
    obtain ⟨u, hu, c, ofs, hmem⟩ := h.failed hn
    cases hu.symm.trans ht
    exact absurd (hback _ hmem) (not_readsBack_badCluster c ofs)
  | some most =>
    have hsome : dev.outcome n ≠ none := by
      rw [hn]
      exact Option.some_ne_none most
    cases hread : dev.read n (dev.before memory n).1 with
    | none =>
      rw [ScanDevice.read, hn] at hread
      cases hread
    | some rd =>
      by_cases hne : rd = []
      · subst hne
        have hend := read_eq_nil hread
        refine ⟨⟨hsome, fun rd hrd => ?_⟩, fun hlt => absurd hlt (Nat.not_lt.mpr hend)⟩
        cases hread.symm.trans hrd
        exact ⟨fun p hp => absurd hp (Nat.not_lt_zero _),
          fun p j _ _ _ hq => absurd hq (Nat.not_lt_zero _)⟩
      · obtain ⟨base, hgot⟩ := h.got hne hread
        have hres := hgot _ rfl
        split at hres
        · cases hres.symm.trans ht
        · rename_i search hsearch
          obtain ⟨u, hu, hstands, cluster, hlog, -⟩ := hres
          cases hu.symm.trans ht
          refine ⟨⟨hsome, fun rd' hrd => ?_⟩, fun _ => hstands⟩
          cases hread.symm.trans hrd
          refine (front_readsBack_iff ?_ base).mp ⟨search, hsearch, fun l hl => hback _ ?_⟩
          · rw [List.length_append]
            exact Nat.le_add_right _ _
          · rw [hlog]
            exact List.mem_append_left _
              (List.mem_append_right _ (List.mem_map.mpr ⟨l, hl, rfl⟩))

/-- After a clean read the log is still read back, and the scan has ended or goes on. -/
theorem cleanRead_step {n : Nat} (hc : CleanRead dev memory n) (h : Stands dev memory n s)
    (hback : ∀ r ∈ s.log, ReadsBack r) :
    ∃ t, logDirEntriesStep dev s = .ok t ∧ (∀ r ∈ t.log, ReadsBack r) ∧
      (t.eof = true ∨
        (dev.before memory n).1 < dev.bytes.length ∧ Stands dev memory (n + 1) t) := by
  obtain ⟨most, hmost⟩ := Option.ne_none_iff_exists'.mp hc.succeeds
  obtain ⟨rd, hread⟩ : ∃ rd, dev.read n (dev.before memory n).1 = some rd := by
    rw [ScanDevice.read, hmost]
    exact ⟨_, rfl⟩
  by_cases hne : rd = []
  · subst hne
    exact ⟨_, h.ended hread, hback, .inl rfl⟩
  · obtain ⟨base, hgot⟩ := h.got hne hread
    obtain ⟨search, hsearch, hlines⟩ := (front_readsBack_iff
      (by rw [List.length_append]; exact Nat.le_add_right _ _) base).mpr (hc.readable rd hread)
    obtain ⟨t, ht, hstands, cluster, hlog, hcluster⟩ := hgot _ hsearch
    refine ⟨t, ht, fun r hr => ?_, .inr ⟨?_, hstands⟩⟩
    · rw [hlog, List.mem_append, List.mem_append, List.mem_map] at hr
      rcases hr with (hr | ⟨l, hl, rfl⟩) | hr
      · exact hback r hr
      · exact hlines l hl
      · obtain ⟨c, ofs, rfl⟩ := hcluster r hr
        exact readsBack_cluster c ofs
    · by_contra hlt
      obtain ⟨_, -, hrd⟩ := Option.map_eq_some_iff.mp hread
      rw [List.drop_eq_nil_of_le (Nat.not_lt.mp hlt), List.take_nil] at hrd
      exact hne hrd.symm

/-- A log is read back, whatever its length, exactly when every read up to the end of the device
succeeds and returns what can be scanned into a log that is read back. -/
theorem scan_log_readsBack_iff (dev : ScanDevice) (memory : Vector UInt8 clusterSizeBytes) :
    (∀ n, ∃ s, logDirEntries dev memory n = .ok s ∧
      rebuildFromScanLogfile s.stdout = ⟨s.log.filterMap ScanRecord.fileOffset, none⟩) ↔
      ∀ n, dev.Reaches memory n → CleanRead dev memory n := by
  constructor
  · intro h
    have hnext : ∀ n s, logDirEntries dev memory n = .ok s → Stands dev memory n s →
        ∃ t, logDirEntries dev memory (n + 1) = .ok t ∧ CleanRead dev memory n ∧
          ((dev.before memory n).1 < dev.bytes.length → Stands dev memory (n + 1) t) := by
      intro n s hs hstands
      obtain ⟨t, ht, hback⟩ := h (n + 1)
      refine ⟨t, ht, hstands.clean ?_ ((rebuild_iff ht).mp hback)⟩
      rw [← logDirEntries_succ hs, ht]
    have hstands : ∀ n, dev.Reaches memory n →
        ∃ s, logDirEntries dev memory n = .ok s ∧ Stands dev memory n s := by
      intro n hn
      induction n with
      | zero => exact ⟨_, rfl, rfl, rfl, rfl⟩
      | succ n ih =>
        obtain ⟨s, hs, hst⟩ := ih fun m hm => hn m (hm.trans (Nat.lt_succ_self n))
        obtain ⟨t, ht, -, hgo⟩ := hnext n s hs hst
        exact ⟨t, ht, hgo (hn n (Nat.lt_succ_self n))⟩
    intro n hn
    obtain ⟨s, hs, hst⟩ := hstands n hn
    obtain ⟨t, -, hclean, -⟩ := hnext n s hs hst
    exact hclean
  · intro h
    have hrun : ∀ n, ∃ s, logDirEntries dev memory n = .ok s ∧ (∀ r ∈ s.log, ReadsBack r) ∧
        (s.eof = true ∨ dev.Reaches memory n ∧ Stands dev memory n s) := by
      intro n
      induction n with
      | zero =>
        refine ⟨_, rfl, fun r hr => absurd hr List.not_mem_nil, .inr ⟨?_, rfl, rfl, rfl⟩⟩
        exact fun m hm => absurd hm (Nat.not_lt_zero m)
      | succ n ih =>
        obtain ⟨s, hs, hback, heof | ⟨hreach, hst⟩⟩ := ih
        · refine ⟨s, ?_, hback, .inl heof⟩
          rw [logDirEntries_succ hs, logDirEntriesStep, if_pos heof]
        · obtain ⟨t, ht, hbackt, hend⟩ := cleanRead_step (h n hreach) hst hback
          refine ⟨t, (logDirEntries_succ hs).trans ht, hbackt, hend.imp_right fun hgo => ?_⟩
          refine ⟨fun m hm => ?_, hgo.2⟩
          rcases Nat.lt_succ_iff_lt_or_eq.mp hm with hlt | rfl
          · exact hreach m hlt
          · exact hgo.1
    intro n
    obtain ⟨s, hs, hback, -⟩ := hrun n
    exact ⟨s, hs, (rebuild_iff hs).mpr hback⟩

/-- A device that cannot be read. -/
def unreadable : ScanDevice where
  bytes := []
  outcome _ := none

/-- The line of a cluster that cannot be read ends the rebuild. -/
theorem scan_log_rejected :
    (∃ s, logDirEntries unreadable (Vector.replicate _ 0) 1 = .ok s ∧
      s.stdout = bytesOf "BAD_CLUSTER 00adb000 OFFSET 000002b6c0000000" ++ [newline] ∧
      rebuildFromScanLogfile s.stdout =
        ⟨[], some ⟨1, bytesOf "BAD_CLUSTER 00adb000 OFFSET 000002b6c0000000"⟩⟩) ∧
    ¬∀ n, ∃ s, logDirEntries unreadable (Vector.replicate _ 0) n = .ok s ∧
      rebuildFromScanLogfile s.stdout = ⟨s.log.filterMap ScanRecord.fileOffset, none⟩ := by
  have hstdout : (ScanRecord.badCluster 0xadb000 0x2b6c0000000).text =
      bytesOf "BAD_CLUSTER 00adb000 OFFSET 000002b6c0000000" ++ [newline] := by decide
  have hrebuild : rebuildFromScanLogfile
      (bytesOf "BAD_CLUSTER 00adb000 OFFSET 000002b6c0000000" ++ [newline]) =
        ⟨[], some ⟨1, bytesOf "BAD_CLUSTER 00adb000 OFFSET 000002b6c0000000"⟩⟩ := by
    decide +kernel
  constructor
  · exact ⟨_, rfl, hstdout, (congrArg _ hstdout).trans hrebuild⟩
  · intro h
    obtain ⟨s, hs, hback⟩ := h 1
    cases hs
    cases ((congrArg _ hstdout).trans hrebuild).symm.trans hback

end

end Proofs

end Exfat
