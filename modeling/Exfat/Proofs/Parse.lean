import Exfat.Proofs.Entries

namespace Exfat
open Lib

/-! `parse_file_entries`: the sets it accepts, the node it makes of one, and where the name of that
node comes from. -/

namespace Proofs

variable {E : Halt → Prop} {w : World} {n : Node} {id : NodeId} {k : Nat} {set : List UInt8}

/-- The name entries that the length of a name asks for. -/
def nameNeed (set : List UInt8) : Nat := divRoundUp (leAt (set.drop entrySize) 3 1) exfatEnameMax

/-- The node that `parse_file_entries` makes of a new one. -/
def parsed [Env] (set : List UInt8) (n : Node) : Node :=
  { initNode set n with name := initNodeName set (nameNeed set) }

/-- What `check_node` asks of a set, the checksum apart. -/
@[mk_iff]
structure NodeOk (sb : SuperBlock) (set : List UInt8) (n : Node) : Prop where
  valid : leAt (set.drop entrySize) 8 8 ≤ n.size
  empty : n.size = 0 → n.startCluster = exfatClusterFree
  start : 0 < n.size → sb.clusterInvalid n.startCluster = false
  heap : n.size ≤ sb.clusterCount * sb.clusterSize
  flag : n.size = 0 → n.isContiguous = false
  dir : n.isDir = true → n.size % sb.clusterSize = 0

/-- What `parse_file_entries` asks of `k` entries, the checksum apart. -/
@[mk_iff]
structure SetOk [Env] (sb : SuperBlock) (set : List UInt8) (k : Nat) : Prop where
  types : checkTypes none (entryTypes set k) = true
  two : 2 ≤ leAt set 1 1
  flags : leAt (set.drop entrySize) 1 1 &&& (0xff - (exfatFlagAlways1 + exfatFlagContiguous)) = 0
  room : 1 + nameNeed set ≤ leAt set 1 1
  node : NodeOk sb set (parsed set {})

/-- A check that passes leaves no trace. -/
theorem nodeCheck_pass {failed : Bool} {Q : Bool → World → Prop} (format : String)
    (h : failed = false) : Wp E (nodeCheck id failed format) w Q ↔ Q true w := by
  rw [h]
  rfl

/-- A check returns what it checks, and at most reports an error. -/
theorem nodeCheck_spec (failed : Bool) (format : String) :
    Wp (fun _ => True) (nodeCheck id failed format) w fun b v =>
      b = !failed ∧ ∃ e, v = w.erred e := by
  cases failed with
  | false => exact ⟨rfl, w.errors, rfl⟩
  | true =>
    simp only [nodeCheck, if_true, wp_bind]
    rw [wp_getNode_iff trivial]
    intro n _
    rw [exfatGetName]
    split
    · exact ⟨rfl, _, rfl⟩
    · trivial

theorem not_of_check {p : Prop} [Decidable p] (h : true = !decide p) : ¬p := by simpa using h

theorem checkNode_ok (hn : w.nodes id = some n) {sum : Nat} (hc : sum = leAt set 2 2)
    (h : NodeOk w.sb set n) :
    Wp E (checkNode id sum set (set.drop entrySize)) w fun ok v => ok = true ∧ v = w := by
  obtain ⟨h1, h2, h3, h4, h5, h6⟩ := h
  have hsum : decide (sum ≠ leAt set 2 2) = false := decide_eq_false fun hne => hne hc
  have hvalid : decide (leAt (set.drop entrySize) 8 8 > n.size) = false :=
    decide_eq_false (Nat.not_lt.mpr h1)
  have hempty : decide (n.size = 0 ∧ n.startCluster ≠ exfatClusterFree) = false :=
    decide_eq_false fun hx => hx.2 (h2 hx.1)
  have hstart : decide (n.size > 0 ∧ w.sb.clusterInvalid n.startCluster) = false :=
    decide_eq_false fun hx => Bool.false_ne_true ((h3 hx.1).symm.trans hx.2)
  have hheap : decide (n.size > w.sb.clusterCount * w.sb.clusterSize) = false :=
    decide_eq_false (Nat.not_lt.mpr h4)
  have hflag : decide (n.size = 0 ∧ n.isContiguous) = false :=
    decide_eq_false fun hx => Bool.false_ne_true ((h5 hx.1).symm.trans hx.2)
  have hdir : decide (n.isDir ∧ n.size % w.sb.clusterSize ≠ 0) = false :=
    decide_eq_false fun hx => hx.2 (h6 hx.1)
  simp only [checkNode, checkSum, wp_bind, wp_get, wp_getNode hn, nodeCheck_pass _ hsum, if_true,
    wp_pure, nodeCheck_pass _ hvalid, nodeCheck_pass _ hempty, nodeCheck_pass _ hstart,
    nodeCheck_pass _ hheap, nodeCheck_pass _ hflag, nodeCheck_pass _ hdir, Bool.and_true, and_self]

section
variable [Env]

/-- A set that is asked nothing more, with its checksum, is accepted. -/
theorem parseFileEntries_ok (hn : w.nodes id = some n) (h : SetOk w.sb set k)
    (hc : leAt set 2 2 = exfatCalcChecksum set) :
    Wp E (parseFileEntries id set k) w fun rc v =>
      rc = .ok ∧ ∃ e, v = (w.erred e).setNode id (parsed set n) := by
  have hroom : ¬leAt set 1 1 < 2 + nameNeed set - 1 := by
    have := h.room
    omega
  have hname : 2 + nameNeed set - 2 = nameNeed set := by omega
  rw [nameNeed] at hroom hname
  simp only [parseFileEntries, checkEntries, h.types, if_true, wp_bind, wp_pure, Bool.not_true,
    Bool.false_eq_true, if_false, if_neg (Nat.not_lt.mpr h.two), h.flags, ne_eq, not_true, hroom,
    hname]
  have hmeta := initNodeMeta_spec (E := E) hn set
  simp only [wp_bind] at hmeta
  refine hmeta.mono fun _ _ hm => hm.mono ?_
  rintro _ _ ⟨e, rfl⟩
  simp only [wp_modifyNode_setNode]
  have hok : NodeOk w.sb set (parsed set n) := ⟨h.node.valid, h.node.empty, h.node.start,
    h.node.heap, h.node.flag, h.node.dir⟩
  refine (checkNode_ok (w := (w.erred e).setNode id (parsed set n)) (World.setNode_self _ _ _)
    hc.symm hok).mono ?_
  rintro _ _ ⟨rfl, rfl⟩
  simp only [if_true, wp_pure]
  exact ⟨trivial, e, rfl⟩

end

/-- A checksum that passes without a repair is the right one. -/
theorem checkSum_run (hn : w.nodes id = some n) (sum : Nat) :
    Wp (fun _ => True) (checkSum id sum set) w fun ok v => ok = true →
      v.sb = w.sb ∧ (∃ d, v.nodes id = some { n with isDirty := d }) ∧
        w.errorsFixed ≤ v.errorsFixed ∧ (v.errorsFixed = w.errorsFixed → sum = leAt set 2 2) := by
  simp only [checkSum, wp_bind]
  refine (nodeCheck_spec _ _).mono ?_
  rintro b _ ⟨hb, e, rfl⟩
  split
  · rename_i hok
    rw [hok] at hb
    exact fun _ => ⟨rfl, ⟨n.isDirty, hn⟩, le_rfl, fun _ => by simpa using hb.symm⟩
  · have hask : Wp (fun _ => True) exfatAskToFix (w.erred e) fun _ v =>
        v.sb = w.sb ∧ v.nodes id = some n ∧ v.errorsFixed = w.errorsFixed := by
      simp only [exfatAskToFix, wp_bind, wp_get]
      cases (w.erred e).repair with
      | no => exact ⟨rfl, hn, rfl⟩
      | yes => exact ⟨rfl, hn, rfl⟩
      | ask => exact ⟨rfl, hn, rfl⟩
    simp only [wp_bind]
    refine hask.mono ?_
    rintro b v ⟨hs, hv, hf⟩
    split
    · simp only [exfatFixInvalidNodeChecksum, countFixed, wp_bind, wp_modifyNode hv]
      refine fun _ => ⟨hs, ⟨true, World.setNode_self _ _ _⟩, ?_, fun he => ?_⟩
      · exact hf ▸ Nat.le_succ _
      · exact absurd (he.trans hf.symm) (Nat.succ_ne_self _)
    · intro h
      cases h

/-- What `check_node` accepts. -/
theorem checkNode_run (hn : w.nodes id = some n) (sum : Nat) :
    Wp (fun _ => True) (checkNode id sum set (set.drop entrySize)) w fun ok v => ok = true →
      v.sb = w.sb ∧ NodeOk w.sb set n ∧ (∃ d, v.nodes id = some { n with isDirty := d }) ∧
        (v.errorsFixed = w.errorsFixed → sum = leAt set 2 2) := by
  simp only [checkNode, wp_bind, wp_get, wp_getNode hn]
  refine (checkSum_run hn sum).mono fun b0 v0 h0 => ?_
  refine (nodeCheck_spec _ _).mono ?_
  rintro b1 _ ⟨hb1, e1, rfl⟩
  refine (nodeCheck_spec _ _).mono ?_
  rintro b2 _ ⟨hb2, e2, rfl⟩
  refine (nodeCheck_spec _ _).mono ?_
  rintro b3 _ ⟨hb3, e3, rfl⟩
  refine (nodeCheck_spec _ _).mono ?_
  rintro b4 _ ⟨hb4, e4, rfl⟩
  refine (nodeCheck_spec _ _).mono ?_
  rintro b5 _ ⟨hb5, e5, rfl⟩
  refine (nodeCheck_spec _ _).mono ?_
  rintro b6 _ ⟨hb6, e6, rfl⟩
  simp only [World.erred_erred]
  intro hok
  simp only [Bool.and_eq_true] at hok
  obtain ⟨⟨⟨⟨⟨⟨h00, h1⟩, h2⟩, h3⟩, h4⟩, h5⟩, h6⟩ := hok
  obtain ⟨hs, hd, -, hsum⟩ := h0 h00
  have hc1 := not_of_check (h1.symm.trans hb1)
  have hc2 := not_of_check (h2.symm.trans hb2)
  have hc3 := not_of_check (h3.symm.trans hb3)
  have hc4 := not_of_check (h4.symm.trans hb4)
  have hc5 := not_of_check (h5.symm.trans hb5)
  have hc6 := not_of_check (h6.symm.trans hb6)
  refine ⟨hs, ⟨Nat.not_lt.mp hc1, fun hz => ?_, fun hp => ?_, Nat.not_lt.mp hc4, fun hz => ?_,
    fun hi => ?_⟩, hd, hsum⟩
  · exact not_not.mp fun hne => hc2 ⟨hz, hne⟩
  · exact Bool.eq_false_iff.mpr fun hi => hc3 ⟨hp, hi⟩
  · exact Bool.eq_false_iff.mpr fun hi => hc5 ⟨hz, hi⟩
  · exact not_not.mp fun hne => hc6 ⟨hi, hne⟩

variable [Env]

/-- What `parse_file_entries` accepts. -/
theorem parseFileEntries_run (set : List UInt8) (k : Nat) (hn : w.nodes id = some n) :
    Wp (fun _ => True) (parseFileEntries id set k) w fun rc v => rc = .ok →
      v.sb = w.sb ∧ SetOk w.sb set k ∧
        (∃ d, v.nodes id = some { parsed set n with isDirty := d }) ∧
        (v.errorsFixed = w.errorsFixed → leAt set 2 2 = exfatCalcChecksum set) := by
  have hname : 2 + nameNeed set - 2 = nameNeed set := by omega
  rw [nameNeed] at hname
  simp only [parseFileEntries, checkEntries, wp_bind]
  split
  · rename_i htypes
    simp only [wp_pure, Bool.not_true, Bool.false_eq_true, if_false, hname]
    split
    · intro h
      cases h
    rename_i htwo
    split
    · intro h
      cases h
    rename_i hflags
    split
    · intro h
      cases h
    rename_i hroom
    have hmeta := initNodeMeta_spec (E := fun _ => True) hn set
    simp only [wp_bind] at hmeta ⊢
    refine hmeta.mono fun _ _ hm => hm.mono ?_
    rintro _ _ ⟨e, rfl⟩
    simp only [wp_modifyNode_setNode]
    refine (checkNode_run (w := (w.erred e).setNode id (parsed set n)) (World.setNode_self _ _ _)
      _).mono fun ok v hrun => ?_
    split
    · rename_i hok
      obtain ⟨hs, hnode, hd, hsum⟩ := hrun hok
      refine fun _ => ⟨hs, ⟨htypes, Nat.not_lt.mp htwo, not_not.mp hflags, ?_, ?_⟩, hd, fun he =>
        (hsum he).symm⟩
      · simp only [nameNeed]
        omega
      · exact ⟨hnode.valid, hnode.empty, hnode.start, hnode.heap, hnode.flag, hnode.dir⟩
    · intro h
      cases h
  · intro h
    cases h

omit [Env] in
theorem checkTypes_tail {p : Nat} {ts : List Nat} (hp : exfatEntryFileTail ≤ p)
    (h : checkTypes (some p) ts = true) : ∀ t ∈ ts, exfatEntryFileTail ≤ t := by
  induction ts generalizing p with
  | nil => simp
  | cons t ts ih =>
    rw [checkTypes, Bool.and_eq_true] at h
    obtain ⟨hf, hr⟩ := h
    have hne : p ≠ exfatEntryFile ∧ p ≠ exfatEntryFileInfo ∧ p ≠ exfatEntryFileName := by
      simp only [exfatEntryFileTail, exfatEntryFile, exfatEntryFileInfo, exfatEntryFileName] at *
      omega
    simp only [entryFollows, hne.1, hne.2.1, hne.2.2, if_false] at hf
    split at hf
    · have ht : exfatEntryFileTail ≤ t := of_decide_eq_true hf
      intro x hx
      rcases List.mem_cons.mp hx with rfl | hx
      · exact ht
      · exact ih ht hr x hx
    · cases hf

omit [Env] in
theorem checkTypes_names {ts : List Nat} (h : checkTypes (some exfatEntryFileName) ts = true) :
    ∃ names tails, ts = List.replicate names exfatEntryFileName ++ tails ∧
      ∀ t ∈ tails, exfatEntryFileTail ≤ t := by
  induction ts with
  | nil => exact ⟨0, [], rfl, by simp⟩
  | cons t ts ih =>
    rw [checkTypes, Bool.and_eq_true] at h
    obtain ⟨hf, hr⟩ := h
    by_cases ht : t = exfatEntryFileName
    · subst ht
      obtain ⟨names, tails, rfl, htails⟩ := ih hr
      exact ⟨names + 1, tails, rfl, htails⟩
    · have hor : (decide (t = exfatEntryFileName) || decide (exfatEntryFileTail ≤ t)) = true := hf
      rw [decide_eq_false ht, Bool.false_or] at hor
      have hle : exfatEntryFileTail ≤ t := of_decide_eq_true hor
      refine ⟨0, t :: ts, rfl, fun x hx => ?_⟩
      rcases List.mem_cons.mp hx with rfl | hx
      · exact hle
      · exact checkTypes_tail hle hr x hx

omit [Env] in
/-- The grammar of `check_entries`: the two meta data entries, names, then tails. -/
theorem checkTypes_grammar {ts : List Nat} (h : checkTypes none ts = true) :
    ∃ names tails, ts = exfatEntryFile :: exfatEntryFileInfo ::
        (List.replicate (names + 1) exfatEntryFileName ++ tails) ∧
      ∀ t ∈ tails, exfatEntryFileTail ≤ t := by
  cases ts with
  | nil => simp [checkTypes, entryFollows] at h
  | cons a ts =>
    rw [checkTypes, Bool.and_eq_true] at h
    obtain ⟨ha, h⟩ := h
    obtain rfl : a = exfatEntryFile := by simpa [entryFollows] using ha
    cases ts with
    | nil => simp [checkTypes, entryFollows] at h
    | cons b ts =>
      rw [checkTypes, Bool.and_eq_true] at h
      obtain ⟨hb, h⟩ := h
      obtain rfl : b = exfatEntryFileInfo := by simpa [entryFollows] using hb
      cases ts with
      | nil => simp [checkTypes, entryFollows] at h
      | cons c ts =>
        rw [checkTypes, Bool.and_eq_true] at h
        obtain ⟨hc, h⟩ := h
        obtain rfl : c = exfatEntryFileName := by simpa [entryFollows] using hc
        obtain ⟨names, tails, rfl, ht⟩ := checkTypes_names h
        exact ⟨names, tails, rfl, ht⟩

omit [Env] in
theorem entryFollows_tail {p : Nat} (hp : exfatEntryFileTail ≤ p ∧ p ≤ 0xff) (c : Option Nat) :
    entryFollows (some p) c = c.all (exfatEntryFileTail ≤ ·) := by
  have hne : p ≠ exfatEntryFile ∧ p ≠ exfatEntryFileInfo ∧ p ≠ exfatEntryFileName := by
    simp only [exfatEntryFileTail, exfatEntryFile, exfatEntryFileInfo, exfatEntryFileName] at *
    omega
  simp only [entryFollows, hne.1, hne.2.1, hne.2.2, hp, and_self, if_false, if_true]
  cases c <;> rfl

omit [Env] in
theorem checkTypes_tail_end {p : Nat} {ts : List Nat} (hp : exfatEntryFileTail ≤ p ∧ p ≤ 0xff)
    (h : ∀ t ∈ ts, exfatEntryFileTail ≤ t ∧ t ≤ 0xff) : checkTypes (some p) ts = true := by
  induction ts generalizing p with
  | nil =>
    rw [checkTypes, entryFollows_tail hp]
    rfl
  | cons t ts ih =>
    have ht := h t List.mem_cons_self
    rw [checkTypes, entryFollows_tail hp, Bool.and_eq_true]
    exact ⟨decide_eq_true ht.1, ih ht fun x hx => h x (List.mem_cons_of_mem _ hx)⟩

omit [Env] in
theorem checkTypes_names_end (k : Nat) {tails : List Nat}
    (h : ∀ t ∈ tails, exfatEntryFileTail ≤ t ∧ t ≤ 0xff) :
    checkTypes (some exfatEntryFileName) (List.replicate k exfatEntryFileName ++ tails) = true := by
  induction k with
  | zero =>
    cases tails with
    | nil => rfl
    | cons t ts =>
      have ht := h t List.mem_cons_self
      have hrest : ∀ x ∈ ts, exfatEntryFileTail ≤ x ∧ x ≤ 0xff :=
        fun x hx => h x (List.mem_cons_of_mem _ hx)
      have hfollows : entryFollows (some exfatEntryFileName) (some t) =
          (decide (t = exfatEntryFileName) || decide (exfatEntryFileTail ≤ t)) := rfl
      rw [List.replicate_zero, List.nil_append, checkTypes, hfollows, checkTypes_tail_end ht hrest,
        decide_eq_true ht.1]
      simp
  | succ k ih =>
    rw [List.replicate_succ, List.cons_append, checkTypes, ih]
    rfl

omit [Env] in
theorem entryType_byte (i : Nat) : entryType set i ≤ 0xff :=
  Nat.le_of_lt_succ (UInt8.toNat_lt _)

omit [Env] in
theorem checkTypes_iff : checkTypes none (entryTypes set k) = true ↔
    ∃ names tails, entryTypes set k = 0x85 :: 0xc0 :: (List.replicate (names + 1) 0xc1 ++ tails) ∧
      ∀ t ∈ tails, 0xe0 ≤ t ∧ t ≤ 0xff := by
  constructor
  · intro h
    obtain ⟨names, tails, hts, htails⟩ := checkTypes_grammar h
    refine ⟨names, tails, hts, fun t ht => ⟨htails t ht, ?_⟩⟩
    have hmem : t ∈ entryTypes set k := by
      rw [hts]
      simp [ht]
    obtain ⟨i, -, rfl⟩ := List.mem_map.mp hmem
    exact entryType_byte i
  · rintro ⟨names, tails, hts, htails⟩
    have hnames := checkTypes_names_end names htails
    rw [hts, List.replicate_succ, List.cons_append, checkTypes, checkTypes, checkTypes]
    exact Bool.and_eq_true_iff.mpr ⟨rfl, Bool.and_eq_true_iff.mpr ⟨rfl,
      Bool.and_eq_true_iff.mpr ⟨rfl, hnames⟩⟩⟩

omit [Env] in
/-- `check_entries` returns true on exactly the sets of the grammar, and reports an error on every
other one. -/
theorem checkEntries_iff (entries : List UInt8) (n : Nat) (w : World) :
    ∃ accepted v, checkEntries entries n w = .ok (accepted, v) ∧
      (accepted = true ↔ ∃ names tails, entryTypes entries n =
          0x85 :: 0xc0 :: (List.replicate (names + 1) 0xc1 ++ tails) ∧
        ∀ t ∈ tails, 0xe0 ≤ t ∧ t ≤ 0xff) ∧
      v = if accepted then w else w.erred (w.errors + 1) := by
  rw [← checkTypes_iff]
  by_cases h : checkTypes none (entryTypes entries n) = true
  · refine ⟨true, w, ?_, by simp [h], rfl⟩
    simp only [checkEntries, h, if_true]
    rfl
  · refine ⟨false, w.erred (w.errors + 1), ?_, by simp [h], rfl⟩
    simp only [checkEntries, h]
    rfl

/-- The number of tail entries among `k` entries. -/
def tailCount (set : List UInt8) (k : Nat) : Nat :=
  (entryTypes set k).countP (exfatEntryFileTail ≤ ·)

/-- The units of the name entries among `k` entries, one after the other. -/
def nameEntryUnits (set : List UInt8) (k : Nat) : List Nat :=
  ((List.range k).filter fun i => entryType set i = exfatEntryFileName).flatMap (nameUnits set)

/-- The types of an accepted set, entry by entry. -/
structure Typed (set : List UInt8) (k names : Nat) : Prop where
  file : entryType set 0 = exfatEntryFile
  info : entryType set 1 = exfatEntryFileInfo
  name : ∀ i < names, entryType set (2 + i) = exfatEntryFileName
  tail : ∀ i, 2 + names ≤ i → i < k → exfatEntryFileTail ≤ entryType set i
  count : k = 2 + names + tailCount set k

omit [Env] in
theorem typed_of_check (h : checkTypes none (entryTypes set k) = true) :
    ∃ names, Typed set k names := by
  obtain ⟨names, tails, hts, htails⟩ := checkTypes_grammar h
  have hat : ∀ i < k, some (entryType set i) = (exfatEntryFile :: exfatEntryFileInfo ::
      (List.replicate (names + 1) exfatEntryFileName ++ tails))[i]? := by
    intro i hi
    rw [← hts, entryTypes, List.getElem?_map, List.getElem?_range hi]
    rfl
  have hlen : k = 2 + (names + 1) + tails.length := by
    have := congrArg List.length hts
    simp only [entryTypes, List.length_map, List.length_range, List.length_cons,
      List.length_append, List.length_replicate] at this
    omega
  have hname : ∀ i < names + 1, entryType set (2 + i) = exfatEntryFileName := by
    intro i hi
    have := hat (2 + i) (by omega)
    rw [Nat.add_comm 2 i, List.getElem?_cons_succ, List.getElem?_cons_succ,
      List.getElem?_append_left (by simpa using hi), List.getElem?_replicate, if_pos hi] at this
    rw [Nat.add_comm]
    exact Option.some.inj this
  refine ⟨names + 1, ?_, ?_, hname, fun i hi hk => ?_, ?_⟩
  · exact Option.some.inj (hat 0 (by omega))
  · exact Option.some.inj (hat 1 (by omega))
  · obtain ⟨j, rfl⟩ := Nat.exists_eq_add_of_le hi
    have := hat (2 + (names + 1) + j) hk
    rw [show 2 + (names + 1) + j = (names + 1) + j + 1 + 1 by omega, List.getElem?_cons_succ,
      List.getElem?_cons_succ, List.getElem?_append_right (by simp), List.length_replicate,
      Nat.add_sub_cancel_left] at this
    rw [show 2 + (names + 1) + j = (names + 1) + j + 1 + 1 by omega]
    exact htails _ (List.mem_of_getElem? this.symm)
  · have hzero : (List.replicate (names + 1) exfatEntryFileName).countP (exfatEntryFileTail ≤ ·) = 0 := by
      rw [List.countP_replicate, if_neg (by decide)]
    have hall : tails.countP (exfatEntryFileTail ≤ ·) = tails.length :=
      List.countP_eq_length.mpr fun t ht => decide_eq_true (htails t ht)
    rw [tailCount, hts, List.countP_cons_of_neg (by decide), List.countP_cons_of_neg (by decide),
      List.countP_append, hzero, hall, Nat.zero_add]
    exact hlen

omit [Env] in
theorem le16s_length (n : Nat) (bs : List UInt8) : (le16s n bs).length = n := by
  induction n generalizing bs with
  | zero => rfl
  | succ n ih => rw [le16s, List.length_cons, ih]

omit [Env] in
theorem nameUnits_length (set : List UInt8) (i : Nat) : (nameUnits set i).length = exfatEnameMax :=
  le16s_length _ _

omit [Env] in
/-- The beginning of as many lists of one length. -/
theorem flatMap_range_take {f : Nat → List Nat} {c m j : Nat} (hf : ∀ i, (f i).length = c)
    (h : m ≤ j) : ((List.range j).flatMap f).take (c * m) = (List.range m).flatMap f := by
  have hlen : ∀ m, ((List.range m).flatMap f).length = c * m := by
    intro m
    induction m with
    | zero => rfl
    | succ m ih =>
      rw [List.range_succ, List.flatMap_append, List.length_append, ih, List.flatMap_singleton, hf,
        Nat.mul_succ]
  obtain ⟨r, rfl⟩ := Nat.exists_eq_add_of_le h
  rw [List.range_add, List.flatMap_append, List.take_left' (hlen m)]

omit [Env] in
/-- The units of the name entries of an accepted set. -/
theorem Typed.units {names : Nat} (h : Typed set k names) :
    nameEntryUnits set k = (List.range names).flatMap fun i => nameUnits set (2 + i) := by
  obtain ⟨r, hr⟩ : ∃ r, k = 2 + names + r := ⟨_, h.count⟩
  have htwo : (List.range 2).filter (fun i => entryType set i = exfatEntryFileName) = [] := by
    rw [List.filter_eq_nil_iff]
    intro i hi
    have hi2 : i = 0 ∨ i = 1 := by
      have := List.mem_range.mp hi
      omega
    rcases hi2 with rfl | rfl
    · rw [h.file]
      decide
    · rw [h.info]
      decide
  have hnames : ((List.range names).map (2 + ·)).filter
      (fun i => entryType set i = exfatEntryFileName) = (List.range names).map (2 + ·) := by
    rw [List.filter_eq_self]
    intro i hi
    obtain ⟨j, hj, rfl⟩ := List.mem_map.mp hi
    exact decide_eq_true (h.name j (List.mem_range.mp hj))
  have htails : ((List.range r).map (2 + names + ·)).filter
      (fun i => entryType set i = exfatEntryFileName) = [] := by
    rw [List.filter_eq_nil_iff]
    intro i hi
    obtain ⟨j, hj, rfl⟩ := List.mem_map.mp hi
    have hlt := List.mem_range.mp hj
    have htail := h.tail (2 + names + j) (by omega) (by omega)
    intro he
    rw [of_decide_eq_true he] at htail
    exact absurd htail (by decide)
  rw [nameEntryUnits, hr, List.range_add, List.range_add, List.filter_append, List.filter_append,
    htwo, hnames, htails, List.nil_append, List.append_nil, List.flatMap_map]

/-- The name of an accepted set comes from its name entries alone exactly when the number of
continuations leaves room for the tail entries besides the name entries that the length asks for. -/
theorem name_from_name_entries_iff {v : World} (hn : w.nodes id = some n)
    (hk : k = 1 + leAt set 1 1) (h : parseFileEntries id set k w = .ok (.ok, v)) :
    ((∀ i < nameNeed set, entryType set (2 + i) = exfatEntryFileName) ∧
      ∃ m, v.nodes id = some m ∧
        m.name = padName ((nameEntryUnits set k).take (exfatEnameMax * nameNeed set))) ↔
      1 + nameNeed set + tailCount set k ≤ leAt set 1 1 := by
  have hrun := parseFileEntries_run set k hn
  rw [Wp, h] at hrun
  obtain ⟨-, hset, ⟨d, hd⟩, -⟩ := hrun rfl
  obtain ⟨names, ht⟩ := typed_of_check hset.types
  have hcount := ht.count
  have hroom := hset.room
  constructor
  · rintro ⟨hname, -⟩
    by_contra hlt
    have htail := ht.tail (2 + names) le_rfl (by omega)
    rw [hname names (by omega)] at htail
    exact absurd htail (by decide)
  · intro hle
    refine ⟨fun i hi => ht.name i (by omega), _, hd, ?_⟩
    rw [ht.units, flatMap_range_take (fun i => nameUnits_length set (2 + i)) (by omega)]
    rfl

/-- A set whose name fills one entry, with a tail entry after it; the length is 15 or 16. -/
def tailSet (length : UInt8) : List UInt8 :=
  withChecksum (([0x85, 3, 0, 0, 0x20] ++ List.replicate 27 0) ++
    ([0xc0, 1, 0, length] ++ List.replicate 28 0) ++
    ([0xc1, 0] ++ (List.replicate 15 [0x61, 0]).flatten) ++ ([0xe0] ++ List.replicate 31 0))

/-- A world with one new node. -/
def newNode : World := World.setNode { dev := fun _ => 0, sb := smallSb } 0 { name := padName [] }

theorem newNode_accepts (hset : SetOk newNode.sb set k) (hsum : leAt set 2 2 = exfatCalcChecksum set) :
    ∃ v, parseFileEntries 0 set k newNode = .ok (.ok, v) ∧
      v.nodes 0 = some (parsed set { name := padName [] }) := by
  have hn : newNode.nodes 0 = some { name := padName [] } := World.setNode_self _ _ _
  obtain ⟨rc, v, hrun, rfl, e, rfl⟩ :=
    (parseFileEntries_ok (E := fun _ => False) hn hset hsum).returns
  exact ⟨_, hrun, World.setNode_self _ _ _⟩

omit [Env] in
theorem tailSet_ok (length : UInt8) (h : length = 15 ∨ length = 16) :
    @SetOk calmEnv smallSb (tailSet length) 4 := by
  rcases h with rfl | rfl
  · exact @SetOk.mk calmEnv _ _ _ (by decide +kernel) (by decide +kernel) (by decide +kernel)
      (by decide +kernel) ⟨by decide +kernel, by decide +kernel, by decide +kernel, by decide +kernel,
        by decide +kernel, by decide +kernel⟩
  · exact @SetOk.mk calmEnv _ _ _ (by decide +kernel) (by decide +kernel) (by decide +kernel)
      (by decide +kernel) ⟨by decide +kernel, by decide +kernel, by decide +kernel, by decide +kernel,
        by decide +kernel, by decide +kernel⟩

omit [Env] in
theorem tailSet_sum (length : UInt8) :
    leAt (tailSet length) 2 2 = exfatCalcChecksum (tailSet length) := by
  unfold tailSet
  exact withChecksum_ok (by simp)

omit [Env] in
theorem tailSet_accepted (length : UInt8) (h : length = 15 ∨ length = 16) :
    ∃ v, @parseFileEntries calmEnv 0 (tailSet length) 4 newNode = .ok (.ok, v) := by
  obtain ⟨v, hrun, -⟩ := @newNode_accepts _ _ calmEnv (tailSet_ok length h) (tailSet_sum length)
  exact ⟨v, hrun⟩

omit [Env] in
theorem name_from_name_entries_iff_tail :
    ∃ v, @parseFileEntries calmEnv 0 (tailSet 15) 4 newNode = .ok (.ok, v) ∧
      (((∀ i < nameNeed (tailSet 15), entryType (tailSet 15) (2 + i) = exfatEntryFileName) ∧
        ∃ m, v.nodes 0 = some m ∧ m.name = padName ((nameEntryUnits (tailSet 15) 4).take
          (exfatEnameMax * nameNeed (tailSet 15)))) ↔
        1 + nameNeed (tailSet 15) + tailCount (tailSet 15) 4 ≤ leAt (tailSet 15) 1 1) := by
  obtain ⟨v, hrun⟩ := tailSet_accepted 15 (.inl rfl)
  exact ⟨v, hrun, @name_from_name_entries_iff _ _ _ _ _ calmEnv v (World.setNode_self _ _ _)
    (by decide +kernel) hrun⟩

omit [Env] in
/-- A name of 16 units with one name entry: the last unit is taken from the tail entry. -/
theorem name_from_tail_entry :
    (∃ v, @parseFileEntries calmEnv 0 (tailSet 16) 4 newNode = .ok (.ok, v)) ∧
      4 = 1 + leAt (tailSet 16) 1 1 ∧ 1 < nameNeed (tailSet 16) ∧
      entryType (tailSet 16) (2 + 1) ≠ exfatEntryFileName :=
  ⟨tailSet_accepted 16 (.inr rfl), by decide +kernel, by decide +kernel, by decide +kernel⟩

end Proofs

end Exfat
