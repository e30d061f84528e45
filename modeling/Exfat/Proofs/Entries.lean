import Exfat.Proofs.Calendar
import Exfat.Proofs.Data

namespace Exfat
open Lib

/-! Entry sets: reading, writing, and what `exfat_flush_node` makes of one. -/

namespace Proofs

variable {E : Halt → Prop} {w : World} {n : Node} {L : List Nat} {off k : Nat} [Env]

/-- The fields of an entry set that `exfat_flush_node` fills in, in the order it writes them. -/
def flushEdits (node : Node) : List (Nat × List UInt8) :=
  let m := exfatUnix2exfat node.mtime
  let a := exfatUnix2exfat node.atime
  [(4, toLe 2 node.attrib), (14, toLe 2 m.1), (12, toLe 2 m.2.1), (21, toLe 1 m.2.2),
    (18, toLe 2 a.1), (16, toLe 2 a.2.1), (56, toLe 8 node.size), (40, toLe 8 node.size),
    (52, toLe 4 node.startCluster),
    (33, toLe 1 (if node.size ≠ 0 ∧ node.isContiguous = true
      then exfatFlagAlways1 + exfatFlagContiguous else exfatFlagAlways1))]

theorem flushEntries_eq (node : Node) (entries : List UInt8) :
    flushEntries node entries = withChecksum (edit entries (flushEdits node)) := by
  unfold flushEntries flushEdits
  generalize exfatUnix2exfat node.mtime = m
  generalize exfatUnix2exfat node.atime = a
  rfl

theorem flushEdits_bound {entries : List UInt8} (hl : 64 ≤ entries.length) (node : Node) :
    ∀ e ∈ flushEdits node, e.1 + e.2.length ≤ entries.length := by
  intro e he
  simp only [flushEdits, List.mem_cons, List.not_mem_nil, or_false] at he
  rcases he with rfl | rfl | rfl | rfl | rfl | rfl | rfl | rfl | rfl | rfl <;>
    simp only [toLe_length] <;> omega

omit [Env] in
/-- The checksum field is not part of the checksum. -/
theorem exfatCalcChecksum_setAt {e : List UInt8} (v : Nat) (hl : 64 ≤ e.length) :
    exfatCalcChecksum (setAt e 2 (toLe 2 v)) = exfatCalcChecksum e := by
  have h2 : (e.take 2).length = 2 := by rw [List.length_take]; omega
  have ht : (setAt e 2 (toLe 2 v)).take 2 = e.take 2 := by
    rw [setAt, List.append_assoc, List.take_left' h2]
  have hd : ∀ k, 4 ≤ k → (setAt e 2 (toLe 2 v)).drop k = e.drop k := by
    intro k hk
    have hlen : (e.take 2 ++ toLe 2 v).length = 4 := by simp [h2]
    have he : k = (e.take 2 ++ toLe 2 v).length + (k - 4) := by omega
    rw [setAt, he, ← List.drop_drop, List.drop_left, List.drop_drop, toLe_length, hlen]
  simp only [exfatCalcChecksum, exfatStartChecksum, ht, hd 4 (Nat.le_refl 4),
    hd entrySize (by simp)]

omit [Env] in
theorem addChecksumBytes_lt (bs : List UInt8) {s : Nat} (hs : s < 2 ^ 16) :
    addChecksumBytes s bs < 2 ^ 16 := by
  induction bs generalizing s with
  | nil => exact hs
  | cons b bs ih => exact ih (Nat.mod_lt _ (by norm_num))

omit [Env] in
theorem exfatCalcChecksum_lt (e : List UInt8) : exfatCalcChecksum e < 2 ^ 16 :=
  addChecksumBytes_lt _ (addChecksumBytes_lt _ (by norm_num))

omit [Env] in
/-- A set whose checksum was filled in carries its own checksum. -/
theorem withChecksum_ok {e : List UInt8} (hl : 64 ≤ e.length) :
    leAt (withChecksum e) 2 2 = exfatCalcChecksum (withChecksum e) := by
  rw [withChecksum, exfatCalcChecksum_setAt _ hl, leAt_setAt_self (by omega)]
  exact Nat.mod_eq_of_lt (exfatCalcChecksum_lt e)

omit [Env] in
theorem withChecksum_length {e : List UInt8} (hl : 64 ≤ e.length) :
    (withChecksum e).length = e.length := setAt_length (by simp only [toLe_length]; omega)

/-- The node that `init_node_meta1` and `init_node_meta2` make of an entry set. -/
def decoded (set : List UInt8) : Node :=
  match (do initNodeMeta1 0 set; initNodeMeta2 0 (set.drop entrySize) : M Unit)
    (World.setNode { dev := fun _ => 0 } 0 {}) with
  | .ok (_, v) => (v.nodes 0).getD {}
  | .error _ => {}

/-- The fields `init_node_meta1` and `init_node_meta2` set. -/
def initNode (set : List UInt8) (n : Node) : Node :=
  { n with
    attrib := leAt set 4 2
    continuations := leAt set 1 1
    mtime := timeOf (leAt set 14 2) (leAt set 12 2) (leAt set 21 1)
    atime := timeOf (leAt set 18 2) (leAt set 16 2) 0
    size := leAt (set.drop entrySize) 24 8
    startCluster := leAt (set.drop entrySize) 20 4
    fptrCluster := leAt (set.drop entrySize) 20 4
    isContiguous := leAt (set.drop entrySize) 1 1 &&& exfatFlagContiguous != 0 }

theorem initNodeMeta_spec {id : NodeId} (hn : w.nodes id = some n) (set : List UInt8) :
    Wp E (do initNodeMeta1 id set; initNodeMeta2 id (set.drop entrySize)) w fun _ v =>
      ∃ e, v = (w.erred e).setNode id (initNode set n) := by
  simp only [initNodeMeta1, initNodeMeta2, wp_bind, wp_modifyNode hn]
  apply (exfatExfat2unix_spec _ _ _).mono
  rintro _ _ ⟨rfl, e, rfl⟩
  apply (exfatExfat2unix_spec _ _ _).mono
  rintro _ _ ⟨rfl, e, rfl⟩
  simp only [World.erred_erred, World.setNode_erred, wp_modifyNode_setNode]
  exact ⟨e, rfl⟩

theorem decoded_eq (set : List UInt8) : decoded set = initNode set {} := by
  obtain ⟨_, v, hr, e, rfl⟩ := (initNodeMeta_spec (w := World.setNode { dev := fun _ => 0 } 0 {})
    (World.setNode_self _ 0 {}) set).returns
  simp only [decoded, hr, World.setNode_self, Option.getD_some]

/-- An entry set carries its checksum and decodes to a node's attributes, size, start cluster,
modification time and, unless it is empty, contiguity. -/
structure Decodes (set : List UInt8) (n : Node) : Prop where
  checksum : leAt set 2 2 = exfatCalcChecksum set
  attrib : (decoded set).attrib = n.attrib
  size : (decoded set).size = n.size
  startCluster : (decoded set).startCluster = n.startCluster
  mtime : (decoded set).mtime = n.mtime
  contiguous : n.size ≠ 0 → (decoded set).isContiguous = n.isContiguous

/-- The fields of a node hold values of their C types, and its modification time fits on disk. -/
structure Storable (n : Node) : Prop where
  attrib : n.attrib < 2 ^ 16
  size : n.size < 2 ^ 64
  startCluster : n.startCluster < 2 ^ 32
  mtime : TimeInRange n.mtime

theorem flushEntries_length {set : List UInt8} (hl : 64 ≤ set.length) (n : Node) :
    (flushEntries n set).length = set.length := by
  have he := edit_length (flushEdits_bound hl n)
  rw [flushEntries_eq, withChecksum_length (by omega), he]

/-- A field that `exfat_flush_node` fills in keeps its value until the end. -/
theorem leAt_flushEntries {set : List UInt8} (hl : 64 ≤ set.length) {n : Node}
    {a b : List (Nat × List UInt8)} {o k v : Nat} (hs : flushEdits n = a ++ (o, toLe k v) :: b)
    (ho : ∀ e ∈ b, o + k ≤ e.1 ∨ e.1 + e.2.length ≤ o) (h4 : 4 ≤ o) :
    leAt (flushEntries n set) o k = v % 256 ^ k := by
  have hb := flushEdits_bound hl n
  have he := edit_length hb
  have hc : ∀ x, leAt (edit (edit set (flushEdits n)) [(2, toLe 2 x)]) o k =
      leAt (edit set (flushEdits n)) o k := fun x =>
    leAt_edit (by simp only [List.mem_singleton, forall_eq, toLe_length]; omega)
      (by simp only [List.mem_singleton, forall_eq, toLe_length]; omega)
  simp only [edit, List.foldl_cons, List.foldl_nil] at hc
  rw [flushEntries_eq, withChecksum]
  refine (hc _).trans ?_
  rw [hs]
  exact leAt_edit_hit _ (hs ▸ hb) ho

omit [Env] in
/-- A set of the right form has at least the two entries with the meta data. -/
theorem checkTypes_two {set : List UInt8} {k : Nat}
    (h : checkTypes none (entryTypes set (1 + k)) = true) : 1 ≤ k := by
  cases k with
  | zero =>
    simp [entryTypes, checkTypes, entryFollows] at h
    exact absurd h.1 h.2.1
  | succ k => omega

/-- What `exfat_flush_node` writes decodes to the node. -/
theorem flushEntries_decodes {set : List UInt8} (hl : 64 ≤ set.length) (hs : Storable n) :
    Decodes (flushEntries n set) n := by
  have he := edit_length (flushEdits_bound hl n)
  obtain ⟨hd, ht, hcs⟩ := exfatUnix2exfat_lt n.mtime
  have hattrib : leAt (flushEntries n set) 4 2 = n.attrib := by
    rw [leAt_flushEntries hl (a := []) rfl (by simp) (by omega)]
    exact Nat.mod_eq_of_lt hs.attrib
  have hdate : leAt (flushEntries n set) 14 2 = (exfatUnix2exfat n.mtime).1 := by
    rw [leAt_flushEntries hl (a := [_]) rfl (by simp) (by omega)]
    exact Nat.mod_eq_of_lt hd
  have htime : leAt (flushEntries n set) 12 2 = (exfatUnix2exfat n.mtime).2.1 := by
    rw [leAt_flushEntries hl (a := [_, _]) rfl (by simp) (by omega)]
    exact Nat.mod_eq_of_lt ht
  have hcent : leAt (flushEntries n set) 21 1 = (exfatUnix2exfat n.mtime).2.2 := by
    rw [leAt_flushEntries hl (a := [_, _, _]) rfl (by simp) (by omega)]
    exact Nat.mod_eq_of_lt hcs
  have hsize : leAt (flushEntries n set) 56 8 = n.size := by
    rw [leAt_flushEntries hl (a := [_, _, _, _, _, _]) rfl (by simp) (by omega)]
    exact Nat.mod_eq_of_lt hs.size
  have hstart : leAt (flushEntries n set) 52 4 = n.startCluster := by
    rw [leAt_flushEntries hl (a := [_, _, _, _, _, _, _, _]) rfl (by simp) (by omega)]
    exact Nat.mod_eq_of_lt hs.startCluster
  have hflags : leAt (flushEntries n set) 33 1 = (if n.size ≠ 0 ∧ n.isContiguous = true
      then exfatFlagAlways1 + exfatFlagContiguous else exfatFlagAlways1) := by
    rw [leAt_flushEntries hl (a := [_, _, _, _, _, _, _, _, _]) rfl (by simp) (by omega)]
    split <;> rfl
  refine ⟨?_, ?_, ?_, ?_, ?_, ?_⟩
  · rw [flushEntries_eq]
    exact withChecksum_ok (by omega)
  · simpa only [decoded_eq, initNode] using hattrib
  · simp only [decoded_eq, initNode, leAt_drop]
    exact hsize
  · simp only [decoded_eq, initNode, leAt_drop]
    exact hstart
  · simp only [decoded_eq, initNode, hdate, htime, hcent]
    exact timeOf_unix2exfat hs.mtime
  · intro hne
    simp only [decoded_eq, initNode, leAt_drop, entrySize, hflags]
    cases n.isContiguous <;> simp [hne]

/-- Reading entries that lie inside a directory. -/
theorem readEntries_spec (hq : Env.Quiet) (hcount : w.sb.clusterCount < 2 ^ 32) {dir : NodeId}
    {c : Nat} (hn : w.nodes dir = some n) (hd : n.isDir = true) (hc : Chained w.sb w.dev n L)
    (hs : n.size ≤ L.length * w.sb.clusterSize) (hk : 0 < k) (ho : off + entrySize * k ≤ n.size)
    (hi : L[off / w.sb.clusterSize]? = some c) :
    Wp E (readEntries dir k off) w
      (Ret (.ok (fileData w.sb w.dev L off (entrySize * k)))
        (w.setNode dir (n.seek (off / w.sb.clusterSize) c))) := by
  have hlt : off < n.size := by simp only [entrySize] at ho; omega
  have hpos : 0 < entrySize * k := by simp only [entrySize]; omega
  simp only [readEntries, wp_bind, wp_getNode hn, hd, Bool.not_true, Bool.false_eq_true, if_false]
  refine after_ret (exfatGenericPread_dir hq hcount hn hd hc hs hlt hpos hi) fun t => ?_
  simp only [Nat.min_eq_left (show entrySize * k ≤ n.size - off by omega), fileData_length, if_true]
  exact ⟨rfl, t, rfl⟩

/-- Writing entries that lie inside a directory. -/
theorem writeEntries_spec (hq : Env.Quiet) (hz : Sizes w.sb) {dir : NodeId} {c : Nat}
    {entries : List UInt8} (hn : w.nodes dir = some n) (hd : n.isDir = true)
    (hc : Chained w.sb w.dev n L) (ha : LinksApart w.sb n.isContiguous L)
    (hs : n.size ≤ L.length * w.sb.clusterSize)
    (hb : entries ≠ []) (ho : off + entries.length ≤ n.size)
    (hi : L[off / w.sb.clusterSize]? = some c) :
    Wp E (writeEntries dir entries off) w fun rc v =>
      ∃ dev, Wrote w.sb w.dev L off entries dev ∧
        Ret .ok ((w.withDev dev).setNode dir
          (n.seek (off / w.sb.clusterSize) c)) rc v := by
  simp only [writeEntries, wp_bind, wp_getNode hn, hd, Bool.not_true, Bool.false_eq_true, if_false]
  apply (exfatGenericPwrite_dir hq hz hn hd hc ha hs hb ho hi).mono
  rintro _ _ ⟨dev, hwr, rfl, t, rfl⟩
  exact ⟨dev, hwr, rfl, t, rfl⟩

end Proofs

end Exfat
