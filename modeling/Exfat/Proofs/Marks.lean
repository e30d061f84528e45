import Exfat.Proofs.Aside
import Exfat.Proofs.Held

namespace Exfat
open Lib

/-! The memory of the volume that entries of a directory fill in as `readdir` comes to them. -/

namespace Proofs

variable {w v : World}

/-- The memory that is one for the whole volume and that `readdir` fills in: the bitmap, and the bytes
of the label. -/
structure Marks where
  cmap : Cmap
  label : Nat → UInt8

def marksOf (w : World) : Marks := ⟨w.cmap, fun i => w.labelBuffer.getD i 0⟩

/-- `readdir` goes on after a clusters bitmap. -/
def bitmapFits (sb : SuperBlock) (entry : List UInt8) : Bool :=
  !sb.clusterInvalid (leAt entry 20 4) &&
    decide ((sb.clusterCount + 8 - 1) % 2 ^ 32 / 8 ≤ leAt entry 24 8)

/-- What `readdir` writes to `ef->label` on an entry. -/
def labelWrites (entry : List UInt8) : List UInt8 :=
  if entryType entry 0 = exfatEntryLabel ∧ leAt entry 1 1 ≤ exfatEnameMax then
    match utf16ToUtf8 (le16s exfatEnameMax (entry.drop 2)) exfatUtf8EnameBufferMax exfatEnameMax with
    | .ok label => label ++ [0]
    | .error _ => utf16ToUtf8Start (le16s exfatEnameMax (entry.drop 2)) exfatUtf8EnameBufferMax
        exfatEnameMax
  else []

/-- `readdir` goes on after a label. -/
def labelFits (entry : List UInt8) : Bool :=
  decide (leAt entry 1 1 ≤ exfatEnameMax) &&
    (utf16ToUtf8 (le16s exfatEnameMax (entry.drop 2)) exfatUtf8EnameBufferMax exfatEnameMax).isOk

/-- `readdir` goes on after an entry that starts no file, once there is an upper case table. -/
def goesOn (sb : SuperBlock) (entry : List UInt8) : Bool :=
  let type := entryType entry 0
  if type = exfatEntryUpcase then true
  else if type = exfatEntryBitmap then bitmapFits sb entry
  else if type = exfatEntryLabel then labelFits entry
  else decide (type &&& exfatEntryValid = 0)

/-- The bitmap in memory after a clusters bitmap entry, with what was read of it. -/
def markedCmap (sb : SuperBlock) (entry : List UInt8) (chunk : Option (Nat → Bool)) (m : Cmap) :
    Cmap :=
  { m with
    startCluster := leAt entry 20 4
    size := if sb.clusterInvalid (leAt entry 20 4) then m.size else sb.clusterCount
    chunkSize := if bitmapFits sb entry then sb.clusterCount else m.chunkSize
    chunk := if bitmapFits sb entry then chunk else m.chunk }

/-- The bits that the clusters of a bitmap entry hold. -/
def bitmapBitsOn (sb : SuperBlock) (dev : Store) (entry : List UInt8) : Nat → Bool :=
  bitsOf (dev.read (c2oRaw sb (leAt entry 20 4)) (bmapSize sb.clusterCount))

theorem getD_terminated (bs : List UInt8) (i : Nat) :
    (bs.takeWhile (· ≠ 0) ++ 0 :: (bs.dropWhile (· ≠ 0)).drop 1).getD i 0 = bs.getD i 0 := by
  have hsplit : bs = bs.takeWhile (· ≠ 0) ++ bs.dropWhile (· ≠ 0) :=
    (List.takeWhile_append_dropWhile).symm
  cases hd : bs.dropWhile (· ≠ 0) with
  | nil =>
    rw [hd, List.append_nil] at hsplit
    rw [← hsplit]
    by_cases hi : i < bs.length
    · rw [List.getD_append _ _ _ _ hi]
    · rw [List.getD_append_right _ _ _ _ (Nat.le_of_not_lt hi),
        List.getD_eq_default bs _ (Nat.le_of_not_lt hi)]
      cases i - bs.length <;> rfl
  | cons x xs =>
    have hx : x = 0 := by
      have hhead := List.head?_dropWhile_not (fun b : UInt8 => decide (b ≠ 0)) bs
      rw [hd] at hhead
      simpa using hhead
    rw [hd, hx] at hsplit
    conv_rhs => rw [hsplit]
    rfl

theorem getD_overwritten (bs old : List UInt8) (i : Nat) :
    (bs ++ old.drop bs.length).getD i 0 = (bs[i]?).getD (old.getD i 0) := by
  by_cases hi : i < bs.length
  · rw [List.getD_append _ _ _ _ hi, List.getD_eq_getElem _ _ hi, List.getElem?_eq_getElem hi]
    rfl
  · have hle := Nat.le_of_not_lt hi
    rw [List.getD_append_right _ _ _ _ hle, List.getElem?_eq_none hle, List.getD_eq_getElem?_getD,
      List.getElem?_drop, Nat.add_sub_cancel' hle, List.getD_eq_getElem?_getD]
    rfl

theorem copyLabel_getD (w : World) (label : List UInt8) (i : Nat) :
    (w.copyLabel label).labelBuffer.getD i 0 =
      ((label ++ [0])[i]?).getD (w.labelBuffer.getD i 0) := by
  rw [← getD_overwritten, List.length_append, List.length_singleton, List.append_assoc]
  rfl

theorem startLabel_getD (w : World) (bs : List UInt8) (i : Nat) :
    (w.startLabel bs).labelBuffer.getD i 0 = (bs[i]?).getD (w.labelBuffer.getD i 0) := by
  rw [← getD_overwritten]
  exact getD_terminated _ i

/-- Nodes, device and what else the reader of a directory depends on are the same. -/
structure Stays (w v : World) : Prop where
  nodes : v.nodes = w.nodes
  fresh : v.fresh = w.fresh
  dev : v.dev = w.dev
  sb : v.sb = w.sb
  upcase : v.upcase = w.upcase
  repair : v.repair = w.repair

section
variable [Env]

/-- What an entry that starts no file does to the memory of the volume: a label writes its bytes, a
clusters bitmap replaces the bitmap. What is read of the bitmap is only known if no request fails. -/
structure Marked (sb : SuperBlock) (dev : Store) (entry : List UInt8) (V U : Marks) : Prop where
  label : ∀ i, U.label i = ((labelWrites entry)[i]?).getD (V.label i)
  other : entryType entry 0 ≠ exfatEntryBitmap → U.cmap = V.cmap
  cmap : entryType entry 0 = exfatEntryBitmap → ∃ chunk,
    (Env.Quiet → chunk = some (bitmapBitsOn sb dev entry)) ∧ U.cmap = markedCmap sb entry chunk V.cmap

theorem Marked.none {sb : SuperBlock} {dev : Store} {entry : List UInt8} {V : Marks}
    (hl : labelWrites entry = []) (hb : entryType entry 0 ≠ exfatEntryBitmap) :
    Marked sb dev entry V V :=
  ⟨fun i => by rw [hl]; rfl, fun _ => rfl, fun h => absurd h hb⟩

omit [Env] in
theorem labelWrites_other {entry : List UInt8} (h : entryType entry 0 ≠ exfatEntryLabel) :
    labelWrites entry = [] := if_neg fun hl => h hl.1

/-- The memory after a clusters bitmap entry, given the bitmap that it leaves. -/
theorem Marked.bitmap {entry : List UInt8} {c : Option (Nat → Bool)}
    (ht : entryType entry 0 = exfatEntryBitmap) (hl : v.labelBuffer = w.labelBuffer)
    (hc : v.cmap = markedCmap w.sb entry c w.cmap)
    (hq : Env.Quiet → bitmapFits w.sb entry = true →
      c = some (bitmapBitsOn w.sb w.dev entry)) :
    Marked w.sb w.dev entry (marksOf w) (marksOf v) := by
  have hlabel : labelWrites entry = [] := labelWrites_other (by rw [ht]; decide)
  refine ⟨fun i => ?_, fun h => absurd ht h, fun _ => ?_⟩
  · rw [hlabel, marksOf, hl]
    rfl
  · cases hfit : bitmapFits w.sb entry with
    | true => exact ⟨c, fun h => hq h hfit, hc⟩
    | false =>
      refine ⟨_, fun _ => rfl, ?_⟩
      rw [marksOf, hc]
      simp only [markedCmap, hfit, Bool.false_eq_true, if_false]
      rfl

theorem readdirBitmap_marks {entry : List UInt8} (ht : entryType entry 0 = exfatEntryBitmap) :
    Wp (fun _ => True) (readdirBitmap entry) w fun rc v => Stays w v ∧
      Marked w.sb w.dev entry (marksOf w) (marksOf v) ∧
      (rc = .ok → bitmapFits w.sb entry = true) ∧
      (Env.Quiet → bitmapFits w.sb entry = true → rc = .ok) := by
  simp only [readdirBitmap, wp_bind, wp_modify, wp_get]
  split
  · rename_i hinv
    have hfit : bitmapFits w.sb entry = false := by simp [bitmapFits, hinv]
    simp only [wp_bind, wp_exfatError, wp_pure]
    refine ⟨⟨rfl, rfl, rfl, rfl, rfl, rfl⟩, .bitmap (c := none) ht rfl ?_ ?_, by simp, ?_⟩
    · simp only [markedCmap, hfit, hinv, if_true, Bool.false_eq_true, if_false]
      rfl
    · simp [hfit]
    · simp [hfit]
  rename_i hinv
  have hval : w.sb.clusterInvalid (leAt entry 20 4) = false := by simpa using hinv
  simp only [wp_bind, wp_modify]
  split
  · rename_i hsmall
    have hfit : bitmapFits w.sb entry = false := by
      rw [bitmapFits, decide_eq_false (Nat.not_le.mpr hsmall), Bool.and_false]
    simp only [wp_bind, wp_exfatError, wp_pure]
    refine ⟨⟨rfl, rfl, rfl, rfl, rfl, rfl⟩, .bitmap (c := none) ht rfl ?_ ?_, by simp, ?_⟩
    · simp only [markedCmap, hfit, hval, Bool.false_eq_true, if_false]
      rfl
    · simp [hfit]
    · simp [hfit]
  rename_i hsmall
  have hfit : bitmapFits w.sb entry = true := by
    rw [bitmapFits, hval]
    simpa using Nat.not_lt.mp hsmall
  have hmarked : ∀ chunk : Option (Nat → Bool), markedCmap w.sb entry chunk w.cmap =
      { w.cmap with
        startCluster := leAt entry 20 4, size := w.sb.clusterCount, chunkSize := w.sb.clusterCount
        chunk := chunk } := by
    intro chunk
    simp only [markedCmap, hfit, hval, if_true, Bool.false_eq_true, if_false]
  simp only [wp_bind, wp_modify, mallocOk, wp_nextTick, wp_pure]
  split
  · rename_i hmalloc
    simp only [wp_bind, wp_modify, wp_exfatError, wp_pure]
    have hnot : ¬Env.Quiet := fun hq => by simp [hq.malloc] at hmalloc
    exact ⟨⟨rfl, rfl, rfl, rfl, rfl, rfl⟩, .bitmap ht rfl (hmarked none).symm fun hq => absurd hq hnot,
      by simp, fun hq => absurd hq hnot⟩
  simp only [wp_bind]
  refine after_ret (exfatC2o_spec (clusterInvalid_false.mp hval).1) fun t => ?_
  simp only [exfatPread, wp_bind, wp_nextTick]
  split
  · rename_i hio
    simp only [wp_bind, wp_modify, wp_exfatError, wp_pure]
    have hnot : ¬Env.Quiet := fun hq => by simp [hq.io] at hio
    exact ⟨⟨rfl, rfl, rfl, rfl, rfl, rfl⟩, .bitmap ht rfl (hmarked _).symm fun hq => absurd hq hnot,
      by simp, fun hq => absurd hq hnot⟩
  · simp only [wp_bind, wp_get, wp_modify, wp_pure]
    exact ⟨⟨rfl, rfl, rfl, rfl, rfl, rfl⟩, .bitmap ht rfl (hmarked _).symm fun _ _ => rfl,
      fun _ => hfit, fun _ _ => trivial⟩

theorem readdirLabel_marks {entry : List UInt8} (ht : entryType entry 0 = exfatEntryLabel) :
    Wp (fun _ => True) (readdirLabel entry) w fun rc v => Stays w v ∧
      Marked w.sb w.dev entry (marksOf w) (marksOf v) ∧ (rc = .ok ↔ labelFits entry = true) := by
  have hnot : entryType entry 0 ≠ exfatEntryBitmap := by
    rw [ht]
    decide
  simp only [readdirLabel]
  split
  · rename_i hlong
    simp only [wp_bind, wp_exfatError, wp_pure]
    refine ⟨⟨rfl, rfl, rfl, rfl, rfl, rfl⟩, .none (if_neg fun h => ?_) hnot, by simp, fun h => ?_⟩
    · exact absurd h.2 (Nat.not_le.mpr hlong)
    · rw [labelFits, decide_eq_false (Nat.not_le.mpr hlong), Bool.false_and] at h
      cases h
  rename_i hshort
  have hle := Nat.not_lt.mp hshort
  have hwrites : labelWrites entry = match utf16ToUtf8 (le16s exfatEnameMax (entry.drop 2))
      exfatUtf8EnameBufferMax exfatEnameMax with
    | .ok label => label ++ [0]
    | .error _ => utf16ToUtf8Start (le16s exfatEnameMax (entry.drop 2)) exfatUtf8EnameBufferMax
        exfatEnameMax := if_pos ⟨ht, hle⟩
  have hfits : labelFits entry = (utf16ToUtf8 (le16s exfatEnameMax (entry.drop 2))
      exfatUtf8EnameBufferMax exfatEnameMax).isOk := by
    rw [labelFits, decide_eq_true hle, Bool.true_and]
  cases hdec : utf16ToUtf8 (le16s exfatEnameMax (entry.drop 2)) exfatUtf8EnameBufferMax
      exfatEnameMax with
  | error e =>
    rw [hdec] at hwrites hfits
    simp only [wp_bind, wp_modify, wp_exfatError, wp_pure]
    refine ⟨⟨rfl, rfl, rfl, rfl, rfl, rfl⟩, ⟨fun i => ?_, fun _ => rfl, fun h => absurd h hnot⟩,
      by simp, fun h => ?_⟩
    · rw [hwrites]
      exact startLabel_getD w _ i
    · rw [hfits] at h
      cases h
  | ok label =>
    rw [hdec] at hwrites hfits
    simp only [wp_bind, wp_modify, wp_pure]
    refine ⟨⟨rfl, rfl, rfl, rfl, rfl, rfl⟩, ⟨fun i => ?_, fun _ => rfl, fun h => absurd h hnot⟩,
      fun _ => hfits, fun _ => trivial⟩
    rw [hwrites]
    exact copyLabel_getD w label i

/-- An entry that starts no file marks the memory of the volume, and changes nothing else. -/
theorem readdirOther_marks {entry : List UInt8} (parent : NodeId) (off : Nat)
    (hu : w.upcase.isSome = true) (hr : w.repair = .no) :
    Wp (fun _ => True) (readdirOther parent entry off) w fun rc v => Stays w v ∧
      Marked w.sb w.dev entry (marksOf w) (marksOf v) ∧ (rc = .ok → goesOn w.sb entry = true) ∧
      (Env.Quiet → goesOn w.sb entry = true → rc = .ok) := by
  simp only [readdirOther, goesOn]
  split
  · rename_i ht
    have hb : entryType entry 0 ≠ exfatEntryBitmap := by
      rw [ht]
      decide
    have hl : entryType entry 0 ≠ exfatEntryLabel := by
      rw [ht]
      decide
    simp only [readdirUpcase, wp_bind, wp_get, hu, if_true, wp_pure]
    exact ⟨⟨rfl, rfl, rfl, rfl, rfl, rfl⟩, .none (labelWrites_other hl) hb, fun _ => trivial,
      fun _ _ => trivial⟩
  split
  · rename_i ht
    exact readdirBitmap_marks ht
  rename_i hb
  split
  · rename_i ht
    refine (readdirLabel_marks ht).mono ?_
    rintro rc v ⟨h1, h2, h3⟩
    exact ⟨h1, h2, h3.mp, fun _ => h3.mpr⟩
  rename_i hl
  have hnone : Marked w.sb w.dev entry (marksOf w) (marksOf w) := .none (labelWrites_other hl) hb
  unfold readdirDefault
  split
  · rename_i hvalid
    exact ⟨⟨rfl, rfl, rfl, rfl, rfl, rfl⟩, hnone, fun _ => decide_eq_true hvalid,
      fun _ _ => rfl⟩
  · rename_i hvalid
    simp only [wp_bind, wp_exfatError, exfatAskToFix, wp_get,
      show (w.erred (w.errors + 1)).repair = .no from hr, wp_pure, Bool.false_eq_true, if_false]
    exact ⟨⟨rfl, rfl, rfl, rfl, rfl, rfl⟩, hnone, by simp,
      fun _ h => absurd (of_decide_eq_true h) hvalid⟩

/-- Entries that start no file marked the memory of the volume, one after another. -/
inductive Passed (sb : SuperBlock) (dev : Store) : List (List UInt8) → Marks → Marks → Prop
  | nil (V : Marks) : Passed sb dev [] V V
  | cons {entry : List UInt8} {es : List (List UInt8)} {V U X : Marks}
      (head : Marked sb dev entry V U) (rest : Passed sb dev es U X) : Passed sb dev (entry :: es) V X

/-- What each entry sets or leaves is in the end what the last one set that did. -/
theorem Passed.latest {α : Type} {sb : SuperBlock} {dev : Store} {es : List (List UInt8)}
    {V X : Marks} (h : Passed sb dev es V X) (g : Marks → α) (f : List UInt8 → Option α)
    (hf : ∀ entry V U, Marked sb dev entry V U → g U = (f entry).getD (g V)) :
    g X = (es.filterMap f).getLast?.getD (g V) := by
  induction h with
  | nil V => rfl
  | cons head rest ih =>
    rw [ih, hf _ _ _ head]
    cases hset : f _ with
    | none => rw [List.filterMap_cons_none hset, Option.getD_none]
    | some a => rw [List.filterMap_cons_some hset, List.getLast?_cons, Option.getD_some,
        Option.getD_some]

theorem Passed.append {sb : SuperBlock} {dev : Store} {es fs : List (List UInt8)} {V U X : Marks}
    (h : Passed sb dev es V U) (h' : Passed sb dev fs U X) : Passed sb dev (es ++ fs) V X := by
  induction h with
  | nil V => exact h'
  | cons head rest ih => exact .cons head (ih h')

/-- A set that `parse_file_entries` takes without a repair. -/
def Taken (sb : SuperBlock) (set : List UInt8) (k : Nat) : Prop :=
  SetOk sb set k ∧ leAt set 2 2 = exfatCalcChecksum set

instance (sb : SuperBlock) (set : List UInt8) (n : Node) : Decidable (NodeOk sb set n) :=
  decidable_of_iff' _ (nodeOk_iff sb set n)

instance (sb : SuperBlock) (set : List UInt8) (k : Nat) : Decidable (SetOk sb set k) :=
  decidable_of_iff' _ (setOk_iff sb set k)

instance (sb : SuperBlock) (set : List UInt8) (k : Nat) : Decidable (Taken sb set k) :=
  inferInstanceAs (Decidable (_ ∧ _))

/-- The entries of a directory that start no file, as far as `readdir` comes. -/
def metEntries (sb : SuperBlock) : Nat → List UInt8 → List (List UInt8)
  | 0, _ => []
  | fuel + 1, data =>
    let entry := data.take entrySize
    if data.length < entrySize then []
    else if entryType entry 0 = exfatEntryFile then
      let k := 1 + leAt entry 1 1
      if entrySize * k ≤ data.length ∧ Taken sb (data.take (entrySize * k)) k then
        metEntries sb fuel (data.drop (entrySize * k))
      else []
    else entry :: if goesOn sb entry then metEntries sb fuel (data.drop entrySize) else []

theorem metEntries_fuel {sb : SuperBlock} {data : List UInt8} {f g : Nat} (hf : data.length ≤ f)
    (hg : data.length ≤ g) : metEntries sb f data = metEntries sb g data := by
  induction f generalizing g data with
  | zero =>
    cases g with
    | zero => rfl
    | succ g =>
      simp only [metEntries]
      rw [if_pos (by rw [entrySize]; omega)]
  | succ f ih =>
    cases g with
    | zero =>
      simp only [metEntries]
      rw [if_pos (by rw [entrySize]; omega)]
    | succ g =>
      have hdrop : ∀ k, 0 < k → entrySize ≤ data.length →
          metEntries sb f (data.drop (entrySize * k)) =
            metEntries sb g (data.drop (entrySize * k)) := by
        intro k hk hle
        simp only [entrySize] at hle ⊢
        exact ih (by rw [List.length_drop]; omega) (by rw [List.length_drop]; omega)
      simp only [metEntries]
      split
      · rfl
      rename_i hlen
      have hone := hdrop 1 Nat.one_pos (Nat.not_lt.mp hlen)
      rw [Nat.mul_one] at hone
      rw [hone, hdrop _ (by omega) (Nat.not_lt.mp hlen)]

/-- All entries that `readdir` meets in what a directory holds. -/
def metOf (sb : SuperBlock) (data : List UInt8) : List (List UInt8) :=
  metEntries sb data.length data

section
variable {sb : SuperBlock} {data : List UInt8}

theorem metOf_short (h : data.length < entrySize) : metOf sb data = [] := by
  cases data with
  | nil => rfl
  | cons b bs =>
    simp only [metOf, List.length_cons, metEntries]
    rw [if_pos (show bs.length + 1 < entrySize from h)]

theorem metOf_long (h : entrySize ≤ data.length) :
    metOf sb data =
      if entryType (data.take entrySize) 0 = exfatEntryFile then
        if entrySize * (1 + leAt (data.take entrySize) 1 1) ≤ data.length ∧
            Taken sb (data.take (entrySize * (1 + leAt (data.take entrySize) 1 1)))
              (1 + leAt (data.take entrySize) 1 1) then
          metOf sb (data.drop (entrySize * (1 + leAt (data.take entrySize) 1 1)))
        else []
      else data.take entrySize ::
        if goesOn sb (data.take entrySize) then metOf sb (data.drop entrySize) else [] := by
  have hsize : 0 < entrySize := by decide
  obtain ⟨f, hf⟩ := Nat.exists_eq_succ_of_ne_zero (show data.length ≠ 0 by omega)
  have hdrop : ∀ k, 0 < k → metEntries sb f (data.drop (entrySize * k)) =
      metOf sb (data.drop (entrySize * k)) := by
    intro k hk
    have : 0 < entrySize * k := Nat.mul_pos hsize hk
    exact metEntries_fuel (by rw [List.length_drop]; omega) le_rfl
  have hone := hdrop 1 Nat.one_pos
  rw [Nat.mul_one] at hone
  rw [metOf, hf, metEntries, ← hf]
  simp only
  rw [if_neg (Nat.not_lt.mpr h), hone, hdrop _ (by omega)]

end

/-- A directory as its reader finds it at an offset; `data` is what its clusters hold from there
on. -/
structure Reader (dir : NodeId) (w : World) (off : Nat) (data : List UInt8) : Prop where
  node : ∃ n L, w.nodes dir = some n ∧ n.isDir = true ∧ Held w.sb w.dev n L ∧
    Aims w.sb n L off ∧ n.size ≤ 2 ^ 32 * w.sb.clusterSize ∧
    data = fileData w.sb w.dev L off (min n.size (L.length * w.sb.clusterSize) - off)
  honest : Honest w.sb
  loaded : w.upcase.isSome = true
  repair : w.repair = .no
  bound : dir < w.fresh

variable {dir : NodeId} {off : Nat} {data : List UInt8}

/-- The reader does not see where its directory is in the tree. -/
theorem Reader.of_body (h : Reader dir w off data)
    (hn : (v.nodes dir).map Node.body = (w.nodes dir).map Node.body) (hs : v.sb = w.sb)
    (hd : v.dev = w.dev) (hu : v.upcase = w.upcase) (hr : v.repair = w.repair)
    (hf : w.fresh ≤ v.fresh) : Reader dir v off data := by
  obtain ⟨n, L, hw, hdir, hheld, haims, hsize, hdata⟩ := h.node
  rw [hw, Option.map_some, Option.map_eq_some_iff] at hn
  obtain ⟨m, hm, hbody⟩ := hn
  have hfield : ∀ {α : Type} (f : Node → α), f m.body = f n.body := fun f => congrArg f hbody
  have h1 : m.isContiguous = n.isContiguous := hfield Node.isContiguous
  have h2 : m.startCluster = n.startCluster := hfield Node.startCluster
  have h3 : m.size = n.size := hfield Node.size
  have h4 : m.attrib = n.attrib := hfield Node.attrib
  have h5 : m.fptrIndex = n.fptrIndex := hfield Node.fptrIndex
  have h6 : m.fptrCluster = n.fptrCluster := hfield Node.fptrCluster
  refine ⟨⟨m, L, hm, ?_, ?_, ?_, ?_, ?_⟩, hs ▸ h.honest, hu ▸ h.loaded, hr.trans h.repair,
    lt_of_lt_of_le h.bound hf⟩
  · rwa [Node.isDir, h4]
  · rw [hs, hd]
    refine ⟨?_, hheld.valid, ?_, ?_⟩
    · rw [h1, h2]
      exact hheld.walk
    · rw [h2, h3]
      exact hheld.first
    · rw [h1, h3]
      exact hheld.next
  · rwa [Aims, hs, h2, h5, h6]
  · rwa [h3, hs]
  · rwa [h3, hs, hd]

theorem Reader.stays (h : Reader dir w off data) (hv : Stays w v) : Reader dir v off data :=
  h.of_body (by rw [hv.nodes]) hv.sb hv.dev hv.upcase hv.repair hv.fresh.ge

/-- What the reader reads are the next entries; it can go on anywhere from them. -/
theorem Reader.reads (h : Reader dir w off data) {k : Nat} (hk : 0 < k) :
    Wp (fun _ => True) (readEntries dir k off) w fun r v =>
      (∀ bs, r = .ok bs → entrySize * k ≤ data.length ∧ bs = data.take (entrySize * k) ∧
        (∃ n t, v = (w.setNode dir n).ticked t) ∧ ∀ m, Reader dir v (off + m) (data.drop m)) ∧
      (Env.Quiet → entrySize * k ≤ data.length → ∃ bs, r = .ok bs) := by
  obtain ⟨n, L, hn, hdir, hheld, haims, hsize, rfl⟩ := h.node
  have hsz : 0 < entrySize * k := Nat.mul_pos (by decide) hk
  rw [fileData_length]
  have hquiet : Wp (fun _ => True) (readEntries dir k off) w fun r _ => Env.Quiet →
      entrySize * k ≤ min n.size (L.length * w.sb.clusterSize) - off → ∃ bs, r = .ok bs := by
    by_cases hq : Env.Quiet ∧
        entrySize * k ≤ min n.size (L.length * w.sb.clusterSize) - off
    · refine (readEntries_quiet hq.1 hheld hn hdir haims hsize hk ?_).mono fun r _ hr _ _ => hr
      have := hq.2
      omega
    · exact (wp_const hq).mono fun _ _ hne h1 h2 => absurd ⟨h1, h2⟩ hne
  refine ((readEntries_held h.honest hheld hn haims hsize hk).and hquiet).mono ?_
  rintro r v ⟨hread, hok⟩
  refine ⟨?_, hok⟩
  rintro bs hbs
  obtain ⟨hle, rfl, x, t, hx, rfl⟩ := hread bs hbs
  have hin : entrySize * k ≤ min n.size (L.length * w.sb.clusterSize) - off := by omega
  refine ⟨hin, (fileData_take _ _ _ _ hin).symm, ⟨_, t, rfl⟩, fun m => ?_⟩
  refine ⟨⟨_, L, World.setNode_self _ _ _, hdir, ⟨hheld.walk, hheld.valid, hheld.first, hheld.next⟩,
    Or.inl hx, hsize, ?_⟩, h.honest, h.loaded, h.repair, h.bound⟩
  rw [fileData_drop, Nat.sub_sub]
  rfl

/-- Every node that there was is there. -/
def Remains (w v : World) : Prop := ∀ i n, w.nodes i = some n → ∃ m, v.nodes i = some m

omit [Env] in
theorem Remains.trans {x : World} (h : Remains w v) (h' : Remains v x) : Remains w x := by
  intro i n hn
  obtain ⟨m, hm⟩ := h i n hn
  exact h' i m hm

omit [Env] in
theorem remains_of_setNode {i : NodeId} {n : Node} (h : ∀ j, j ≠ i → v.nodes j = w.nodes j)
    (hi : v.nodes i = some n) : Remains w v := by
  intro j m hm
  by_cases hj : j = i
  · exact ⟨n, hj ▸ hi⟩
  · exact ⟨m, (h j hj).trans hm⟩

theorem Reader.spawn (h : Reader dir w off data) (m : Node) : Reader dir (w.spawn m) off data :=
  h.of_body (by rw [World.spawn_ne (Nat.ne_of_lt h.bound)]) rfl rfl rfl rfl (Nat.le_succ _)

/-- Filling in a new node does not disturb the reader. -/
theorem parseFileEntries_reader (h : Reader dir w off data) {id : NodeId} {n : Node}
    (hid : id ≠ dir) (hn : w.nodes id = some n) (set : List UInt8) (k : Nat) :
    Wp (fun _ => True) (parseFileEntries id set k) w fun rc v =>
      (rc = .ok → Taken w.sb set k ∧ Reader dir v off data ∧ Remains w v) ∧
      (Taken w.sb set k → rc = .ok) := by
  have hfill : Wp (fun _ => True) (parseFileEntries id set k) w fun _ v => Filled id w v :=
    filled_parseFileEntries set k w
  have haside : Frame (Aside dir) (parseFileEntries id set k) := aside_parseFileEntries id set k
  have hback : Wp (fun _ => True) (parseFileEntries id set k) w fun rc _ =>
      Taken w.sb set k → rc = .ok := by
    by_cases ht : Taken w.sb set k
    · exact (parseFileEntries_ok hn ht.1 ht.2).mono fun _ _ hrc _ => hrc.1
    · exact (wp_const ht).mono fun _ _ hne ht => absurd ht hne
  refine ((hfill.and (haside w)).and ((parseFileEntries_run set k hn).and hback)).mono ?_
  rintro rc v ⟨⟨hf, ha⟩, hrun, hok⟩
  refine ⟨fun hrc => ?_, hok⟩
  obtain ⟨hsb, hset, ⟨d, hd⟩, hsum⟩ := hrun hrc
  refine ⟨⟨hset, hsum (ha.fixed h.repair)⟩, ?_, remains_of_setNode hf.others hd⟩
  exact h.of_body (by rw [hf.others dir hid.symm]) hsb ha.dev ha.upcase ha.repair hf.fresh.ge

/-- A file set that is read becomes a node, and the reader goes on behind it. -/
theorem parseFileEntry_reader (h : Reader dir w off data) {k : Nat} (hk : 0 < k) :
    Wp (fun _ => True) (parseFileEntry dir off k) w fun r v =>
      (∀ id o, r = .ok (id, o) → entrySize * k ≤ data.length ∧
        Taken w.sb (data.take (entrySize * k)) k ∧ Reader dir v o (data.drop (entrySize * k)) ∧
        Remains w v ∧ ∃ n, v.nodes id = some n) ∧
      (Env.Quiet → entrySize * k ≤ data.length → Taken w.sb (data.take (entrySize * k)) k →
        ∃ p, r = .ok p) := by
  simp only [parseFileEntry, wp_bind]
  refine (h.reads hk).mono ?_
  rintro r x ⟨hok, hquiet⟩
  cases r with
  | error e =>
    refine ⟨by simp, fun hq hle _ => ?_⟩
    obtain ⟨bs, hbs⟩ := hquiet hq hle
    cases hbs
  | ok bs =>
    obtain ⟨hle, rfl, ⟨n, t, rfl⟩, hnext⟩ := hok bs rfl
    simp only [allocateNode, mallocOk, wp_bind, wp_nextTick, wp_pure]
    split
    swap
    · rename_i hmalloc
      simp only [wp_bind, wp_exfatError, wp_pure]
      exact ⟨by simp, fun hq => by simp [hq.malloc] at hmalloc⟩
    simp only [wp_bind, wp_get, wp_set, wp_pure]
    generalize hx : World.ticked (World.ticked (w.setNode dir n) t) _ = x
    have hr : Reader dir x (off + entrySize * k) (data.drop (entrySize * k)) := by
      subst hx
      exact (hnext _).of_body rfl rfl rfl rfl rfl le_rfl
    have hsb : x.sb = w.sb := by
      subst hx
      rfl
    have hremains : Remains w x := by
      subst hx
      exact remains_of_setNode (fun j hj => World.setNode_ne _ _ hj) (World.setNode_self _ _ _)
    -- the node that is filled in
    have hnew : (x.spawn { name := padName [] }).nodes x.fresh = some { name := padName [] } :=
      World.spawn_self _ _
    refine (wp_modifyNode hnew).mpr ?_
    rw [World.spawn_setNode]
    have hbound := hr.bound
    refine (parseFileEntries_reader (hr.spawn _) (Nat.ne_of_gt hbound) (World.spawn_self _ _)
      _ _).mono ?_
    rintro rc v ⟨htaken, hback⟩
    cases rc with
    | err e =>
      simp only [wp_bind, wp_freeNode, wp_pure]
      exact ⟨by simp, fun _ _ ht => by cases hback (hsb ▸ ht)⟩
    | ok =>
      obtain ⟨ht, hv, hk⟩ := htaken rfl
      refine ⟨?_, fun _ _ _ => ⟨_, rfl⟩⟩
      rintro id o ⟨⟩
      have hspawn : Remains x (x.spawn { entryOffset := off, name := padName [] }) :=
        remains_of_setNode (fun j hj => World.spawn_ne hj) (World.spawn_self _ _)
      exact ⟨hle, hsb ▸ ht, hv, (hremains.trans hspawn).trans hk, hk _ _ (World.spawn_self _ _)⟩

/-- Linking a child does not disturb the reader. -/
theorem linkLast_reader (h : Reader dir w off data) {id : NodeId} {m : Node}
    {current : Option NodeId} (hm : w.nodes id = some m)
    (hc : ∀ c, current = some c → ∃ l, w.nodes c = some l) :
    Wp (fun _ => True) (linkLast dir id current) w fun _ v =>
      Reader dir v off data ∧ marksOf v = marksOf w ∧ v.sb = w.sb ∧ v.dev = w.dev ∧
        Remains w v := by
  obtain ⟨n, L, hn, -⟩ := h.node
  refine (linkLast_relinks hn hm hc).mono fun _ v hv => ?_
  have hrest := hv.rest
  refine ⟨h.of_body (hv.body dir) ?_ ?_ ?_ ?_ ?_, ?_, ?_, ?_, fun i a ha => ?_⟩
  · rw [hrest]
  · rw [hrest]
  · rw [hrest]
  · rw [hrest]
  · rw [hrest]
  · rw [hrest]
    rfl
  · rw [hrest]
  · rw [hrest]
  · obtain ⟨b, hb, -⟩ := hv.node ha
    exact ⟨b, hb⟩

omit [Env] in
theorem marksOf_aside (h : Aside dir w v) : marksOf v = marksOf w := by
  rw [marksOf, marksOf, h.cmap, h.label]

/-- `readdir` marks the memory of the volume with entries it meets: with all of them up to the next
file set, unless a request fails. -/
theorem readdir_marks {fuel : Nat} (h : Reader dir w off data) :
    Wp (fun _ => True) (readdir dir fuel off) w fun r v => v.sb = w.sb ∧ v.dev = w.dev ∧
      ∃ done left, Passed w.sb w.dev done (marksOf w) (marksOf v) ∧
        metOf w.sb data = done ++ left ∧
        match r with
        | .error _ => Env.Quiet → left = []
        | .ok p => ∃ rest, left = metOf w.sb rest ∧ Reader dir v p.2 rest ∧ Remains w v ∧
            ∃ n, v.nodes p.1 = some n := by
  induction fuel generalizing w off data with
  | zero => trivial
  | succ fuel ih =>
    have hentry : Frame (Aside dir) (readEntries dir 1 off) := aside_readEntries dir 1 off
    simp only [readdir, wp_bind]
    refine ((hentry w).and (h.reads Nat.one_pos)).mono ?_
    rintro r x ⟨hx, hok, hquiet⟩
    have hwx : Passed w.sb w.dev [] (marksOf w) (marksOf x) := by
      rw [marksOf_aside hx]
      exact .nil _
    cases r with
    | error e =>
      refine ⟨hx.sb, hx.dev, [], metOf w.sb data, hwx, rfl, fun hq => ?_⟩
      by_contra hne
      rcases Nat.lt_or_ge data.length (entrySize * 1) with hlt | hge
      · exact hne (metOf_short hlt)
      · obtain ⟨bs, hbs⟩ := hquiet hq hge
        cases hbs
    | ok bs =>
      obtain ⟨hlen, rfl, ⟨n, t, rfl⟩, hnext⟩ := hok bs rfl
      rw [Nat.mul_one] at hlen ⊢
      have hmet : metOf w.sb _ = _ := metOf_long hlen
      have hremain : Remains w ((w.setNode dir n).ticked t) :=
        remains_of_setNode (fun j hj => World.setNode_ne _ _ hj) (World.setNode_self _ _ _)
      have hnow := hnext 0
      rw [List.drop_zero] at hnow
      generalize hx' : (w.setNode dir n).ticked t = x at *
      generalize data.take entrySize = entry at hmet
      dsimp only
      split
      · rename_i htype
        rw [if_pos htype] at hmet
        have hfile : Frame (Aside dir) (parseFileEntry dir off (1 + leAt entry 1 1)) :=
          aside_parseFileEntry dir off _
        refine ((hfile x).and (parseFileEntry_reader hnow (by omega))).mono ?_
        rintro r v ⟨hv, hparse, hquiet⟩
        rw [hx.sb] at hparse hquiet
        rw [← marksOf_aside hv] at hwx
        refine ⟨hv.sb.trans hx.sb, hv.dev.trans hx.dev, [], metOf w.sb data, hwx, rfl, ?_⟩
        cases r with
        | error e =>
          intro hq
          rw [hmet, if_neg]
          rintro ⟨hle, ht⟩
          obtain ⟨p, hp⟩ := hquiet hq hle ht
          cases hp
        | ok p =>
          obtain ⟨hle, ht, hr, hkeep, hnode⟩ := hparse p.1 p.2 rfl
          exact ⟨_, by rw [hmet, if_pos ⟨hle, ht⟩], hr, hremain.trans hkeep, hnode⟩
      · rename_i htype
        rw [if_neg htype] at hmet
        simp only [wp_bind]
        refine (readdirOther_marks dir off hnow.loaded hnow.repair).mono ?_
        rintro rc y ⟨hy, hmark, hgoes, hquiet⟩
        rw [hx.sb, hx.dev, marksOf_aside hx] at hmark
        rw [hx.sb] at hgoes hquiet
        cases rc with
        | err e =>
          refine ⟨hy.sb.trans hx.sb, hy.dev.trans hx.dev, [entry], _, .cons hmark (.nil _), hmet,
            fun hq => if_neg fun hg => ?_⟩
          cases hquiet hq hg
        | ok =>
          rw [if_pos (hgoes rfl)] at hmet
          refine (ih ((hnext entrySize).stays hy)).mono ?_
          rintro r v ⟨hs, hd, done, left, hpass, hsplit, hr⟩
          rw [hy.sb, hx.sb] at hs hpass hsplit hr
          rw [hy.dev, hx.dev] at hd hpass
          refine ⟨hs, hd, entry :: done, left, .cons hmark hpass, ?_, ?_⟩
          · rw [hmet, hsplit, List.cons_append]
          · cases r with
            | error e => exact hr
            | ok p =>
              obtain ⟨rest, h1, h2, h3, h4⟩ := hr
              refine ⟨rest, h1, h2, fun i m hm => ?_, h4⟩
              obtain ⟨m', hm'⟩ := hremain i m hm
              exact h3 i m' (by rw [hy.nodes]; exact hm')

/-- `exfat_cache_directory` marks the memory of the volume with entries its reader meets: with all of
them, unless a request fails. -/
theorem cacheLoop_marks {fuel : Nat} {current : Option NodeId} (h : Reader dir w off data)
    (hc : ∀ c, current = some c → ∃ l, w.nodes c = some l) :
    Wp (fun _ => True) (cacheLoop dir fuel current off) w fun _ v =>
      ∃ done left, Passed w.sb w.dev done (marksOf w) (marksOf v) ∧
        metOf w.sb data = done ++ left ∧ (Env.Quiet → left = []) := by
  induction fuel generalizing w off data current with
  | zero => trivial
  | succ fuel ih =>
    simp only [cacheLoop, dirFuel, wp_bind]
    rw [wp_getNode_iff trivial]
    intro n _
    simp only [wp_pure]
    refine (readdir_marks h).mono ?_
    rintro r a ⟨hs, hd, done, left, hpass, hsplit, hr⟩
    cases r with
    | error e => exact ⟨done, left, hpass, hsplit, hr⟩
    | ok p =>
      obtain ⟨rest, rfl, ha, hremain, m, hm⟩ := hr
      simp only [wp_bind]
      refine (linkLast_reader ha hm fun c hcur => ?_).mono ?_
      · obtain ⟨l, hl⟩ := hc c hcur
        exact hremain c l hl
      rintro _ b ⟨hb, hmarks, hsb, hdev, hkeep⟩
      obtain ⟨m', hm'⟩ := hkeep _ _ hm
      refine (ih hb fun c hcur => ?_).mono ?_
      · obtain rfl := Option.some.inj hcur
        exact ⟨m', hm'⟩
      rintro _ v ⟨done', left', hpass', hsplit', hq⟩
      rw [hsb, hs, hdev, hd, hmarks] at hpass'
      rw [hsb, hs] at hsplit'
      exact ⟨done ++ done', left', hpass.append hpass', by rw [hsplit, hsplit', List.append_assoc],
        hq⟩

end

end Proofs

end Exfat
