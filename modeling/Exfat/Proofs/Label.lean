import Exfat.Proofs.FreeSlot
import Exfat.Proofs.Held
import Exfat.Proofs.Names
import Exfat.Proofs.Sets
import Exfat.Proofs.Steady

namespace Exfat
open Lib

/-! `exfat_set_label`: the entry it writes can be read again, and what `readdir` makes of it. -/

namespace Proofs

variable {E : Halt → Prop} {w v : World} {n : Node} {dir : NodeId} {off : Nat} {e : List UInt8}
  [Env]

theorem exfatNextCluster_ticks (b : Bool) (c : Nat) :
    Wp (fun _ => True) (exfatNextCluster b c) w fun _ v => ∃ t, v = w.ticked t := by
  unfold exfatNextCluster
  split
  · trivial
  · split
    · exact ⟨w.tick, rfl⟩
    · simp only [wp_bind, wp_get, exfatPread, wp_nextTick]
      split
      · exact ⟨_, rfl⟩
      · exact ⟨_, rfl⟩

theorem advanceLoop_ticks (b : Bool) (k c : Nat) :
    Wp (fun _ => True) (advanceLoop b k c) w fun _ v => ∃ t, v = w.ticked t := by
  induction k generalizing w c with
  | zero => exact ⟨w.tick, rfl⟩
  | succ k ih =>
    simp only [advanceLoop, wp_bind]
    refine (exfatNextCluster_ticks b c).mono ?_
    rintro x _ ⟨t, rfl⟩
    simp only [wp_get]
    split
    · exact ⟨t, rfl⟩
    · refine (ih (w := w.ticked t) x).mono ?_
      rintro _ _ ⟨t', rfl⟩
      exact ⟨t', rfl⟩

/-- `exfat_advance_cluster` moves the cached pointer to the cluster it returns. -/
theorem exfatAdvanceCluster_seeks (hn : w.nodes dir = some n) (k : Nat) :
    Wp (fun _ => True) (exfatAdvanceCluster dir k) w fun x v =>
      ∃ t, v = (w.setNode dir (n.seek k x)).ticked t := by
  simp only [exfatAdvanceCluster, wp_bind, wp_getNode hn]
  refine (advanceLoop_ticks _ _ _).mono ?_
  rintro x _ ⟨t, rfl⟩
  rw [wp_modifyNode (n := n) (by simpa using hn)]
  exact ⟨t, rfl⟩

/-- A read that stays inside one cluster. -/
theorem preadLoop_one (hq : Env.Quiet) (b : Bool) {c lo k : Nat} (buf : List UInt8)
    (hc : w.sb.clusterInvalid c = false) (hin : lo + k ≤ w.sb.clusterSize) :
    Wp E (preadLoop b k c lo k buf) w
      (Ret (.ok (buf ++ w.dev.read (c2oRaw w.sb c + lo) k)) w) := by
  have h2 := (clusterInvalid_false.mp hc).1
  have hend : ∀ fuel x (buf : List UInt8) (v : World),
      Wp E (preadLoop b fuel x 0 0 buf) v (Ret (.ok buf) v) := by
    intro fuel x buf v
    cases fuel with
    | zero => exact ⟨rfl, v.tick, rfl⟩
    | succ fuel => exact ⟨rfl, v.tick, rfl⟩
  cases k with
  | zero =>
    refine ⟨?_, w.tick, rfl⟩
    rw [show w.dev.read (c2oRaw w.sb c + lo) 0 = [] from rfl, List.append_nil]
  | succ k =>
    simp only [preadLoop, Nat.succ_ne_zero, if_false, wp_bind, wp_get, hc, Bool.false_eq_true,
      Nat.min_eq_right (show k + 1 ≤ w.sb.clusterSize - lo by omega)]
    refine after_ret (exfatC2o_spec h2) fun t => after_ret (exfatPread_spec hq _ _) fun t => ?_
    simp only [wp_bind, Nat.sub_self]
    refine after_ret (exfatNextCluster_spec hq b h2) fun t => ?_
    exact (hend _ _ _ _).mono fun r v ⟨hr, t, hv⟩ => ⟨hr, t, hv⟩

/-- A write that stays inside one cluster. -/
theorem pwriteLoop_one (hq : Env.Quiet) (b : Bool) {c lo : Nat}
    (hc : w.sb.clusterInvalid c = false) (hne : e ≠ []) (hin : lo + e.length ≤ w.sb.clusterSize) :
    Wp E (pwriteLoop b e.length c lo e) w
      (Ret .ok (w.withDev (w.dev.write (c2oRaw w.sb c + lo) e))) := by
  have h2 := (clusterInvalid_false.mp hc).1
  have hend : ∀ fuel x (v : World), Wp E (pwriteLoop b fuel x 0 []) v (Ret .ok v) := by
    intro fuel x v
    cases fuel with
    | zero => exact ⟨rfl, v.tick, rfl⟩
    | succ fuel => exact ⟨rfl, v.tick, rfl⟩
  obtain ⟨k, hk⟩ : ∃ k, e.length = k + 1 :=
    Nat.exists_eq_succ_of_ne_zero fun h0 => hne (List.length_eq_zero_iff.mp h0)
  have hlen : min (w.sb.clusterSize - lo) e.length = e.length := by omega
  rw [hk]
  simp only [pwriteLoop, List.isEmpty_iff, hne, if_false, wp_bind, wp_get, hc, Bool.false_eq_true,
    hlen, List.take_length, List.drop_length]
  refine after_ret (exfatC2o_spec h2) fun t => after_ret (exfatPwrite_spec hq _ _) fun t => ?_
  simp only [if_true, wp_bind]
  refine after_ret (exfatNextCluster_spec hq b h2) fun t => ?_
  apply (hend _ _ _).mono
  rintro r v ⟨hr, t, hv⟩
  exact ⟨hr, t, hv⟩

/-- Reading an entry where the cached pointer of the directory leads. -/
theorem readEntry_at (hq : Env.Quiet) (hn : w.nodes dir = some n) (hd : n.isDir = true)
    (hi : n.fptrIndex = off / w.sb.clusterSize % 2 ^ 32)
    (hc : w.sb.clusterInvalid n.fptrCluster = false) (ho : off + entrySize ≤ n.size)
    (hin : off % w.sb.clusterSize + entrySize ≤ w.sb.clusterSize) :
    Wp E (readEntries dir 1 off) w fun r _ =>
      r = .ok (w.dev.read (c2oRaw w.sb n.fptrCluster + off % w.sb.clusterSize) entrySize) := by
  have h2 := (clusterInvalid_false.mp hc).1
  have hsize : ¬off ≥ n.size := by
    simp only [entrySize] at ho
    omega
  have hrem : min (entrySize * 1) (n.size - off) = entrySize := by
    simp only [entrySize] at ho ⊢
    omega
  simp only [readEntries, exfatGenericPread, wp_bind, wp_getNode hn, hd, Bool.not_true,
    Bool.false_eq_true, if_false, if_neg hsize]
  rw [if_neg (by simp)]
  simp only [exfatAdvanceCluster, wp_bind, wp_getNode hn, hi, lt_irrefl, gt_iff_lt, if_false,
    Nat.sub_self, advanceLoop, wp_pure, wp_get, wp_modifyNode hn, World.setNode_sb, hc,
    Bool.false_eq_true, hrem]
  refine after_ret (preadLoop_one hq _ [] (by simpa using hc) (by simpa using hin)) fun t => ?_
  simp

/-- Writing an entry inside a directory: it goes where the cached pointer then leads. -/
theorem writeEntry_at (hq : Env.Quiet) (hn : w.nodes dir = some n) (hd : n.isDir = true)
    (hl : e.length = entrySize) (ho : off + entrySize ≤ n.size)
    (hin : off % w.sb.clusterSize + entrySize ≤ w.sb.clusterSize) :
    Wp (fun _ => True) (writeEntries dir e off) w fun rc v => rc = .ok →
      ∃ c t u, exfatAdvanceCluster dir (off / w.sb.clusterSize % 2 ^ 32) w = .ok (c, u) ∧
        w.sb.clusterInvalid c = false ∧
          v = ((w.withDev (w.dev.write (c2oRaw w.sb c + off % w.sb.clusterSize) e)).setNode dir
            (n.seek (off / w.sb.clusterSize % 2 ^ 32) c)).ticked t := by
  have hne : e ≠ [] := by
    rintro rfl
    cases hl
  have h1 : ¬off > n.size := by
    simp only [entrySize] at ho
    omega
  have h2 : ¬(off + e.length) % 2 ^ 64 > n.size := by
    have := Nat.mod_le (off + e.length) (2 ^ 64)
    omega
  simp only [writeEntries, exfatGenericPwrite, extendTo, wp_bind, wp_getNode hn, hd, Bool.not_true,
    Bool.false_eq_true, if_false, if_neg h1, if_neg h2, wp_pure, ne_eq, not_true, List.isEmpty_iff,
    hne, wp_get]
  refine ((exfatAdvanceCluster_seeks hn _).and wp_self).mono ?_
  rintro c _ ⟨⟨t, rfl⟩, hadvance⟩
  split
  · exact nofun
  · rename_i hval
    have hc : w.sb.clusterInvalid c = false := by simpa using hval
    simp only [wp_bind, World.setNode_ticked, wp_getNode_setNode]
    refine after_ret (pwriteLoop_one hq _ (by simpa using hc) hne (by rw [hl]; simpa using hin))
      fun t => ?_
    simp only [not_true, if_false]
    split
    · exact fun _ => ⟨c, t, _, hadvance, hc, rfl⟩
    · rename_i hfile
      exact absurd hd hfile

omit [Env] in
theorem Calm.place (h : Calm w v) (hn : w.nodes dir = some n) :
    ∃ m, v.nodes dir = some m ∧ m.size = n.size ∧ m.isDir = n.isDir := by
  obtain ⟨m, hm, hs⟩ := h.node hn
  rw [skel_eq_iff] at hs
  exact ⟨m, hm, hs.2.2.2.2.2.2.2.2.2.1, by rw [Node.isDir, Node.isDir, hs.2.2.2.2.2.1]⟩

omit [Env] in
theorem Resized.place {size : Nat} (h : Resized dir size w v) (hn : w.nodes dir = some n) :
    ∃ m, v.nodes dir = some m ∧ m.size = size ∧ m.isDir = n.isDir := by
  have hs := h.skel dir
  rw [hn, Option.map_some, if_pos rfl] at hs
  obtain ⟨m, hm, hsk⟩ := Option.map_eq_some_iff.mp hs
  have hskel : m.skel = ({ n with size := size } : Node).skel := hsk
  rw [skel_eq_iff] at hskel
  exact ⟨m, hm, hskel.2.2.2.2.2.2.2.2.2.1, by rw [Node.isDir, Node.isDir, hskel.2.2.2.2.2.1]⟩

/-- The label that `find_label` finds lies inside the root directory. -/
theorem findLabel_inside {fuel : Nat} (hn : w.nodes w.root = some n) (ho : entrySize ∣ off) :
    Wp (fun _ => True) (findLabel fuel off) w fun r v => Calm w v ∧
      ∀ o, r = .ok o → entrySize ∣ o ∧ o + entrySize ≤ n.size := by
  refine (calm_of (still_findLabel fuel off) w).and ?_
  induction fuel generalizing w n off with
  | zero => trivial
  | succ fuel ih =>
    simp only [findLabel, wp_bind, wp_get]
    refine (readEntries_calm w.root 1 off).mono ?_
    rintro r v ⟨hv, hok, -⟩
    cases r with
    | error e =>
      intro _ h
      cases h
    | ok entry =>
      obtain ⟨-, m, hm, -, hin⟩ := hok entry rfl
      obtain rfl := Option.some.inj (hn.symm.trans hm)
      dsimp only
      split
      · rintro o ⟨⟩
        exact ⟨ho, by simpa using hin⟩
      · obtain ⟨m', hm', hs, -⟩ := hv.place hn
        rw [← hv.root] at hm'
        rw [← hs]
        exact ih hm' (ho.add (dvd_refl _))

/-- The slot that `find_slot` returns lies inside the directory, extended if need be. -/
theorem findSlot_inside {k : Nat} (hn : w.nodes dir = some n) (hs : entrySize ∣ n.size) (hk : 0 < k) :
    Wp (fun _ => True) (findSlot dir k) w fun r v => r.1 = .ok → v.sb = w.sb ∧ v.root = w.root ∧
      ∃ m, v.nodes dir = some m ∧ m.isDir = n.isDir ∧ entrySize ∣ r.2 ∧
        r.2 + entrySize * k ≤ m.size := by
  have htotal : n.size / entrySize * entrySize = n.size := Nat.div_mul_cancel hs
  simp only [findSlot, wp_bind, wp_getNode hn]
  split
  · trivial
  simp only [wp_bind]
  refine (calm_mallocOk w).mono fun b a ha => ?_
  split
  · exact nofun
  simp only [wp_bind]
  refine (calm_of (still_children dir) a).mono fun ids b hb => ?_
  refine (calm_of (still_getNodes ids) b).mono fun nodes c hc => ?_
  have hwc := Calm.trans _ _ _ ha (Calm.trans _ _ _ hb hc)
  obtain ⟨m, hm, hsize, hdir⟩ := hwc.place hn
  have hloop : Wp (fun _ => True) (slotLoop dir (slotTaken nodes) (n.size / entrySize) k
      ((n.size / entrySize + 1) * (k + 1) + 1) 0 0 0) c fun r _ =>
      SearchOk (slotTaken nodes) (n.size / entrySize) k r :=
    slotLoop_spec (fun _ => ⟨m, hm, by rw [hsize, htotal]⟩) hk le_rfl (Nat.zero_le _)
      (fun h0 => absurd rfl h0) (fun j _ hj => by omega)
  refine ((calm_slotLoop _ _ _ _ _ _ _ _ c).and hloop).mono ?_
  rintro r x ⟨hx, hr⟩
  have hwx := Calm.trans _ _ _ hwc hx
  obtain ⟨m, hm, hsize, hdir⟩ := hwx.place hn
  cases r with
  | failed e => exact nofun
  | found o =>
    obtain ⟨j, rfl, hj, -⟩ := hr
    refine fun _ => ⟨hwx.sb, hwx.root, m, hm, hdir, dvd_mul_left _ _, ?_⟩
    simp only [entrySize] at hj htotal ⊢
    omega
  | exhausted c o =>
    obtain ⟨hct, hcn, ho, -⟩ := hr
    simp only [wp_bind, wp_getNode hm, wp_get, hsize]
    refine (exfatTruncate_calm _ _ _).mono ?_
    rintro rc y ⟨-, hres⟩ hrc
    obtain ⟨m', hm', hsize', hdir'⟩ := (hwx.resized (hres hrc)).place hn
    have hup := le_roundUp (n.size + entrySize * (k - c)) (clusterSize_pos x.sb)
    refine ⟨(hres hrc).sb.trans hwx.sb, (hres hrc).root.trans hwx.root, m', hm', hdir', ?_, ?_⟩
    · dsimp only
      split
      · exact hs
      · rename_i hc0
        rw [ho hc0]
        exact dvd_mul_left _ _
    · dsimp only
      rw [hsize']
      simp only [entrySize] at ho hct htotal hup ⊢
      split
      · omega
      · rename_i hc0
        rw [ho hc0]
        omega

/-- Where `exfat_set_label` writes: inside the root directory. -/
theorem labelSlot_inside (hn : w.nodes w.root = some n) (hs : entrySize ∣ n.size) :
    Wp (fun _ => True) (labelSlot w.root) w fun r v => r.1 = .ok → v.sb = w.sb ∧ v.root = w.root ∧
      ∃ m, v.nodes w.root = some m ∧ m.isDir = n.isDir ∧ entrySize ∣ r.2 ∧
        r.2 + entrySize ≤ m.size := by
  simp only [labelSlot, dirFuel, wp_bind, wp_getNode hn, wp_pure]
  refine (findLabel_inside hn (dvd_zero _)).mono ?_
  rintro r v ⟨hv, hok⟩
  obtain ⟨m, hm, hsize, hdir⟩ := hv.place hn
  split
  · rename_i o
    obtain ⟨h1, h2⟩ := hok o rfl
    exact fun _ => ⟨hv.sb, hv.root, m, hm, hdir, h1, by rw [hsize]; exact h2⟩
  · refine (findSlot_inside hm (hsize ▸ hs) Nat.one_pos).mono fun r' v' hr hrc => ?_
    obtain ⟨h1, h2, m', hm', hd', h3, h4⟩ := hr hrc
    exact ⟨h1.trans hv.sb, h2.trans hv.root, m', hm', hd'.trans hdir, h3, by simpa using h4⟩
  · intro h
    cases h

/-- The units of a label entry. -/
def labelUnits (units : List Nat) : List Nat := units ++ List.replicate (exfatEnameMax - units.length) 0

omit [Env] in
theorem labelEntry_eq {units : List Nat} (hl : units.length ≤ exfatEnameMax) :
    labelEntry units = toLe 1 (if utf16Length units = 0 then exfatEntryLabel ^^^ exfatEntryValid
      else exfatEntryLabel) ++ (toLe 1 (utf16Length units) ++ (labelUnits units).flatMap (toLe 2)) := by
  have hname : (units ++ List.replicate (exfatEnameMax + 1 - units.length) 0).take exfatEnameMax =
      labelUnits units := by
    obtain ⟨k, hk⟩ := Nat.exists_eq_add_of_le hl
    rw [labelUnits, hk, List.take_length_add_append, List.take_replicate]
    congr 2
    omega
  rw [labelEntry, hname, List.append_assoc]

omit [Env] in
theorem labelUnits_length {units : List Nat} (hl : units.length ≤ exfatEnameMax) :
    (labelUnits units).length = exfatEnameMax := by
  rw [labelUnits, List.length_append, List.length_replicate]
  omega

omit [Env] in
theorem labelEntry_length {units : List Nat} (hl : units.length ≤ exfatEnameMax) :
    (labelEntry units).length = entrySize := by
  rw [labelEntry_eq hl, List.length_append, List.length_append, toLe_length, toLe_length,
    flatMap_toLe_length, labelUnits_length hl]
  rfl

omit [Env] in
theorem labelUnits_lt {units : List Nat} (hu : ∀ u ∈ units, u < 0x10000) :
    ∀ u ∈ labelUnits units, u < 0x10000 := by
  intro u hm
  rcases List.mem_append.mp hm with hm | hm
  · exact hu u hm
  · rw [List.eq_of_mem_replicate hm]
    norm_num

omit [Env] in
theorem ofUtf16_labelUnits (units : List Nat) : ofUtf16 (labelUnits units) = ofUtf16 units := by
  rw [labelUnits]
  cases exfatEnameMax - units.length with
  | zero => rw [List.replicate_zero, List.append_nil]
  | succ k => rw [List.replicate_succ, ofUtf16_terminated]

/-- What `readdir` makes of the entry that `exfat_set_label` writes. -/
theorem readdirOther_label {units : List Nat} (hl : units.length ≤ exfatEnameMax)
    (hu : ∀ u ∈ units, u < 0x10000) {x : World} :
    readdirOther dir (labelEntry units) off w = .ok (.ok, x) ↔
      if utf16Length units = 0 then x = w
      else ∃ label, utf16ToUtf8 (labelUnits units) exfatUtf8EnameBufferMax exfatEnameMax = .ok label ∧
        x = w.copyLabel label := by
  have hlen := labelEntry_length hl
  have hshort : utf16Length units ≤ exfatEnameMax :=
    (List.takeWhile_sublist _).length_le.trans hl
  have htype : entryType (labelEntry units) 0 = if utf16Length units = 0
      then exfatEntryLabel ^^^ exfatEntryValid else exfatEntryLabel := by
    rw [entryType, Nat.mul_zero, ← leAt_one (by rw [hlen]; decide), labelEntry_eq hl, leAt_toLe_self]
    split <;> rfl
  rw [readdirOther, htype]
  split
  · rw [if_neg (by decide), if_neg (by decide), if_neg (by decide), readdirDefault, htype]
    rename_i h0
    rw [if_pos h0, if_pos (by decide)]
    constructor
    · intro h
      cases h
      rfl
    · rintro rfl
      rfl
  · have hread : leAt (labelEntry units) 1 1 = utf16Length units := by
      rw [labelEntry_eq hl, leAt_toLe_right (by decide), leAt_toLe_self]
      refine Nat.mod_eq_of_lt ?_
      simp only [exfatEnameMax] at hshort
      omega
    have hunits : le16s exfatEnameMax ((labelEntry units).drop 2) = labelUnits units := by
      have hdrop : (labelEntry units).drop 2 = (labelUnits units).flatMap (toLe 2) ++ [] := by
        rw [labelEntry_eq hl, ← List.append_assoc, List.drop_left' (by simp), List.append_nil]
      rw [hdrop, ← labelUnits_length hl]
      exact le16s_toLe _ (labelUnits_lt hu) []
    rw [if_neg (by decide), if_neg (by decide), if_pos rfl, readdirLabel, hread,
      if_neg (Nat.not_lt.mpr hshort), hunits]
    cases utf16ToUtf8 (labelUnits units) exfatUtf8EnameBufferMax exfatEnameMax with
    | error er =>
      constructor
      · intro h
        cases h
      · rintro ⟨label, h, -⟩
        cases h
    | ok label =>
      constructor
      · intro h
        cases h
        exact ⟨label, rfl, rfl⟩
      · rintro ⟨label', h, rfl⟩
        cases h
        rfl

/-- A label in UTF-8 as the converters write it: each character in its shortest form, none zero, past
the last plane or a high surrogate. -/
def WellFormed (label : List UInt8) : Prop :=
  ∃ cs : List Nat, (∀ c ∈ cs, Plain c) ∧ label = cs.flatMap toUtf8

/-- The label fits and its entry decodes to it exactly if it is well-formed. -/
theorem label_decodes_iff {label : List UInt8} {units : List Nat}
    (h : utf8ToUtf16 label (exfatEnameMax + 1) = .ok units) (hw : w.label = []) :
    (label.length < exfatUtf8EnameBufferMax ∧
      ∃ x, readdirOther dir (labelEntry units) off w = .ok (.ok, x) ∧ x.label = label) ↔
      WellFormed label := by
  obtain ⟨ds, -, rfl, hlen⟩ := utf8ToUtf16_ok.mp h
  have hl : (ds.flatMap toUtf16).length ≤ exfatEnameMax := Nat.le_of_lt_succ hlen
  have hu : ∀ u ∈ ds.flatMap toUtf16, u < 0x10000 := fun u hm => flatMap_toUtf16_lt hm
  simp only [readdirOther_label hl hu]
  constructor
  · rintro ⟨-, x, hx, hlabel⟩
    split at hx
    · rw [hx, hw] at hlabel
      exact ⟨[], by simp, by rw [← hlabel]; rfl⟩
    · obtain ⟨s, hs, rfl⟩ := hx
      obtain ⟨cs, hcs, hcat, -⟩ := (utf16ToUtf8_ok (labelUnits_lt hu)).mp hs
      refine ⟨cs, ofUtf16_plain hcs fun u hm => labelUnits_lt hu u (List.mem_of_mem_take hm), ?_⟩
      exact hlabel.symm.trans hcat.symm
  · rintro ⟨cs, hplain, rfl⟩
    rw [utf8ToUtf16_toUtf8 hplain, fits_ok] at h
    obtain ⟨he, hlt⟩ := h
    rw [← he] at hl ⊢
    have hbound := flatMap_toUtf8_length_le cs
    have hfit : (cs.flatMap toUtf8).length < exfatUtf8EnameBufferMax := by
      simp only [exfatUtf8EnameBufferMax, exfatEnameMax] at hlt ⊢
      omega
    refine ⟨hfit, ?_⟩
    split
    · rename_i h0
      have hnil : cs = [] := by
        have hpos := flatMap_toUtf16_pos fun c hc => Nat.pos_iff_ne_zero.mp (hplain c hc).1
        rw [utf16Length_eq fun u hu => (hpos u hu).1, List.length_eq_zero_iff, flatMap_toUtf16_nil] at h0
        exact h0
      rw [hnil]
      exact ⟨w, rfl, hw⟩
    · refine ⟨_, ⟨cs.flatMap toUtf8, ?_, rfl⟩, rfl⟩
      rw [utf16ToUtf8_ok (labelUnits_lt fun u hm => flatMap_toUtf16_lt hm)]
      refine ⟨cs, ?_, rfl, hfit⟩
      rw [List.take_of_length_le (labelUnits_length hl).le, ofUtf16_labelUnits, ofUtf16_toUtf16 hplain]

omit [Env] in
/-- An entry lies inside one cluster. -/
theorem entry_in_cluster (hb : 9 ≤ w.sb.sectorBits) (ho : entrySize ∣ off) :
    off % w.sb.clusterSize + entrySize ≤ w.sb.clusterSize := by
  have hdvd : entrySize ∣ w.sb.clusterSize := entrySize_dvd (Nat.le_trans (by decide) hb)
  obtain ⟨k, hk⟩ := (Nat.dvd_mod_iff hdvd).mpr ho
  obtain ⟨c, hc⟩ := hdvd
  have hlt := Nat.mod_lt off (clusterSize_pos w.sb)
  simp only [entrySize] at *
  omega

/-- The first label among the entries of a directory. -/
structure FirstLabel (data : List UInt8) (i : Nat) : Prop where
  room : entrySize * (i + 1) ≤ data.length
  label : entryType data i = exfatEntryLabel
  first : ∀ j < i, entryType data j ≠ exfatEntryLabel

omit [Env] in
theorem FirstLabel.unique {data : List UInt8} {i j : Nat} (hi : FirstLabel data i)
    (hj : FirstLabel data j) : i = j := by
  rcases lt_trichotomy i j with h | h | h
  · exact absurd hi.label (hj.first i h)
  · exact h
  · exact absurd hj.label (hi.first j h)

/-- The root directory of a mounted volume. -/
structure Rooted (w : World) (n : Node) : Prop where
  node : w.nodes w.root = some n
  isDir : n.isDir = true
  whole : entrySize ∣ n.size
  size : n.size ≤ 2 ^ 32 * w.sb.clusterSize
  fptr : n.fptrIndex = 0 → n.fptrCluster = n.startCluster
  sector : 9 ≤ w.sb.sectorBits

omit [Env] in
theorem entryType_fileData {sb : SuperBlock} {d : Store} {L : List Nat} {len i : Nat}
    (h : entrySize * (i + 1) ≤ len) :
    entryType (fileData sb d L (entrySize * i) entrySize) 0 = entryType (fileData sb d L 0 len) i := by
  simp only [entrySize] at h ⊢
  rw [entryType, entryType, fileData_getD (by decide), fileData_getD (by simp only [entrySize]; omega)]
  simp [entrySize]

/-- `find_label` finds the first label that the clusters of the root directory hold. -/
theorem findLabel_held {L : List Nat} {fuel i : Nat} (hq : Env.Quiet) (h : Held w.sb w.dev n L)
    (hn : w.nodes w.root = some n) (ha : Aims w.sb n L (entrySize * i)) (hw : entrySize ∣ n.size)
    (hs : n.size ≤ 2 ^ 32 * w.sb.clusterSize)
    (hi : ∀ j < i, entryType (fileData w.sb w.dev L 0 (min n.size (L.length * w.sb.clusterSize))) j ≠
      exfatEntryLabel) :
    Wp (fun _ => True) (findLabel fuel (entrySize * i)) w fun r v =>
      (∀ o, r = .ok o → ∃ j,
        FirstLabel (fileData w.sb w.dev L 0 (min n.size (L.length * w.sb.clusterSize))) j ∧
        o = entrySize * j ∧ ∃ k c t, L[k]? = some c ∧ v = (w.setNode w.root (n.seek k c)).ticked t) ∧
      (r = .error .enoent → ∀ j,
        ¬FirstLabel (fileData w.sb w.dev L 0 (min n.size (L.length * w.sb.clusterSize))) j) := by
  induction fuel generalizing w n i with
  | zero => trivial
  | succ fuel ih =>
    simp only [findLabel, wp_bind, wp_get]
    refine ((readEntries_held (Env.Quiet.honest hq _) h hn ha hs Nat.one_pos).and
      (readEntries_calm w.root 1 _)).mono ?_
    rintro r v ⟨hread, -, -, herr⟩
    cases r with
    | error e =>
      refine ⟨by simp, fun he j hj => ?_⟩
      -- nothing was left to read, so there is no entry that was not seen
      have hend : ¬entrySize * i + entrySize * 1 ≤ n.size := fun hle => by
        rw [herr e n rfl hn Nat.one_pos hle] at he
        cases he
      have hroom := hj.room
      rw [fileData_length] at hroom
      refine hi j ?_ hj.label
      simp only [entrySize] at hend hroom
      omega
    | ok bs =>
      obtain ⟨hle, rfl, c, t, hc, rfl⟩ := hread bs rfl
      have hroom : entrySize * (i + 1) ≤ min n.size (L.length * w.sb.clusterSize) := by
        rw [Nat.mul_add]
        exact hle
      have htype : entryType (fileData w.sb w.dev L (entrySize * i) entrySize) 0 = _ :=
        entryType_fileData hroom
      simp only [Nat.mul_one, htype]
      split
      · rename_i hlabel
        refine ⟨?_, by simp⟩
        rintro o ⟨⟩
        exact ⟨i, ⟨by rwa [fileData_length], hlabel, hi⟩, rfl, _, c, t, hc, rfl⟩
      · rename_i hlabel
        rw [show entrySize * i + entrySize = entrySize * (i + 1) from rfl]
        have hih := ih (i := i + 1)
          (w := (w.setNode w.root (n.seek (entrySize * i / w.sb.clusterSize) c)).ticked t)
          (n := n.seek (entrySize * i / w.sb.clusterSize) c)
          ⟨h.walk, h.valid, h.first, h.next⟩ (World.setNode_self _ _ _) (Or.inl hc) hw hs
          fun j hj => by
            rcases Nat.lt_succ_iff_lt_or_eq.mp hj with hj | rfl
            · exact hi j hj
            · exact hlabel
        refine hih.mono ?_
        rintro r v ⟨hok, hnone⟩
        refine ⟨fun o ho => ?_, hnone⟩
        obtain ⟨j, hj, rfl, k, c', t', hk, rfl⟩ := hok o ho
        refine ⟨j, hj, rfl, k, c', t', hk, ?_⟩
        rw [World.setNode_ticked, World.ticked_ticked]
        exact congrArg (fun w : World => w.ticked t') (World.setNode_setNode ..)

/-- `exfat_set_label` writes over the first label of the root directory, and to a free slot only if
there is none. -/
theorem labelSlot_place (hq : Env.Quiet) (hr : Rooted w n) :
    Wp (fun _ => True) (labelSlot w.root) w fun r v => r.1 = .ok →
      (∀ i, FirstLabel (dirData w.sb w.dev n) i → r.2 = entrySize * i ∧
        ∃ k c t, (heldClusters w.sb w.dev n)[k]? = some c ∧
          v = (w.setNode w.root (n.seek k c)).ticked t) ∧
      ((∀ i, ¬FirstLabel (dirData w.sb w.dev n) i) →
        ∃ a, Calm w a ∧ findSlot w.root 1 a = .ok (r, v)) := by
  have haims : Aims w.sb n (heldClusters w.sb w.dev n) (entrySize * 0) :=
    Or.inr ⟨clusterSize_pos w.sb, hr.fptr⟩
  simp only [labelSlot, dirFuel, wp_bind, wp_getNode hr.node, wp_pure]
  refine ((findLabel_held hq (heldClusters_held _ _ _) hr.node haims hr.whole hr.size
    (by simp)).and (findLabel_inside hr.node (dvd_zero _))).mono ?_
  rintro r v ⟨⟨hok, hnone⟩, hv, -⟩
  split
  · rename_i o
    obtain ⟨j, hj, rfl, k, c, t, hk, rfl⟩ := hok o rfl
    refine fun _ => ⟨fun i hi => ⟨by rw [hi.unique hj], k, c, t, hk, rfl⟩, fun hno => absurd hj (hno j)⟩
  · exact wp_self.mono fun r u hrun _ => ⟨fun i hi => absurd hi (hnone rfl i), fun _ => ⟨v, hv, hrun⟩⟩
  · intro h
    cases h

/-- An entry was written over the first label of the root directory and over nothing else; if there was
no label, into a slot that `find_slot` found. -/
structure Replaces (w v : World) (n : Node) (off : Nat) (entry : List UInt8) : Prop where
  old : ∀ i, FirstLabel (dirData w.sb w.dev n) i → off = entrySize * i ∧
    v.dev = w.dev.write (filePos w.sb (heldClusters w.sb w.dev n) off) entry
  new : (∀ i, ¬FirstLabel (dirData w.sb w.dev n) i) → ∃ a b c, Calm w a ∧
    findSlot w.root 1 a = .ok ((.ok, off), b) ∧
    v.dev = b.dev.write (c2oRaw b.sb c + off % b.sb.clusterSize) entry

/-- A cluster that the cached pointer leads to holds the data of the directory. -/
theorem advance_place {L : List Nat} {c : Nat} {u : World} (hq : Env.Quiet)
    (h : Held w.sb w.dev n L) (hn : w.nodes dir = some n) (hf : L[n.fptrIndex]? = some n.fptrCluster)
    (hs : n.size ≤ 2 ^ 32 * w.sb.clusterSize) (ho : off < n.size)
    (hrun : exfatAdvanceCluster dir (off / w.sb.clusterSize % 2 ^ 32) w = .ok (c, u))
    (hc : w.sb.clusterInvalid c = false) :
    filePos w.sb L off = c2oRaw w.sb c + off % w.sb.clusterSize := by
  have hidx : off / w.sb.clusterSize < 2 ^ 32 := by
    refine Nat.div_lt_of_lt_mul (lt_of_lt_of_le ho ?_)
    rwa [Nat.mul_comm]
  rw [Nat.mod_eq_of_lt hidx] at hrun
  have hget := (exfatAdvanceCluster_held (Env.Quiet.honest hq _) h hn (Or.inl hf) ho).run hrun
  rw [filePos, List.getD_eq_getElem?_getD, hget.2 hc, Option.getD_some]

/-- What a run of `exfat_set_label` that succeeds leaves behind. -/
theorem exfatSetLabel_writes {label : List UInt8} (hq : Env.Quiet) (hr : Rooted w n) :
    Wp (fun _ => True) (exfatSetLabel label) w fun rc v => rc = .ok →
      ∃ units off v', utf8ToUtf16 label (exfatEnameMax + 1) = .ok units ∧ v.label = label ∧
        Replaces w v n off (labelEntry units) ∧
        readEntries v.root 1 off v = .ok (.ok (labelEntry units), v') := by
  simp only [exfatSetLabel, nameToUtf16, wp_bind]
  cases hu : utf8ToUtf16 label (exfatEnameMax + 1) with
  | error er => simp
  | ok units =>
    have hlen := labelEntry_length (Nat.le_of_lt_succ (utf8ToUtf16_length hu))
    simp only [wp_pure, wp_bind, wp_get]
    refine ((labelSlot_place hq hr).and (labelSlot_inside hr.node hr.whole)).mono ?_
    rintro ⟨rc, off⟩ a ⟨hplace, ha⟩
    dsimp only at hplace ha ⊢
    split
    · rename_i hne
      exact fun hrc => absurd hrc hne
    rename_i hrc
    obtain rfl := not_not.mp hrc
    obtain ⟨hold, hnew⟩ := hplace rfl
    obtain ⟨hsb, hroot, m, hm, hmd, ho, hin⟩ := ha rfl
    have hcl := entry_in_cluster (w := a) (hsb ▸ hr.sector) ho
    simp only [wp_bind]
    refine (writeEntry_at hq hm (hmd.trans hr.isDir) hlen hin hcl).mono fun rc' b hb => ?_
    split
    · rename_i hne
      exact fun hrc' => absurd hrc' hne
    rename_i hrc'
    obtain ⟨c, t, u, hadvance, hc, rfl⟩ := hb (not_not.mp hrc')
    -- the cached pointer stays where the entry was written, so the reader finds it
    let x : World := (((a.withDev (a.dev.write (c2oRaw a.sb c + off % a.sb.clusterSize)
      (labelEntry units))).setNode w.root
        (m.seek (off / a.sb.clusterSize % 2 ^ 32) c)).ticked t).copyLabel label
    have hx : x.nodes x.root = some (m.seek (off / a.sb.clusterSize % 2 ^ 32) c) := by
      rw [show x.root = w.root from hroot]
      exact World.setNode_self _ _ _
    have hread := readEntry_at (E := fun _ => False) (w := x) hq hx (hmd.trans hr.isDir) rfl hc hin hcl
    obtain ⟨r, v', hrun', rfl⟩ := hread.returns
    rw [show x.dev.read _ entrySize = labelEntry units from hlen ▸ Store.read_write_self _ _ _]
      at hrun'
    refine fun _ => ⟨units, off, v', rfl, rfl, ⟨fun i hi => ?_, fun hno => ?_⟩, hrun'⟩
    · obtain ⟨rfl, k, c', t', hk, rfl⟩ := hold i hi
      obtain rfl := Option.some.inj ((World.setNode_self _ _ _).symm.trans hm)
      have hheld := heldClusters_held w.sb w.dev n
      have hpos := advance_place (w := (w.setNode w.root (n.seek k c')).ticked t')
        (n := n.seek k c') (L := heldClusters w.sb w.dev n) hq
        ⟨hheld.walk, hheld.valid, hheld.first, hheld.next⟩ hm hk hr.size
        (show entrySize * i < n.size by simp only [Node.seek_size, entrySize] at hin ⊢; omega)
        hadvance hc
      exact ⟨rfl, congrArg (fun o => Store.write w.dev o (labelEntry units)) hpos.symm⟩
    · obtain ⟨a', ha', hslot⟩ := hnew hno
      exact ⟨a', a, c, ha', hslot, rfl⟩

/-- After `exfat_set_label` the label entry stands in the place of the one before, and the label fits
into its buffer and is what the entry decodes to exactly if it is well-formed. -/
theorem set_label_round_trips_iff {label : List UInt8} (hq : Env.Quiet) (hr : Rooted w n)
    (h : exfatSetLabel label w = .ok (.ok, v)) :
    ∃ off entry v', Replaces w v n off entry ∧ readEntries v.root 1 off v = .ok (.ok entry, v') ∧
      ((label.length < exfatUtf8EnameBufferMax ∧ ∃ x,
        readdirOther v.root entry off { v' with label := [] } = .ok (.ok, x) ∧ x.label = v.label) ↔
        WellFormed label) := by
  obtain ⟨units, off, v', hu, hlabel, hplace, hread⟩ := (exfatSetLabel_writes hq hr).run h rfl
  refine ⟨off, labelEntry units, v', hplace, hread, ?_⟩
  rw [hlabel]
  exact label_decodes_iff hu rfl

omit [Env] in
/-- The label `A`, written over the last entry of the root directory. -/
theorem set_label_round_trips_iff_letter :
    ∃ v, @exfatSetLabel calmEnv [0x41] labelRoot = .ok (.ok, v) ∧
      ∃ off entry v', @Replaces calmEnv labelRoot v rootNode off entry ∧ off = 480 ∧
        @readEntries calmEnv v.root 1 off v = .ok (.ok entry, v') ∧
        (([0x41] : List UInt8).length < exfatUtf8EnameBufferMax ∧ (∃ x,
          @readdirOther calmEnv v.root entry off { v' with label := [] } = .ok (.ok, x) ∧
            x.label = v.label) ↔ WellFormed [0x41]) := by
  let _ := calmEnv
  obtain ⟨r, v, hrun, hp⟩ := returns_of_check (m := exfatSetLabel [0x41]) (s := labelRoot)
    (p := fun r _ => decide (r = .ok)) (by decide +kernel)
  obtain rfl := of_decide_eq_true hp
  obtain ⟨off, entry, v', hplace, hread, hiff⟩ := set_label_round_trips_iff calmEnv_quiet
    (n := rootNode) ⟨rfl, by decide, by decide, by decide, fun _ => rfl, by decide⟩ hrun
  have hfirst : FirstLabel (dirData labelRoot.sb labelRoot.dev rootNode) 15 :=
    ⟨by decide +kernel, by decide +kernel, by decide +kernel⟩
  exact ⟨v, hrun, off, entry, v', hplace, (hplace.old 15 hfirst).1, hread, hiff⟩

/-- Fifteen letters `A`, each in a form of six bytes. -/
def longLabel : List UInt8 := (List.replicate 15 [0xfc, 0x80, 0x80, 0x80, 0x81, 0x81]).flatten

omit [Env] in
/-- That label is accepted and copied, but does not fit into its buffer. -/
theorem set_label_overflows :
    ∃ v, @exfatSetLabel calmEnv longLabel labelRoot = .ok (.ok, v) ∧ v.label = longLabel ∧
      ¬longLabel.length < exfatUtf8EnameBufferMax := by
  let _ := calmEnv
  obtain ⟨r, v, hrun, hp⟩ := returns_of_check (m := exfatSetLabel longLabel) (s := labelRoot)
    (p := fun r v => decide (r = .ok ∧ v.label = longLabel)) (by decide +kernel)
  obtain ⟨rfl, hlabel⟩ := of_decide_eq_true hp
  exact ⟨v, hrun, hlabel, by decide⟩

end Proofs

end Exfat
