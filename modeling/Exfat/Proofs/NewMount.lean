import Exfat.Model.Fsck
import Exfat.Proofs.Listing
import Exfat.Proofs.NewVolume

namespace Exfat
open Lib

/-! Mounting, checking and unmounting a new volume. -/

/-- The upper case table of a new volume. -/
def newTable : Nat → Nat := decompressUpcase (le16s (upcaseTable.length / 2) upcaseTable)

/-- The bitmap in memory of a new volume. -/
def Param.newCmap (p : Param) (e : Store) : Cmap where
  startCluster := exfatFirstDataCluster
  size := (initSb p).clusterCount
  chunk := some (bitsOf (e.read (c2oRaw (initSb p) exfatFirstDataCluster)
    (bmapSize (initSb p).clusterCount)))
  chunkSize := (initSb p).clusterCount

/-- The root node of a new volume with some references, before or after its directory was read. -/
def Param.rootNode (p : Param) (references : Int) (cached : Bool) : Node :=
  { attrib := exfatAttribDir, startCluster := (initSb p).rootdirCluster
    fptrCluster := (initSb p).rootdirCluster, name := padName [], size := p.clusterSize
    isCached := cached, references := references }

/-- A world that has read the root directory of a new volume. -/
def Param.opened (p : Param) (label : List UInt8) (w : World) : World :=
  { w.copyLabel label with cmap := p.newCmap w.dev, upcase := some newTable }

/-- The device has the size of the volume and opens in every mode, and no request fails. -/
structure Param.Hosted [Env] (p : Param) : Prop where
  quiet : Env.Quiet
  rw : Env.opensRw = true
  ro : Env.opensRo = true
  size : Env.devSize = p.volumeSize

/-- A process that has just started on a device. -/
def process (e : Store) (stdin : List Answer) (t : Nat) : World :=
  { dev := e, stdin := stdin, tick := t }

/-- A world that has read the super block of a new volume, and nothing else of it. -/
structure Param.Ready (p : Param) (d : Store) (w : World) : Prop where
  bare : p.Bare d w.dev
  sb : ∃ state percent, state < 256 ^ 2 ∧ percent < 256 ^ 1 ∧
    w.sb = (initSb p).rewrite state percent
  upcase : w.upcase = none
  label : w.label = []
  clean : w.cmap.dirty = false
  errors : w.errors = 0

/-- What has been read of a new volume; nothing was reported, and nothing is to be flushed. -/
structure Param.Held (p : Param) (d : Store) (label : List UInt8) (w : World) : Prop where
  bare : p.Bare d w.dev
  sb : ∃ state percent, state < 256 ^ 2 ∧ percent < 256 ^ 1 ∧
    w.sb = (initSb p).rewrite state percent
  size : w.cmap.size = (initSb p).clusterCount
  clean : w.cmap.dirty = false
  bits : ∃ bits, w.cmap.chunk = some bits ∧
    ∀ i < (initSb p).clusterCount, bits i = decide (i < allocatedClusters p)
  upcase : w.upcase = some newTable
  label : w.label = label
  errors : w.errors = 0

/-- A new volume is mounted, with some references on its root. -/
structure Param.Mounted (p : Param) (d : Store) (label : List UInt8) (dir : NodeId) (r : Int)
    (w : World) : Prop extends p.Held d label w where
  root : w.root = dir
  node : w.nodes dir = some (p.rootNode r true)

namespace Proofs

variable {E : Halt → Prop} {p : Param} {d : Store} {w : World} {n : Node} {dir : NodeId}
  {label : List UInt8} {off state percent : Nat} {r : Int}

section
variable [Env]

/-- `rootdir_size` on a new volume. -/
theorem rootdirSize_new (hq : Env.Quiet) (h : p.Accepted) (hb : p.Bare d w.dev)
    (hsb : w.sb = (initSb p).rewrite state percent) :
    Wp E rootdirSize w (Ret p.clusterSize w) := by
  have hle := allocated_le h
  have hall := allocated_eq p
  have hroot := initSb_rootdir_eq h
  have hvalid : w.sb.clusterInvalid w.sb.rootdirCluster = false := by
    have hv := heap_valid h (k := FsObject.cbm.clusters p + FsObject.uct.clusters p) (by omega)
    rw [← hroot] at hv
    rw [hsb]
    exact hv
  have hend : link w.sb w.dev false w.sb.rootdirCluster = exfatClusterEnd := by
    rw [hsb]
    exact bare_fat h hb
  obtain ⟨k, hk⟩ : ∃ k, w.sb.clusterCount = k + 1 := by
    refine Nat.exists_eq_succ_of_ne_zero ?_
    rw [hsb]
    change (initSb p).clusterCount ≠ 0
    omega
  have hcs : 1 * w.sb.clusterSize = p.clusterSize := by
    rw [Nat.one_mul, hsb]
    rfl
  simp only [rootdirSize, wp_bind, wp_get, hk, rootdirLoop, hvalid, Bool.false_eq_true, if_false]
  refine after_ret (exfatNextCluster_spec hq false (clusterInvalid_false.mp hvalid).1) fun t => ?_
  rw [if_pos hend]
  simp only [wp_pure]
  exact ⟨hcs, t, rfl⟩

/-- Reading an entry of a directory that lies in one cluster. -/
theorem readEntries_single (hq : Env.Quiet) (hn : w.nodes dir = some n) (hd : n.isDir = true)
    (hi : n.fptrIndex = 0) (hc : w.sb.clusterInvalid n.fptrCluster = false)
    (hs : n.size = w.sb.clusterSize) (ho : off + entrySize ≤ n.size) :
    Wp E (readEntries dir 1 off) w
      (Ret (.ok (w.dev.read (c2oRaw w.sb n.fptrCluster + off) entrySize)) w) := by
  have hlt : off < w.sb.clusterSize := by
    simp only [entrySize] at ho
    omega
  have hsize : ¬off ≥ n.size := by
    rw [hs]
    exact Nat.not_le.mpr hlt
  have hrem : min (entrySize * 1) (n.size - off) = entrySize := by
    simp only [entrySize] at ho ⊢
    omega
  have hsame : w.setNode dir { n with fptrIndex := 0, fptrCluster := n.fptrCluster } = w :=
    World.setNode_eq w (by rw [hn, ← hi])
  simp only [readEntries, exfatGenericPread, wp_bind, wp_getNode hn, hd, Bool.not_true,
    Bool.false_eq_true, if_false, if_neg hsize]
  rw [if_neg (by simp)]
  simp only [exfatAdvanceCluster, wp_bind, wp_getNode hn, Nat.div_eq_of_lt hlt, Nat.zero_mod, hi,
    lt_irrefl, gt_iff_lt, if_false, Nat.sub_self, advanceLoop, wp_pure, wp_get, wp_modifyNode hn,
    hsame, hc, Bool.false_eq_true, hrem, Nat.mod_eq_of_lt hlt]
  exact after_ret (preadLoop_one hq _ [] hc (by rw [← hs]; exact ho)) fun t => ⟨rfl, t, rfl⟩

omit [Env] in
theorem newLabel_length (hl : p.Stored) :
    (p.volumeLabel.take exfatEnameMax).length = exfatEnameMax := by
  rw [List.length_take, hl.size]
  rfl

omit [Env] in
theorem newLabel_utf16Length (hl : p.Stored) :
    utf16Length (p.volumeLabel.take exfatEnameMax) = utf16Length p.volumeLabel := by
  rw [utf16Length, ← List.take_takeWhile, List.length_take, ← utf16Length]
  exact Nat.min_eq_right hl.ended

omit [Env] in
theorem newLabel_units (hl : p.Stored) :
    labelUnits (p.volumeLabel.take exfatEnameMax) = p.volumeLabel.take exfatEnameMax := by
  rw [labelUnits, newLabel_length hl, Nat.sub_self, List.replicate_zero, List.append_nil]

omit [Env] in
/-- A label that is not empty is written as `exfat_set_label` writes it. -/
theorem initLabelEntry_eq (hl : p.Stored) (h0 : utf16Length p.volumeLabel ≠ 0) :
    initLabelEntry p = labelEntry (p.volumeLabel.take exfatEnameMax) := by
  rw [initLabelEntry, if_neg h0, labelEntry_eq (newLabel_length hl).le, newLabel_utf16Length hl,
    if_neg h0, newLabel_units hl, List.append_assoc]

omit [Env] in
theorem initLabelEntry_type (p : Param) : entryType (initLabelEntry p) 0 =
    if utf16Length p.volumeLabel = 0 then exfatEntryLabel ^^^ exfatEntryValid
      else exfatEntryLabel := by
  rw [initLabelEntry]
  split
  · exact entryType_toLe (by decide) _
  · rw [List.append_assoc]
    exact entryType_toLe (by decide) _

omit [Env] in
theorem initBitmapEntry_type (p : Param) : entryType (initBitmapEntry p) 0 = exfatEntryBitmap := by
  rw [initBitmapEntry, List.append_assoc, List.append_assoc]
  exact entryType_toLe (by decide) _

omit [Env] in
theorem initUpcaseEntry_type (p : Param) : entryType (initUpcaseEntry p) 0 = exfatEntryUpcase := by
  simp only [initUpcaseEntry, List.append_assoc]
  exact entryType_toLe (by decide) _

omit [Env] in
/-- An empty label over an empty one. -/
theorem copyLabel_nil (hw : w.label = []) : w.copyLabel [] = w := by
  cases w
  cases hw
  rfl

/-- `readdir` on the entry of the label. -/
theorem readdirOther_newLabel (hl : p.Labelled label) (hw : w.label = []) :
    Wp E (readdirOther dir (initLabelEntry p) off) w (Ret .ok (w.copyLabel label)) := by
  have hreads := hl.reads
  by_cases h0 : utf16Length p.volumeLabel = 0
  · rw [if_pos h0] at hreads
    rw [readdirOther, initLabelEntry_type, if_pos h0, if_neg (by decide), if_neg (by decide),
      if_neg (by decide), readdirDefault, initLabelEntry_type, if_pos h0, if_pos (by decide),
      wp_pure, hreads, copyLabel_nil hw]
    exact Ret.intro _ _
  · rw [if_neg h0] at hreads
    have hrun : readdirOther dir (labelEntry (p.volumeLabel.take exfatEnameMax)) off w =
        .ok (.ok, w.copyLabel label) := by
      rw [readdirOther_label (newLabel_length hl.toStored).le
        fun u hu => hl.units u (List.mem_of_mem_take hu), newLabel_utf16Length hl.toStored,
        if_neg h0, newLabel_units hl.toStored]
      exact ⟨label, hreads, rfl⟩
    rw [initLabelEntry_eq hl.toStored h0]
    exact (wp_ok hrun).mpr (Ret.intro _ _)

omit [Env] in
/-- The bitmap covers every cluster, and more. -/
theorem bmapSize_enough (count : Nat) : divRoundUp count 8 ≤ bmapSize count := by
  simp only [bmapSize, roundUp, divRoundUp, bitmapBits]
  omega

/-- `readdir` on the entry of the bitmap. -/
theorem readdirOther_newBitmap (hq : Env.Quiet) (h : p.Accepted)
    (hsb : w.sb = (initSb p).rewrite state percent) (hd : w.cmap.dirty = false) :
    Wp E (readdirOther dir (initBitmapEntry p) off) w
      (Ret .ok { w with cmap := p.newCmap w.dev }) := by
  have hstart : leAt (initBitmapEntry p) 20 4 = exfatFirstDataCluster := by
    rw [initBitmapEntry, List.append_assoc _ (toLe 4 _) (toLe 8 _), leAt_middle (by simp)]
    rfl
  have hmax := (accepted_small h).2
  have hcount := initSb_count h
  have hall := allocated_eq p
  simp only [exfatLastDataCluster] at hmax
  have hsize : leAt (initBitmapEntry p) 24 8 = FsObject.cbm.size p := by
    have hmiddle : leAt ((toLe 1 exfatEntryBitmap ++ List.replicate 19 0 ++
        toLe 4 exfatFirstDataCluster) ++ (toLe 8 (FsObject.cbm.size p) ++ [])) 24 8 =
          FsObject.cbm.size p % 256 ^ 8 :=
      leAt_middle (by simp) 8 _
    rw [List.append_nil] at hmiddle
    rw [initBitmapEntry, hmiddle, cbm_size h]
    refine Nat.mod_eq_of_lt ?_
    simp only [divRoundUp]
    omega
  have hvalid : w.sb.clusterInvalid exfatFirstDataCluster = false := by
    rw [hsb]
    exact heap_valid h (k := 0) (by omega)
  have hnum : w.sb.clusterCount = (initSb p).clusterCount := by rw [hsb]; rfl
  have hbits : ¬FsObject.cbm.size p < ((initSb p).clusterCount + 8 - 1) % 2 ^ 32 / 8 := by
    rw [cbm_size h, divRoundUp]
    omega
  have hoff : c2oRaw w.sb exfatFirstDataCluster = c2oRaw (initSb p) exfatFirstDataCluster := by
    rw [hsb]
    rfl
  rw [readdirOther, initBitmapEntry_type, if_neg (by decide), if_pos rfl]
  simp only [readdirBitmap, hstart, hsize, wp_bind, wp_modify, wp_get, hvalid, Bool.false_eq_true,
    if_false, hnum, if_neg hbits, wp_mallocOk hq, Bool.not_true]
  refine after_ret (exfatC2o_spec (by decide)) fun t => ?_
  refine after_ret (exfatPread_spec hq _ _) fun t => ?_
  simp only [wp_bind, wp_modify, wp_pure]
  refine ⟨rfl, t, ?_⟩
  simp only [Param.newCmap, ← hoff, ← hd]
  rfl

/-- `readdir` on the entry of the upper case table. -/
theorem readdirOther_newUpcase (hq : Env.Quiet) (h : p.Accepted) (hb : p.Bare d w.dev)
    (hsb : w.sb = (initSb p).rewrite state percent) (hu : w.upcase = none) :
    Wp E (readdirOther dir (initUpcaseEntry p) off) w (Ret .ok { w with
      upcase := some newTable }) := by
  have hlen := upcaseTable_length
  have hsize : leAt (initUpcaseEntry p) 24 8 = upcaseTable.length := by
    have hmiddle : leAt ((toLe 1 exfatEntryUpcase ++ List.replicate 3 0 ++
        toLe 4 (upcaseTable.foldl vbrChecksumByte 0) ++ List.replicate 12 0 ++ toLe 4
          ((getPosition p .uct - getPosition p .cbm) / p.clusterSize + exfatFirstDataCluster)) ++
            (toLe 8 upcaseTable.length ++ [])) 24 8 = upcaseTable.length % 256 ^ 8 :=
      leAt_middle (by simp) 8 _
    rw [List.append_nil] at hmiddle
    rw [initUpcaseEntry, hmiddle, hlen]
    rfl
  have hvalid : w.sb.clusterInvalid (2 + FsObject.cbm.clusters p) = false := by
    rw [hsb]
    exact heap_valid h (by rw [allocated_eq]; omega)
  have hread : w.dev.read (c2oRaw w.sb (2 + FsObject.cbm.clusters p)) upcaseTable.length =
      upcaseTable := by
    rw [hsb]
    exact uct_read h hb
  have hfits : ¬(upcaseTable.length = 0 ∨ upcaseTable.length > exfatUpcaseChars * 2 ∨
      upcaseTable.length % 2 ≠ 0) := by
    rw [hlen]
    decide
  rw [readdirOther, initUpcaseEntry_type, if_pos rfl]
  simp only [readdirUpcase, upcase_start h, exfatFirstDataCluster, hsize, wp_bind, wp_get, hu,
    Option.isSome_none, hvalid, Bool.false_eq_true, if_false, if_neg hfits, wp_mallocOk hq,
    Bool.not_true]
  refine after_ret (exfatC2o_spec (by omega)) fun t => ?_
  refine after_ret (exfatPread_spec hq _ _) fun t => ?_
  simp only [wp_bind, wp_mallocOk hq, Bool.not_true, Bool.false_eq_true, if_false, wp_modify,
    wp_pure, World.ticked_dev, World.ticked_sb, hread]
  exact ⟨rfl, t + 1, rfl⟩

/-- `readdir` passes an entry over that makes no node. -/
theorem readdir_pass {fuel : Nat} {entry : List UInt8} {v : World}
    {Q : Except Errno (NodeId × Nat) → World → Prop}
    (hread : Wp E (readEntries dir 1 off) w (Ret (.ok entry) w))
    (hne : entryType entry 0 ≠ exfatEntryFile)
    (hother : ∀ t, Wp E (readdirOther dir entry off) (w.ticked t) (Ret .ok (v.ticked t)))
    (hrest : ∀ t, Wp E (readdir dir fuel (off + entrySize)) (v.ticked t) Q) :
    Wp E (readdir dir (fuel + 1) off) w Q := by
  simp only [readdir, wp_bind]
  refine after_ret hread fun t => ?_
  simp only [if_neg hne, wp_bind]
  exact after_ret (hother t) fun t' => hrest t'

/-- Deleted entries are passed over up to the end of the directory. -/
theorem readdir_deleted (hq : Env.Quiet) (hn : w.nodes dir = some n) (hd : n.isDir = true)
    (hi : n.fptrIndex = 0) (hc : w.sb.clusterInvalid n.fptrCluster = false)
    (hs : n.size = w.sb.clusterSize) {k fuel : Nat} (hk : off + entrySize * k = n.size)
    (hfuel : k < fuel)
    (hz : ∀ o, off ≤ o → o + entrySize ≤ n.size → entryType
      (w.dev.read (c2oRaw w.sb n.fptrCluster + o) entrySize) 0 &&& exfatEntryValid = 0) :
    Wp E (readdir dir fuel off) w (Ret (.error .enoent) w) := by
  induction k generalizing w off fuel with
  | zero =>
    cases fuel with
    | zero => exact absurd hfuel (Nat.lt_irrefl 0)
    | succ fuel =>
      simp only [readdir, wp_bind]
      refine (readEntries_end hn hd Nat.one_pos (by omega)).mono ?_
      rintro _ _ ⟨rfl, rfl⟩
      exact Ret.intro _ _
  | succ k ih =>
    cases fuel with
    | zero => exact absurd hfuel (Nat.not_lt_zero _)
    | succ fuel =>
      have hin : off + entrySize ≤ n.size := by
        simp only [entrySize] at hk ⊢
        omega
      have hdel := hz off le_rfl hin
      have hne : ∀ t, t &&& exfatEntryValid ≠ 0 →
          entryType (w.dev.read (c2oRaw w.sb n.fptrCluster + off) entrySize) 0 ≠ t := by
        rintro t ht rfl
        exact ht hdel
      refine readdir_pass (v := w) (readEntries_single hq hn hd hi hc hs hin) (hne _ (by decide))
        (fun t => ?_) fun t => ?_
      · rw [readdirOther, if_neg (hne _ (by decide)), if_neg (hne _ (by decide)),
          if_neg (hne _ (by decide)), readdirDefault, if_pos hdel]
        exact Ret.intro _ _
      · refine (ih (w := w.ticked t) hn hc hs ?_ (by omega) fun o h1 h2 => hz o ?_ h2).mono ?_
        · simp only [entrySize] at hk ⊢
          omega
        · exact (Nat.le_add_right _ _).trans h1
        · rintro _ _ ⟨rfl, t', rfl⟩
          exact ⟨rfl, t', rfl⟩

omit [Env] in
theorem rootNode_isDir (p : Param) (r : Int) (b : Bool) : (p.rootNode r b).isDir = true := by
  change (0x10 &&& 0x10 != 0) = true
  decide

/-- Reading an entry of the root directory of a new volume. -/
theorem readEntries_root {b : Bool} (hq : Env.Quiet) (h : p.Accepted)
    (hsb : w.sb = (initSb p).rewrite state percent) (hn : w.nodes dir = some (p.rootNode r b))
    (ho : off + entrySize ≤ p.clusterSize) :
    Wp E (readEntries dir 1 off) w
      (Ret (.ok (w.dev.read (c2oRaw (initSb p) (initSb p).rootdirCluster + off) entrySize)) w) := by
  have hroot : c2oRaw w.sb (p.rootNode r b).fptrCluster =
      c2oRaw (initSb p) (initSb p).rootdirCluster := by
    rw [hsb]
    rfl
  have hvalid : w.sb.clusterInvalid (p.rootNode r b).fptrCluster = false := by
    have hv := heap_valid h (k := FsObject.cbm.clusters p + FsObject.uct.clusters p)
      (by rw [allocated_eq]; omega)
    rw [← initSb_rootdir_eq h] at hv
    rw [hsb]
    exact hv
  have hcs : p.clusterSize = w.sb.clusterSize := by
    rw [hsb]
    rfl
  rw [← hroot]
  exact readEntries_single hq hn (rootNode_isDir p _ _) rfl hvalid hcs ho

/-- `exfat_cache_directory` on the root of a new volume: it is empty. -/
theorem exfatCacheDirectory_new (hq : Env.Quiet) (h : p.Accepted) (hl : p.Labelled label)
    (hb : p.Bare d w.dev) (hsb : w.sb = (initSb p).rewrite state percent)
    (hn : w.nodes dir = some (p.rootNode r false)) (hu : w.upcase = none)
    (hlabel : w.label = []) (hclean : w.cmap.dirty = false) :
    Wp E (exfatCacheDirectory dir) w
      (Ret .ok ((p.opened label w).setNode dir (p.rootNode r true))) := by
  obtain ⟨k, hk⟩ : ∃ k, p.clusterSize = entrySize * (k + 3) := by
    have hpow : 0 < 2 ^ p.spcBits := by positivity
    refine ⟨16 * 2 ^ p.spcBits - 3, ?_⟩
    rw [clusterSize_eq h.sector, entrySize]
    omega
  have hroot : c2oRaw w.sb (p.rootNode r false).fptrCluster =
      c2oRaw (initSb p) (initSb p).rootdirCluster := by
    rw [hsb]
    rfl
  obtain ⟨hfirst, hsecond, hthird⟩ := rootdir_entries h hb hl.size
  have hvalid : w.sb.clusterInvalid (p.rootNode r false).fptrCluster = false := by
    have hv := heap_valid h (k := FsObject.cbm.clusters p + FsObject.uct.clusters p)
      (by rw [allocated_eq]; omega)
    rw [← initSb_rootdir_eq h] at hv
    rw [hsb]
    exact hv
  have hcs : p.clusterSize = w.sb.clusterSize := by
    rw [hsb]
    rfl
  have hend : ∀ t, Wp E (readdir dir (k + 2) (entrySize * 3)) ((p.opened label w).ticked t)
      (Ret (.error .enoent) ((p.opened label w).ticked t)) := by
    intro t
    refine readdir_deleted (w := (p.opened label w).ticked t) (k := k) hq hn (rootNode_isDir p _ _)
      rfl hvalid hcs ?_ ?_ fun o h1 h2 => ?_
    · change entrySize * 3 + entrySize * k = p.clusterSize
      rw [hk, entrySize]
      omega
    · omega
    · change entryType (w.dev.read (c2oRaw w.sb (p.rootNode r false).fptrCluster + o) entrySize) 0
        &&& exfatEntryValid = 0
      rw [hroot, rootdir_zeros h hb hl.size h1 h2]
      rfl
  simp only [entrySize] at hk
  have hdir : Wp E (readdir dir (k + 5) 0) w (Ret (.error .enoent) (p.opened label w)) := by
    have hr1 : Wp E (readEntries dir 1 0) w _ :=
      readEntries_root hq h hsb hn (by simp only [entrySize]; omega)
    rw [Nat.add_zero, hfirst] at hr1
    refine readdir_pass (v := w.copyLabel label) hr1 ?_ (fun t => ?_) fun t => ?_
    · rw [initLabelEntry_type]
      split <;> decide
    · exact readdirOther_newLabel hl hlabel
    have hr2 : Wp E (readEntries dir 1 entrySize) ((w.copyLabel label).ticked t) _ :=
      readEntries_root hq h hsb hn (by simp only [entrySize]; omega)
    dsimp only [World.ticked_dev, World.copyLabel] at hr2
    rw [hsecond] at hr2
    refine readdir_pass (v := { w.copyLabel label with cmap := p.newCmap w.dev }) hr2 ?_
      (fun t => ?_) fun t => ?_
    · rw [initBitmapEntry_type]
      decide
    · exact readdirOther_newBitmap hq h hsb hclean
    have hr3 : Wp E (readEntries dir 1 (entrySize * 2))
        ({ w.copyLabel label with cmap := p.newCmap w.dev }.ticked t) _ :=
      readEntries_root hq h hsb hn (by simp only [entrySize]; omega)
    dsimp only [World.ticked_dev, World.copyLabel] at hr3
    rw [hthird] at hr3
    refine readdir_pass (v := p.opened label w) hr3 ?_ (fun t => ?_) fun t => ?_
    · rw [initUpcaseEntry_type]
      decide
    · exact readdirOther_newUpcase hq h hb hsb hu
    · refine (hend t).mono ?_
      rintro _ _ ⟨rfl, t', rfl⟩
      exact ⟨rfl, t', rfl⟩
  have hfuel : (p.rootNode r false).size / entrySize + 2 = k + 5 := by
    change p.clusterSize / 32 + 2 = k + 5
    omega
  have hcached : (p.rootNode r false).isCached = false := rfl
  simp only [exfatCacheDirectory, dirFuel, wp_bind, wp_getNode hn, hcached, Bool.false_eq_true,
    if_false, wp_pure, hfuel, cacheLoop]
  refine after_ret hdir fun t => ?_
  have hopened : ((p.opened label w).ticked t).nodes dir = some (p.rootNode r false) := hn
  rw [wp_pure, if_neg (by decide), wp_bind, wp_modifyNode hopened, wp_pure]
  exact ⟨rfl, t, rfl⟩

theorem exfatFsync_quiet (hq : Env.Quiet) : Wp E exfatFsync w (Ret .ok w) := by
  simp only [exfatFsync, wp_bind, wp_nextTick, hq.io, Bool.false_eq_true, if_false, wp_pure]
  exact ⟨rfl, _, rfl⟩

theorem commitSuperBlock_quiet (hq : Env.Quiet) :
    Wp E commitSuperBlock w (Ret true (w.withDev (w.dev.write 0 w.sb.toBytes))) := by
  simp only [commitSuperBlock, wp_bind, wp_get]
  generalize w.sb.toBytes = bytes
  refine after_ret (exfatPwrite_spec hq _ _) fun t => ?_
  simp only [if_true, wp_bind]
  exact after_ret (exfatFsync_quiet hq) fun t' => ⟨rfl, t', rfl⟩

omit [Env] in
theorem held_ticked (hm : p.Held d label w) (t : Nat) : p.Held d label (w.ticked t) :=
  ⟨hm.bare, hm.sb, hm.size, hm.clean, hm.bits, hm.upcase, hm.label, hm.errors⟩

omit [Env] in
theorem mounted_ticked (hm : p.Mounted d label dir r w) (t : Nat) :
    p.Mounted d label dir r (w.ticked t) := ⟨held_ticked hm.toHeld t, hm.root, hm.node⟩

/-- A super block with another state and percentage is written back. -/
theorem commitSuperBlock_new (hq : Env.Quiet) (hm : p.Held d label w) (hs : state < 256 ^ 2)
    (hp : percent < 256 ^ 1) :
    Wp E commitSuperBlock { w with sb := w.sb.rewrite state percent } fun b v =>
      b = true ∧ p.Held d label v ∧ v.root = w.root ∧ v.nodes = w.nodes := by
  obtain ⟨state', percent', -, -, hsb⟩ := hm.sb
  have hrew : w.sb.rewrite state percent = (initSb p).rewrite state percent := by
    rw [hsb]
    rfl
  have hbare := bare_write hm.bare hs hp
  have hcommit : Wp E commitSuperBlock { w with sb := (initSb p).rewrite state percent } (Ret true
      ({ w with sb := (initSb p).rewrite state percent }.withDev
        (w.dev.write 0 ((initSb p).rewrite state percent).toBytes))) := commitSuperBlock_quiet hq
  rw [hrew]
  generalize ((initSb p).rewrite state percent).toBytes = bytes at hbare hcommit
  exact after_ret hcommit fun t => ⟨rfl, ⟨hbare, ⟨state, percent, hs, hp, rfl⟩, hm.size, hm.clean,
    hm.bits, hm.upcase, hm.label, hm.errors⟩, rfl, rfl⟩

/-- `prepare_super_block` on a new volume. -/
theorem prepareSuperBlock_new (hq : Env.Quiet) (hm : p.Held d label w) :
    Wp E prepareSuperBlock w fun b v =>
      b = true ∧ p.Held d label v ∧ v.root = w.root ∧ v.nodes = w.nodes := by
  obtain ⟨state, percent, hs, hp, hsb⟩ := hm.sb
  have hstate : w.sb.volumeState ||| exfatStateMounted < 256 ^ 2 := by
    rw [hsb]
    exact Nat.or_lt_two_pow (n := 16) hs (by decide)
  have hpercent : w.sb.allocatedPercent < 256 ^ 1 := by
    rw [hsb]
    exact hp
  simp only [prepareSuperBlock, wp_bind, wp_get]
  split
  · exact ⟨rfl, hm, rfl, rfl⟩
  · simp only [wp_bind, wp_set]
    exact commitSuperBlock_new hq hm hstate hpercent

/-- `finalize_super_block` on a new volume. -/
theorem finalizeSuperBlock_new (hq : Env.Quiet) (hm : p.Held d label w) :
    Wp E finalizeSuperBlock w fun _ v => p.Held d label v := by
  obtain ⟨state, percent, hs, hp, hsb⟩ := hm.sb
  obtain ⟨bits, hchunk, -⟩ := hm.bits
  have hstate : w.sb.volumeState &&& (2 ^ 16 - 1 - exfatStateMounted) < 256 ^ 2 :=
    Nat.and_lt_two_pow (n := 16) _ (by decide)
  have hpercent : w.sb.allocatedPercent < 256 ^ 1 := by
    rw [hsb]
    exact hp
  simp only [finalizeSuperBlock, wp_bind, wp_get]
  split
  · exact hm
  · split
    · simp only [wp_bind, wp_pure, wp_set]
      exact (commitSuperBlock_new hq hm hstate hpercent).mono fun _ _ hv => hv.2.1
    · simp only [exfatCountFreeClusters, wp_bind, wp_getChunk hchunk, wp_get, wp_pure, wp_set]
      exact (commitSuperBlock_new hq hm hstate (Nat.mod_lt _ (by decide))).mono fun _ _ hv => hv.2.1

theorem mountFinish_new (hq : Env.Quiet) (hm : p.Mounted d label dir r w) :
    Wp E (mountFinish .ok) w fun b v => b = true ∧ p.Mounted d label dir r v := by
  obtain ⟨bits, hchunk, -⟩ := hm.bits
  simp only [mountFinish, ne_eq, not_true, if_false, wp_bind, wp_get, hm.upcase, hchunk,
    Option.isNone_some, Bool.false_eq_true]
  refine (prepareSuperBlock_new hq hm.toHeld).mono ?_
  rintro b v ⟨hb, hv, hr, hn⟩
  exact ⟨hb, hv, hr.trans hm.root, (congrFun hn dir).trans hm.node⟩

/-- The end of `exfat_mount` on a new volume. -/
theorem mountRoot_new (hq : Env.Quiet) (h : p.Accepted) (hl : p.Labelled label)
    (hw : p.Ready d w) (hn : w.nodes w.root = some (p.rootNode 0 false)) :
    Wp E mountRoot w fun rc v => rc = .ok ∧ ∃ dir, p.Mounted d label dir 1 v := by
  obtain ⟨state, percent, -, -, hsb⟩ := hw.sb
  have hbits : ∀ i < (initSb p).clusterCount, bitsOf (w.dev.read
      (c2oRaw (initSb p) exfatFirstDataCluster) (bmapSize (initSb p).clusterCount)) i =
        decide (i < allocatedClusters p) :=
    fun i hi => cbm_bits h hw.bare (bmapSize_enough _) hi
  have hnode : (w.setNode w.root (p.rootNode 1 false)).nodes w.root = some (p.rootNode 1 false) :=
    World.setNode_self _ _ _
  have hm : p.Mounted d label w.root 1 ((p.opened label
      (w.setNode w.root (p.rootNode 1 false))).setNode w.root (p.rootNode 1 true)) :=
    ⟨⟨hw.bare, hw.sb, rfl, rfl, ⟨_, rfl, hbits⟩, rfl, rfl, hw.errors⟩, rfl,
      World.setNode_self _ _ _⟩
  simp only [mountRoot, exfatGetNode, wp_bind, wp_get, wp_modifyNode hn]
  refine after_ret (exfatCacheDirectory_new hq h hl hw.bare hsb hnode hw.upcase hw.label hw.clean)
    fun t => ?_
  refine (mountFinish_new hq (mounted_ticked hm t)).mono ?_
  rintro _ v ⟨rfl, hv⟩
  rw [if_pos rfl, wp_pure]
  exact ⟨rfl, w.root, hv⟩

/-- `exfat_mount` on a new volume makes a root node. -/
theorem mountTree_enters (hq : Env.Quiet) (h : p.Accepted) (hw : p.Ready d w)
    {Q : Rc → World → Prop} (hQ : ∀ x, p.Ready d x → x.dev = w.dev →
      x.nodes x.root = some (p.rootNode 0 false) → Wp E mountRoot x Q) :
    Wp E mountTree w Q := by
  obtain ⟨state, percent, -, -, hsb⟩ := hw.sb
  have hpos : p.clusterSize ≠ 0 := (param_clusterSize_pos p).ne'
  have hroot : w.sb.rootdirCluster = (initSb p).rootdirCluster := by
    rw [hsb]
    rfl
  simp only [mountTree, wp_bind, wp_mallocOk hq, Bool.not_true, Bool.false_eq_true, if_false,
    wp_get, wp_set]
  refine after_ret (rootdirSize_new hq h hw.bare hsb) fun t => ?_
  refine (wp_modifyNode (n := { p.rootNode 0 false with size := 0 }) ?_).mpr ?_
  · rw [Param.rootNode, ← hroot]
    exact World.setNode_self _ _ _
  rw [if_neg hpos]
  exact hQ _ ⟨hw.bare, hw.sb, hw.upcase, hw.label, hw.clean, hw.errors⟩ rfl
    (World.setNode_self _ _ _)

/-- The checks of `exfat_mount` let a new volume through. -/
theorem mountChecks_enters (hh : p.Hosted) (h : p.Accepted) (hn : p.Narrow)
    (h25 : p.sectorBits + p.spcBits ≤ 25) (hw : p.Ready d w) {Q : Rc → World → Prop}
    (hQ : ∀ x, p.Ready d x → x.dev = w.dev → x.nodes x.root = some (p.rootNode 0 false) →
      Wp E mountRoot x Q) :
    Wp E mountChecks w Q := by
  obtain ⟨state, percent, -, -, hsb⟩ := hw.sb
  have hname : w.sb.oemName = bytesOf "EXFAT   " := congrArg _ hsb
  have hsector : w.sb.sectorBits = p.sectorBits := congrArg _ hsb
  have hspc : w.sb.spcBits = p.spcBits := congrArg _ hsb
  have hversion : w.sb.versionMajor = 1 ∧ w.sb.versionMinor = 0 ∧ w.sb.fatCount = 1 := by
    rw [hsb]
    exact ⟨rfl, rfl, rfl⟩
  have hfits : ¬w.sb.clusterCount * w.sb.clusterSize > Env.devSize := by
    have hcount : w.sb.clusterCount = (initSb p).clusterCount := by
      rw [hsb]
      rfl
    have hcs : w.sb.clusterSize = p.clusterSize := by
      rw [hsb]
      rfl
    rw [hcount, hcs, hh.size, initSb_count h, Nat.not_lt]
    exact (Nat.mul_le_mul_right _ (Nat.sub_le _ _)).trans (Nat.div_mul_le_self _ _)
  have hboot : BootOk w.dev w.sb.sectorSize := by
    have hss : w.sb.sectorSize = 512 := by
      rw [SuperBlock.sectorSize, hsector, h.sector]
      rfl
    rw [hss]
    exact bare_bootOk h hn hw.bare
  simp only [mountChecks, wp_bind, wp_get]
  rw [if_neg (not_not.mpr hname), hsector, if_neg (by rw [h.sector]; decide), hspc,
    if_neg (Nat.not_lt.mpr h25)]
  simp only [wp_bind, wp_mallocOk hh.quiet, Bool.not_true, Bool.false_eq_true, if_false]
  refine after_ret (verifyVbrChecksum_spec hh.quiet hboot) fun t => ?_
  rw [hversion.1, hversion.2.1, hversion.2.2]
  simp only [Bool.not_true, Bool.false_eq_true, if_false, ne_eq, not_true, or_self, if_neg hfits]
  refine mountTree_enters hh.quiet h ?_ hQ
  exact ⟨hw.bare, hw.sb, hw.upcase, hw.label, hw.clean, hw.errors⟩

/-- A device that opens in every mode. -/
theorem exfatOpen_any (hrw : Env.opensRw = true) (hro : Env.opensRo = true) (mode : Mode)
    {Q : Option Mode → World → Prop} (hQ : ∀ m, Q (some m) w) : Wp E (exfatOpen mode) w Q := by
  cases mode with
  | ro =>
    simp only [exfatOpen, hro, if_true]
    exact hQ .ro
  | rw =>
    simp only [exfatOpen, hrw, if_true]
    exact hQ .rw
  | any =>
    simp only [exfatOpen, hrw, if_true]
    exact hQ .rw

/-- `exfat_mount` reads the super block of a new volume. -/
theorem exfatMount_enters (hh : p.Hosted) (h : p.Accepted) (hn : p.Narrow) {e : Store}
    (hb : p.Bare d e) (options : List UInt8) (stdin : List Answer) (t : Nat) {Q : Rc → World → Prop}
    (hQ : ∀ x, p.Ready d x → x.dev = e → Wp E mountChecks x Q) :
    Wp E (exfatMount options) (process e stdin t) Q := by
  obtain ⟨state, percent, hs, hp, hboot⟩ := hb.boot
  obtain ⟨bs, hbs, hsb⟩ : ∃ bs, e.read 0 512 = bs ∧
      SuperBlock.ofBytes bs = (initSb p).rewrite state percent :=
    ⟨_, hboot, ofBytes_toBytes (initSb_encodable h hn hs hp)⟩
  have hread : ∀ v : World, v.dev = e → Wp E (exfatPread 512 0) v (Ret (some bs) v) := by
    intro v hv
    have hr := exfatPread_spec (E := E) (w := v) hh.quiet 512 0
    rwa [hv, hbs] at hr
  simp only [exfatMount, wp_bind, wp_modify, parseOptions]
  refine exfatOpen_any hh.rw hh.ro _ fun m => ?_
  refine wp_ite.mpr ⟨fun _ => ?_, fun _ => ?_⟩
  -- the mode is only recorded
  on_goal 1 => rw [wp_bind, wp_modify]
  all_goals
    simp only [wp_bind, wp_mallocOk hh.quiet, Bool.not_true, Bool.false_eq_true, if_false]
    refine after_ret (hread _ rfl) fun t => ?_
    rw [wp_bind, wp_modify]
    exact hQ _ ⟨hb, ⟨state, percent, hs, hp, hsb⟩, rfl, rfl, rfl, rfl⟩ rfl

/-- A new volume is mounted with any options. -/
theorem exfatMount_new (hh : p.Hosted) (h : p.Accepted) (hn : p.Narrow)
    (h25 : p.sectorBits + p.spcBits ≤ 25) (hl : p.Labelled label) {e : Store} (hb : p.Bare d e)
    (options : List UInt8) (stdin : List Answer) (t : Nat) :
    Wp E (exfatMount options) (process e stdin t) fun rc v =>
      rc = .ok ∧ ∃ dir, p.Mounted d label dir 1 v := by
  refine exfatMount_enters hh h hn hb options stdin t fun x hx _ => ?_
  refine mountChecks_enters hh h hn h25 hx fun y hy _ hroot => ?_
  exact mountRoot_new hh.quiet h hl hy hroot

omit [Env] in
/-- References on the root come and go. -/
theorem mounted_setNode (hm : p.Mounted d label dir r w) (k : Int) :
    p.Mounted d label dir k (w.setNode dir (p.rootNode k true)) :=
  ⟨⟨hm.bare, hm.sb, hm.size, hm.clean, hm.bits, hm.upcase, hm.label, hm.errors⟩, hm.root,
    World.setNode_self _ _ _⟩

omit [Env] in
theorem exfatGetNode_new (hm : p.Mounted d label dir r w) :
    Wp E (exfatGetNode dir) w fun _ v => p.Mounted d label dir (r + 1) v := by
  rw [exfatGetNode, wp_modifyNode hm.node]
  exact mounted_setNode hm (r + 1)

omit [Env] in
/-- Putting the root. -/
theorem exfatPutNode_root (hn : w.nodes w.root = some n) (hr : 0 < n.references) :
    Wp E (exfatPutNode w.root) w fun _ v =>
      v = w.setNode w.root { n with references := n.references - 1 } := by
  have hneg : ¬n.references - 1 < 0 := by omega
  simp only [exfatPutNode, wp_bind, wp_modifyNode hn]
  refine (wp_getNode (World.setNode_self _ _ _)).mpr ?_
  rw [if_neg hneg]
  simp only [wp_bind, wp_get]
  rw [if_neg fun h => h.2.1 rfl]
  exact rfl

omit [Env] in
theorem exfatPutNode_new (hm : p.Mounted d label dir r w) (hr : 0 < r) :
    Wp E (exfatPutNode dir) w fun _ v => p.Mounted d label dir (r - 1) v := by
  have hput := mounted_setNode hm (r - 1)
  rw [← hm.root] at hput ⊢
  refine (exfatPutNode_root (n := p.rootNode r true) (hm.root ▸ hm.node) hr).mono ?_
  rintro _ _ rfl
  exact hput

omit [Env] in
theorem children_new (hm : p.Mounted d label dir r w) : Wp E (children dir) w (Ret [] w) := by
  simp only [children, wp_bind, wp_getNode hm.node, wp_get]
  exact Ret.intro _ _

theorem exfatFlushNode_new (hm : p.Mounted d label dir r w) :
    Wp E (exfatFlushNode dir) w (Ret .ok w) := by
  simp only [exfatFlushNode, wp_bind, wp_getNode hm.node]
  exact Ret.intro _ _

theorem exfatOpendir_new (hm : p.Mounted d label dir r w) :
    Wp E (exfatOpendir dir) w fun rc v => rc = .ok ∧ p.Mounted d label dir (r + 1) v := by
  have hcached : (p.rootNode (r + 1) true).isCached = true := rfl
  simp only [exfatOpendir, wp_bind]
  refine (exfatGetNode_new hm).mono fun _ v hv => ?_
  simp only [exfatCacheDirectory, wp_bind, wp_getNode hv.node]
  rw [if_pos hcached]
  exact ⟨rfl, hv⟩

/-- Looking up a path without a component. -/
theorem exfatLookup_new (hm : p.Mounted d label dir r w) {path : List UInt8}
    (hpath : (getComp path).1.isEmpty = true) :
    Wp E (exfatLookup path) w fun res v => res = .ok dir ∧ p.Mounted d label dir (r + 1) v := by
  simp only [exfatLookup, wp_bind, wp_get, hm.root]
  refine (exfatGetNode_new hm).mono fun _ v hv => ?_
  simp only [lookupPath, hpath, if_true]
  exact ⟨rfl, hv⟩

omit [Env] in
/-- Counting what lies at or behind a bound. -/
theorem countP_range_ge {a m : Nat} (h : a ≤ m) :
    (List.range m).countP (fun i => !decide (i < a)) = m - a := by
  obtain ⟨k, rfl⟩ := Nat.exists_eq_add_of_le h
  rw [List.range_add, List.countP_append, List.countP_map, Nat.add_sub_cancel_left,
    List.countP_eq_zero.mpr, List.countP_eq_length.mpr, List.length_range, Nat.zero_add]
  · simp
  · intro i hi
    simpa using List.mem_range.mp hi

omit [Env] in
theorem countFree_new (h : p.Accepted) (hm : p.Mounted d label dir r w) :
    Wp E exfatCountFreeClusters w (Ret ((initSb p).clusterCount - allocatedClusters p) w) := by
  obtain ⟨bits, hchunk, hbits⟩ := hm.bits
  have hsame : (List.range (initSb p).clusterCount).countP (fun i => !bits i) =
      (List.range (initSb p).clusterCount).countP fun i => !decide (i < allocatedClusters p) :=
    List.countP_congr fun i hi => by rw [hbits i (List.mem_range.mp hi)]
  simp only [exfatCountFreeClusters, wp_bind, wp_getChunk hchunk, wp_get, wp_pure, hm.size, hsame,
    countP_range_ge (allocated_le h)]
  exact Ret.intro _ _

/-- `nodeck` finds the cluster of the root directory allocated. -/
theorem nodeck_new (hq : Env.Quiet) (h : p.Accepted) (hm : p.Mounted d label dir r w) :
    Wp E (nodeck dir) w (Ret true w) := by
  obtain ⟨state, percent, -, -, hsb⟩ := hm.sb
  obtain ⟨bits, hchunk, hbits⟩ := hm.bits
  have hall := allocated_eq p
  have hle := allocated_le h
  have hroot := initSb_rootdir_eq h
  have hvalid : w.sb.clusterInvalid (initSb p).rootdirCluster = false := by
    rw [hsb, hroot]
    exact heap_valid h (by omega)
  have hbit : bits ((initSb p).rootdirCluster - exfatFirstDataCluster) = true := by
    rw [hbits _ (by rw [hroot, exfatFirstDataCluster]; omega), hroot, exfatFirstDataCluster,
      decide_eq_true_iff]
    omega
  have hone : divRoundUp (p.rootNode r true).size w.sb.clusterSize % 2 ^ 32 = 1 := by
    have hcs : w.sb.clusterSize = p.clusterSize := by
      rw [hsb]
      rfl
    have hdiv := divRoundUp_mul 1 (param_clusterSize_pos p)
    rw [Nat.one_mul] at hdiv
    rw [hcs]
    exact congrArg (· % 2 ^ 32) hdiv
  have hstart : (p.rootNode r true).startCluster = (initSb p).rootdirCluster := rfl
  simp only [nodeck, wp_bind, wp_getNode hm.node, wp_get, hone, nodeckLoop, hstart, hvalid,
    Bool.false_eq_true, if_false, wp_getChunk hchunk, hbit, Bool.not_true]
  exact after_ret (exfatNextCluster_spec hq _ (clusterInvalid_false.mp hvalid).1) fun t =>
    ⟨rfl, t, rfl⟩

/-- `dirck` on the root of a new volume. -/
theorem dirck_new (hq : Env.Quiet) (h : p.Accepted) (hm : p.Mounted d label dir 1 w) (fuel : Nat) :
    Wp E (dirck (fuel + 1) []) w fun _ v => p.Mounted d label dir 1 v := by
  simp only [dirck, wp_bind]
  refine (exfatLookup_new hm rfl).mono ?_
  rintro _ x ⟨rfl, hx⟩
  simp only [wp_bind, wp_getNode hx.node, rootNode_isDir, Bool.not_true, Bool.false_eq_true,
    if_false]
  refine after_ret (nodeck_new hq h hx) fun t => ?_
  simp only [Bool.not_true, Bool.false_eq_true, if_false, wp_bind, wp_mallocOk hq]
  refine (exfatOpendir_new (mounted_ticked hx _)).mono ?_
  rintro _ y ⟨rfl, hy⟩
  rw [if_neg (not_not.mpr rfl)]
  simp only [wp_bind]
  refine after_ret (children_new hy) fun t' => ?_
  simp only [dirckLoop, wp_pure, exfatClosedir]
  refine (exfatPutNode_new (mounted_ticked hy t') (by decide)).mono fun _ z hz => ?_
  refine after_ret (exfatFlushNode_new hz) fun t'' => ?_
  exact exfatPutNode_new (mounted_ticked hz t'') (by decide)

omit [Env] in
/-- `reset_cache` on a root without children and references. -/
theorem exfatResetCache_leaf (hn : w.nodes w.root = some n) (hc : n.child = none)
    (hr : n.references = 0) :
    Wp E exfatResetCache w fun _ v => v = w.setNode w.root { n with isCached := false } := by
  simp only [exfatResetCache, wp_bind, wp_get, resetCache, resetLoop, wp_getNode hn, hc, wp_pure,
    wp_modifyNode hn]
  refine (wp_getNode (World.setNode_self _ _ _)).mpr ?_
  simp only [hr, ne_eq, not_true, if_false, wp_bind, wp_get]
  rw [if_neg fun h => h.1 rfl]
  simp only [putAll, wp_bind]
  refine (wp_getNode (World.setNode_self _ _ _)).mpr ?_
  simp only [ne_eq, not_true, if_false]
  exact rfl

omit [Env] in
/-- `reset_cache` on the root of a new volume without references. -/
theorem exfatResetCache_new (hm : p.Mounted d label dir 0 w) :
    Wp E exfatResetCache w fun _ v => p.Held d label v := by
  refine (exfatResetCache_leaf (n := p.rootNode 0 true) (hm.root ▸ hm.node) rfl rfl).mono ?_
  rintro _ _ rfl
  exact ⟨hm.bare, hm.sb, hm.size, hm.clean, hm.bits, hm.upcase, hm.label, hm.errors⟩

/-- `exfat_unmount` leaves a new volume. -/
theorem exfatUnmount_new (hq : Env.Quiet) (hm : p.Mounted d label dir 1 w) :
    Wp E exfatUnmount w fun _ v => p.Bare d v.dev ∧ v.errors = 0 := by
  have hflush : Wp E exfatFlushNodes w (Ret .ok w) := by
    simp only [exfatFlushNodes, wp_bind, wp_get, hm.root, flushNodes]
    refine after_ret (children_new hm) fun t => ?_
    simp only [flushList, wp_pure, ne_eq, not_true, if_false]
    refine after_ret (exfatFlushNode_new (mounted_ticked hm t)) fun t' => ⟨rfl, t', rfl⟩
  have hbitmap : ∀ t, Wp E exfatFlush (w.ticked t) (Ret .ok (w.ticked t)) := by
    intro t
    simp only [exfatFlush, wp_bind, wp_get, World.ticked_cmap, hm.clean, Bool.false_eq_true,
      if_false]
    exact Ret.intro _ _
  simp only [exfatUnmount, wp_bind]
  refine after_ret hflush fun t => ?_
  refine after_ret (hbitmap t) fun t' => ?_
  simp only [wp_get, World.ticked_root, hm.root]
  refine (exfatPutNode_new (mounted_ticked hm t') (by decide)).mono fun _ x hx => ?_
  refine (exfatResetCache_new hx).mono fun _ y hy => ?_
  refine (finalizeSuperBlock_new hq hy).mono fun _ z hz => ?_
  simp only [exfatFree, wp_bind, wp_nextTick, hq.io, Bool.false_eq_true, if_false, wp_modify]
  exact ⟨hz.bare, hz.errors⟩

end

end Proofs

end Exfat
