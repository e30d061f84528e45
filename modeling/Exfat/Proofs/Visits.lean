import Exfat.Model.Tools
import Exfat.Proofs.NewMount

namespace Exfat
open Lib

/-! What new processes see of the volume that mkfs has made, in any number of visits. -/

/-- What `statfs` reports of a new volume. -/
def Param.newSpace (p : Param) : Statvfs :=
  let free := (initSb p).clusterCount - allocatedClusters p
  { bsize := p.clusterSize
    frsize := p.clusterSize
    blocks := p.volumeSize / p.sectorSize / 2 ^ p.spcBits
    bavail := free
    bfree := free
    namemax := exfatNameMax
    files := (initSb p).clusterCount
    favail := free / 2 ^ p.spcBits
    ffree := free }

/-- A mount, a look at the root directory, the space and the label, and the unmount. -/
def glance [Env] (options : List UInt8) (access : Access) :
    M (Option ((Rc × List Dirent) × Statvfs × List UInt8)) := do
  if (← exfatMount options) ≠ .ok then pure none
  else do
    let listing ← fuseExfatReaddir access [slash]
    let space ← fuseExfatStatfs
    let label := (← get).label
    fuseExfatDestroy
    pure (some (listing, space, label))

/-- The devices that new processes leave, each checking the volume or looking at it. -/
inductive Visited [Env] (d : Store) : Store → Prop where
  | start : Visited d d
  | check {e : Store} {fuel : Nat} {isatty : Bool} {flags : List FsckFlag} {stdin : List Answer}
      {t code : Nat} {v : World} (before : Visited d e)
      (run : exfatfsck fuel isatty flags (process e stdin t) = .ok (code, v)) : Visited d v.dev
  | look {e : Store} {options : List UInt8} {access : Access} {stdin : List Answer} {t : Nat}
      {seen : Option ((Rc × List Dirent) × Statvfs × List UInt8)} {v : World} (before : Visited d e)
      (run : glance options access (process e stdin t) = .ok (seen, v)) : Visited d v.dev

namespace Proofs

variable {E : Halt → Prop} {p : Param} {d : Store} {w : World} {dir : NodeId} {label : List UInt8}
  {r : Int}

section
variable [Env]

/-- The listing of the root directory of a new volume. -/
theorem fuseExfatReaddir_new (hm : p.Mounted d label dir 1 w) (access : Access) :
    Wp E (fuseExfatReaddir access [slash]) w fun listing v =>
      listing = (.ok, [([dot], none), ([dot, dot], none)]) ∧ p.Mounted d label dir 1 v := by
  have hchild : (p.rootNode (1 + 1 + 1) true).child = none := rfl
  simp only [fuseExfatReaddir, wp_bind]
  refine (exfatLookup_new hm rfl).mono ?_
  rintro _ x ⟨rfl, hx⟩
  simp only [wp_bind, wp_getNode hx.node, rootNode_isDir, Bool.not_true, Bool.false_eq_true,
    if_false]
  refine (exfatOpendir_new hx).mono ?_
  rintro _ y ⟨rfl, hy⟩
  rw [if_neg (not_not.mpr rfl)]
  simp only [wp_bind, wp_get, fillLoop, exfatReaddir, wp_getNode hy.node, hchild, wp_pure,
    exfatClosedir]
  refine (exfatPutNode_new hy (by decide)).mono fun _ z hz => ?_
  exact (exfatPutNode_new hz (by decide)).mono fun _ u hu => ⟨rfl, hu⟩

omit [Env] in
theorem fuseExfatStatfs_new (h : p.Accepted) (hm : p.Mounted d label dir r w) :
    Wp E fuseExfatStatfs w (Ret p.newSpace w) := by
  obtain ⟨state, percent, -, -, hsb⟩ := hm.sb
  simp only [fuseExfatStatfs, wp_bind, wp_get]
  refine after_ret (countFree_new h hm) fun t => ⟨?_, t, rfl⟩
  rw [hsb]
  rfl

/-- Looking at a new volume. -/
theorem glance_new (hh : p.Hosted) (h : p.Accepted) (hn : p.Narrow)
    (h25 : p.sectorBits + p.spcBits ≤ 25) (hl : p.Labelled label) {e : Store} (hb : p.Bare d e)
    (options : List UInt8) (access : Access) (stdin : List Answer) (t : Nat) :
    Wp E (glance options access) (process e stdin t) fun seen v =>
      seen = some ((.ok, [([dot], none), ([dot, dot], none)]), p.newSpace, label) ∧
        p.Bare d v.dev ∧ v.errors = 0 := by
  simp only [glance, wp_bind]
  refine (exfatMount_new hh h hn h25 hl hb options stdin t).mono ?_
  rintro _ x ⟨rfl, dir, hx⟩
  rw [if_neg (not_not.mpr rfl)]
  simp only [wp_bind]
  refine (fuseExfatReaddir_new hx access).mono ?_
  rintro _ y ⟨rfl, hy⟩
  refine after_ret (fuseExfatStatfs_new h hy) fun t' => ?_
  simp only [wp_get, fuseExfatDestroy]
  refine (exfatUnmount_new hh.quiet (mounted_ticked hy t')).mono fun _ z hz => ⟨?_, hz⟩
  rw [← hy.label]
  rfl

/-- Checking a new volume. -/
theorem exfatfsck_new (hh : p.Hosted) (h : p.Accepted) (hn : p.Narrow)
    (h25 : p.sectorBits + p.spcBits ≤ 25) (hl : p.Labelled label) {e : Store} (hb : p.Bare d e)
    {fuel : Nat} (hf : 0 < fuel ∨ E .fuel) (isatty : Bool) (flags : List FsckFlag)
    (stdin : List Answer) (t : Nat) :
    Wp E (exfatfsck fuel isatty flags) (process e stdin t) fun code v =>
      code = 0 ∧ p.Bare d v.dev := by
  simp only [exfatfsck, fsck, wp_bind]
  refine (exfatMount_new hh h hn h25 hl hb _ stdin t).mono ?_
  rintro _ x ⟨rfl, dir, hx⟩
  rw [if_neg (not_not.mpr rfl)]
  simp only [wp_bind]
  refine after_ret (countFree_new h hx) fun t' => ?_
  cases fuel with
  | zero => exact hf.resolve_left (Nat.lt_irrefl 0)
  | succ fuel =>
    refine (dirck_new hh.quiet h (mounted_ticked hx t') fuel).mono fun _ y hy => ?_
    refine (exfatUnmount_new hh.quiet hy).mono fun _ z hz => ?_
    simp only [wp_pure, wp_get, hz.2]
    exact ⟨rfl, hz.1⟩

/-- Visits leave a new volume. -/
theorem visited_bare (hh : p.Hosted) (h : p.Accepted) (hn : p.Narrow)
    (h25 : p.sectorBits + p.spcBits ≤ 25) (hl : p.Labelled label) {e e' : Store} (hb : p.Bare d e)
    (hv : Visited e e') : p.Bare d e' := by
  induction hv with
  | start => exact hb
  | check _ run ih =>
    exact ((exfatfsck_new (E := fun _ => True) hh h hn h25 hl ih (.inr trivial) _ _ _ _).run run).2
  | look _ run ih =>
    exact ((glance_new (E := fun _ => True) hh h hn h25 hl ih _ _ _ _).run run).2.1

omit [Env] in
/-- Two states of one new volume differ in the mount state and the percentage only. -/
theorem bare_fixed {e e' : Store} (h : p.Accepted) (hn : p.Narrow) (he : p.Bare d e)
    (he' : p.Bare d e') {i : Nat} (hi : Fixed i) : e' i = e i := by
  have hl := initSb_length p
  have hboot : ∀ f : Store, p.Bare d f → i < 512 → f i = (initSb p).toBytes.getD i 0 := by
    intro f hf hlt
    obtain ⟨state, percent, -, -, hread⟩ := hf.boot
    have hnew := toBytes_getD hl state percent hi
    rw [ofBytes_initSb h hn, ← hread, Store.read_getD _ hlt, Nat.zero_add] at hnew
    exact hnew
  by_cases hlt : i < 512
  · rw [hboot e' he' hlt, hboot e he hlt]
  · rw [he'.rest i (Nat.le_of_not_lt hlt), he.rest i (Nat.le_of_not_lt hlt)]

omit [Env] in
/-- The zeros behind a name do not count. -/
theorem utf16Length_zeros (units : List Nat) (k : Nat) :
    utf16Length (units ++ List.replicate k 0) = utf16Length units := by
  induction units with
  | nil => cases k <;> simp [utf16Length, List.replicate_succ]
  | cons a units ih =>
    simp only [utf16Length, List.cons_append, List.takeWhile_cons] at ih ⊢
    split
    · rw [List.length_cons, List.length_cons, ih]
    · rfl

omit [Env] in
/-- The units that are stored for a label. -/
theorem take_label {units : List Nat} (hl : units.length ≤ exfatEnameMax) :
    (units ++ List.replicate (exfatEnameMax + 1 - units.length) 0).take exfatEnameMax =
      labelUnits units := by
  obtain ⟨k, hk⟩ := Nat.exists_eq_add_of_le hl
  rw [labelUnits, hk, List.take_length_add_append, List.take_replicate]
  congr 2
  omega

omit [Env] in
/-- The units of a label fill their array. -/
theorem stored_of_units {s : List UInt8} {units : List Nat}
    (hs : utf8ToUtf16 s (exfatEnameMax + 1) = .ok units)
    (hp : p.volumeLabel = units ++ List.replicate (exfatEnameMax + 1 - units.length) 0) :
    p.Stored := by
  have hl : units.length ≤ exfatEnameMax := Nat.le_of_lt_succ (utf8ToUtf16_length hs)
  refine ⟨?_, fun u hm => ?_, ?_⟩
  · rw [hp, List.length_append, List.length_replicate]
    omega
  · rw [hp] at hm
    rcases List.mem_append.mp hm with hm | hm
    · obtain ⟨ds, -, rfl, -⟩ := utf8ToUtf16_ok.mp hs
      exact flatMap_toUtf16_lt hm
    · rw [List.eq_of_mem_replicate hm]
      norm_num
  · rw [hp, utf16Length_zeros]
    exact (List.takeWhile_sublist _).length_le.trans hl

/-- A well-formed label is stored so that it is read back. -/
theorem labelled_of_units {s : List UInt8} {units : List Nat}
    (hs : utf8ToUtf16 s (exfatEnameMax + 1) = .ok units)
    (hp : p.volumeLabel = units ++ List.replicate (exfatEnameMax + 1 - units.length) 0)
    (hw : WellFormed s) : p.Labelled s := by
  have hl : units.length ≤ exfatEnameMax := Nat.le_of_lt_succ (utf8ToUtf16_length hs)
  have hu : ∀ u ∈ units, u < 0x10000 := by
    obtain ⟨ds, -, rfl, -⟩ := utf8ToUtf16_ok.mp hs
    exact fun u hm => flatMap_toUtf16_lt hm
  obtain ⟨-, x, hx, hlabel⟩ := (@label_decodes_iff { dev := fun _ => 0 } 0 0 _ _ _ hs rfl).mpr hw
  rw [readdirOther_label hl hu] at hx
  refine ⟨stored_of_units hs hp, ?_⟩
  rw [hp, utf16Length_zeros, take_label hl]
  split at hx
  · rename_i h0
    rw [if_pos h0, ← hlabel, hx]
  · rename_i h0
    obtain ⟨decoded, hdecoded, rfl⟩ := hx
    obtain rfl : decoded = s := hlabel
    rw [if_neg h0, hdecoded]

/-- The label that `setup_volume_label` stores is read back if it is well-formed. -/
theorem labelled_of_setup {text : Option (List UInt8)} {v : World}
    (hset : setupVolumeLabel text w = .ok (some p.volumeLabel, v))
    (hw : ∀ s, text = some s → WellFormed s) : p.Labelled (text.getD []) := by
  cases text with
  | none =>
    have hp : List.replicate (exfatEnameMax + 1) 0 = p.volumeLabel :=
      Option.some.inj (Prod.mk.inj (Except.ok.inj hset)).1
    have hnil : utf8ToUtf16 [] (exfatEnameMax + 1) = .ok [] := rfl
    exact labelled_of_units hnil hp.symm ⟨[], by simp, rfl⟩
  | some s =>
    simp only [setupVolumeLabel, nameToUtf16] at hset
    cases hs : utf8ToUtf16 s (exfatEnameMax + 1) with
    | error er =>
      rw [hs] at hset
      cases hset
    | ok units =>
      rw [hs] at hset
      have hp := Option.some.inj (Prod.mk.inj (Except.ok.inj hset)).1
      exact labelled_of_units hs hp.symm (hw s rfl)

/-- What mkfs has made is checked without an error, mounted with any options, and seen as an empty
root directory with the label and all the space that mkfs left free, after any number of such
visits; and all that they change are the mount state and the percentage in the super block. -/
theorem new_volume_visits {text : Option (List UInt8)} {x v u : World} (hh : p.Hosted)
    (h : p.Accepted) (hn : p.Narrow) (h25 : p.sectorBits + p.spcBits ≤ 25)
    (hset : setupVolumeLabel text x = .ok (some p.volumeLabel, u))
    (hw : ∀ s, text = some s → WellFormed s) (hrun : mkfs p w = .ok (true, v)) {e : Store}
    (hv : Visited v.dev e) :
    (∀ i, Fixed i → e i = v.dev i) ∧
    (∀ fuel isatty flags stdin t, ∃ y,
      exfatfsck (fuel + 1) isatty flags (process e stdin t) = .ok (0, y)) ∧
    ∀ options access stdin t, ∃ y, glance options access (process e stdin t) =
      .ok (some ((.ok, [([dot], none), ([dot, dot], none)]), p.newSpace, text.getD []), y) ∧
        y.errors = 0 := by
  have hl := labelled_of_setup hset hw
  obtain ⟨t, rfl⟩ := ((mkfs_done (E := fun _ => True) h).run hrun).1 rfl
  have hstart : p.Bare w.dev (p.formatted w.dev) := bare_formatted h
  have hb : p.Bare w.dev e := visited_bare hh h hn h25 hl hstart hv
  refine ⟨fun i hi => bare_fixed h hn hstart hb hi, fun fuel isatty flags stdin t => ?_,
    fun options access stdin t => ?_⟩
  · obtain ⟨code, y, hy, rfl, -⟩ := (exfatfsck_new (E := fun _ => False) hh h hn h25 hl hb
      (.inl fuel.succ_pos) isatty flags stdin t).returns
    exact ⟨y, hy⟩
  · obtain ⟨seen, y, hy, rfl, -, he⟩ := (glance_new (E := fun _ => False) hh h hn h25 hl hb options
      access stdin t).returns
    exact ⟨y, hy, he⟩

omit [Env] in
/-- A volume of one megabyte with the label `A`. -/
def letterVolume : Param := { megabyte with volumeLabel := 0x41 :: List.replicate 15 0 }

omit [Env] in
theorem letterVolume_accepted : letterVolume.Accepted where
  sector := rfl
  spc := ⟨none, { dev := fun _ => 0 }, { dev := fun _ => 0 }, rfl⟩
  room := by
    simp only [endPosition, objects, FsObject.size, upcaseTable_length]
    decide +kernel

omit [Env] in
theorem new_volume_visits_letter :
    ∃ v, @mkfs calmEnv letterVolume { dev := fun _ => 0xff } = .ok (true, v) ∧
      ∀ e, @Visited calmEnv v.dev e →
        (∀ i, Fixed i → e i = v.dev i) ∧
        (∀ fuel isatty flags stdin t, ∃ y,
          @exfatfsck calmEnv (fuel + 1) isatty flags (process e stdin t) = .ok (0, y)) ∧
        ∀ options access stdin t, ∃ y, @glance calmEnv options access (process e stdin t) =
          .ok (some ((.ok, [([dot], none), ([dot, dot], none)]), letterVolume.newSpace,
            (some [0x41]).getD []), y) ∧ y.errors = 0 := by
  let _ := calmEnv
  obtain ⟨v, hrun, -⟩ := mkfs_succeeds calmEnv_quiet letterVolume_accepted { dev := fun _ => 0xff }
  have hset : setupVolumeLabel (some [0x41]) { dev := fun _ => 0 } =
      .ok (some letterVolume.volumeLabel, { dev := fun _ => 0 }) := rfl
  have hwell : ∀ s, some [0x41] = some s → WellFormed s := by
    rintro _ ⟨⟩
    exact ⟨[0x41], by simp [Plain, isHigh], by decide +kernel⟩
  exact ⟨v, hrun, fun e hv => new_volume_visits ⟨calmEnv_quiet, rfl, rfl, rfl⟩ letterVolume_accepted
    ⟨by decide, by decide⟩ (by decide) hset hwell hrun hv⟩

end

end Proofs

end Exfat
