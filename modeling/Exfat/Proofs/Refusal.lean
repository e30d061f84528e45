import Exfat.Proofs.Visits

namespace Exfat
open Lib

/-! Which of the volumes that mkfs makes are mounted at all. -/

/-- A mount that failed and left the device as it was. -/
def Refused (e : Store) (rc : Rc) (v : World) : Prop := rc ≠ .ok ∧ v.dev = e

/-- Clusters of at most 32 MiB, and every high surrogate of the label followed by a low one. -/
def Param.Mountable (p : Param) (text : Option (List UInt8)) : Prop :=
  p.sectorBits + p.spcBits ≤ 25 ∧ ∀ s, text = some s → Paired ((characters s).getD []) = true

namespace Proofs

variable {E : Halt → Prop} {p : Param} {d : Store} {w : World} {n : Node} {dir : NodeId} {off : Nat}

section
variable [Env]

theorem exfatFree_quiet (hq : Env.Quiet) : Wp E exfatFree w fun _ v => v.dev = w.dev := by
  simp only [exfatFree, wp_bind, wp_nextTick, hq.io, Bool.false_eq_true, if_false, wp_modify]
  trivial

theorem mountFail_refuses (hq : Env.Quiet) (format : String) (e : Errno) :
    Wp E (mountFail format e) w (Refused w.dev) := by
  simp only [mountFail, exfatError, wp_bind, wp_modify]
  refine (exfatFree_quiet hq).mono fun _ v hv => ?_
  rw [wp_pure]
  exact ⟨by simp, hv⟩

/-- The checks of `exfat_mount` stop a volume with bigger clusters. -/
theorem mountChecks_big (hq : Env.Quiet) (h : p.Accepted) (h25 : ¬p.sectorBits + p.spcBits ≤ 25)
    (hw : p.Ready d w) : Wp E mountChecks w (Refused w.dev) := by
  obtain ⟨state, percent, -, -, hsb⟩ := hw.sb
  have hname : w.sb.oemName = bytesOf "EXFAT   " := congrArg _ hsb
  have hsector : w.sb.sectorBits = p.sectorBits := congrArg _ hsb
  have hspc : w.sb.spcBits = p.spcBits := congrArg _ hsb
  simp only [mountChecks, wp_bind, wp_get]
  rw [if_neg (not_not.mpr hname), hsector, if_neg (by rw [h.sector]; decide), hspc,
    if_pos (Nat.lt_of_not_le h25)]
  exact mountFail_refuses hq _ _

omit [Env] in
/-- Some text is made of the label exactly if its units can be read. -/
theorem labelled_iff_isSome (hs : p.Stored) :
    (∃ label, p.Labelled label) ↔ (ofUtf16 (p.volumeLabel.take exfatEnameMax)).isSome = true := by
  have hlt : ∀ u ∈ p.volumeLabel.take exfatEnameMax, u < 0x10000 :=
    fun u hu => hs.units u (List.mem_of_mem_take hu)
  have htake : (p.volumeLabel.take exfatEnameMax).take exfatEnameMax =
      p.volumeLabel.take exfatEnameMax := by
    rw [List.take_take, Nat.min_self]
  have hlen : (p.volumeLabel.take exfatEnameMax).length = exfatEnameMax := newLabel_length hs
  generalize hunits : p.volumeLabel.take exfatEnameMax = units at hlt htake hlen
  have hzero := newLabel_utf16Length hs
  rw [hunits, utf16Length] at hzero
  constructor
  · rintro ⟨label, hl⟩
    have hreads := hl.reads
    split at hreads
    · rename_i h0
      rw [h0, List.length_eq_zero_iff] at hzero
      rw [← ofUtf16_takeWhile, hzero]
      rfl
    · rw [hunits] at hreads
      obtain ⟨cs, hcs, -⟩ := (utf16ToUtf8_ok hlt).mp hreads
      rw [← htake, hcs]
      rfl
  · intro hsome
    obtain ⟨cs, hcs⟩ := Option.isSome_iff_exists.mp hsome
    refine ⟨if utf16Length p.volumeLabel = 0 then [] else cs.flatMap toUtf8, hs, ?_⟩
    split
    · rfl
    · rw [hunits]
      refine (utf16ToUtf8_ok hlt).mpr ⟨cs, by rw [htake, hcs], rfl, ?_⟩
      have hbytes := flatMap_toUtf8_length_le cs
      rw [toUtf16_ofUtf16 hcs hlt] at hbytes
      have hwhile : (units.takeWhile (· ≠ 0)).length ≤ units.length :=
        (List.takeWhile_sublist _).length_le
      rw [hlen] at hwhile
      simp only [exfatEnameMax, exfatUtf8EnameBufferMax] at hwhile ⊢
      omega

omit [Env] in
/-- The units that encode characters can be read exactly if their surrogates are paired. -/
theorem labelUnits_isSome {s : List UInt8} {cs : List Nat} (hcs : characters s = some cs) :
    (ofUtf16 (labelUnits (cs.flatMap toUtf16))).isSome = Paired cs := by
  have hunits : (ofUtf16 (cs.flatMap toUtf16)).isSome = Paired cs := by
    -- the zero that may end the characters is a terminator
    obtain ⟨ds, hd, rfl | rfl⟩ := wchars_zero hcs
    · exact ofUtf16_isSome hd
    · rw [List.flatMap_append, List.flatMap_singleton, toUtf16_narrow (by decide),
        ofUtf16_terminated, paired_terminated, ofUtf16_isSome hd]
  rw [← hunits, labelUnits]
  cases exfatEnameMax - (cs.flatMap toUtf16).length with
  | zero => rw [List.replicate_zero, List.append_nil]
  | succ k => rw [List.replicate_succ, ofUtf16_terminated]

/-- The label that `setup_volume_label` stores, and when some text is made of it. -/
theorem labelled_iff_paired {text : Option (List UInt8)} {v : World}
    (hset : setupVolumeLabel text w = .ok (some p.volumeLabel, v)) :
    p.Stored ∧ ((∃ label, p.Labelled label) ↔
      ∀ s, text = some s → Paired ((characters s).getD []) = true) := by
  cases text with
  | none =>
    have hp := labelled_of_setup hset fun s hs => by cases hs
    refine ⟨hp.toStored, ⟨fun _ s hs => ?_, fun _ => ⟨_, hp⟩⟩⟩
    cases hs
  | some s =>
    simp only [setupVolumeLabel, nameToUtf16] at hset
    cases hs : utf8ToUtf16 s (exfatEnameMax + 1) with
    | error er =>
      rw [hs] at hset
      cases hset
    | ok units =>
      rw [hs] at hset
      have hp := (Option.some.inj (Prod.mk.inj (Except.ok.inj hset)).1).symm
      have hstored := stored_of_units hs hp
      refine ⟨hstored, (labelled_iff_isSome hstored).trans ?_⟩
      obtain ⟨cs, hcs, rfl, hl⟩ := utf8ToUtf16_ok.mp hs
      rw [hp, take_label (Nat.le_of_lt_succ hl), labelUnits_isSome hcs]
      constructor
      · rintro h _ ⟨⟩
        rwa [hcs]
      · intro h
        have hpaired := h s rfl
        rwa [hcs] at hpaired

/-- `readdir` stops at a label that no text can be made of. -/
theorem readdirOther_unreadable (hs : p.Stored) (hl : ¬∃ label, p.Labelled label) :
    Wp E (readdirOther dir (initLabelEntry p) off) w fun rc v =>
      rc = .err .eio ∧ v.dev = w.dev ∧ v.root = w.root ∧ v.nodes = w.nodes := by
  have h0 : utf16Length p.volumeLabel ≠ 0 := fun h0 => hl ⟨[], hs, by rw [if_pos h0]⟩
  have htype : entryType (initLabelEntry p) 0 = exfatEntryLabel := by
    rw [initLabelEntry_type, if_neg h0]
  have hnot : ∀ x, readdirOther dir (initLabelEntry p) off w ≠ .ok (.ok, x) := by
    intro x hx
    rw [initLabelEntry_eq hs h0, readdirOther_label (newLabel_length hs).le
      fun u hu => hs.units u (List.mem_of_mem_take hu), newLabel_utf16Length hs, if_neg h0,
      newLabel_units hs] at hx
    obtain ⟨label, hlabel, -⟩ := hx
    exact hl ⟨label, hs, by rw [if_neg h0, hlabel]⟩
  rw [readdirOther, htype, if_neg (by decide), if_neg (by decide), if_pos rfl, readdirLabel]
    at hnot ⊢
  dsimp only at hnot ⊢
  split
  · simp only [exfatError, wp_bind, wp_modify, wp_pure, and_self]
  · rename_i hshort
    rw [if_neg hshort] at hnot
    split
    · simp only [exfatError, wp_bind, wp_modify, wp_pure]
      exact ⟨trivial, rfl, rfl, rfl⟩
    · rename_i hdecodes
      rw [hdecodes] at hnot
      exact absurd rfl (hnot _)

/-- `exfat_cache_directory` fails on the root directory with such a label. -/
theorem exfatCacheDirectory_unreadable {r : Int} (hq : Env.Quiet) (h : p.Accepted) (hs : p.Stored)
    (hl : ¬∃ label, p.Labelled label) (hw : p.Ready d w)
    (hn : w.nodes dir = some (p.rootNode r false)) :
    Wp E (exfatCacheDirectory dir) w fun rc v => rc = .err .eio ∧ v.dev = w.dev ∧
      v.root = w.root ∧ v.nodes dir = some (p.rootNode r false) := by
  obtain ⟨state, percent, -, -, hsb⟩ := hw.sb
  have hentry : Wp E (readEntries dir 1 0) w (Ret (.ok (initLabelEntry p)) w) := by
    have hroom : 0 + entrySize ≤ p.clusterSize := by
      have hpow : 0 < 2 ^ p.spcBits := by positivity
      rw [clusterSize_eq h.sector, entrySize]
      omega
    have hread : Wp E (readEntries dir 1 0) w _ := readEntries_root hq h hsb hn hroom
    rwa [Nat.add_zero, (rootdir_entries h hw.bare hs.size).1] at hread
  have hfile : entryType (initLabelEntry p) 0 ≠ exfatEntryFile := by
    rw [initLabelEntry_type]
    split <;> decide
  have hcached : (p.rootNode r false).isCached = false := rfl
  have hchild : (p.rootNode r false).child = none := rfl
  have hdir : ∀ fuel, Wp E (readdir dir (fuel + 1) 0) w fun res v =>
      res = .error .eio ∧ v.dev = w.dev ∧ v.root = w.root ∧ v.nodes = w.nodes := by
    intro fuel
    simp only [readdir, wp_bind]
    refine after_ret hentry fun t => ?_
    simp only [if_neg hfile, wp_bind]
    refine (readdirOther_unreadable (w := w.ticked t) hs hl).mono ?_
    rintro _ v ⟨rfl, hsame⟩
    exact ⟨rfl, hsame⟩
  simp only [exfatCacheDirectory, dirFuel, wp_bind, wp_getNode hn, hcached, Bool.false_eq_true,
    if_false, wp_pure, cacheLoop]
  refine (hdir _).mono ?_
  rintro _ v ⟨rfl, hdev, hroot, hnodes⟩
  have hnode : v.nodes dir = some (p.rootNode r false) := (congrFun hnodes dir).trans hn
  simp only [wp_pure, ne_eq, reduceCtorEq, not_false_eq_true, if_true, children, wp_bind,
    wp_getNode hnode, wp_get, hchild, siblings, freeNodes]
  refine (wp_modifyNode hnode).mpr ?_
  exact ⟨trivial, hdev, hroot, World.setNode_self _ _ _⟩

/-- The end of `exfat_mount` on a volume with such a label. -/
theorem mountRoot_unreadable (hq : Env.Quiet) (h : p.Accepted) (hs : p.Stored)
    (hl : ¬∃ label, p.Labelled label) (hw : p.Ready d w)
    (hn : w.nodes w.root = some (p.rootNode 0 false)) : Wp E mountRoot w (Refused w.dev) := by
  have hready : p.Ready d (w.setNode w.root (p.rootNode 1 false)) :=
    ⟨hw.bare, hw.sb, hw.upcase, hw.label, hw.clean, hw.errors⟩
  simp only [mountRoot, exfatGetNode, wp_bind, wp_get, wp_modifyNode hn]
  refine (exfatCacheDirectory_unreadable hq h hs hl hready (World.setNode_self _ _ _)).mono ?_
  rintro _ x ⟨rfl, hdev, hroot, hnode⟩
  change x.root = w.root at hroot
  rw [← hroot] at hnode ⊢
  simp only [mountFinish, ne_eq, reduceCtorEq, not_false_eq_true, if_true, wp_pure,
    Bool.false_eq_true, if_false, wp_bind]
  refine (exfatPutNode_root hnode Int.one_pos).mono ?_
  rintro _ _ rfl
  refine (exfatResetCache_leaf (World.setNode_self _ _ _) rfl rfl).mono ?_
  rintro _ _ rfl
  refine (exfatFree_quiet hq).mono fun _ v hv => ⟨by decide, hv.trans hdev⟩

/-- `exfat_mount` on a volume that is not mountable. -/
theorem exfatMount_refuses (hh : p.Hosted) (h : p.Accepted) (hn : p.Narrow) (hs : p.Stored)
    (hnot : ¬(p.sectorBits + p.spcBits ≤ 25 ∧ ∃ label, p.Labelled label)) {e : Store}
    (hb : p.Bare d e) (options : List UInt8) (stdin : List Answer) (t : Nat) :
    Wp E (exfatMount options) (process e stdin t) (Refused e) := by
  refine exfatMount_enters hh h hn hb options stdin t fun x hx hdev => ?_
  rw [← hdev]
  by_cases h25 : p.sectorBits + p.spcBits ≤ 25
  · refine mountChecks_enters hh h hn h25 hx fun y hy hsame hroot => ?_
    rw [← hsame]
    exact mountRoot_unreadable hh.quiet h hs (fun hl => hnot ⟨h25, hl⟩) hy hroot
  · exact mountChecks_big hh.quiet h h25 hx

/-- Visits leave a volume alone that is not mountable. -/
theorem visited_refused (hh : p.Hosted) (h : p.Accepted) (hn : p.Narrow) (hs : p.Stored)
    (hnot : ¬(p.sectorBits + p.spcBits ≤ 25 ∧ ∃ label, p.Labelled label)) {e e' : Store}
    (hb : p.Bare d e) (hv : Visited e e') : e' = e := by
  have hmount := exfatMount_refuses (E := fun _ => True) hh h hn hs hnot hb
  induction hv with
  | start => rfl
  | @check _ fuel isatty flags stdin t code v _ run ih =>
    subst ih
    simp only [exfatfsck, fsck, bind_assoc] at run
    obtain ⟨rc, x, hx, hrest⟩ := bind_returns run
    have hrefused := (hmount _ stdin t).run hx
    rw [if_pos hrefused.1] at hrest
    cases hrest
    exact hrefused.2
  | @look _ options access stdin t seen v _ run ih =>
    subst ih
    simp only [glance] at run
    obtain ⟨rc, x, hx, hrest⟩ := bind_returns run
    have hrefused := (hmount _ stdin t).run hx
    rw [if_pos hrefused.1] at hrest
    cases hrest
    exact hrefused.2

/-- After any number of visits, what mkfs has made is mounted exactly if it is mountable, and a
mount that fails changes nothing. -/
theorem new_volume_mounts_iff {text : Option (List UInt8)} {x v u : World} (hh : p.Hosted)
    (h : p.Accepted) (hn : p.Narrow) (hset : setupVolumeLabel text x = .ok (some p.volumeLabel, u))
    (hrun : mkfs p w = .ok (true, v)) {e : Store} (hv : Visited v.dev e) (options : List UInt8)
    (stdin : List Answer) (t : Nat) :
    ∃ rc y, exfatMount options (process e stdin t) = .ok (rc, y) ∧ (rc = .ok ↔ p.Mountable text) ∧
      (rc ≠ .ok → e = v.dev ∧ y.dev = e) := by
  obtain ⟨hs, hiff⟩ := labelled_iff_paired hset
  obtain ⟨t', rfl⟩ := ((mkfs_done (E := fun _ => True) h).run hrun).1 rfl
  have hstart : p.Bare w.dev (p.formatted w.dev) := bare_formatted h
  by_cases hcan : p.sectorBits + p.spcBits ≤ 25 ∧ ∃ label, p.Labelled label
  · obtain ⟨h25, label, hl⟩ := hcan
    have hb : p.Bare w.dev e := visited_bare hh h hn h25 hl hstart hv
    obtain ⟨rc, y, hy, rfl, -⟩ :=
      (exfatMount_new (E := fun _ => False) hh h hn h25 hl hb options stdin t).returns
    exact ⟨.ok, y, hy, iff_of_true rfl ⟨h25, hiff.mp ⟨label, hl⟩⟩, fun hne => absurd rfl hne⟩
  · have hsame : e = p.formatted w.dev := visited_refused hh h hn hs hcan hstart hv
    obtain ⟨rc, y, hy, hne, hdev⟩ := (exfatMount_refuses (E := fun _ => False) hh h hn hs hcan
      (hsame ▸ hstart) options stdin t).returns
    exact ⟨rc, y, hy, iff_of_false hne fun hm => hcan ⟨hm.1, hiff.mpr hm.2⟩, fun _ => ⟨hsame, hdev⟩⟩

omit [Env] in
theorem new_volume_mounts_iff_letter :
    ∃ v, @mkfs calmEnv letterVolume { dev := fun _ => 0xff } = .ok (true, v) ∧
      ∀ e options stdin t, @Visited calmEnv v.dev e → ∃ rc y,
        @exfatMount calmEnv options (process e stdin t) = .ok (rc, y) ∧
          (rc = .ok ↔ letterVolume.Mountable (some [0x41])) ∧
            (rc ≠ .ok → e = v.dev ∧ y.dev = e) := by
  let _ := calmEnv
  obtain ⟨v, hrun, -⟩ := mkfs_succeeds calmEnv_quiet letterVolume_accepted { dev := fun _ => 0xff }
  have hset : setupVolumeLabel (some [0x41]) { dev := fun _ => 0 } =
      .ok (some letterVolume.volumeLabel, { dev := fun _ => 0 }) := rfl
  exact ⟨v, hrun, fun e options stdin t hv => new_volume_mounts_iff ⟨calmEnv_quiet, rfl, rfl, rfl⟩
    letterVolume_accepted ⟨by decide, by decide⟩ hset hrun hv options stdin t⟩

end

end Proofs

end Exfat
