import Exfat.Proofs.Cache
import Exfat.Proofs.Parse

namespace Exfat
open Lib

/-! What the clusters of a directory list, and how `exfat_cache_directory` reads it. -/

/-- The world with one more node. -/
def World.spawn (w : World) (n : Node) : World :=
  { w.setNode w.fresh n with fresh := w.fresh + 1 }

namespace Proofs

variable [Env] {E : Halt → Prop} {w v x : World} {n m : Node} {dir : NodeId} {off : Nat}
  {L : List Nat}

/-- An entry that `readdir` passes over, once there is an upper case table. -/
inductive Passes (sb : SuperBlock) (entry : List UInt8) : Prop
  | upcase (h : entryType entry 0 = exfatEntryUpcase)
  | bitmap (h : entryType entry 0 = exfatEntryBitmap)
      (start : sb.clusterInvalid (leAt entry 20 4) = false)
      (size : (sb.clusterCount + 8 - 1) % 2 ^ 32 / 8 ≤ leAt entry 24 8)
  | label {label : List UInt8} (h : entryType entry 0 = exfatEntryLabel)
      (short : leAt entry 1 1 ≤ exfatEnameMax)
      (text : utf16ToUtf8 (le16s exfatEnameMax (entry.drop 2)) exfatUtf8EnameBufferMax exfatEnameMax =
        .ok label)
  | deleted (h : entryType entry 0 &&& exfatEntryValid = 0)

/-- The file sets that a directory holds from an offset on: where each starts, and its bytes. -/
inductive Lists (sb : SuperBlock) (dev : Store) (L : List Nat) (size : Nat) :
    Nat → List (Nat × List UInt8) → Prop
  | stop {off : Nat} (h : size ≤ off) : Lists sb dev L size off []
  | pass {off : Nat} {sets : List (Nat × List UInt8)} (room : off + entrySize ≤ size)
      (h : Passes sb (fileData sb dev L off entrySize))
      (rest : Lists sb dev L size (off + entrySize) sets) : Lists sb dev L size off sets
  | file {off k : Nat} {sets : List (Nat × List UInt8)} (room : off + entrySize * k ≤ size)
      (h : entryType (fileData sb dev L off entrySize) 0 = exfatEntryFile)
      (count : k = 1 + leAt (fileData sb dev L off entrySize) 1 1)
      (ok : SetOk sb (fileData sb dev L off (entrySize * k)) k)
      (sum : leAt (fileData sb dev L off (entrySize * k)) 2 2 =
        exfatCalcChecksum (fileData sb dev L off (entrySize * k)))
      (rest : Lists sb dev L size (off + entrySize * k) sets) :
      Lists sb dev L size off ((off, fileData sb dev L off (entrySize * k)) :: sets)

/-- The node that `parse_file_entry` makes of a set. -/
def listed (s : Nat × List UInt8) : Node := parsed s.2 { entryOffset := s.1, name := padName [] }

/-- Reading a directory moved its file pointer along its chain and changed no other node. -/
structure Scans (dir : NodeId) (n : Node) (L : List Nat) (w v : World) : Prop where
  node : ∃ k c, v.nodes dir = some (n.seek k c) ∧ Chained w.sb w.dev (n.seek k c) L
  others : ∀ i, i ≠ dir → v.nodes i = w.nodes i
  dev : v.dev = w.dev
  sb : v.sb = w.sb
  fresh : v.fresh = w.fresh
  root : v.root = w.root
  upcase : v.upcase = w.upcase

omit [Env] in
theorem Scans.refl (hn : w.nodes dir = some n) (hc : Chained w.sb w.dev n L) :
    Scans dir n L w w :=
  ⟨⟨n.fptrIndex, n.fptrCluster, hn, hc⟩, fun _ _ => rfl, rfl, rfl, rfl, rfl, rfl⟩

omit [Env] in
theorem Scans.trans {k c : Nat} (h : Scans dir n L w v) (h' : Scans dir (n.seek k c) L v x) :
    Scans dir n L w x := by
  obtain ⟨j, d, hx, hc⟩ := h'.node
  rw [h.sb, h.dev] at hc
  exact ⟨⟨j, d, hx, hc⟩, fun i hi => (h'.others i hi).trans (h.others i hi), h'.dev.trans h.dev,
    h'.sb.trans h.sb, h'.fresh.trans h.fresh, h'.root.trans h.root, h'.upcase.trans h.upcase⟩

/-- Whole entries inside a directory are read as they are. -/
theorem readEntries_reads (hq : Env.Quiet) (hg : Geometry w.sb) (hn : w.nodes dir = some n)
    (hd : n.isDir = true) (hc : Chained w.sb w.dev n L) (hs : n.size ≤ L.length * w.sb.clusterSize)
    {k : Nat} (hk : 0 < k) (ho : off + entrySize * k ≤ n.size) :
    Wp E (readEntries dir k off) w fun r v =>
      r = .ok (fileData w.sb w.dev L off (entrySize * k)) ∧ Scans dir n L w v := by
  simp only [entrySize] at ho ⊢
  have hoff : off < n.size := by omega
  have hin : off < L.length * w.sb.clusterSize := hoff.trans_le hs
  obtain ⟨c, hk', -⟩ := exists_cluster hin
  simp only [readEntries, wp_bind, wp_getNode hn, hd, Bool.not_true, Bool.false_eq_true, if_false,
    entrySize]
  refine after_ret (exfatGenericPread_dir hq hg.count hn hd hc hs hoff (by omega) hk') fun t => ?_
  have hmin : min (32 * k) (n.size - off) = 32 * k := by omega
  simp only [hmin, fileData_length, if_true, wp_pure]
  exact ⟨trivial, ⟨_, _, World.setNode_self _ _ _, hc.advanced hk'⟩,
    fun i hi => World.setNode_ne _ _ hi, rfl, rfl, rfl, rfl, rfl⟩

/-- Nothing is read behind the end of a directory. -/
theorem readEntries_end (hn : w.nodes dir = some n) (hd : n.isDir = true) {k : Nat} (hk : 0 < k)
    (ho : n.size ≤ off) :
    Wp E (readEntries dir k off) w fun r v => r = .error .enoent ∧ v = w := by
  have hlen : ¬([] : List UInt8).length = entrySize * k := by
    simp only [entrySize, List.length_nil]
    omega
  simp only [readEntries, exfatGenericPread, wp_bind, wp_getNode hn, hd, Bool.not_true,
    Bool.false_eq_true, if_false, if_pos ho, wp_pure, if_neg hlen, List.isEmpty_nil, if_true,
    and_self]

omit [Env] in
theorem Passes.not_file {sb : SuperBlock} {entry : List UInt8} (h : Passes sb entry) :
    entryType entry 0 ≠ exfatEntryFile := by
  intro hf
  cases h with
  | upcase h =>
    rw [hf] at h
    exact absurd h (by decide)
  | bitmap h =>
    rw [hf] at h
    exact absurd h (by decide)
  | label h =>
    rw [hf] at h
    exact absurd h (by decide)
  | deleted h =>
    rw [hf] at h
    exact absurd h (by decide)

/-- An entry that is passed over changes neither nodes nor device. -/
theorem readdirOther_passes (hq : Env.Quiet) {entry : List UInt8} {u : Nat → Nat}
    (h : Passes w.sb entry) (hu : w.upcase = some u) :
    Wp E (readdirOther dir entry off) w fun rc v => rc = .ok ∧ v.nodes = w.nodes ∧
      v.dev = w.dev ∧ v.sb = w.sb ∧ v.fresh = w.fresh ∧ v.root = w.root ∧ v.upcase = w.upcase := by
  unfold readdirOther
  cases h with
  | upcase h =>
    simp only [h, if_true, readdirUpcase, wp_bind, wp_get, hu, Option.isSome_some, wp_pure,
      and_self]
  | bitmap h start size =>
    rw [h, if_neg (by decide), if_pos rfl]
    have h2 := (clusterInvalid_false.mp start).1
    simp only [readdirBitmap, wp_bind, wp_modify, wp_get, start, Bool.false_eq_true, if_false,
      if_neg (Nat.not_lt.mpr size), wp_mallocOk hq, Bool.not_true]
    refine after_ret (exfatC2o_spec h2) fun t => after_ret (exfatPread_spec hq _ _) fun t => ?_
    simp only [wp_bind, wp_modify, wp_pure]
    exact ⟨trivial, rfl, rfl, rfl, rfl, rfl, rfl⟩
  | label h short text =>
    rw [h, if_neg (by decide), if_neg (by decide), if_pos rfl]
    simp only [readdirLabel, if_neg (Nat.not_lt.mpr short), text, wp_bind, wp_modify, wp_pure]
    exact ⟨trivial, rfl, rfl, rfl, rfl, rfl, rfl⟩
  | deleted h =>
    have hne : ∀ t, t &&& exfatEntryValid ≠ 0 → ¬entryType entry 0 = t := by
      rintro t ht rfl
      exact ht h
    rw [if_neg (hne _ (by decide)), if_neg (hne _ (by decide)), if_neg (hne _ (by decide))]
    simp only [readdirDefault, h, if_true, wp_pure, and_self]

omit [Env] in
theorem World.spawn_self (w : World) (m : Node) : (w.spawn m).nodes w.fresh = some m :=
  World.setNode_self _ _ _

omit [Env] in
theorem World.spawn_ne {i : NodeId} (hi : i ≠ w.fresh) : (w.spawn m).nodes i = w.nodes i :=
  World.setNode_ne _ _ hi

omit [Env] in
theorem World.spawn_setNode (w : World) (m k : Node) :
    (w.spawn m).setNode w.fresh k = w.spawn k := by
  change { (w.setNode w.fresh m).setNode w.fresh k with fresh := w.fresh + 1 } = w.spawn k
  rw [World.setNode_setNode]
  rfl

theorem allocateNode_spec (hq : Env.Quiet) :
    Wp E allocateNode w fun r v => r = some w.fresh ∧
      ∃ t, v = (w.ticked t).spawn { name := padName [] } := by
  simp only [allocateNode, wp_bind, wp_mallocOk hq, if_true, wp_get, wp_set, wp_pure]
  exact ⟨rfl, _, rfl⟩

omit [Env] in
theorem Scans.spawn (h : Scans dir n L w v) (hb : dir < w.fresh) (m : Node) :
    Scans dir n L (w.spawn m) (v.spawn m) := by
  have hne : dir ≠ v.fresh := by
    rw [h.fresh]
    exact Nat.ne_of_lt hb
  obtain ⟨k, c, hv, hc⟩ := h.node
  refine ⟨⟨k, c, (World.spawn_ne hne).trans hv, hc⟩, fun i hi => ?_, h.dev, h.sb,
    congrArg (· + 1) h.fresh, h.root, h.upcase⟩
  by_cases hf : i = v.fresh
  · rw [hf, World.spawn_self, h.fresh, World.spawn_self]
  · rw [World.spawn_ne hf, World.spawn_ne (h.fresh ▸ hf), h.others i hi]

/-- A set with a right checksum becomes a node. -/
theorem parseFileEntry_lists (hq : Env.Quiet) (hg : Geometry w.sb) (hn : w.nodes dir = some n)
    (hd : n.isDir = true) (hc : Chained w.sb w.dev n L) (hs : n.size ≤ L.length * w.sb.clusterSize)
    (hb : dir < w.fresh) {k : Nat} (hk : 0 < k) (ho : off + entrySize * k ≤ n.size)
    (hset : SetOk w.sb (fileData w.sb w.dev L off (entrySize * k)) k)
    (hsum : leAt (fileData w.sb w.dev L off (entrySize * k)) 2 2 =
      exfatCalcChecksum (fileData w.sb w.dev L off (entrySize * k))) :
    Wp E (parseFileEntry dir off k) w fun r v => r = .ok (w.fresh, off + entrySize * k) ∧
      Scans dir n L (w.spawn (listed (off, fileData w.sb w.dev L off (entrySize * k)))) v := by
  simp only [parseFileEntry, wp_bind]
  refine (readEntries_reads hq hg hn hd hc hs hk ho).mono ?_
  rintro _ x ⟨rfl, hx⟩
  simp only [wp_bind]
  refine (allocateNode_spec hq).mono ?_
  rintro _ _ ⟨rfl, t, rfl⟩
  have hnew : ((x.ticked t).spawn { name := padName [] }).nodes x.fresh =
      some { name := padName [] } := World.spawn_self _ _
  simp only [wp_bind]
  rw [wp_modifyNode hnew]
  have hset' : SetOk x.sb (fileData w.sb w.dev L off (entrySize * k)) k := by
    rw [hx.sb]
    exact hset
  have hmade := World.setNode_self ((x.ticked t).spawn { name := padName [] }) x.fresh
    { entryOffset := off, name := padName [] }
  refine (parseFileEntries_ok hmade hset' hsum).mono ?_
  rintro _ _ ⟨rfl, e, rfl⟩
  have hsp := hx.spawn hb (listed (off, fileData w.sb w.dev L off (entrySize * k)))
  generalize hv : World.setNode _ x.fresh (parsed _ _) = v
  have hnodes : ∀ i, v.nodes i =
      (x.spawn (listed (off, fileData w.sb w.dev L off (entrySize * k)))).nodes i := by
    intro i
    subst hv
    by_cases hi : i = x.fresh
    · rw [hi, World.setNode_self, World.spawn_self]
      rfl
    · rw [World.setNode_ne _ _ hi, World.spawn_ne hi]
      exact (World.setNode_ne _ _ hi).trans (World.spawn_ne hi)
  obtain ⟨j, c, hj, hcj⟩ := hsp.node
  subst hv
  exact ⟨by rw [← hx.fresh], ⟨j, c, (hnodes dir).trans hj, hcj⟩,
    fun i hi => (hnodes i).trans (hsp.others i hi), hsp.dev, hsp.sb, hsp.fresh, hsp.root, hsp.upcase⟩

/-- `readdir` makes a node of the next set of a listing, or ends with it. -/
theorem readdir_lists (hq : Env.Quiet) {sets : List (Nat × List UInt8)} {u : Nat → Nat}
    (h : Lists w.sb w.dev L n.size off sets) (hg : Geometry w.sb) (hn : w.nodes dir = some n)
    (hd : n.isDir = true) (hc : Chained w.sb w.dev n L) (hs : n.size ≤ L.length * w.sb.clusterSize)
    (hb : dir < w.fresh) (hu : w.upcase = some u) {fuel : Nat} (h0 : 0 < fuel)
    (hf : n.size < off + fuel * entrySize) :
    Wp E (readdir dir fuel off) w fun r v => match sets with
      | [] => r = .error .enoent ∧ Scans dir n L w v
      | s :: rest => ∃ o, r = .ok (w.fresh, o) ∧ Lists w.sb w.dev L n.size o rest ∧
        Scans dir n L (w.spawn (listed s)) v := by
  induction fuel generalizing w n off with
  | zero => exact absurd h0 (Nat.lt_irrefl 0)
  | succ fuel ih =>
    simp only [readdir, wp_bind]
    cases h with
    | stop h =>
      refine (readEntries_end hn hd Nat.one_pos h).mono ?_
      rintro _ _ ⟨rfl, rfl⟩
      exact ⟨rfl, .refl hn hc⟩
    | pass room h rest =>
      refine (readEntries_reads hq hg hn hd hc hs Nat.one_pos room).mono ?_
      rintro _ x ⟨rfl, hx⟩
      have hpass : Passes x.sb (fileData w.sb w.dev L off entrySize) := hx.sb ▸ h
      simp only [Nat.mul_one, if_neg hpass.not_file, wp_bind]
      refine (readdirOther_passes hq hpass (hx.upcase.trans hu)).mono ?_
      rintro _ y ⟨rfl, h1, h2, h3, h4, h5, h6⟩
      obtain ⟨j, c, hj, hcj⟩ := hx.node
      have hy : Scans dir n L w y := ⟨⟨j, c, h1 ▸ hj, hcj⟩, fun i hi => h1 ▸ hx.others i hi,
        h2.trans hx.dev, h3.trans hx.sb, h4.trans hx.fresh, h5.trans hx.root, h6.trans hx.upcase⟩
      have hlists : Lists y.sb y.dev L (n.seek j c).size (off + entrySize) sets := by
        rw [hy.sb, hy.dev]
        exact rest
      have hchain : Chained y.sb y.dev (n.seek j c) L := by
        rw [hy.sb, hy.dev]
        exact hcj
      have hrest := ih hlists (hy.sb ▸ hg) (h1 ▸ hj) hd hchain (hy.sb ▸ hs) (hy.fresh ▸ hb)
        (hy.upcase.trans hu) (by simp only [entrySize] at room hf; omega)
        (by simp only [entrySize, Node.seek_size] at room hf ⊢; omega)
      refine hrest.mono fun r z hz => ?_
      cases sets with
      | nil => exact ⟨hz.1, hy.trans hz.2⟩
      | cons s sets =>
        obtain ⟨o, hr, hl, hs⟩ := hz
        rw [hy.sb, hy.dev] at hl
        rw [hy.fresh] at hr
        exact ⟨o, hr, hl, (hy.spawn hb _).trans hs⟩
    | file room h count ok sum rest =>
      have hk : 0 < 1 + leAt (fileData w.sb w.dev L off entrySize) 1 1 := by omega
      rw [← count] at hk
      have room1 : off + entrySize * 1 ≤ n.size := by
        simp only [entrySize] at room ⊢
        omega
      refine (readEntries_reads hq hg hn hd hc hs Nat.one_pos room1).mono ?_
      rintro _ x ⟨rfl, hx⟩
      obtain ⟨j, c, hj, hcj⟩ := hx.node
      simp only [Nat.mul_one, if_pos h, ← count]
      rw [← hx.sb, ← hx.dev] at ok sum hcj
      refine (parseFileEntry_lists hq (hx.sb ▸ hg) hj hd hcj (hx.sb ▸ hs) (hx.fresh ▸ hb) hk room ok
        sum).mono ?_
      rintro _ z ⟨rfl, hz⟩
      rw [hx.sb, hx.dev, hx.fresh] at *
      exact ⟨_, rfl, rest, (hx.spawn hb _).trans hz⟩

omit [Env] in
theorem dirFuel_enough (size off : Nat) : size < off + (size / entrySize + 2) * entrySize := by
  simp only [entrySize]
  omega

omit [Env] in
theorem Tree.lt_fresh {kids : NodeId → List NodeId} (h : Tree w kids) (hn : w.nodes dir = some n) :
    dir < w.fresh := by
  by_contra hle
  rw [h.bound dir (Nat.le_of_not_lt hle)] at hn
  cases hn

omit [Env] in
/-- Linking a node changes no more than places in the tree. -/
theorem linkLast_relinks {id : NodeId} {current : Option NodeId} {m : Node}
    (hn : w.nodes dir = some n) (hm : w.nodes id = some m)
    (hc : ∀ c, current = some c → ∃ l, w.nodes c = some l) :
    Wp E (linkLast dir id current) w fun _ v => Relinked w v := by
  have hstep : ∀ {v : World} {i : NodeId} {l : Node} (f : Node → Node), Relinked w v →
      w.nodes i = some l → (∀ a, (f a).body = a.body) →
      ∃ a, v.nodes i = some a ∧ Relinked w (v.setNode i (f a)) := by
    intro v i l f hv hl hf
    obtain ⟨a, ha, -⟩ := hv.node hl
    exact ⟨a, ha, hv.trans (relinked_setNode ha (hf a))⟩
  simp only [linkLast, wp_bind]
  obtain ⟨a, ha, h1⟩ := hstep (fun n => { n with parent := some dir }) (.refl w) hm fun _ => rfl
  rw [wp_modifyNode ha]
  unfold follow
  cases current with
  | none =>
    obtain ⟨b, hb, h2⟩ := hstep (fun n => { n with child := some id }) h1 hn fun _ => rfl
    rw [wp_modifyNode hb]
    exact h2
  | some c =>
    obtain ⟨l, hl⟩ := hc c rfl
    obtain ⟨b, hb, h2⟩ := hstep (fun n => { n with next := some id }) h1 hl fun _ => rfl
    simp only [wp_bind]
    rw [wp_modifyNode hb]
    obtain ⟨d, hd, h3⟩ := hstep (fun n => { n with prev := some c }) h2 hm fun _ => rfl
    rw [wp_modifyNode hd]
    exact h3

/-- Nodes kept everything but their places in the tree and the file pointer of one directory. -/
structure Retains (dir : NodeId) (w v : World) : Prop where
  others : ∀ i m, i ≠ dir → w.nodes i = some m → ∃ m', v.nodes i = some m' ∧ m'.body = m.body
  dir : ∀ m, w.nodes dir = some m → ∃ m' k c, v.nodes dir = some m' ∧
    m'.body = (m.seek k c).body
  dev : v.dev = w.dev
  sb : v.sb = w.sb

omit [Env] in
theorem Retains.trans (h : Retains dir w v) (h' : Retains dir v x) : Retains dir w x := by
  refine ⟨fun i m hi hm => ?_, fun m hm => ?_, h'.dev.trans h.dev, h'.sb.trans h.sb⟩
  · obtain ⟨a, ha, hb⟩ := h.others i m hi hm
    obtain ⟨b, hb', hc⟩ := h'.others i a hi ha
    exact ⟨b, hb', hc.trans hb⟩
  · obtain ⟨a, k, c, ha, hb⟩ := h.dir m hm
    obtain ⟨b, j, d, hb', hc⟩ := h'.dir a ha
    refine ⟨b, j, d, hb', hc.trans ?_⟩
    exact congrArg (fun l : Node => { l with fptrIndex := j, fptrCluster := d }) hb

omit [Env] in
theorem Scans.retains (h : Scans dir n L w v) (hn : w.nodes dir = some n) : Retains dir w v := by
  refine ⟨fun i m hi hm => ⟨m, (h.others i hi).trans hm, rfl⟩, fun m hm => ?_, h.dev, h.sb⟩
  obtain ⟨k, c, hv, -⟩ := h.node
  obtain rfl := Option.some.inj (hn.symm.trans hm)
  exact ⟨_, k, c, hv, rfl⟩

omit [Env] in
theorem Relinked.retains (h : Relinked w v) (dir : NodeId) : Retains dir w v := by
  refine ⟨fun i m _ hm => h.node hm, fun m hm => ?_, by rw [h.rest], by rw [h.rest]⟩
  obtain ⟨a, ha, hb⟩ := h.node hm
  exact ⟨a, m.fptrIndex, m.fptrCluster, ha, hb⟩

omit [Env] in
theorem retains_spawn {m : Node} (hb : ∀ i, w.fresh ≤ i → w.nodes i = none) :
    Retains dir w (w.spawn m) := by
  have hne : ∀ i a, w.nodes i = some a → (w.spawn m).nodes i = some a := by
    intro i a ha
    rw [World.spawn_ne, ha]
    rintro rfl
    rw [hb _ le_rfl] at ha
    cases ha
  exact ⟨fun i a _ ha => ⟨a, hne i a ha, rfl⟩,
    fun a ha => ⟨a, a.fptrIndex, a.fptrCluster, hne dir a ha, rfl⟩, rfl, rfl⟩

omit [Env] in
theorem Chained.body {sb : SuperBlock} {d : Store} (h : Chained sb d n L) (hb : m.body = n.body) :
    Chained sb d m L := by
  rw [body_eq_iff] at hb
  obtain ⟨-, h2, h3, -, h5, -, -, h8, -⟩ := hb
  exact ⟨by rw [h8, h5]; exact h.walk, h.valid, h.nodup, fun hL => by rw [h2, h3]; exact h.fptr hL⟩

variable {kids kids' : NodeId → List NodeId}

/-- The loop of `exfat_cache_directory` makes a child of every set, in their order. -/
theorem cacheLoop_lists (hq : Env.Quiet) {sets : List (Nat × List UInt8)} {u : Nat → Nat} {r : Node}
    (h : Opening dir w kids v kids') (hr : w.nodes dir = some r) (hun : r.isUnlinked = false)
    (hg : Geometry v.sb) (hn : v.nodes dir = some n) (hd : n.isDir = true)
    (hc : Chained v.sb v.dev n L) (hs : n.size ≤ L.length * v.sb.clusterSize)
    (hu : v.upcase = some u) (hl : Lists v.sb v.dev L n.size off sets) {fuel : Nat}
    (hf : sets.length < fuel) :
    Wp E (cacheLoop dir fuel (kids' dir).getLast? off) v fun e x => e = .enoent ∧ Retains dir v x ∧
      ∃ ids, Opening dir w kids x (Function.update kids' dir (kids' dir ++ ids)) ∧
        List.Forall₂ (fun i s => ∃ m, x.nodes i = some m ∧ m.body = (listed s).body) ids sets := by
  induction sets generalizing v kids' n off fuel with
  | nil =>
    obtain ⟨fuel, rfl⟩ := Nat.exists_eq_succ_of_ne_zero (Nat.pos_iff_ne_zero.mp hf)
    have hb : dir < v.fresh := h.tree.lt_fresh hn
    simp only [cacheLoop, dirFuel, wp_bind, wp_getNode hn, wp_pure]
    refine ((readdir_lists hq hl hg hn hd hc hs hb hu (Nat.succ_pos _) (dirFuel_enough _ _)).both
      (readdir_spec h.tree.bound _ off)).mono ?_
    rintro r y ⟨⟨rfl, hy⟩, herr, -⟩
    refine ⟨rfl, hy.retains hn, [], ?_, .nil⟩
    rw [List.append_nil, Function.update_eq_self]
    exact h.calm (herr _ rfl)
  | cons s sets ih =>
    obtain ⟨fuel, rfl⟩ := Nat.exists_eq_succ_of_ne_zero (Nat.pos_iff_ne_zero.mp (Nat.zero_lt_of_lt hf))
    have hb : dir < v.fresh := h.tree.lt_fresh hn
    simp only [cacheLoop, dirFuel, wp_bind, wp_getNode hn, wp_pure]
    refine ((readdir_lists hq hl hg hn hd hc hs hb hu (Nat.succ_pos _) (dirFuel_enough _ _)).both
      (readdir_spec h.tree.bound _ off)).mono ?_
    rintro r y ⟨⟨o, rfl, hrest, hy⟩, -, hnew⟩
    have hsp := hnew _ _ rfl
    obtain ⟨j, c, hyd, hcy⟩ := hy.node
    have hyf : y.nodes v.fresh = some (listed s) :=
      (hy.others _ (Nat.ne_of_gt hb)).trans (World.spawn_self _ _)
    have hvs : Retains dir v (v.spawn (listed s)) := retains_spawn h.tree.bound
    have hvy := hvs.trans (hy.retains ((World.spawn_ne (Nat.ne_of_lt hb)).trans hn))
    have hlast : ∀ c, (kids' dir).getLast? = some c → ∃ l, y.nodes c = some l := by
      intro c hc
      obtain ⟨l, hl, -⟩ := h.tree.kid_node (List.mem_of_getLast? hc)
      by_cases hcd : c = dir
      · exact ⟨_, hcd ▸ hyd⟩
      · obtain ⟨l', hl', -⟩ := hvy.others c l hcd hl
        exact ⟨l', hl'⟩
    simp only [wp_bind]
    refine ((linkLast_relinks hyd hyf hlast).both (h.link hr hun hsp)).mono ?_
    rintro _ x ⟨hyx, hx⟩
    have hvx := hvy.trans (hyx.retains dir)
    obtain ⟨n', hn', hbody⟩ := hyx.node hyd
    have hfields := body_eq_iff.mp hbody
    obtain ⟨-, -, -, -, -, hattr, -, -, -, -, -, hsize, -⟩ := hfields
    have hxu : x.upcase = some u := by
      rw [hyx.rest]
      exact hy.upcase.trans hu
    have hlink : some v.fresh =
        (Function.update kids' dir (kids' dir ++ [v.fresh]) dir).getLast? := by simp
    have hrest' : Lists x.sb x.dev L n'.size o sets := by
      rw [hvx.sb, hvx.dev, hsize]
      exact hrest
    have hchain : Chained x.sb x.dev n' L := by
      rw [hvx.sb, hvx.dev]
      exact hcy.body hbody
    rw [hlink]
    refine (ih hx (by rw [hvx.sb]; exact hg) hn' (by rw [Node.isDir, hattr]; exact hd) hchain
      (by rw [hvx.sb, hsize]; exact hs) hxu hrest' (Nat.lt_of_succ_lt_succ hf)).mono ?_
    rintro e z ⟨rfl, hxz, ids, hz, hall⟩
    refine ⟨rfl, hvx.trans hxz, v.fresh :: ids, ?_, .cons ?_ hall⟩
    · rw [Function.update_self, Function.update_idem, List.append_assoc] at hz
      exact hz
    · obtain ⟨a, ha, hab⟩ := hyx.node hyf
      obtain ⟨b, hb', hbb⟩ := hxz.others v.fresh a (Nat.ne_of_gt hb) ha
      exact ⟨b, hb', hbb.trans hab⟩

theorem Lists.length {sb : SuperBlock} {dev : Store} {size : Nat} {sets : List (Nat × List UInt8)}
    (h : Lists sb dev L size off sets) : sets.length * entrySize + off ≤ max size off := by
  induction h with
  | stop h => simp
  | pass room h rest ih =>
    simp only [entrySize] at room ih ⊢
    omega
  | @file off k sets room h count ok sum rest ih =>
    simp only [entrySize, List.length_cons] at room ih ⊢
    omega

/-- A directory was cached: the other nodes kept all but their places in the tree. -/
structure Caches (dir : NodeId) (w v : World) : Prop where
  others : ∀ i m, i ≠ dir → w.nodes i = some m → ∃ m', v.nodes i = some m' ∧ m'.body = m.body
  dir : ∀ m, w.nodes dir = some m → ∃ m' k c, v.nodes dir = some m' ∧
    m'.body = ({ m.seek k c with isCached := true } : Node).body
  dev : v.dev = w.dev
  sb : v.sb = w.sb

/-- `exfat_cache_directory` makes the children of a directory out of what its clusters list. -/
theorem exfatCacheDirectory_lists (hq : Env.Quiet) {sets : List (Nat × List UInt8)} {u : Nat → Nat}
    (h : TreeWF w kids) (hn : w.nodes dir = some n) (hca : n.isCached = false)
    (hun : n.isUnlinked = false) (hg : Geometry w.sb) (hd : n.isDir = true)
    (hc : Chained w.sb w.dev n L) (hs : n.size ≤ L.length * w.sb.clusterSize)
    (hu : w.upcase = some u) (hl : Lists w.sb w.dev L n.size 0 sets) :
    Wp E (exfatCacheDirectory dir) w fun rc v => rc = .ok ∧ Caches dir w v ∧
      ∃ ids, Opened w kids v (Function.update kids dir ids) ∧
        List.Forall₂ (fun i s => ∃ m, v.nodes i = some m ∧ m.body = (listed s).body) ids sets := by
  have hlast : none = (kids dir).getLast? := by
    rw [h.uncached dir n hn hca]
    rfl
  have hlen := hl.length
  simp only [exfatCacheDirectory, wp_bind, wp_getNode hn, hca, Bool.false_eq_true, if_false, dirFuel,
    wp_pure, hlast]
  refine (cacheLoop_lists hq (h.opening dir) hn hun hg hn hd hc hs hu hl
    (by simp only [entrySize] at hlen ⊢; omega)).mono ?_
  rintro _ v ⟨rfl, hk, ids, ho, hall⟩
  obtain ⟨m, k, c, hm, hb⟩ := hk.dir n hn
  simp only [ne_eq, not_true, if_false, wp_bind, wp_modifyNode hm, wp_pure, true_and]
  have hout : ∀ i ∈ ids, i ≠ dir := by
    rintro i hi rfl
    have hp := (ho.tree.kid i i).mp (by simp [hi])
    obtain ⟨m', hm', hf, -⟩ := ho.old i n hn
    rw [face_eq_iff] at hf
    rw [parentOf_eq hm', hf.1, ← parentOf_eq hn, ← h.kid i i, h.uncached i n hn hca] at hp
    cases hp
  refine ⟨⟨fun i a hi ha => ?_, fun a ha => ?_, hk.dev, hk.sb⟩, ids, ?_, ?_⟩
  · rw [World.setNode_ne _ _ hi]
    exact hk.others i a hi ha
  · obtain rfl := Option.some.inj (hn.symm.trans ha)
    exact ⟨_, k, c, World.setNode_self _ _ _, congrArg (fun l : Node => { l with isCached := true }) hb⟩
  · have hf := ho.finish hn hca hd hm
    rwa [h.uncached dir n hn hca] at hf
  · refine ((List.forall₂_and_left _ _).mpr ⟨hout, hall⟩).imp ?_
    rintro i s ⟨hi, l, hl, hb⟩
    exact ⟨l, (World.setNode_ne _ _ hi).trans hl, hb⟩

end Proofs

end Exfat
