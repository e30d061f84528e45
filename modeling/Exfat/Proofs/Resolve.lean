import Exfat.Proofs.Listing
import Exfat.Proofs.Lookup
import Exfat.Proofs.Utf

namespace Exfat
open Lib

/-! Looking up a path is resolving its components in the tree of the volume, whichever part of that
tree is cached. -/

/-- What a directory says about a file. -/
structure Record where
  name : List Nat
  attrib : Nat
  size : Nat
  startCluster : Nat
  isContiguous : Bool
  entryOffset : Nat
  deriving DecidableEq

def Node.record (n : Node) : Record :=
  ⟨n.name, n.attrib, n.size, n.startCluster, n.isContiguous, n.entryOffset⟩

def Record.isDir (r : Record) : Bool := r.attrib &&& exfatAttribDir != 0

/-- The tree of a volume: a file is known by its place, the indexes of the children on the way to it.
Places outside the tree are no directories, and names are made of 16-bit units. -/
structure Catalog where
  record : List Nat → Record
  count : List Nat → Nat
  units : ∀ p, ∀ c ∈ (record p).name, c < 2 ^ 16

/-- The places of the children of a directory. -/
def Catalog.kids (T : Catalog) (p : List Nat) : List (List Nat) :=
  (List.range (T.count p)).map fun k => p ++ [k]

/-- Takes the first child with the name that a component converts to. -/
def Catalog.step (T : Catalog) (same : List Nat → List Nat → Bool) (p : List Nat)
    (comp : List UInt8) : Except Errno (List Nat) :=
  match utf8ToUtf16 comp (exfatNameMax + 1) with
  | .error e => .error e
  | .ok units =>
    match (T.kids p).find? fun q => same units (T.record q).name with
    | some q => .ok q
    | none => .error .enoent

/-- Resolves components one after the other from a place on. -/
def Catalog.resolve (T : Catalog) (same : List Nat → List Nat → Bool) (p : List Nat)
    (comps : List (List UInt8)) : Except Errno (List Nat) := comps.foldlM (T.step same) p

/-- The components before the last lead through directories. -/
def Catalog.Leads (T : Catalog) (same : List Nat → List Nat → Bool) (p : List Nat)
    (comps : List (List UInt8)) : Prop :=
  ∀ front c back, comps = front ++ c :: back → ∀ q, T.resolve same p front = .ok q →
    (T.record q).isDir = true

/-- A component that converts is looked up in something that is no directory. -/
def Catalog.Strays (T : Catalog) (same : List Nat → List Nat → Bool) (p : List Nat)
    (comps : List (List UInt8)) : Prop :=
  ∃ front c back q units, comps = front ++ c :: back ∧ T.resolve same p front = .ok q ∧
    (T.record q).isDir = false ∧ utf8ToUtf16 c (exfatNameMax + 1) = .ok units

/-- The non-empty components of a path other than `.`. -/
def steps (path : List UInt8) : List (List UInt8) := (components path).filter (· ≠ [dot])

/-- Names that are equal in upper case. -/
def sameName (u : Nat → Nat) (as bs : List Nat) : Bool := upName u as = upName u bs

/-- Names that `compare_name` takes for equal. -/
def comparesEqual (u : Nat → Nat) (as bs : List Nat) : Bool := compareName u as bs = 0

/-- The node at a place of the cached tree. -/
def locate (kids : NodeId → List NodeId) : NodeId → List Nat → Option NodeId
  | d, [] => some d
  | d, k :: p => (kids d)[k]?.bind fun i => locate kids i p

namespace Proofs

variable [Env] {E : Halt → Prop} {w v x : World} {n m : Node} {dir i : NodeId} {T : Catalog}
  {kids kids' : NodeId → List NodeId} {p q : List Nat}

/-- The clusters of a directory list its children. -/
structure Stored (sb : SuperBlock) (dev : Store) (T : Catalog) (p : List Nat) (L : List Nat) :
    Prop where
  walk : Walk (link sb dev (T.record p).isContiguous) (T.record p).startCluster L
  valid : ∀ c ∈ L, sb.clusterInvalid c = false
  nodup : L.Nodup
  room : (T.record p).size ≤ L.length * sb.clusterSize
  lists : ∃ sets, Lists sb dev L (T.record p).size 0 sets ∧
    List.Forall₂ (fun q s => T.record q = (listed s).record) (T.kids p) sets

/-- A node stands for a place: a cached directory has its children in memory, any other one has them
on the device, and so has every directory below. -/
structure Sits (w : World) (T : Catalog) (kids : NodeId → List NodeId) (p : List Nat) (i : NodeId)
    (n : Node) : Prop where
  record : n.record = T.record p
  held : 0 ≤ n.references
  prints : n.isDirty = true → ∃ s, utf16ToUtf8 n.name exfatUtf8NameBufferMax exfatNameMax = .ok s
  cached : n.isCached = true → (kids i).length = T.count p
  stored : n.isCached = false → n.isDir = true → ∃ L, Stored w.sb w.dev T p L ∧
    (L ≠ [] → L[n.fptrIndex]? = some n.fptrCluster)
  below : n.isCached = false → ∀ q, p <+: q → q ≠ p → (T.record q).isDir = true →
    ∃ L, Stored w.sb w.dev T q L

/-- The world shows a catalog, part of it cached and the rest on the device. -/
structure Shows (w : World) (kids : NodeId → List NodeId) (T : Catalog) : Prop where
  tree : TreeWF w kids
  geometry : Geometry w.sb
  sits : ∀ p i, locate kids w.root p = some i → ∃ n, w.nodes i = some n ∧ Sits w T kids p i n

omit [Env] in
theorem locate_concat (d : NodeId) (p : List Nat) (k : Nat) :
    locate kids d (p ++ [k]) = (locate kids d p).bind fun i => (kids i)[k]? := by
  induction p generalizing d with
  | nil =>
    simp only [List.nil_append, locate, Option.bind_some]
    cases (kids d)[k]? <;> rfl
  | cons j p ih =>
    simp only [List.cons_append, locate]
    cases (kids d)[j]? with
    | none => rfl
    | some i => exact ih i

omit [Env] in
theorem locate_snoc {d : NodeId} {p : List Nat} {k : Nat} (h : locate kids d (p ++ [k]) = some i) :
    ∃ j, locate kids d p = some j ∧ (kids j)[k]? = some i := by
  rw [locate_concat] at h
  exact Option.bind_eq_some_iff.mp h

omit [Env] in
/-- A node has one place. -/
theorem locate_inj (h : TreeWF w kids) (hp : locate kids w.root p = some i)
    (hq : locate kids w.root q = some i) : p = q := by
  have hroot : ∀ {d : NodeId} {k : Nat}, (kids d)[k]? ≠ some w.root := by
    intro d k hk
    obtain ⟨r, hr, hpar, -⟩ := h.root
    have := (h.kid d w.root).mp (List.mem_of_getElem? hk)
    rw [parentOf_eq hr, hpar] at this
    cases this
  induction p using List.reverseRecOn generalizing q i with
  | nil =>
    cases hp
    cases q using List.reverseRecOn with
    | nil => rfl
    | append_singleton q k =>
      obtain ⟨d, -, hk⟩ := locate_snoc hq
      exact absurd hk hroot
  | append_singleton p j ih =>
    obtain ⟨d, hd, hj⟩ := locate_snoc hp
    cases q using List.reverseRecOn with
    | nil =>
      cases hq
      exact absurd hj hroot
    | append_singleton q k =>
      obtain ⟨e, he, hk⟩ := locate_snoc hq
      have h1 := (h.kid d i).mp (List.mem_of_getElem? hj)
      have h2 := (h.kid e i).mp (List.mem_of_getElem? hk)
      obtain rfl := Option.some.inj (h1.symm.trans h2)
      rw [ih hd he]
      obtain ⟨hj', hje⟩ := List.getElem?_eq_some_iff.mp hj
      obtain ⟨hk', hke⟩ := List.getElem?_eq_some_iff.mp hk
      rw [(List.Nodup.getElem_inj_iff (h.nodup d)).mp (hje.trans hke.symm)]

/-- The references of a node. -/
def refs (w : World) (i : NodeId) : Int := ((w.nodes i).map Node.references).getD 0

/-- Only reference counters changed. -/
structure Counts (w v : World) : Prop where
  nodes : ∀ i n, w.nodes i = some n → ∃ k, v.nodes i = some { n with references := k }
  none : ∀ i, w.nodes i = none → v.nodes i = none
  dev : v.dev = w.dev
  sb : v.sb = w.sb
  fresh : v.fresh = w.fresh
  root : v.root = w.root
  upcase : v.upcase = w.upcase

omit [Env] in
theorem Counts.refl (w : World) : Counts w w :=
  ⟨fun _ n hn => ⟨n.references, hn⟩, fun _ hn => hn, rfl, rfl, rfl, rfl, rfl⟩

omit [Env] in
theorem Counts.trans (h : Counts w v) (h' : Counts v x) : Counts w x := by
  refine ⟨fun i n hn => ?_, fun i hi => h'.none i (h.none i hi), h'.dev.trans h.dev,
    h'.sb.trans h.sb, h'.fresh.trans h.fresh, h'.root.trans h.root, h'.upcase.trans h.upcase⟩
  obtain ⟨k, hk⟩ := h.nodes i n hn
  obtain ⟨j, hj⟩ := h'.nodes i _ hk
  exact ⟨j, hj⟩

omit [Env] in
theorem Counts.calm (h : Counts w v) : Calm w v := by
  refine ⟨fun i => ?_, h.fresh.ge, h.root, fun u hu => h.upcase.trans hu, h.sb⟩
  cases hw : w.nodes i with
  | none => rw [h.none i hw]
  | some n =>
    obtain ⟨k, hk⟩ := h.nodes i n hw
    rw [hk]
    rfl

omit [Env] in
theorem refs_eq (hn : w.nodes i = some n) : refs w i = n.references := by simp [refs, hn]

omit [Env] in
/-- Changing a counter. -/
theorem counts_setNode (hn : w.nodes i = some n) (k : Int) :
    Counts w (w.setNode i { n with references := k }) ∧
      ∀ j, j ≠ i → refs (w.setNode i { n with references := k }) j = refs w j := by
  refine ⟨⟨fun j m hm => ?_, fun j hj => ?_, rfl, rfl, rfl, rfl, rfl⟩, fun j hj => ?_⟩
  · by_cases hj : j = i
    · subst hj
      obtain rfl := Option.some.inj (hn.symm.trans hm)
      exact ⟨k, World.setNode_self _ _ _⟩
    · exact ⟨m.references, (World.setNode_ne _ _ hj).trans hm⟩
  · have hji : j ≠ i := by
      rintro rfl
      rw [hn] at hj
      cases hj
    exact (World.setNode_ne _ _ hji).trans hj
  · rw [refs, refs, World.setNode_ne _ _ hj]

omit [Env] in
theorem exfatGetNode_counts (hn : w.nodes i = some n) :
    Wp E (exfatGetNode i) w fun _ v => Counts w v ∧
      ∀ j, refs v j = refs w j + if j = i then 1 else 0 := by
  obtain ⟨h1, h2⟩ := counts_setNode hn (n.references + 1)
  rw [exfatGetNode, wp_modifyNode hn]
  refine ⟨h1, fun j => ?_⟩
  by_cases hj : j = i
  · rw [hj, if_pos rfl, refs_eq (World.setNode_self _ _ _), refs_eq hn]
  · rw [if_neg hj, h2 j hj, add_zero]

/-- The name of a dirty node can be printed. -/
def Prints (n : Node) : Prop :=
  n.isDirty = true → ∃ s, utf16ToUtf8 n.name exfatUtf8NameBufferMax exfatNameMax = .ok s

omit [Env] in
theorem exfatPutNode_counts (hn : w.nodes i = some n) (hp : Prints n) (hr : 1 ≤ n.references) :
    Wp E (exfatPutNode i) w fun _ v => Counts w v ∧
      ∀ j, refs v j = refs w j - if j = i then 1 else 0 := by
  obtain ⟨h1, h2⟩ := counts_setNode hn (n.references - 1)
  have hpost : Counts w (w.setNode i { n with references := n.references - 1 }) ∧
      ∀ j, refs (w.setNode i { n with references := n.references - 1 }) j =
        refs w j - if j = i then 1 else 0 := by
    refine ⟨h1, fun j => ?_⟩
    by_cases hj : j = i
    · rw [hj, if_pos rfl, refs_eq (World.setNode_self _ _ _), refs_eq hn]
    · rw [if_neg hj, h2 j hj, sub_zero]
  simp only [exfatPutNode, wp_bind, wp_modifyNode hn, wp_getNode_setNode]
  rw [if_neg (by simp only [not_lt]; omega)]
  simp only [wp_bind, wp_get]
  split
  · rename_i hd
    obtain ⟨s, hs⟩ := hp hd.2.2
    simp only [exfatGetName, hs, wp_bind, wp_pure, wp_exfatWarn]
    exact hpost
  · exact hpost

/-- What the world shows does not depend on who holds nodes. -/
theorem Shows.counts (h : Shows w kids T) (hv : Counts w v)
    (hr : ∀ i n, w.nodes i = some n → 0 ≤ n.references → 0 ≤ refs v i) : Shows v kids T := by
  refine ⟨h.tree.calm hv.calm, hv.sb ▸ h.geometry, fun p i hi => ?_⟩
  rw [hv.root] at hi
  obtain ⟨n, hn, hs⟩ := h.sits p i hi
  obtain ⟨k, hk⟩ := hv.nodes i n hn
  refine ⟨_, hk, hs.record, ?_, hs.prints, hs.cached, ?_, ?_⟩
  · have hk' := hr i n hn hs.held
    rwa [refs_eq hk] at hk'
  · rw [hv.sb, hv.dev]
    exact hs.stored
  · rw [hv.sb, hv.dev]
    exact hs.below

variable {u : Nat → Nat}

omit [Env] in
/-- The loop of `lookup_name` finds the first child that compares equal, and holds it. -/
theorem lookupLoop_finds (hu : w.upcase = some u) (buffer : List Nat) {ps : List NodeId}
    (hps : ∀ i ∈ ps, ∃ n, w.nodes i = some n ∧ Prints n ∧ 0 ≤ n.references) :
    Wp E (lookupLoop buffer ps) w fun r v => r = ps.find? (named w u buffer) ∧ Counts w v ∧
      ∀ j, refs v j = refs w j + if r = some j then 1 else 0 := by
  induction ps generalizing w with
  | nil => exact ⟨rfl, .refl w, fun j => by simp⟩
  | cons i ps ih =>
    obtain ⟨n, hn, hp, hr⟩ := hps i (by simp)
    simp only [lookupLoop, wp_bind]
    refine (exfatGetNode_counts hn).mono ?_
    rintro _ a ⟨ha, hra⟩
    obtain ⟨k, hk⟩ := ha.nodes i n hn
    have hka := hra i
    rw [if_pos rfl, refs_eq hk, refs_eq hn] at hka
    simp only [getUpcase, wp_bind, wp_get, ha.upcase.trans hu, wp_pure, wp_getNode hk]
    split
    · rename_i hc
      refine ⟨?_, ha, fun j => ?_⟩
      · rw [List.find?_cons_of_pos]
        simpa [named, nameOf_eq hn] using hc
      · rw [hra j]
        simp only [Option.some.injEq, eq_comm]
    · rename_i hc
      simp only [wp_bind]
      refine (exfatPutNode_counts hk hp (by simp only at hka ⊢; omega)).mono ?_
      rintro _ b ⟨hb, hrb⟩
      have hwb := ha.trans hb
      have hback : ∀ j, refs b j = refs w j := by
        intro j
        rw [hrb j, hra j]
        omega
      have hkeep : ∀ j ∈ ps, ∃ n, b.nodes j = some n ∧ Prints n ∧ 0 ≤ n.references := by
        intro j hj
        obtain ⟨m, hm, hpm, hrm⟩ := hps j (by simp [hj])
        obtain ⟨l, hl⟩ := hwb.nodes j m hm
        have hl' := hback j
        rw [refs_eq hl, refs_eq hm] at hl'
        exact ⟨_, hl, hpm, by rw [hl']; exact hrm⟩
      have hsame : named b u buffer = named w u buffer := by
        funext j
        rw [named, named, nameOf_calm hwb.calm]
      refine (ih (hwb.upcase.trans hu) hkeep).mono ?_
      rintro r c ⟨hr', hc', hrc⟩
      refine ⟨?_, hwb.trans hc', fun j => by rw [hrc j, hback j]⟩
      rw [List.find?_cons_of_neg (by simpa [named, nameOf_eq hn] using hc), hr', hsame]

omit [Env] in
/-- The places after one directory was cached. -/
theorem locate_update {ids : List NodeId} {root : NodeId} (hnew : ∀ j ∈ ids, j ≠ dir ∧ kids j = [])
    (h : locate (Function.update kids dir ids) root p = some i) :
    locate kids root p = some i ∨
      ∃ q k, p = q ++ [k] ∧ locate kids root q = some dir ∧ ids[k]? = some i := by
  induction p using List.reverseRecOn generalizing i with
  | nil => exact .inl h
  | append_singleton p k ih =>
    obtain ⟨d, hd, hk⟩ := locate_snoc h
    rcases ih hd with hold | ⟨q, j, -, -, hj⟩
    · by_cases hdd : d = dir
      · subst hdd
        rw [Function.update_self] at hk
        exact .inr ⟨p, k, rfl, hold, hk⟩
      · rw [Function.update_of_ne hdd] at hk
        refine .inl ?_
        rw [locate_concat, hold]
        exact hk
    · obtain ⟨hdd, he⟩ := hnew d (List.mem_of_getElem? hj)
      rw [Function.update_of_ne hdd, he] at hk
      cases hk

omit [Env] in
/-- Places stay when a directory without children in memory is cached. -/
theorem locate_mono {ids : List NodeId} {root : NodeId} (he : kids dir = [])
    (h : locate kids root p = some i) : locate (Function.update kids dir ids) root p = some i := by
  induction p using List.reverseRecOn generalizing i with
  | nil => exact h
  | append_singleton p k ih =>
    obtain ⟨d, hd, hk⟩ := locate_snoc h
    have hdd : d ≠ dir := by
      rintro rfl
      rw [he] at hk
      cases hk
    rw [locate_concat, ih hd]
    simpa [Function.update_of_ne hdd] using hk

/-- The world shows the same catalog as before, with the same nodes in the same places. -/
structure Goes (w : World) (kids : NodeId → List NodeId) (v : World) (kids' : NodeId → List NodeId)
    (T : Catalog) : Prop where
  shown : Shows v kids' T
  root : v.root = w.root
  upcase : v.upcase = w.upcase
  place : ∀ p i, locate kids w.root p = some i → locate kids' v.root p = some i
  held : ∀ i n, w.nodes i = some n → ∃ m, v.nodes i = some m ∧ n.references ≤ m.references

omit [Env] in
/-- What does not depend on places in the tree. -/
theorem eq_of_body {β : Type} (f : Node → β) (hf : ∀ k : Node, f k.body = f k)
    (hb : m.body = n.body) : f m = f n := by
  rw [← hf m, hb, hf n]

theorem Sits.body (h : Sits w T kids p i n) (hb : m.body = n.body) (hsb : v.sb = w.sb)
    (hdev : v.dev = w.dev) (hk : kids' i = kids i) : Sits v T kids' p i m := by
  have hrec : m.record = n.record := eq_of_body Node.record (fun _ => rfl) hb
  have hname : m.name = n.name := eq_of_body Node.name (fun _ => rfl) hb
  have hrefs : m.references = n.references := eq_of_body Node.references (fun _ => rfl) hb
  have hdirty : m.isDirty = n.isDirty := eq_of_body Node.isDirty (fun _ => rfl) hb
  have hca : m.isCached = n.isCached := eq_of_body Node.isCached (fun _ => rfl) hb
  have hdir : m.isDir = n.isDir := eq_of_body Node.isDir (fun _ => rfl) hb
  have hidx : m.fptrIndex = n.fptrIndex := eq_of_body Node.fptrIndex (fun _ => rfl) hb
  have hptr : m.fptrCluster = n.fptrCluster := eq_of_body Node.fptrCluster (fun _ => rfl) hb
  refine ⟨hrec.trans h.record, hrefs ▸ h.held, ?_, ?_, ?_, ?_⟩
  · rw [hdirty, hname]
    exact h.prints
  · rw [hca, hk]
    exact h.cached
  · rw [hca, hdir, hsb, hdev, hidx, hptr]
    exact h.stored
  · rw [hca, hsb, hdev]
    exact h.below

/-- A node made of a set of the listing stands for a child. -/
theorem Sits.listed {k : Nat} {s : Nat × List UInt8} (h : Sits w T kids p dir n)
    (hca : n.isCached = false) (hs : T.record (p ++ [k]) = (listed s).record)
    (hm : m.body = (Proofs.listed s).body) (hsb : v.sb = w.sb) (hdev : v.dev = w.dev) :
    Sits v T kids' (p ++ [k]) i m := by
  have hrec : m.record = T.record (p ++ [k]) := (eq_of_body Node.record (fun _ => rfl) hm).trans hs.symm
  have hcm : m.isCached = false := eq_of_body Node.isCached (fun _ => rfl) hm
  have hpre : p <+: p ++ [k] := List.prefix_append _ _
  refine ⟨hrec, ?_, ?_, ?_, ?_, ?_⟩
  · have hrefs : m.references = 0 := eq_of_body Node.references (fun _ => rfl) hm
    rw [hrefs]
  · have hdirty : m.isDirty = false := eq_of_body Node.isDirty (fun _ => rfl) hm
    rw [hdirty]
    exact nofun
  · rw [hcm]
    exact nofun
  · intro _ hdir
    have hrd : (T.record (p ++ [k])).isDir = true := hrec ▸ hdir
    obtain ⟨L, hL⟩ := h.below hca _ hpre (by simp) hrd
    refine ⟨L, by rw [hsb, hdev]; exact hL, fun hne => ?_⟩
    have hidx : m.fptrIndex = 0 := eq_of_body Node.fptrIndex (fun _ => rfl) hm
    have hptr : m.fptrCluster = (T.record (p ++ [k])).startCluster := by
      rw [hs]
      exact eq_of_body Node.fptrCluster (fun _ => rfl) hm
    have hw := hL.walk
    cases L with
    | nil => exact absurd rfl hne
    | cons c L =>
      rw [hidx, hptr, hw.1]
      rfl
  · intro _ q hq hne hdq
    rw [hsb, hdev]
    refine h.below hca q (hpre.trans hq) ?_ hdq
    rintro rfl
    have := hq.length_le
    simp at this

theorem Goes.refl (h : Shows w kids T) : Goes w kids w kids T :=
  ⟨h, rfl, rfl, fun _ _ hi => hi, fun _ n hn => ⟨n, hn, le_rfl⟩⟩

omit [Env] in
/-- A node with a place can be opened. -/
theorem live_of_place (h : TreeWF w kids) (hp : locate kids w.root p = some i) : Live w i := by
  cases p using List.reverseRecOn with
  | nil =>
    cases hp
    exact h.live_root
  | append_singleton p k =>
    obtain ⟨d, -, hk⟩ := locate_snoc hp
    obtain ⟨n, hn, hpar⟩ := h.kid_node (List.mem_of_getElem? hk)
    exact h.live_of_parent hn hpar

/-- Caching a directory that lists its children shows no other catalog. -/
theorem Shows.caches {ids : List NodeId} {sets : List (Nat × List UInt8)} (h : Shows w kids T)
    (hu : w.upcase = some u) (hp : locate kids w.root p = some dir) (hn : w.nodes dir = some n)
    (hca : n.isCached = false) (hs : Sits w T kids p dir n) (hc : Caches dir w v)
    (ho : Opened w kids v (Function.update kids dir ids))
    (hall : List.Forall₂ (fun i s => ∃ m, v.nodes i = some m ∧ m.body = (listed s).body) ids sets)
    (hsets : List.Forall₂ (fun q s => T.record q = (listed s).record) (T.kids p) sets) :
    Goes w kids v (Function.update kids dir ids) T := by
  have hempty := h.tree.uncached dir n hn hca
  have hfresh : ∀ j ∈ ids, w.nodes j = none := by
    intro j hj
    cases hw : w.nodes j with
    | none => rfl
    | some a =>
      have hpar := (ho.tree.kid dir j).mp (by simpa using hj)
      obtain ⟨b, hb, hf, -⟩ := ho.old j a hw
      rw [face_eq_iff] at hf
      rw [parentOf_eq hb, hf.1, ← parentOf_eq hw, ← h.tree.kid dir j, hempty] at hpar
      cases hpar
  have hnew : ∀ j ∈ ids, j ≠ dir ∧ kids j = [] := by
    intro j hj
    refine ⟨?_, h.tree.free (hfresh j hj)⟩
    rintro rfl
    rw [hfresh j hj] at hn
    cases hn
  have hcount : ids.length = T.count p := by
    rw [hall.length_eq, ← hsets.length_eq, Catalog.kids, List.length_map, List.length_range]
  refine ⟨⟨ho.tree, hc.sb ▸ h.geometry, fun q i hi => ?_⟩, ho.root, (ho.upcase u hu).trans hu.symm,
    fun q i hi => ?_, fun i a ha => ?_⟩
  · rw [ho.root] at hi
    rcases locate_update hnew hi with hold | ⟨q, k, rfl, hq, hk⟩
    · obtain ⟨a, ha, hsa⟩ := h.sits q i hold
      by_cases hid : i = dir
      · subst hid
        obtain rfl := locate_inj h.tree hold hp
        obtain ⟨m, k, c, hm, hbody⟩ := hc.dir n hn
        have hcm : m.isCached = true := eq_of_body Node.isCached (fun _ => rfl) hbody
        have hname : m.name = n.name :=
          (eq_of_body Node.name (fun _ => rfl) hbody).trans rfl
        have hrefs : m.references = n.references :=
          (eq_of_body Node.references (fun _ => rfl) hbody).trans rfl
        have hdirty : m.isDirty = n.isDirty :=
          (eq_of_body Node.isDirty (fun _ => rfl) hbody).trans rfl
        refine ⟨m, hm, (eq_of_body Node.record (fun _ => rfl) hbody).trans hs.record,
          hrefs ▸ hs.held, ?_, fun _ => ?_, ?_, ?_⟩
        · rw [hdirty, hname]
          exact hs.prints
        · rw [Function.update_self, hcount]
        · rw [hcm]
          exact nofun
        · rw [hcm]
          exact nofun
      · obtain ⟨b, hb, hbody⟩ := hc.others i a hid ha
        exact ⟨b, hb, hsa.body hbody hc.sb hc.dev (Function.update_of_ne hid _ _)⟩
    · obtain rfl := locate_inj h.tree hq hp
      obtain ⟨hki, rfl⟩ := List.getElem?_eq_some_iff.mp hk
      have hks : k < sets.length := hall.length_eq ▸ hki
      have hkT : k < (T.kids q).length := hsets.length_eq ▸ hks
      obtain ⟨m, hm, hbody⟩ := hall.get hki hks
      have hrec := hsets.get hkT hks
      have hplace : (T.kids q).get ⟨k, hkT⟩ = q ++ [k] := by simp [Catalog.kids]
      rw [hplace] at hrec
      exact ⟨m, hm, hs.listed hca hrec hbody hc.sb hc.dev⟩
  · rw [ho.root]
    exact locate_mono hempty hi
  · by_cases hid : i = dir
    · subst hid
      obtain ⟨m, k, c, hm, hbody⟩ := hc.dir a ha
      exact ⟨m, hm, (eq_of_body Node.references (fun _ => rfl) hbody).ge⟩
    · obtain ⟨b, hb, hbody⟩ := hc.others i a hid ha
      exact ⟨b, hb, (eq_of_body Node.references (fun _ => rfl) hbody).ge⟩

/-- `exfat_cache_directory` shows no other catalog, and the directory is cached then. -/
theorem exfatCacheDirectory_goes (hq : Env.Quiet) (h : Shows w kids T) (hu : w.upcase = some u)
    (hp : locate kids w.root p = some dir) (hd : (T.record p).isDir = true) :
    Wp E (exfatCacheDirectory dir) w fun rc v => rc = .ok ∧ ∃ kids', Goes w kids v kids' T ∧
      ∃ m, v.nodes dir = some m ∧ m.isCached = true := by
  obtain ⟨n, hn, hs⟩ := h.sits p dir hp
  cases hca : n.isCached with
  | true =>
    simp only [exfatCacheDirectory, wp_bind, wp_getNode hn, hca, if_true, wp_pure]
    exact ⟨trivial, kids, .refl h, n, hn, hca⟩
  | false =>
    have hdir : n.isDir = true := by
      rw [← hs.record] at hd
      exact hd
    obtain ⟨L, hL, hptr⟩ := hs.stored hca hdir
    obtain ⟨sets, hlists, hsets⟩ := hL.lists
    obtain ⟨n', hn', hun⟩ := live_of_place h.tree hp
    obtain rfl := Option.some.inj (hn'.symm.trans hn)
    have hroom := hL.room
    have hwalk := hL.walk
    rw [← hs.record] at hroom hwalk hlists
    refine (exfatCacheDirectory_lists hq h.tree hn hca hun h.geometry hdir
      ⟨hwalk, hL.valid, hL.nodup, hptr⟩ hroom hu hlists).mono ?_
    rintro rc v ⟨rfl, hc, ids, ho, hall⟩
    obtain ⟨m, k, c, hm, hbody⟩ := hc.dir _ hn
    have hcm : m.isCached = true := eq_of_body Node.isCached (fun _ => rfl) hbody
    exact ⟨rfl, _, h.caches hu hp hn hca hs hc ho hall hsets, m, hm, hcm⟩

theorem Goes.trans {kids'' : NodeId → List NodeId} (h : Goes w kids v kids' T)
    (h' : Goes v kids' x kids'' T) : Goes w kids x kids'' T := by
  refine ⟨h'.shown, h'.root.trans h.root, h'.upcase.trans h.upcase,
    fun p i hi => h'.place p i (h.place p i hi), fun i n hn => ?_⟩
  obtain ⟨m, hm, hle⟩ := h.held i n hn
  obtain ⟨l, hl, hle'⟩ := h'.held i m hm
  exact ⟨l, hl, hle.trans hle'⟩

/-- Holding and releasing nodes on the way. -/
theorem Goes.counts (h : Goes w kids v kids' T) (hx : Counts v x)
    (h0 : ∀ i n, v.nodes i = some n → 0 ≤ n.references → 0 ≤ refs x i)
    (hle : ∀ i n, w.nodes i = some n → n.references ≤ refs x i) : Goes w kids x kids' T := by
  refine ⟨h.shown.counts hx h0, hx.root.trans h.root, hx.upcase.trans h.upcase,
    fun p i hi => by rw [hx.root]; exact h.place p i hi, fun i n hn => ?_⟩
  obtain ⟨m, hm, -⟩ := h.held i n hn
  obtain ⟨k, hk⟩ := hx.nodes i m hm
  exact ⟨_, hk, (hle i n hn).trans (refs_eq hk).le⟩

omit [Env] in
/-- Two searches that agree element by element. -/
theorem find?_forall₂ {α β : Type} {R : α → β → Prop} {P : α → Bool} {Q : β → Bool} {l : List α}
    {l' : List β} (h : List.Forall₂ (fun a b => R a b ∧ P a = Q b) l l') :
    (l.find? P = none ∧ l'.find? Q = none) ∨
      ∃ a b, l.find? P = some a ∧ l'.find? Q = some b ∧ R a b := by
  induction h with
  | nil => exact .inl ⟨rfl, rfl⟩
  | @cons a b l l' hab _ ih =>
    obtain ⟨hr, hpq⟩ := hab
    cases hp : P a with
    | true =>
      rw [List.find?_cons_of_pos hp, List.find?_cons_of_pos (hpq ▸ hp)]
      exact .inr ⟨a, b, rfl, rfl, hr⟩
    | false =>
      have hq : ¬Q b = true := by simp [← hpq, hp]
      rw [List.find?_cons_of_neg (by simp [hp]), List.find?_cons_of_neg hq]
      exact ih

/-- The children of a cached directory are the files at the places below it. -/
theorem Shows.children (h : Shows w kids T) (hp : locate kids w.root p = some dir)
    (hm : w.nodes dir = some m) (hc : m.isCached = true) (units : List Nat) :
    List.Forall₂ (fun i q => (locate kids w.root q = some i ∧ ∃ k, q = p ++ [k]) ∧
      named w u units i = comparesEqual u units (T.record q).name) (kids dir) (T.kids p) := by
  obtain ⟨n, hn, hs⟩ := h.sits p dir hp
  obtain rfl := Option.some.inj (hm.symm.trans hn)
  have hlen : (kids dir).length = (T.kids p).length := by
    rw [hs.cached hc, Catalog.kids, List.length_map, List.length_range]
  rw [List.forall₂_iff_get]
  refine ⟨hlen, fun k h1 h2 => ?_⟩
  have hplace : (T.kids p).get ⟨k, h2⟩ = p ++ [k] := by simp [Catalog.kids]
  have hloc : locate kids w.root (p ++ [k]) = some ((kids dir).get ⟨k, h1⟩) := by
    rw [locate_concat, hp]
    simp [h1]
  obtain ⟨l, hl, hsl⟩ := h.sits _ _ hloc
  rw [hplace]
  refine ⟨⟨hloc, k, rfl⟩, ?_⟩
  rw [named, comparesEqual, nameOf_eq hl, ← hsl.record]
  rfl

/-- How `read_entries` ends on a file. -/
def readsFile : Halt := .bug "attempted to read entries from a file"

theorem readEntries_file (hn : w.nodes dir = some n) (hd : n.isDir = false) (k off : Nat) :
    Wp (· = readsFile) (readEntries dir k off) w fun _ _ => False := by
  simp only [readEntries, wp_bind, wp_getNode hn, hd, Bool.not_false, if_true]
  rfl

/-- Opening a file halts: its entries are read. -/
theorem exfatOpendir_file (h : Shows w kids T) (hp : locate kids w.root p = some dir)
    (hd : (T.record p).isDir = false) :
    Wp (· = readsFile) (exfatOpendir dir) w fun _ _ => False := by
  obtain ⟨n, hn, hs⟩ := h.sits p dir hp
  have hdir : n.isDir = false := by
    rw [← hs.record] at hd
    exact hd
  have hca : n.isCached = false := by
    by_contra hc
    rw [h.tree.cached dir n hn (by simpa using hc)] at hdir
    cases hdir
  simp only [exfatOpendir, wp_bind]
  refine (exfatGetNode_counts hn).mono ?_
  rintro _ a ⟨ha, -⟩
  obtain ⟨k, hk⟩ := ha.nodes dir n hn
  simp only [exfatCacheDirectory, dirFuel, cacheLoop, readdir, wp_bind, wp_getNode hk, hca,
    Bool.false_eq_true, if_false, wp_pure]
  exact (readEntries_file hk hdir 1 0).mono fun _ _ => False.elim

/-- `lookup_name` takes one step, and holds what it finds. -/
theorem lookupName_goes (hq : Env.Quiet) (h : Shows w kids T) (hu : w.upcase = some u)
    (hp : locate kids w.root p = some dir) {comp : List UInt8}
    (hd : ∀ units, utf8ToUtf16 comp (exfatNameMax + 1) = .ok units → (T.record p).isDir = true) :
    Wp E (lookupName dir comp) w fun r v => ∃ kids', Goes w kids v kids' T ∧
      match T.step (comparesEqual u) p comp with
      | .error e => r = .error e
      | .ok q => ∃ k i n, q = p ++ [k] ∧ r = .ok i ∧ locate kids' v.root q = some i ∧
        v.nodes i = some n ∧ 1 ≤ n.references := by
  obtain ⟨n, hn, hs⟩ := h.sits p dir hp
  simp only [lookupName, nameToUtf16, Catalog.step, wp_bind]
  cases hb : utf8ToUtf16 comp (exfatNameMax + 1) with
  | error e =>
    simp only [wp_bind, wp_exfatError, wp_pure]
    refine ⟨kids, (Goes.refl h).counts ⟨fun i n hn => ⟨n.references, hn⟩, fun i hi => hi, rfl, rfl,
      rfl, rfl, rfl⟩ ?_ ?_, trivial⟩
    · exact fun i n hn h0 => h0.trans (refs_eq (w := w.erred _) hn).ge
    · exact fun i n hn => (refs_eq (w := w.erred _) hn).ge
  | ok units =>
    simp only [wp_pure, wp_bind, exfatOpendir]
    refine (exfatGetNode_counts hn).mono ?_
    rintro _ a ⟨hwa, hra⟩
    have hga : Goes w kids a kids T := (Goes.refl h).counts hwa
      (fun i n hn h0 => by rw [hra i, refs_eq hn]; split <;> omega)
      (fun i n hn => by rw [hra i, refs_eq hn]; split <;> omega)
    refine (exfatCacheDirectory_goes hq hga.shown (hga.upcase.trans hu) (hga.place p dir hp)
      (hd units hb)).mono ?_
    rintro _ b ⟨rfl, kids', hab, m, hm, hc⟩
    have hgb := hga.trans hab
    have hpb := hgb.place p dir hp
    simp only [ne_eq, not_true, if_false, wp_pure, wp_bind]
    refine (hab.shown.tree.children hm).mono ?_
    rintro _ _ ⟨rfl, rfl⟩
    have hkids : ∀ i ∈ kids' dir, ∃ n, b.nodes i = some n ∧ Prints n ∧ 0 ≤ n.references := by
      intro i hi
      obtain ⟨k, hk⟩ := List.mem_iff_getElem?.mp hi
      obtain ⟨l, hl, hsl⟩ := hab.shown.sits (p ++ [k]) i (by rw [locate_concat, hpb]; exact hk)
      exact ⟨l, hl, hsl.prints, hsl.held⟩
    refine (lookupLoop_finds (hgb.upcase.trans hu) units hkids).mono ?_
    rintro r c ⟨hr, hbc, hrc⟩
    -- what the directory holds: the reference taken when it was opened is still there
    have hopen : ∀ i n, w.nodes i = some n →
        n.references + (if i = dir then 1 else 0) ≤ refs b i := by
      intro i n hn
      obtain ⟨k, hk⟩ := hwa.nodes i n hn
      obtain ⟨l, hl, hle⟩ := hab.held i _ hk
      have hk' := hra i
      rw [refs_eq hk, refs_eq hn] at hk'
      rw [refs_eq hl, ← hk']
      exact hle
    have hdir1 : 1 ≤ refs b dir := by
      have h1 := hopen dir n hn
      rw [if_pos rfl] at h1
      have h0 := hs.held
      omega
    obtain ⟨km, hkm⟩ := hbc.nodes dir m hm
    obtain ⟨m', hm', hsm⟩ := hab.shown.sits p dir hpb
    obtain rfl := Option.some.inj (hm.symm.trans hm')
    simp only [exfatClosedir]
    have hput : 1 ≤ km := by
      have h1 := hrc dir
      rw [refs_eq hkm] at h1
      simp only at h1
      split at h1 <;> omega
    refine (exfatPutNode_counts hkm hsm.prints hput).mono ?_
    rintro _ d ⟨hcd, hrd⟩
    have hrefs : ∀ i, refs d i = refs b i + (if r = some i then 1 else 0) -
        if i = dir then 1 else 0 := fun i => by rw [hrd i, hrc i]
    have hgd : Goes w kids d kids' T := by
      refine hgb.counts (hbc.trans hcd) (fun i l hl h0 => ?_) fun i l hl => ?_
      · rw [hrefs i]
        by_cases hi : i = dir
        · subst hi
          rw [if_pos rfl]
          split <;> omega
        · rw [if_neg hi, refs_eq hl]
          split <;> omega
      · have h1 := hopen i l hl
        rw [hrefs i]
        split <;> omega
    rcases find?_forall₂ (hab.shown.children (u := u) hpb hm hc units) with ⟨h1, h2⟩ | ⟨i, q, h1, h2, h3⟩
    · rw [h1] at hr
      subst hr
      rw [h2]
      exact ⟨kids', hgd, rfl⟩
    · obtain ⟨hloc, k, rfl⟩ := h3
      rw [h1] at hr
      subst hr
      rw [h2]
      have hlocd : locate kids' d.root (p ++ [k]) = some i := by
        rw [hgd.root, ← hgb.root]
        exact hloc
      obtain ⟨l, hl, -⟩ := hgd.shown.sits _ i hlocd
      obtain ⟨l', hl', hsl'⟩ := hab.shown.sits _ i hloc
      have hne : i ≠ dir := by
        rintro rfl
        have := locate_inj hab.shown.tree hloc hpb
        simp at this
      refine ⟨kids', hgd, k, i, l, rfl, rfl, hlocd, hl, ?_⟩
      have h1 := hrefs i
      rw [refs_eq hl, refs_eq hl', if_pos rfl, if_neg hne] at h1
      have h0 := hsl'.held
      omega

omit [Env] in
theorem strays_nil {same : List Nat → List Nat → Bool} : ¬T.Strays same p [] := by
  rintro ⟨front, c, back, q, units, h, -⟩
  simp at h

omit [Env] in
/-- A path strays at its first component or behind it. -/
theorem strays_cons {same : List Nat → List Nat → Bool} {c : List UInt8} {cs : List (List UInt8)} :
    T.Strays same p (c :: cs) ↔
      ((T.record p).isDir = false ∧ ∃ units, utf8ToUtf16 c (exfatNameMax + 1) = .ok units) ∨
        ∃ q, T.step same p c = .ok q ∧ T.Strays same q cs := by
  constructor
  · rintro ⟨front, d, back, r, units, hc, hr, hd, hu⟩
    cases front with
    | nil =>
      obtain ⟨rfl, rfl⟩ := List.cons.inj hc
      cases hr
      exact .inl ⟨hd, units, hu⟩
    | cons e front =>
      obtain ⟨rfl, rfl⟩ := List.cons.inj hc
      rw [Catalog.resolve, List.foldlM_cons] at hr
      cases hst : T.step same p c with
      | error e => rw [hst] at hr; cases hr
      | ok q =>
        rw [hst] at hr
        exact .inr ⟨q, rfl, front, d, back, r, units, rfl, hr, hd, hu⟩
  · rintro (⟨hd, units, hu⟩ | ⟨q, hst, front, d, back, r, units, rfl, hr, hd, hu⟩)
    · exact ⟨[], c, cs, p, units, rfl, rfl, hd, hu⟩
    · refine ⟨c :: front, d, back, r, units, rfl, ?_, hd, hu⟩
      rw [Catalog.resolve, List.foldlM_cons, hst]
      exact hr

omit [Env] in
/-- A path whose components before the last lead through directories does not stray. -/
theorem leads_not_strays {same : List Nat → List Nat → Bool} {comps : List (List UInt8)}
    (h : T.Leads same p comps) : ¬T.Strays same p comps := by
  rintro ⟨front, c, back, q, units, hc, hr, hd, -⟩
  rw [h front c back hc q hr] at hd
  cases hd

/-- The loop of `exfat_lookup` resolves the components that are left, unless they stray. -/
theorem lookupPath_goes (hq : Env.Quiet) {fuel : Nat} {path : List UInt8} (h : Shows w kids T)
    (hu : w.upcase = some u) (hp : locate kids w.root p = some dir) (hn : w.nodes dir = some n)
    (hr : 1 ≤ n.references) (hf : (components path).length ≤ fuel) :
    Wp (fun e => e = readsFile ∧ T.Strays (comparesEqual u) p (steps path)) (lookupPath fuel dir path)
      w fun r v => ¬T.Strays (comparesEqual u) p (steps path) ∧ ∃ kids', Shows v kids' T ∧
        match T.resolve (comparesEqual u) p (steps path) with
        | .error e => r = .error e
        | .ok q => ∃ i, r = .ok i ∧ locate kids' v.root q = some i := by
  induction fuel generalizing w kids p dir n path with
  | zero =>
    have hnil : components path = [] := List.eq_nil_of_length_eq_zero (Nat.le_zero.mp hf)
    have hsteps : steps path = [] := by rw [steps, hnil]; rfl
    rw [hsteps]
    exact ⟨strays_nil, kids, h, dir, rfl, hp⟩
  | succ fuel ih =>
    have hcomps := components_getComp path
    simp only [lookupPath]
    split
    · rename_i he
      rw [if_pos (List.isEmpty_iff.mp he)] at hcomps
      have hsteps : steps path = [] := by rw [steps, hcomps]; rfl
      rw [hsteps]
      exact ⟨strays_nil, kids, h, dir, rfl, hp⟩
    · rename_i he
      rw [if_neg fun h0 => he (List.isEmpty_iff.mpr h0)] at hcomps
      rw [hcomps, List.length_cons] at hf
      split
      · rename_i hdot
        have hsteps : steps path = steps (getComp path).2 := by
          rw [steps, hcomps, List.filter_cons_of_neg (by simp [hdot])]
          rfl
        rw [hsteps]
        exact ih h hu hp hn hr (Nat.le_of_succ_le_succ hf)
      · rename_i hdot
        have hsteps : steps path = (getComp path).1 :: steps (getComp path).2 := by
          rw [steps, hcomps, List.filter_cons_of_pos (by simpa using hdot)]
          rfl
        rw [hsteps, Catalog.resolve, List.foldlM_cons, strays_cons]
        simp only [wp_bind]
        by_cases hfile : (T.record p).isDir = false ∧
            ∃ units, utf8ToUtf16 (getComp path).1 (exfatNameMax + 1) = .ok units
        · -- the component is looked up in a file
          obtain ⟨hd, units, hb⟩ := hfile
          simp only [lookupName, nameToUtf16, hb, wp_bind, wp_pure]
          refine ((exfatOpendir_file h hp hd).halts fun e he => ?_).mono fun _ _ => False.elim
          exact ⟨he, .inl ⟨hd, units, rfl⟩⟩
        have hopens : ∀ units, utf8ToUtf16 (getComp path).1 (exfatNameMax + 1) = .ok units →
            (T.record p).isDir = true := by
          intro units hb
          by_contra hd
          exact hfile ⟨by simpa using hd, units, hb⟩
        refine (lookupName_goes hq h hu hp hopens).mono ?_
        rintro r a ⟨kids', ha, hstep⟩
        have hpa := ha.place p dir hp
        obtain ⟨m, hm, hle⟩ := ha.held dir n hn
        obtain ⟨m', hm', hs⟩ := ha.shown.sits p dir hpa
        obtain rfl := Option.some.inj (hm.symm.trans hm')
        -- the directory is released once the next component was looked up
        have hput : ∀ E : Halt → Prop, Wp E (exfatPutNode dir) a fun _ b => Shows b kids' T ∧
            Counts a b ∧ ∀ j, j ≠ dir → refs b j = refs a j := by
          intro E
          refine (exfatPutNode_counts hm hs.prints (hr.trans hle)).mono ?_
          rintro _ b ⟨hab, hrb⟩
          refine ⟨ha.shown.counts hab fun j l hl h0 => ?_, hab, fun j hj => ?_⟩
          · rw [hrb j, refs_eq hl]
            split
            · rename_i hj
              subst hj
              obtain rfl := Option.some.inj (hm.symm.trans hl)
              omega
            · omega
          · rw [hrb j, if_neg hj, sub_zero]
        cases hst : T.step (comparesEqual u) p (getComp path).1 with
        | error e =>
          rw [hst] at hstep
          subst hstep
          simp only [wp_bind]
          refine (hput _).mono ?_
          rintro _ b ⟨hb, -⟩
          refine ⟨?_, kids', hb, rfl⟩
          rintro (hdir | ⟨q, hq', -⟩)
          · exact hfile hdir
          · cases hq'
        | ok q =>
          rw [hst] at hstep
          obtain ⟨k, i, l, rfl, rfl, hloc, hi, hri⟩ := hstep
          simp only [wp_bind]
          refine (hput _).mono ?_
          rintro _ b ⟨hb, hab, hrb⟩
          have hne : i ≠ dir := by
            rintro rfl
            have := locate_inj ha.shown.tree hloc hpa
            simp at this
          obtain ⟨c, hc⟩ := hab.nodes i l hi
          have hcr := hrb i hne
          rw [refs_eq hc, refs_eq hi] at hcr
          refine ((ih hb ((hab.upcase.trans ha.upcase).trans hu) (by rw [hab.root]; exact hloc) hc
            (by simp only at hcr ⊢; omega) (Nat.le_of_succ_le_succ hf)).halts ?_).mono ?_
          · rintro e ⟨he, hstray⟩
            exact ⟨he, .inr ⟨_, rfl, hstray⟩⟩
          · rintro r x ⟨hstray, hx⟩
            refine ⟨?_, hx⟩
            rintro (hdir | ⟨q, hq', hcs⟩)
            · exact hfile hdir
            · cases hq'
              exact hstray hcs

/-- `exfat_lookup` resolves the components of a path with `compare_name`, unless they stray. -/
theorem exfatLookup_cases (hq : Env.Quiet) (h : Shows w kids T) (hu : w.upcase = some u)
    (path : List UInt8) :
    Wp (fun e => e = readsFile ∧ T.Strays (comparesEqual u) [] (steps path)) (exfatLookup path) w
      fun r v => ¬T.Strays (comparesEqual u) [] (steps path) ∧ ∃ kids', Shows v kids' T ∧
        match T.resolve (comparesEqual u) [] (steps path) with
        | .error e => r = .error e
        | .ok q => ∃ i, r = .ok i ∧ locate kids' v.root q = some i := by
  obtain ⟨n, hn, hs⟩ := h.sits [] w.root rfl
  simp only [exfatLookup, wp_bind, wp_get]
  refine (exfatGetNode_counts hn).mono ?_
  rintro _ a ⟨hwa, hra⟩
  have hga : Goes w kids a kids T := (Goes.refl h).counts hwa
    (fun i n hn h0 => by rw [hra i, refs_eq hn]; split <;> omega)
    (fun i n hn => by rw [hra i, refs_eq hn]; split <;> omega)
  obtain ⟨k, hk⟩ := hwa.nodes w.root n hn
  have hkr := hra w.root
  rw [if_pos rfl, refs_eq hk, refs_eq hn] at hkr
  have h0 := hs.held
  exact lookupPath_goes hq hga.shown (hga.upcase.trans hu) (hga.place [] w.root rfl) hk
    (by simp only at hkr ⊢; omega) (pieces_length slash path)


/-- A lookup ends as resolving the components does. -/
structure Ends (T : Catalog) (u : Nat → Nat) (path : List UInt8) (r : Except Errno NodeId) (v : World)
    (kids : NodeId → List NodeId) : Prop where
  shown : Shows v kids T
  found : ∀ i, r = .ok i ↔
    ∃ q, T.resolve (sameName u) [] (steps path) = .ok q ∧ locate kids v.root q = some i
  failed : ∀ e, r = .error e ↔ T.resolve (sameName u) [] (steps path) = .error e

theorem Ends.place {path : List UInt8} {r : Except Errno NodeId} (h : Ends T u path r v kids)
    (q : List Nat) : (∃ i, r = .ok i ∧ locate kids v.root q = some i) ↔
      T.resolve (sameName u) [] (steps path) = .ok q := by
  constructor
  · rintro ⟨i, hr, hi⟩
    obtain ⟨q', hq', hi'⟩ := (h.found i).mp hr
    rwa [locate_inj h.shown.tree hi hi']
  · intro hq
    cases r with
    | error e =>
      rw [(h.failed e).mp rfl] at hq
      cases hq
    | ok i =>
      obtain ⟨q', hq', hi'⟩ := (h.found i).mp rfl
      rw [hq'] at hq
      cases hq
      exact ⟨i, rfl, hi'⟩

/-- Two lookups of the same components end alike: in the same error or at the same place. -/
theorem Ends.alike {path path' : List UInt8} {r r' : Except Errno NodeId} (h : Ends T u path r v kids)
    (h' : Ends T u path' r' x kids') (hs : steps path' = steps path) :
    (∀ e, r = .error e ↔ r' = .error e) ∧
      ∀ q, (∃ i, r = .ok i ∧ locate kids v.root q = some i) ↔
        ∃ i, r' = .ok i ∧ locate kids' x.root q = some i := by
  refine ⟨fun e => ?_, fun q => ?_⟩
  · rw [h.failed, h'.failed, hs]
  · rw [h.place, h'.place, hs]

/-- Where `compare_name` leads to the same place as the names that are equal in upper case, looking up is
resolving. -/
theorem exfatLookup_ends (hq : Env.Quiet) {path : List UInt8}
    (hl : ¬T.Strays (comparesEqual u) [] (steps path))
    (hs : T.resolve (comparesEqual u) [] (steps path) = T.resolve (sameName u) [] (steps path))
    (hw : Shows w kids T) (huw : w.upcase = some u) :
    ∃ r v kids', exfatLookup path w = .ok (r, v) ∧ Ends T u path r v kids' := by
  obtain ⟨r, v, hrun, -, kids', hv, hr⟩ :=
    ((exfatLookup_cases hq hw huw path).halts fun _ he => hl he.2).returns
  rw [hs] at hr
  refine ⟨r, v, kids', hrun, hv, fun i => ?_, fun e => ?_⟩
  · cases hres : T.resolve (sameName u) [] (steps path) with
    | error e =>
      rw [hres] at hr
      rw [hr]
      exact ⟨nofun, nofun⟩
    | ok q =>
      rw [hres] at hr
      obtain ⟨j, rfl, hj⟩ := hr
      constructor
      · rintro ⟨⟩
        exact ⟨q, rfl, hj⟩
      · rintro ⟨q', hq', hi⟩
        cases hq'
        rw [hj] at hi
        cases hi
        rfl
  · cases hres : T.resolve (sameName u) [] (steps path) with
    | error e' =>
      rw [hres] at hr
      rw [hr]
      simp only [Except.error.injEq]
    | ok q =>
      rw [hres] at hr
      obtain ⟨j, rfl, -⟩ := hr
      exact ⟨nofun, nofun⟩

/-- A root directory with one child. -/
def parentNode : Node := { attrib := exfatAttribDir, isCached := true, child := some 1 }

/-- A child that was read but not opened. -/
def childNode (m : Node) : Node :=
  { m with parent := some 0, child := none, next := none, prev := none, references := 0
           isCached := false, isDirty := false, isUnlinked := false }

/-- The worlds in which the root directory has one such child. -/
def family (dev : Store) (u : Nat → Nat) (m : Node) : World where
  dev := dev
  sb := smallSb
  upcase := some u
  nodes := fun i => if i = 0 then some parentNode else if i = 1 then some (childNode m) else none
  fresh := 2

/-- The children in these worlds. -/
def soleChild (d : NodeId) : List NodeId := if d = 0 then [1] else []

omit [Env] in
theorem family_nodes {dev : Store} (h : (family dev u m).nodes i = some n) :
    i = 0 ∧ n = parentNode ∨ i = 1 ∧ n = childNode m := by
  simp only [family] at h
  split at h
  · exact Or.inl ⟨‹_›, (Option.some.inj h).symm⟩
  · split at h
    · exact Or.inr ⟨‹_›, (Option.some.inj h).symm⟩
    · cases h

omit [Env] in
theorem family_tree (dev : Store) (u : Nat → Nat) (m : Node) :
    TreeWF (family dev u m) soleChild where
  bound := fun i hi =>
    match i, hi with
    | 0, hi => absurd hi (by simp [family])
    | 1, hi => absurd hi (by simp [family])
    | _ + 2, _ => rfl
  root := ⟨parentNode, rfl, rfl, rfl⟩
  list := fun d =>
    match d with
    | 0 => ⟨rfl, rfl, rfl⟩
    | 1 => rfl
    | _ + 2 => rfl
  nodup := fun d => by
    rw [soleChild]
    split <;> simp
  kid := fun d i => by
    match i with
    | 0 => simp [soleChild, parentOf, family, parentNode]
    | 1 => simp [soleChild, parentOf, family, childNode, eq_comm]
    | i + 2 => simp [soleChild, parentOf, family]
  loose := fun i _ =>
    match i with
    | 0 => ⟨rfl, rfl⟩
    | 1 => ⟨rfl, rfl⟩
    | _ + 2 => ⟨rfl, rfl⟩
  cached := fun d n hn hc => by
    obtain ⟨-, rfl⟩ | ⟨-, rfl⟩ := family_nodes hn
    · decide
    · cases hc
  unlinked := fun i n hn hu => by
    obtain ⟨-, rfl⟩ | ⟨-, rfl⟩ := family_nodes hn <;> cases hu
  uncached := fun d n hn hc => by
    obtain ⟨-, rfl⟩ | ⟨rfl, rfl⟩ := family_nodes hn
    · cases hc
    · rfl

/-- Their catalogs: the child may hold files. -/
def familyCatalog (m : Node) (files : List Node)
    (hm : ∀ l ∈ m :: files, ∀ c ∈ l.name, c < 2 ^ 16) : Catalog where
  record
    | [] => parentNode.record
    | [0] => m.record
    | [0, k] => (files[k]?.getD {}).record
    | _ => ({} : Node).record
  count
    | [] => 1
    | [0] => files.length
    | _ => 0
  units := by
    intro p
    split
    · exact nofun
    · exact hm m (by simp)
    · rename_i k
      cases hk : files[k]? with
      | none => exact nofun
      | some l => exact hm l (by simp [List.mem_of_getElem? hk])
    · exact nofun

theorem family_shows {dev : Store} {files : List Node}
    {hm : ∀ l ∈ m :: files, ∀ c ∈ l.name, c < 2 ^ 16}
    (hd : m.isDir = true → ∃ L, Stored smallSb dev (familyCatalog m files hm) [0] L ∧
      (L ≠ [] → L[m.fptrIndex]? = some m.fptrCluster))
    (hf : ∀ l ∈ files, l.isDir = false) :
    Shows (family dev u m) soleChild (familyCatalog m files hm) := by
  have hg : Geometry smallSb := ⟨by decide, by decide, by decide, by decide⟩
  refine ⟨family_tree dev u m, hg, fun p i hi => ?_⟩
  match p with
  | [] =>
    cases hi
    exact ⟨parentNode, rfl, rfl, le_rfl, nofun, fun _ => rfl, nofun, nofun⟩
  | [0] =>
    cases hi
    refine ⟨childNode m, rfl, rfl, le_rfl, nofun, nofun, fun _ hc => hd hc, fun _ q hpre hne hq => ?_⟩
    obtain ⟨l, rfl⟩ := hpre
    match l with
    | [] => exact absurd rfl hne
    | [k] =>
      exfalso
      have hk : (files[k]?.getD {}).isDir = true := hq
      cases hl : files[k]? with
      | none =>
        rw [hl] at hk
        cases hk
      | some l =>
        rw [hl, Option.getD_some, hf l (List.mem_of_getElem? hl)] at hk
        cases hk
    | _ :: _ :: _ =>
      have hno : ({} : Node).record.isDir = true := hq
      exact absurd hno (by decide)
  | (k + 1) :: p => cases hi
  | 0 :: k :: p => cases hi

omit [Env] in
/-- A path of one component leads through the root directory only. -/
theorem leads_one {same : List Nat → List Nat → Bool} (h : (T.record []).isDir = true)
    (c : List UInt8) : T.Leads same [] [c] := by
  intro front d back hs q hq
  cases front with
  | nil =>
    cases hq
    exact h
  | cons e front => simp at hs

/-- Deleted entries up to the end of a directory list nothing. -/
theorem lists_nothing {dev : Store} {L : List Nat} {sb : SuperBlock} {size j off : Nat}
    (hs : off + entrySize * j = size)
    (h : ∀ k < j, entryType (fileData sb dev L (off + entrySize * k) entrySize) 0 &&&
      exfatEntryValid = 0) : Lists sb dev L size off [] := by
  induction j generalizing off with
  | zero => exact .stop hs.ge
  | succ j ih =>
    simp only [entrySize] at hs
    refine .pass (by simp only [entrySize]; omega) (.deleted (h 0 (Nat.succ_pos j))) (ih ?_ ?_)
    · simp only [entrySize]
      omega
    · intro k hk
      have hnext := h (k + 1) (Nat.succ_lt_succ hk)
      rwa [Nat.mul_succ, Nat.add_comm (entrySize * k), ← Nat.add_assoc] at hnext

/-- The entries of an empty file `a`. -/
def letterSet : List UInt8 :=
  withChecksum (([0x85, 2, 0, 0, 0x20] ++ List.replicate 27 0) ++
    ([0xc0, 1, 0, 1] ++ List.replicate 28 0) ++ ([0xc1, 0, 0x61] ++ List.replicate 29 0))

/-- A directory `d` in the first cluster, which holds that file. -/
def letterDir : Node where
  attrib := exfatAttribDir
  startCluster := 2
  fptrCluster := 2
  size := 512
  isContiguous := true
  name := padName [0x64]

def letterDev : Store := Store.write (fun _ => 0) 1024 letterSet

omit [Env] in
theorem letter_units : ∀ l ∈ [letterDir, @listed calmEnv (0, letterSet)], ∀ c ∈ l.name, c < 2 ^ 16 := by
  decide +kernel

omit [Env] in
theorem letter_stored : @Stored calmEnv smallSb letterDev
    (familyCatalog letterDir [@listed calmEnv (0, letterSet)] letter_units) [0] [2] := by
  let _ := calmEnv
  have hdata : fileData smallSb letterDev [2] 0 (entrySize * 3) = letterSet := by decide +kernel
  have hset : SetOk smallSb letterSet 3 := by
    exact @SetOk.mk calmEnv _ _ _ (by decide +kernel) (by decide +kernel) (by decide +kernel)
      (by decide +kernel) ⟨by decide +kernel, by decide +kernel, by decide +kernel, by decide +kernel,
        by decide +kernel, by decide +kernel⟩
  have hsum : leAt letterSet 2 2 = exfatCalcChecksum letterSet := withChecksum_ok (by simp)
  have hrest : Lists smallSb letterDev [2] 512 (0 + entrySize * 3) [] :=
    lists_nothing (j := 13) rfl (by decide +kernel)
  have hlists : Lists smallSb letterDev [2] 512 0 [(0, letterSet)] := by
    have hfile : Lists smallSb letterDev [2] 512 0
        [(0, fileData smallSb letterDev [2] 0 (entrySize * 3))] :=
      .file (by decide) (by decide +kernel) (by decide +kernel) (hdata ▸ hset) (hdata ▸ hsum) hrest
    rwa [hdata] at hfile
  have hrecord : (familyCatalog letterDir [listed (0, letterSet)] letter_units).record [0, 0] =
      (listed (0, letterSet)).record := by
    simp only [familyCatalog, List.getElem?_cons_zero, Option.getD_some]
  have hvalid : ∀ c ∈ [2], smallSb.clusterInvalid c = false := by decide
  have hone : ([2] : List Nat).Nodup := by simp
  have hroom : (512 : Nat) ≤ 1 * smallSb.clusterSize := by decide
  exact ⟨⟨rfl, trivial⟩, hvalid, hone, hroom, [(0, letterSet)], hlists, .cons hrecord .nil⟩

end Proofs

end Exfat
