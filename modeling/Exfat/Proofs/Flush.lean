import Exfat.Proofs.Entries
import Exfat.Proofs.Tree

namespace Exfat
open Lib

/-! Flushing: `exfat_flush_nodes` and `exfat_flush` bring the disk up to date. -/

namespace Proofs

/-- The entry set of a node in the data of its directory. -/
def entrySet (sb : SuperBlock) (dev : Store) (L : List Nat) (n : Node) : List UInt8 :=
  fileData sb dev L n.entryOffset (entrySize * (1 + n.continuations))

/-- The bitmap on disk is the bitmap in memory. -/
def BitmapStored (sb : SuperBlock) (dev : Store) (m : Cmap) (bits : Nat → Bool) : Prop :=
  dev.read (c2oRaw sb m.startCluster) (bmapSize m.chunkSize) = chunkBytes bits (bmapSize m.chunkSize)

/-- A cluster that the bitmap occupies. -/
def InBitmap (sb : SuperBlock) (m : Cmap) (c : Nat) : Prop :=
  m.startCluster ≤ c ∧ c < m.startCluster + divRoundUp (bmapSize m.chunkSize) sb.clusterSize

section
variable [Env]

/-- A tree mounted for writing: `F` holds the nodes below the root, `ch` the chain of each
directory, `bits` the bitmap in memory. -/
structure FlushReady (w : World) (F : Forest) (ch : NodeId → List Nat) (bits : Nat → Bool) :
    Prop where
  sizes : Sizes w.sb
  writable : w.ro = 0
  root : ∃ r, w.nodes w.root = some r ∧ r.parent = none ∧ Linked w.nodes w.root none r.child F
  nodup : (w.root :: F.ids).Nodup
  bound : ∀ i ∈ w.root :: F.ids, i < w.fresh
  -- the chains of directories are valid, cover their sizes and are disjoint
  walk : ∀ i ∈ w.root :: F.ids, ∀ n, w.nodes i = some n → n.isDir = true →
    Walk (link w.sb w.dev n.isContiguous) n.startCluster (ch i)
  valid : ∀ i ∈ w.root :: F.ids, ∀ n, w.nodes i = some n → n.isDir = true →
    (∀ c ∈ ch i, w.sb.clusterInvalid c = false) ∧ (ch i).Nodup ∧
      n.size ≤ (ch i).length * w.sb.clusterSize
  disjoint : ∀ i ∈ w.root :: F.ids, ∀ j ∈ w.root :: F.ids, ∀ n m, w.nodes i = some n →
    w.nodes j = some m → n.isDir = true → m.isDir = true → i ≠ j → ∀ c ∈ ch i, c ∉ ch j
  -- entry sets lie inside their directory and apart from each other
  inside : ∀ i ∈ F.ids, ∀ n p d, w.nodes i = some n → n.parent = some p → w.nodes p = some d →
    d.isDir = true ∧ n.entryOffset + entrySize * (1 + n.continuations) ≤ d.size
  apart : ∀ i ∈ F.ids, ∀ j ∈ F.ids, ∀ n m, w.nodes i = some n → w.nodes j = some m →
    n.parent = m.parent → i ≠ j →
    n.entryOffset + entrySize * (1 + n.continuations) ≤ m.entryOffset ∨
      m.entryOffset + entrySize * (1 + m.continuations) ≤ n.entryOffset
  -- clean sets are up to date, dirty ones are of the right form
  clean : ∀ i ∈ F.ids, ∀ n p, w.nodes i = some n → n.parent = some p → n.isDirty = false →
    Decodes (entrySet w.sb w.dev (ch p) n) n
  dirty : ∀ i ∈ F.ids, ∀ n p, w.nodes i = some n → n.parent = some p → n.isDirty = true →
    Storable n ∧ checkTypes none
      (entryTypes (entrySet w.sb w.dev (ch p) n) (1 + n.continuations)) = true
  -- the bitmap has clusters of its own and is on disk unless it is dirty
  chunk : w.cmap.chunk = some bits
  placed : 2 ≤ w.cmap.startCluster
  reserved : ∀ i ∈ w.root :: F.ids, ∀ n, w.nodes i = some n → n.isDir = true →
    ∀ c ∈ ch i, ¬InBitmap w.sb w.cmap c
  stored : w.cmap.dirty = false → BitmapStored w.sb w.dev w.cmap bits

/-- The clusters that a flush may write to: those of the bitmap and of the directories. -/
def Flushes (w : World) (F : Forest) (ch : NodeId → List Nat) (x : Nat) : Prop :=
  InBitmap w.sb w.cmap x ∨
    ∃ j ∈ w.root :: F.ids, ∃ m, w.nodes j = some m ∧ m.isDir = true ∧ x ∈ ch j

/-- The FAT entries that link the directories lie outside of the clusters that a flush may write
to. -/
def LinksSpared (w : World) (F : Forest) (ch : NodeId → List Nat) : Prop :=
  ∀ i ∈ w.root :: F.ids, ∀ n, w.nodes i = some n → n.isDir = true → n.isContiguous = false →
    ∀ c ∈ ch i, ∀ x, Flushes w F ch x →
      fatOffset w.sb c + 4 ≤ c2oRaw w.sb x ∨ c2oRaw w.sb x + w.sb.clusterSize ≤ fatOffset w.sb c

/-- The cached file pointer of every directory lies on its chain. -/
def PointersOn (w : World) (F : Forest) (ch : NodeId → List Nat) : Prop :=
  ∀ i ∈ w.root :: F.ids, ∀ n, w.nodes i = some n → n.isDir = true → ch i ≠ [] →
    (ch i)[n.fptrIndex]? = some n.fptrCluster

/-- The invariant of flushing. -/
structure Flushable (w : World) (F : Forest) (ch : NodeId → List Nat) (bits : Nat → Bool) : Prop
    extends FlushReady w F ch bits where
  spared : LinksSpared w F ch
  pointers : PointersOn w F ch

/-- A node after some flushes: only the file pointer and the dirty flag may differ, and a clean node
stays clean. -/
def Flushed (n m : Node) : Prop :=
  ∃ k c b, m = { n with fptrIndex := k, fptrCluster := c, isDirty := n.isDirty && b }

omit [Env] in
theorem Flushed.refl (n : Node) : Flushed n n := ⟨n.fptrIndex, n.fptrCluster, true, by simp⟩

omit [Env] in
theorem Flushed.trans {n m l : Node} (h : Flushed n m) (h' : Flushed m l) : Flushed n l := by
  obtain ⟨k, c, b, rfl⟩ := h
  obtain ⟨k', c', b', rfl⟩ := h'
  exact ⟨k', c', b && b', by simp [Bool.and_assoc]⟩

omit [Env] in
theorem Flushed.sameLinks {n m : Node} (h : Flushed n m) : SameLinks n m := by
  obtain ⟨k, c, b, rfl⟩ := h
  exact ⟨rfl, rfl, rfl, rfl⟩

omit [Env] in
theorem Flushed.clean {n m : Node} (h : Flushed n m) (hn : n.isDirty = false) :
    m.isDirty = false := by
  obtain ⟨k, c, b, rfl⟩ := h
  simp [hn]

/-- What a flush keeps of the world. -/
structure FlushKeeps (w v : World) : Prop where
  sb : v.sb = w.sb
  ro : v.ro = w.ro
  root : v.root = w.root
  fresh : v.fresh = w.fresh
  node : ∀ i n, w.nodes i = some n → ∃ m, v.nodes i = some m ∧ Flushed n m
  startCluster : v.cmap.startCluster = w.cmap.startCluster
  chunkSize : v.cmap.chunkSize = w.cmap.chunkSize
  chunk : v.cmap.chunk = w.cmap.chunk

omit [Env] in
theorem FlushKeeps.refl (w : World) : FlushKeeps w w :=
  ⟨rfl, rfl, rfl, rfl, fun _ n h => ⟨n, h, .refl n⟩, rfl, rfl, rfl⟩

omit [Env] in
theorem FlushKeeps.trans {w v u : World} (h : FlushKeeps w v) (h' : FlushKeeps v u) :
    FlushKeeps w u where
  sb := h'.sb.trans h.sb
  ro := h'.ro.trans h.ro
  root := h'.root.trans h.root
  fresh := h'.fresh.trans h.fresh
  node i n hn := by
    obtain ⟨m, hm, hf⟩ := h.node i n hn
    obtain ⟨l, hl, hf'⟩ := h'.node i m hm
    exact ⟨l, hl, hf.trans hf'⟩
  startCluster := h'.startCluster.trans h.startCluster
  chunkSize := h'.chunkSize.trans h.chunkSize
  chunk := h'.chunk.trans h.chunk

theorem Decodes.flushed {set : List UInt8} {n m : Node} (h : Decodes set n) (hf : Flushed n m) :
    Decodes set m := by
  obtain ⟨k, c, b, rfl⟩ := hf
  exact ⟨h.checksum, h.attrib, h.size, h.startCluster, h.mtime, h.contiguous⟩

theorem Storable.flushed {n m : Node} (h : Storable n) (hf : Flushed n m) : Storable m := by
  obtain ⟨k, c, b, rfl⟩ := hf
  exact ⟨h.attrib, h.size, h.startCluster, h.mtime⟩

variable {w v : World} {F : Forest} {ch : NodeId → List Nat} {bits : Nat → Bool}

/-- Every node below the root exists, and so does the directory it is in. -/
theorem FlushReady.parent (h : FlushReady w F ch bits) {i : NodeId} (hi : i ∈ F.ids) :
    ∃ n p d, w.nodes i = some n ∧ n.parent = some p ∧ w.nodes p = some d ∧
      p ∈ w.root :: F.ids ∧ p ≠ i := by
  obtain ⟨r, hr, -, hl⟩ := h.root
  obtain ⟨n, p, hn, hp, hm, hne⟩ := linked_parent hl h.nodup hi
  rcases List.mem_cons.mp hm with rfl | hpm
  · exact ⟨n, w.root, r, hn, hp, hr, hm, hne⟩
  · obtain ⟨d, -, hd, -⟩ := linked_parent hl h.nodup hpm
    exact ⟨n, p, d, hn, hp, hd, hm, hne⟩

/-- Every node of the tree exists. -/
theorem FlushReady.node (h : FlushReady w F ch bits) {i : NodeId} (hi : i ∈ w.root :: F.ids) :
    ∃ n, w.nodes i = some n := by
  rcases List.mem_cons.mp hi with rfl | hi
  · obtain ⟨r, hr, -⟩ := h.root
    exact ⟨r, hr⟩
  · obtain ⟨n, -, -, hn, -⟩ := h.parent hi
    exact ⟨n, hn⟩

/-- Every node of the tree comes from one before the flush. -/
theorem FlushReady.back (h : FlushReady w F ch bits) (hk : FlushKeeps w v) {i : NodeId} {m : Node}
    (hi : i ∈ w.root :: F.ids) (hm : v.nodes i = some m) :
    ∃ n, w.nodes i = some n ∧ Flushed n m := by
  obtain ⟨n, hn⟩ := h.node hi
  obtain ⟨m', hm', hf⟩ := hk.node i n hn
  exact ⟨n, hn, Option.some.inj (hm'.symm.trans hm) ▸ hf⟩

/-- The chain of a directory of the tree. -/
theorem Flushable.chained (h : Flushable w F ch bits) {i : NodeId} {n : Node}
    (hi : i ∈ w.root :: F.ids) (hn : w.nodes i = some n) (hd : n.isDir = true) :
    Chained w.sb w.dev n (ch i) ∧ n.size ≤ (ch i).length * w.sb.clusterSize := by
  obtain ⟨hv, hnd, hs⟩ := h.valid i hi n hn hd
  exact ⟨⟨h.walk i hi n hn hd, hv, hnd, h.pointers i hi n hn hd⟩, hs⟩

/-- A directory does not hold its own links. -/
theorem Flushable.linksApart (h : Flushable w F ch bits) {i : NodeId} {n : Node}
    (hi : i ∈ w.root :: F.ids) (hn : w.nodes i = some n) (hd : n.isDir = true) :
    LinksApart w.sb n.isContiguous (ch i) := by
  cases hb : n.isContiguous with
  | true => exact Or.inl rfl
  | false =>
    exact Or.inr fun c hc x hx => h.spared i hi n hn hd hb c hc x (Or.inr ⟨i, hi, n, hn, hd, hx⟩)

/-- No other cluster may be written to after a flush than before. -/
theorem FlushReady.flushes (h : FlushReady w F ch bits) (hk : FlushKeeps w v) {x : Nat}
    (hx : Flushes v F ch x) : Flushes w F ch x := by
  rcases hx with hx | ⟨j, hj, m, hm, hd, hx⟩
  · left
    simpa only [InBitmap, hk.sb, hk.startCluster, hk.chunkSize] using hx
  · rw [hk.root] at hj
    obtain ⟨n, hn, k, c, b, rfl⟩ := h.back hk hj hm
    exact Or.inr ⟨j, hj, n, hn, hd, hx⟩

/-- A device that differs from another one in clusters that a flush may write to only. -/
def Spares (w : World) (F : Forest) (ch : NodeId → List Nat) (dev : Store) : Prop :=
  ∀ p, (∀ x, Flushes w F ch x → p < c2oRaw w.sb x ∨ c2oRaw w.sb x + w.sb.clusterSize ≤ p) →
    dev p = w.dev p

/-- A flush leaves the links of directories alone. -/
theorem Flushable.walk_spared (h : Flushable w F ch bits) {i : NodeId} {n : Node} {dev : Store}
    (hdev : Spares w F ch dev) (hi : i ∈ w.root :: F.ids) (hn : w.nodes i = some n)
    (hd : n.isDir = true) : Walk (link w.sb dev n.isContiguous) n.startCluster (ch i) := by
  refine (h.walk i hi n hn hd).congr fun c hc => ?_
  cases hb : n.isContiguous with
  | true => rfl
  | false =>
    have hread : dev.read (fatOffset w.sb c) 4 = w.dev.read (fatOffset w.sb c) 4 := by
      refine Store.read_congr fun p hp hp4 => hdev p fun x hx => ?_
      have := h.spared i hi n hn hd hb c (List.mem_of_mem_dropLast hc) x hx
      omega
    simp only [link, fat, hread]

/-- A step that writes only to clusters of the bitmap and of directories keeps the invariant if it
keeps file pointers on their chains, and every entry set either as it was or up to date. -/
theorem Flushable.step (h : Flushable w F ch bits) (hk : FlushKeeps w v)
    (hdev : Spares w F ch v.dev)
    (hfptr : ∀ i ∈ w.root :: F.ids, ∀ m, v.nodes i = some m → m.isDir = true → ch i ≠ [] →
      (ch i)[m.fptrIndex]? = some m.fptrCluster)
    (hset : ∀ i ∈ F.ids, ∀ n m p, w.nodes i = some n → v.nodes i = some m → n.parent = some p →
      (m.isDirty = n.isDirty ∧ entrySet w.sb v.dev (ch p) n = entrySet w.sb w.dev (ch p) n) ∨
        (m.isDirty = false ∧ Decodes (entrySet w.sb v.dev (ch p) n) n))
    (hstored : v.cmap.dirty = false → BitmapStored v.sb v.dev v.cmap bits) :
    Flushable v F ch bits := by
  obtain ⟨r, hr, hrp, hl⟩ := h.root
  obtain ⟨r', hr', hrf⟩ := hk.node _ _ hr
  have hback := fun i (hi : i ∈ w.root :: F.ids) m => h.back (m := m) hk hi
  have hin : ∀ i ∈ F.ids, i ∈ w.root :: F.ids := fun i hi => List.mem_cons_of_mem _ hi
  refine
    { sizes := hk.sb ▸ h.sizes
      writable := hk.ro.trans h.writable
      root := ⟨r', hk.root ▸ hr', hrf.sameLinks.1.trans hrp, ?_⟩
      nodup := hk.root ▸ h.nodup
      bound := by rw [hk.root, hk.fresh]; exact h.bound
      walk := ?_
      valid := ?_
      disjoint := ?_
      inside := ?_
      apart := ?_
      clean := ?_
      dirty := ?_
      chunk := hk.chunk.trans h.chunk
      placed := hk.startCluster ▸ h.placed
      reserved := ?_
      stored := hstored
      spared := ?_
      pointers := by rw [PointersOn, hk.root]; exact hfptr }
  · rw [hk.root, hrf.sameLinks.2.2.2]
    refine linked_congr (fun i _ n hn => ?_) hl
    obtain ⟨m, hm, hf⟩ := hk.node i n hn
    exact ⟨m, hm, hf.sameLinks⟩
  · rw [hk.root, hk.sb]
    intro i hi m hm hd
    obtain ⟨n, hn, k, c, b, rfl⟩ := hback i hi m hm
    exact h.walk_spared (n := n) hdev hi hn hd
  · rw [hk.root, hk.sb]
    intro i hi m hm hd
    obtain ⟨n, hn, k, c, b, rfl⟩ := hback i hi m hm
    exact h.valid i hi n hn hd
  · rw [hk.root]
    intro i hi j hj n m hn hm hdn hdm hne
    obtain ⟨a, ha, k, c, x, rfl⟩ := hback i hi n hn
    obtain ⟨b, hb, k, c, x, rfl⟩ := hback j hj m hm
    exact h.disjoint i hi j hj a b ha hb hdn hdm hne
  · intro i hi n p d hn hp hd
    obtain ⟨a, ha, k, c, x, rfl⟩ := hback i (hin i hi) n hn
    obtain ⟨a', p', b, ha', hp', hb, -, -⟩ := h.parent hi
    obtain rfl : a' = a := Option.some.inj (ha'.symm.trans ha)
    obtain rfl : p' = p := Option.some.inj (hp'.symm.trans hp)
    obtain ⟨d', hd', k, c, x, rfl⟩ := hk.node p' b hb
    obtain rfl := Option.some.inj (hd'.symm.trans hd)
    exact h.inside i hi a' p' b ha hp' hb
  · intro i hi j hj n m hn hm hp hne
    obtain ⟨a, ha, k, c, x, rfl⟩ := hback i (hin i hi) n hn
    obtain ⟨b, hb, k, c, x, rfl⟩ := hback j (hin j hj) m hm
    exact h.apart i hi j hj a b ha hb hp hne
  · rw [hk.sb]
    intro i hi m p hm hp hcl
    obtain ⟨n, hn, hf⟩ := hback i (hin i hi) m hm
    have hpn : n.parent = some p := hf.sameLinks.1 ▸ hp
    have hes : entrySet w.sb v.dev (ch p) m = entrySet w.sb v.dev (ch p) n := by
      obtain ⟨k, c, b, rfl⟩ := hf
      rfl
    rw [hes]
    rcases hset i hi n m p hn hm hpn with ⟨hd, he⟩ | ⟨-, hdec⟩
    · rw [he]
      exact (h.clean i hi n p hn hpn (hd ▸ hcl)).flushed hf
    · exact hdec.flushed hf
  · rw [hk.sb]
    intro i hi m p hm hp hdt
    obtain ⟨n, hn, hf⟩ := hback i (hin i hi) m hm
    have hpn : n.parent = some p := hf.sameLinks.1 ▸ hp
    rcases hset i hi n m p hn hm hpn with ⟨hd, he⟩ | ⟨hcl, -⟩
    · obtain ⟨hs, hc⟩ := h.dirty i hi n p hn hpn (hd ▸ hdt)
      refine ⟨hs.flushed hf, ?_⟩
      obtain ⟨k, c, b, rfl⟩ := hf
      rw [← he] at hc
      exact hc
    · simp [hcl] at hdt
  · rw [hk.root]
    intro i hi m hm hd c hc
    obtain ⟨n, hn, k, c', b, rfl⟩ := hback i hi m hm
    simp only [InBitmap, hk.sb, hk.startCluster, hk.chunkSize]
    exact h.reserved i hi n hn hd c hc
  · rw [LinksSpared, hk.root, hk.sb]
    intro i hi m hm hd hb c hc x hx
    obtain ⟨n, hn, k, c', b, rfl⟩ := hback i hi m hm
    exact h.spared i hi n hn hd hb c hc x (h.flushes hk hx)

omit [Env] in
/-- A cluster outside the bitmap holds no byte of it. -/
theorem outside_bitmap {sb : SuperBlock} {m : Cmap} {c o : Nat} (hc : 2 ≤ c)
    (hm : 2 ≤ m.startCluster) (hb : ¬InBitmap sb m c) (ho : o < sb.clusterSize) :
    c2oRaw sb c + o < c2oRaw sb m.startCluster ∨
      c2oRaw sb m.startCluster + bmapSize m.chunkSize ≤ c2oRaw sb c + o := by
  have hle := le_divRoundUp_mul (bmapSize m.chunkSize) (clusterSize_pos sb)
  rw [c2oRaw_eq sb c, c2oRaw_eq sb m.startCluster]
  by_cases hlt : c < m.startCluster
  · left
    have : (c - 2 + 1) * sb.clusterSize ≤ (m.startCluster - 2) * sb.clusterSize :=
      Nat.mul_le_mul_right _ (by omega)
    rw [Nat.succ_mul] at this
    omega
  · right
    have hge : m.startCluster + divRoundUp (bmapSize m.chunkSize) sb.clusterSize ≤ c := by
      simp only [InBitmap] at hb
      omega
    have : (m.startCluster - 2 + divRoundUp (bmapSize m.chunkSize) sb.clusterSize) *
        sb.clusterSize ≤ (c - 2) * sb.clusterSize := Nat.mul_le_mul_right _ (by omega)
    rw [Nat.add_mul] at this
    omega

/-- The bitmap is written to its own clusters. -/
theorem FlushReady.spares_bitmap (h : FlushReady w F ch bits) :
    Spares w F ch (w.dev.write (c2oRaw w.sb w.cmap.startCluster)
      (chunkBytes bits (bmapSize w.cmap.chunkSize))) := by
  intro p hp
  refine Store.write_out _ ?_
  rw [chunkBytes_length]
  by_contra hin
  have hcs := clusterSize_pos w.sb
  have hle := le_divRoundUp_mul (bmapSize w.cmap.chunkSize) hcs
  -- the cluster of the bitmap that the position lies in
  have hq : (p - c2oRaw w.sb w.cmap.startCluster) / w.sb.clusterSize <
      divRoundUp (bmapSize w.cmap.chunkSize) w.sb.clusterSize :=
    Nat.div_lt_of_lt_mul (by rw [Nat.mul_comm]; omega)
  have hmod := Nat.div_add_mod' (p - c2oRaw w.sb w.cmap.startCluster) w.sb.clusterSize
  have hlt := Nat.mod_lt (p - c2oRaw w.sb w.cmap.startCluster) hcs
  have hx := hp (w.cmap.startCluster + (p - c2oRaw w.sb w.cmap.startCluster) / w.sb.clusterSize)
    (Or.inl ⟨Nat.le_add_right _ _, Nat.add_lt_add_left hq _⟩)
  have hplaced := h.placed
  generalize (p - c2oRaw w.sb w.cmap.startCluster) % w.sb.clusterSize = o at hmod hlt
  generalize (p - c2oRaw w.sb w.cmap.startCluster) / w.sb.clusterSize = q at hq hmod hx
  have hbase : c2oRaw w.sb (w.cmap.startCluster + q) =
      c2oRaw w.sb w.cmap.startCluster + q * w.sb.clusterSize := by
    rw [c2oRaw_eq w.sb w.cmap.startCluster, c2oRaw_eq w.sb (w.cmap.startCluster + q),
      show w.cmap.startCluster + q - 2 = w.cmap.startCluster - 2 + q by omega, Nat.add_mul,
      Nat.add_assoc]
  omega

omit [Env] in
/-- Data of a directory is written to its own clusters. -/
theorem Wrote.spares {p : NodeId} {d : Node} {o : Nat} {bs : List UInt8} {dev : Store}
    (hw : Wrote w.sb w.dev (ch p) o bs dev) (hd : w.nodes p = some d) (hpm : p ∈ w.root :: F.ids)
    (hdir : d.isDir = true) (ho : o + bs.length ≤ (ch p).length * w.sb.clusterSize) :
    Spares w F ch dev := by
  intro q hq
  refine hw.outside q fun j hj he => ?_
  obtain ⟨c, hc, hcm⟩ := exists_cluster (show o + j < (ch p).length * w.sb.clusterSize by omega)
  have hout := hq c (Or.inr ⟨p, hpm, d, hd, hdir, hcm⟩)
  have hlt := Nat.mod_lt (o + j) (clusterSize_pos w.sb)
  rw [filePos_eq hc] at he
  omega

/-- Data of a directory of the tree lies in its chain. -/
theorem Flushable.set_lt (h : Flushable w F ch bits) {i p : NodeId} {n d : Node}
    (hi : i ∈ F.ids) (hn : w.nodes i = some n) (hp : n.parent = some p) (hd : w.nodes p = some d)
    (hpm : p ∈ w.root :: F.ids) :
    n.entryOffset + entrySize * (1 + n.continuations) ≤ (ch p).length * w.sb.clusterSize := by
  obtain ⟨hdir, hin⟩ := h.inside i hi n p d hn hp hd
  have := (h.chained hpm hd hdir).2
  omega

/-- `exfat_flush` writes the bitmap and nothing else. -/
theorem exfatFlush_spec {E : Halt → Prop} (hq : Env.Quiet) (h : Flushable w F ch bits) :
    Wp E exfatFlush w fun rc v => rc = .ok ∧ Flushable v F ch bits ∧ FlushKeeps w v ∧
      v.nodes = w.nodes ∧ v.cmap.dirty = false := by
  simp only [exfatFlush, wp_bind, wp_get]
  cases hdirty : w.cmap.dirty with
  | false =>
    simp only [Bool.false_eq_true, if_false, wp_pure]
    exact ⟨trivial, h, .refl w, trivial, hdirty⟩
  | true =>
    simp only [if_true, wp_bind, wp_getChunk h.chunk]
    refine after_ret (exfatC2o_spec h.placed) fun t => after_ret (exfatPwrite_spec hq _ _) fun t => ?_
    simp only [if_true, wp_bind, wp_setChunk, wp_pure, World.withDev_ticked, World.ticked_ticked,
      World.withDev_cmap, World.ticked_cmap, World.ticked_dev]
    obtain ⟨dev, hdev⟩ : ∃ d, w.dev.write (c2oRaw w.sb w.cmap.startCluster)
      (chunkBytes bits (bmapSize w.cmap.chunkSize)) = d := ⟨_, rfl⟩
    rw [hdev]
    have hk : FlushKeeps w (((w.ticked t).withDev dev).withCmap
        { w.cmap with chunk := some bits, dirty := false }) :=
      ⟨rfl, rfl, rfl, rfl, fun i n hn => ⟨n, hn, .refl n⟩, rfl, rfl, h.chunk.symm⟩
    subst hdev
    refine ⟨trivial, h.step hk h.spares_bitmap ?_ ?_ ?_, hk, rfl, rfl⟩
    · intro i hi m hm hd hne
      exact (h.chained hi hm hd).1.fptr hne
    · intro i hi n m p hn hm hp
      obtain rfl := Option.some.inj (hn.symm.trans hm)
      refine Or.inl ⟨rfl, fileData_congr fun j hj => ?_⟩
      obtain ⟨n', p', d, hn', hp', hd, hpm, -⟩ := h.parent hi
      obtain rfl := Option.some.inj (hn'.symm.trans hn)
      obtain rfl := Option.some.inj (hp'.symm.trans hp)
      have hdir := (h.inside i hi n' p' d hn' hp' hd).1
      have hlt : n'.entryOffset + j < (ch p').length * w.sb.clusterSize := by
        have := h.set_lt hi hn' hp' hd hpm
        omega
      obtain ⟨c, hc, hcm⟩ := exists_cluster hlt
      have hout := outside_bitmap ((h.chained hpm hd hdir).1.ge hcm) h.placed
        (h.reserved p' hpm d hd hdir c hcm) (Nat.mod_lt (n'.entryOffset + j) (clusterSize_pos w.sb))
      rw [filePos_eq hc]
      exact Store.write_out _ (by rw [chunkBytes_length]; exact hout)
    · intro _
      have hr := Store.read_write_self w.dev (c2oRaw w.sb w.cmap.startCluster)
        (chunkBytes bits (bmapSize w.cmap.chunkSize))
      rw [chunkBytes_length] at hr
      exact hr

/-- Writing into a directory does not touch the bitmap. -/
theorem Flushable.stored_write (h : Flushable w F ch bits) {p : NodeId} {d : Node} {o : Nat}
    {bs : List UInt8} {dev : Store} (hd : w.nodes p = some d) (hpm : p ∈ w.root :: F.ids)
    (hdir : d.isDir = true) (ho : o + bs.length ≤ (ch p).length * w.sb.clusterSize)
    (hw : Wrote w.sb w.dev (ch p) o bs dev) (hs : BitmapStored w.sb w.dev w.cmap bits) :
    BitmapStored w.sb dev w.cmap bits := by
  rw [BitmapStored, ← hs]
  refine Store.read_congr fun q hl hr => hw.outside q fun j hj he => ?_
  have hlt : o + j < (ch p).length * w.sb.clusterSize := by omega
  obtain ⟨c, hc, hcm⟩ := exists_cluster hlt
  have hout := outside_bitmap ((h.chained hpm hd hdir).1.ge hcm) h.placed
    (h.reserved p hpm d hd hdir c hcm) (Nat.mod_lt (o + j) (clusterSize_pos w.sb))
  rw [filePos_eq hc] at he
  omega

/-- The read-modify-write of `exfat_flush_node` makes the set of a dirty node decode to it and leaves
every other set alone. -/
theorem Flushable.write_set (h : Flushable w F ch bits) {i p : NodeId} {n d : Node} {dev : Store}
    (hi : i ∈ F.ids) (hn : w.nodes i = some n) (hp : n.parent = some p) (hd : w.nodes p = some d)
    (hpm : p ∈ w.root :: F.ids) (hdt : n.isDirty = true)
    (hw : Wrote w.sb w.dev (ch p) n.entryOffset
      (flushEntries n (entrySet w.sb w.dev (ch p) n)) dev) :
    Decodes (entrySet w.sb dev (ch p) n) n ∧
      ∀ j ∈ F.ids, j ≠ i → ∀ m q, w.nodes j = some m → m.parent = some q →
        entrySet w.sb dev (ch q) m = entrySet w.sb w.dev (ch q) m := by
  obtain ⟨hst, hct⟩ := h.dirty i hi n p hn hp hdt
  have hcont := checkTypes_two hct
  have hlen : (entrySet w.sb w.dev (ch p) n).length = entrySize * (1 + n.continuations) :=
    fileData_length _ _ _ _ _
  have h64 : 64 ≤ (entrySet w.sb w.dev (ch p) n).length := by
    rw [hlen]
    simp only [entrySize]
    omega
  have hfl := flushEntries_length h64 n
  have hdir := (h.inside i hi n p d hn hp hd).1
  have hch := (h.chained hpm hd hdir).1
  have hlt := h.set_lt hi hn hp hd hpm
  constructor
  · have hdata := hw.fileData
    rw [hfl, hlen] at hdata
    rw [entrySet, hdata]
    exact flushEntries_decodes h64 hst
  · intro j hj hne m q hm hq
    obtain ⟨m', q', d', hm', hq', hd', hqm, -⟩ := h.parent hj
    obtain rfl := Option.some.inj (hm'.symm.trans hm)
    obtain rfl := Option.some.inj (hq'.symm.trans hq)
    have hdir' := (h.inside j hj m' q' d' hm' hq' hd').1
    have hch' := (h.chained hqm hd' hdir').1
    have hlt' := h.set_lt hj hm' hq' hd' hqm
    refine fileData_congr fun x hx => ?_
    by_cases hpq : p = q'
    · subst hpq
      have hap := h.apart i hi j hj n m' hn hm' (hp.trans hq'.symm) (Ne.symm hne)
      exact hw.same (fun c hc => hch.ge hc) hch.nodup (by omega) (by omega) (by omega)
    · exact hw.other (fun c hc => hch.ge hc) (fun c hc => hch'.ge hc)
        (h.disjoint p hpm q' hqm d d' hd hd' hdir hdir' hpq) (by omega) (by omega)

/-- The root has no entry set to flush. -/
theorem exfatFlushNode_root {E : Halt → Prop} (h : FlushReady w F ch bits) :
    Wp E (exfatFlushNode w.root) w fun rc v => rc = .ok ∧ v = w := by
  obtain ⟨r, hr, hrp, -⟩ := h.root
  have hpost : Wp E (pure .ok : M Rc) w fun rc v => rc = .ok ∧ v = w := ⟨rfl, rfl⟩
  simp only [exfatFlushNode, wp_bind, wp_getNode hr, hrp]
  cases r.isDirty with
  | false => simpa only [Bool.not_false, if_true] using hpost
  | true =>
    simpa only [Bool.not_true, Bool.false_eq_true, if_false, wp_bind, wp_get, h.writable, ne_eq,
      not_true_eq_false] using hpost

omit [Env] in
/-- A flushed node is clean, and the file pointer of its directory has moved. -/
theorem flushKeeps_flushed {i p : NodeId} {n d : Node} {dev : Store} {t k c : Nat}
    (hn : w.nodes i = some n) (hd : w.nodes p = some d) :
    FlushKeeps w ((((w.ticked t).withDev dev).setNode p (d.seek k c)).setNode i
      { n with isDirty := false }) := by
  refine ⟨rfl, rfl, rfl, rfl, fun j m hm => ?_, rfl, rfl, rfl⟩
  by_cases hji : j = i
  · subst hji
    obtain rfl := Option.some.inj (hn.symm.trans hm)
    exact ⟨_, World.setNode_self _ _ _, n.fptrIndex, n.fptrCluster, false, by simp⟩
  rw [World.setNode_ne _ _ hji]
  by_cases hjp : j = p
  · subst hjp
    obtain rfl := Option.some.inj (hd.symm.trans hm)
    exact ⟨_, World.setNode_self _ _ _, k, c, true, by simp [Node.seek]⟩
  · rw [World.setNode_ne _ _ hjp]
    exact ⟨m, hm, .refl m⟩

/-- The write of `exfat_flush_node` keeps the invariant. -/
theorem Flushable.flushed (h : Flushable w F ch bits) {i p : NodeId} {n d : Node} {dev : Store}
    {t k c : Nat} (hi : i ∈ F.ids) (hn : w.nodes i = some n) (hp : n.parent = some p)
    (hd : w.nodes p = some d) (hpm : p ∈ w.root :: F.ids) (hpi : p ≠ i) (hdt : n.isDirty = true)
    (hc : (ch p)[k]? = some c)
    (hw : Wrote w.sb w.dev (ch p) n.entryOffset
      (flushEntries n (entrySet w.sb w.dev (ch p) n)) dev)
    (ho : n.entryOffset + (flushEntries n (entrySet w.sb w.dev (ch p) n)).length ≤
      (ch p).length * w.sb.clusterSize) :
    Flushable ((((w.ticked t).withDev dev).setNode p (d.seek k c)).setNode i
      { n with isDirty := false }) F ch bits := by
  obtain ⟨hdec, hoth⟩ := h.write_set hi hn hp hd hpm hdt hw
  have hdir := (h.inside i hi n p d hn hp hd).1
  refine h.step (flushKeeps_flushed hn hd) (hw.spares hd hpm hdir ho) ?_ ?_ fun hcd =>
    h.stored_write hd hpm hdir ho hw (h.stored hcd)
  · intro j hj m hm hmd hne
    by_cases hjp : j = p
    · subst hjp
      rw [World.setNode_ne _ _ hpi, World.setNode_self] at hm
      obtain rfl := Option.some.inj hm
      exact hc
    obtain ⟨m', hm', hf⟩ : ∃ m', w.nodes j = some m' ∧ m.fptrIndex = m'.fptrIndex ∧
        m.fptrCluster = m'.fptrCluster ∧ m.isDir = m'.isDir := by
      by_cases hji : j = i
      · subst hji
        obtain rfl := Option.some.inj ((World.setNode_self _ _ _).symm.trans hm)
        exact ⟨n, hn, rfl, rfl, rfl⟩
      · rw [World.setNode_ne _ _ hji, World.setNode_ne _ _ hjp] at hm
        exact ⟨m, hm, rfl, rfl, rfl⟩
    rw [hf.1, hf.2.1]
    exact (h.chained hj hm' (hf.2.2 ▸ hmd)).1.fptr hne
  · intro j hj a b q ha hb hq'
    by_cases hji : j = i
    · subst hji
      obtain rfl := Option.some.inj (hn.symm.trans ha)
      obtain rfl := Option.some.inj ((World.setNode_self _ _ _).symm.trans hb)
      obtain rfl := Option.some.inj (hp.symm.trans hq')
      exact Or.inr ⟨rfl, hdec⟩
    refine Or.inl ⟨?_, hoth j hj hji a q ha hq'⟩
    rw [World.setNode_ne _ _ hji] at hb
    by_cases hjp : j = p
    · subst hjp
      rw [World.setNode_self] at hb
      obtain rfl := Option.some.inj (hd.symm.trans ha)
      obtain rfl := Option.some.inj hb
      rfl
    · rw [World.setNode_ne _ _ hjp] at hb
      obtain rfl := Option.some.inj (ha.symm.trans hb)
      rfl

/-- `exfat_flush_node` keeps the invariant and leaves its node clean. -/
theorem exfatFlushNode_spec {E : Halt → Prop} (hq : Env.Quiet) (h : Flushable w F ch bits)
    {i : NodeId} (hi : i ∈ w.root :: F.ids) :
    Wp E (exfatFlushNode i) w fun rc v => rc = .ok ∧ Flushable v F ch bits ∧ FlushKeeps w v ∧
      (i ∈ F.ids → ∀ m, v.nodes i = some m → m.isDirty = false) := by
  rcases List.mem_cons.mp hi with rfl | hiF
  · have hnot : w.root ∉ F.ids := (List.nodup_cons.mp h.nodup).1
    refine (exfatFlushNode_root h.toFlushReady).mono ?_
    rintro _ _ ⟨rfl, rfl⟩
    exact ⟨rfl, h, .refl _, fun hf => absurd hf hnot⟩
  obtain ⟨n, p, d, hn, hp, hd, hpm, hpi⟩ := h.parent hiF
  simp only [exfatFlushNode, wp_bind, wp_getNode hn, hp]
  cases hdt : n.isDirty with
  | false =>
    simp only [Bool.not_false, if_true, wp_pure]
    exact ⟨trivial, h, .refl w, fun _ m hm => Option.some.inj (hn.symm.trans hm) ▸ hdt⟩
  | true =>
    simp only [Bool.not_true, Bool.false_eq_true, if_false, wp_bind, wp_get, h.writable, ne_eq,
      not_true_eq_false]
    obtain ⟨hdir, hin⟩ := h.inside i hiF n p d hn hp hd
    obtain ⟨hch, hsz⟩ := h.chained hpm hd hdir
    obtain ⟨-, hct⟩ := h.dirty i hiF n p hn hp hdt
    have hcont := checkTypes_two hct
    have hlen : (entrySet w.sb w.dev (ch p) n).length = entrySize * (1 + n.continuations) :=
      fileData_length _ _ _ _ _
    have h64 : 64 ≤ (entrySet w.sb w.dev (ch p) n).length := by
      rw [hlen]
      simp only [entrySize]
      omega
    have hfl := flushEntries_length h64 n
    have hne : flushEntries n (entrySet w.sb w.dev (ch p) n) ≠ [] := by
      rw [← List.length_pos_iff]
      omega
    have hoff : n.entryOffset < (ch p).length * w.sb.clusterSize := by omega
    obtain ⟨c, hc, -⟩ := exists_cluster hoff
    -- the set is read, and written again
    refine after_ret (readEntries_spec hq h.sizes.count hd hdir hch hsz (by omega) hin hc) fun t => ?_
    rw [entrySet] at hct
    simp only [checkEntries, hct, if_true, wp_bind, wp_pure, Bool.not_true, Bool.false_eq_true,
      if_false, World.setNode_ticked]
    have hw := writeEntries_spec (E := E) hq
      (w := (w.ticked t).setNode p (d.seek (n.entryOffset / w.sb.clusterSize) c)) h.sizes
      (World.setNode_self _ p _) hdir (hch.advanced hc) (h.linksApart (n := d) hpm hd hdir) hsz hne (by
        rw [hfl, hlen]
        exact hin) hc
    apply hw.mono
    rintro _ _ ⟨dev, hw, rfl, t, rfl⟩
    simp only [World.setNode_sb, World.ticked_sb, World.setNode_dev, World.ticked_dev] at hw
    simp only [not_true_eq_false, if_false, wp_bind, World.setNode_ticked, World.setNode_withDev,
      World.withDev_ticked, World.ticked_ticked, World.setNode_setNode, World.setNode_sb,
      World.ticked_sb, Node.seek_seek]
    rw [wp_modifyNode (n := n) (by rw [World.setNode_ne _ _ (Ne.symm hpi)]; exact hn)]
    have hready := h.flushed (t := t) hiF hn hp hd hpm hpi hdt hc hw (by rw [hfl, hlen]; omega)
    -- the bitmap is flushed too
    refine (exfatFlush_spec hq hready).mono ?_
    rintro _ u ⟨rfl, hu, hku, hnodes, -⟩
    refine ⟨rfl, hu, (flushKeeps_flushed hn hd).trans hku, fun _ m hm => ?_⟩
    rw [hnodes, World.setNode_self] at hm
    obtain rfl := Option.some.inj hm
    rfl

omit [Env] in
/-- Nodes that are clean stay clean. -/
theorem FlushKeeps.clean (hk : FlushKeeps w v) {i : NodeId} {n m : Node}
    (hn : w.nodes i = some n) (hc : n.isDirty = false) (hm : v.nodes i = some m) :
    m.isDirty = false := by
  obtain ⟨m', hm', hf⟩ := hk.node i n hn
  exact Option.some.inj (hm'.symm.trans hm) ▸ hf.clean hc

omit [Env] in
theorem FlushKeeps.linked (hk : FlushKeeps w v) {G : Forest} {i : NodeId} {q p : Option NodeId}
    (h : Linked w.nodes i q p G) : Linked v.nodes i q p G := by
  refine linked_congr (fun j _ n hn => ?_) h
  obtain ⟨m, hm, hf⟩ := hk.node j n hn
  exact ⟨m, hm, hf.sameLinks⟩

/-- The postcondition of flushing a part of the tree. -/
def FlushPost (w : World) (F : Forest) (ch : NodeId → List Nat) (bits : Nat → Bool)
    (done : List NodeId) (rc : Rc) (v : World) : Prop :=
  rc = .ok ∧ Flushable v F ch bits ∧ FlushKeeps w v ∧
    ∀ i ∈ done, ∀ m, v.nodes i = some m → m.isDirty = false

theorem FlushPost.then (hk : FlushKeeps w v) {as bs : List NodeId}
    (hc : ∀ i ∈ as, ∀ m, v.nodes i = some m → m.isDirty = false)
    (hw : ∀ i ∈ as, ∃ n, w.nodes i = some n) {rc : Rc} {u : World}
    (h : FlushPost v F ch bits bs rc u) : FlushPost w F ch bits (as ++ bs) rc u := by
  obtain ⟨hrc, hr, hk', hb⟩ := h
  refine ⟨hrc, hr, hk.trans hk', fun i hi m hm => ?_⟩
  rcases List.mem_append.mp hi with hi | hi
  · obtain ⟨n, hn⟩ := hw i hi
    obtain ⟨n', hn', -⟩ := hk.node i n hn
    exact hk'.clean hn' (hc i hi n' hn') hm
  · exact hb i hi m hm

/-- The loop of `flush_nodes` over a list of siblings cleans the whole forest below them. -/
theorem flushList_spec {E : Halt → Prop} (hq : Env.Quiet) {G : Forest} {fuel : Nat}
    {parent : NodeId} {q p : Option NodeId} (h : Flushable w F ch bits)
    (hl : Linked w.nodes parent q p G) (hsub : ∀ i ∈ G.ids, i ∈ F.ids)
    (hlen : G.ids.length ≤ w.fresh) (hf : 2 * G.ids.length ≤ fuel) :
    Wp E (flushList fuel G.tops) w (FlushPost w F ch bits G.ids) := by
  induction G generalizing w fuel parent q p with
  | nil => cases fuel <;> exact ⟨rfl, h, .refl w, by simp [Forest.ids]⟩
  | node id kids rest ihk ihr =>
    obtain ⟨-, n, hid, -, -, hk, hr⟩ := hl
    simp only [Forest.ids, List.length_cons, List.length_append] at hlen hf
    obtain ⟨fuel, rfl⟩ : ∃ f, fuel = f + 2 := ⟨fuel - 2, by omega⟩
    have hkids : ∀ i ∈ kids.ids, i ∈ F.ids := fun i hi => hsub i (by simp [Forest.ids, hi])
    have hrest : ∀ i ∈ rest.ids, i ∈ F.ids := fun i hi => hsub i (by simp [Forest.ids, hi])
    have hidF : id ∈ F.ids := hsub id (by simp [Forest.ids])
    have hex : ∀ i ∈ F.ids, ∃ n, w.nodes i = some n := fun i hi => by
      obtain ⟨n, -, -, hn, -⟩ := h.parent hi
      exact ⟨n, hn⟩
    simp only [Forest.tops, flushList, flushNodes, wp_bind]
    apply (children_spec hid hk (by omega)).mono
    rintro _ _ ⟨rfl, rfl⟩
    apply (ihk h hk hkids (by omega) (by omega)).mono
    rintro _ v ⟨rfl, hrv, hkv, hcv⟩
    simp only [ne_eq, not_true_eq_false, if_false]
    apply (exfatFlushNode_spec hq hrv (List.mem_cons_of_mem _ hidF)).mono
    rintro _ u ⟨rfl, hru, hku, hcu⟩
    simp only [not_true_eq_false, if_false]
    apply (ihr hru ((hkv.trans hku).linked hr) hrest (by rw [(hkv.trans hku).fresh]; omega)
      (by omega)).mono
    intro rc x hx
    have hmid : FlushPost w F ch bits (kids.ids ++ [id]) .ok u :=
      FlushPost.then hkv hcv (fun i hi => hex i (hkids i hi))
        ⟨rfl, hru, hku, fun i hi => by
          obtain rfl := List.mem_singleton.mp hi
          exact hcu hidF⟩
    obtain ⟨hrc, hrx, hkx, hcx⟩ := FlushPost.then hmid.2.2.1 hmid.2.2.2 (fun i hi => hex i (by
      rcases List.mem_append.mp hi with hi | hi
      · exact hkids i hi
      · exact List.mem_singleton.mp hi ▸ hidF)) hx
    refine ⟨hrc, hrx, hkx, fun i hi => hcx i ?_⟩
    simp only [Forest.ids, List.mem_cons, List.mem_append, List.not_mem_nil, or_false] at hi ⊢
    tauto

/-- `exfat_flush_nodes` cleans every node below the root. -/
theorem exfatFlushNodes_spec {E : Halt → Prop} (hq : Env.Quiet) (h : Flushable w F ch bits) :
    Wp E exfatFlushNodes w (FlushPost w F ch bits F.ids) := by
  obtain ⟨r, hr, -, hl⟩ := h.root
  have hlen : F.ids.length ≤ w.fresh :=
    nodup_length_le (List.nodup_cons.mp h.nodup).2 fun i hi =>
      h.bound i (List.mem_cons_of_mem _ hi)
  simp only [exfatFlushNodes, wp_bind, wp_get, flushNodes]
  apply (children_spec hr hl hlen).mono
  rintro _ _ ⟨rfl, rfl⟩
  apply (flushList_spec hq h hl (fun _ hi => hi) hlen (by omega)).mono
  rintro _ v ⟨rfl, hrv, hkv, hcv⟩
  simp only [ne_eq, not_true_eq_false, if_false]
  have hroot : w.root ∈ v.root :: F.ids := hkv.root ▸ List.mem_cons_self
  apply (exfatFlushNode_spec hq hrv hroot).mono
  rintro _ u ⟨rfl, hru, hku, -⟩
  refine ⟨rfl, hru, hkv.trans hku, fun i hi m hm => ?_⟩
  obtain ⟨n, -, -, hn, -⟩ := hrv.parent hi
  exact hku.clean hn (hcv i hi n hn) hm

/-- `exfat_flush_nodes` followed by `exfat_flush`. -/
def flushAll : M (Rc × Rc) := do
  let nodes ← exfatFlushNodes
  let bitmap ← exfatFlush
  pure (nodes, bitmap)

/-- Flushing makes disk and memory agree: both calls return zero, only file pointers and dirty flags
change in memory, every node below the root is clean and its entry set decodes to it, and the bitmap
on disk is the one in memory. -/
theorem flush_agrees (hq : Env.Quiet) (hr : FlushReady w F ch bits) (hl : LinksSpared w F ch)
    (hp : PointersOn w F ch) :
    ∃ v, flushAll w = .ok ((.ok, .ok), v) ∧ FlushKeeps w v ∧
      (∀ i ∈ F.ids, ∃ m p, v.nodes i = some m ∧ m.parent = some p ∧ m.isDirty = false ∧
        Decodes (entrySet v.sb v.dev (ch p) m) m) ∧
      v.cmap.chunk = some bits ∧ BitmapStored v.sb v.dev v.cmap bits := by
  have h : Flushable w F ch bits := ⟨hr, hl, hp⟩
  have hrun : Wp (fun _ => False) flushAll w fun rc v => rc = (.ok, .ok) ∧
      Flushable v F ch bits ∧ FlushKeeps w v ∧ v.cmap.dirty = false ∧
      ∀ i ∈ F.ids, ∀ m, v.nodes i = some m → m.isDirty = false := by
    simp only [flushAll, wp_bind]
    apply (exfatFlushNodes_spec hq h).mono
    rintro _ v ⟨rfl, hrv, hkv, hcv⟩
    apply (exfatFlush_spec hq hrv).mono
    rintro _ u ⟨rfl, hru, hku, hnodes, hd⟩
    refine ⟨rfl, hru, hkv.trans hku, hd, fun i hi m hm => hcv i hi m ?_⟩
    rwa [hnodes] at hm
  obtain ⟨_, v, hv, rfl, hrv, hkv, hd, hc⟩ := hrun.returns
  refine ⟨v, hv, hkv, fun i hi => ?_, hrv.chunk, hrv.stored hd⟩
  obtain ⟨m, p, -, hm, hp, -⟩ := hrv.parent hi
  exact ⟨m, p, hm, hp, hc i hi m hm, hrv.clean i hi m p hm hp (hc i hi m hm)⟩

end

/-- A file that was written to and emptied again: it is dirty and still marked as contiguous in
memory. -/
def emptied (off : Nat) (prev next : Option NodeId) : Node :=
  { parent := some 0, prev := prev, next := next, entryOffset := off, attrib := exfatAttribArch
    continuations := 2, isContiguous := true, isDirty := true, mtime := 1000000000 }

/-- A root directory of two linked clusters, with the set of an emptied file at the start of each.
The cached pointer of the root is at its first cluster, or claims to be. -/
def emptiedFiles (sb : SuperBlock) (cached : Nat) : World where
  dev := fun i =>
    if i = fatOffset sb 4 then 5
    else if i = 2048 ∨ i = 2560 then 0x85
    else if i = 2080 ∨ i = 2592 then 0xc0
    else if i = 2112 ∨ i = 2624 then 0xc1
    else 0
  sb := sb
  cmap := { startCluster := 2, size := 8, chunk := some fun i => i < 4, chunkSize := 8, dirty := true }
  nodes := fun i =>
    if i = 0 then
      some { child := some 1, startCluster := 4, fptrCluster := cached, attrib := exfatAttribDir
             isCached := true, size := 1024 }
    else if i = 1 then some (emptied 0 none (some 2))
    else if i = 2 then some (emptied 512 (some 1) none)
    else none
  fresh := 3

/-- The small volume with its FAT in the first cluster of the root directory. -/
def fatInRootSb : SuperBlock := { smallSb with fatSectorStart := 4 }

/-- The nodes of `emptiedFiles`. -/
theorem emptiedFiles_node {sb : SuperBlock} {cached : Nat} {i : NodeId} {n : Node}
    (hn : (emptiedFiles sb cached).nodes i = some n) :
    i = 0 ∧ n = { child := some 1, startCluster := 4, fptrCluster := cached
                  attrib := exfatAttribDir, isCached := true, size := 1024 } ∨
      (i = 1 ∧ n = emptied 0 none (some 2) ∨ i = 2 ∧ n = emptied 512 (some 1) none) := by
  simp only [emptiedFiles] at hn
  split at hn
  · exact Or.inl ⟨‹_›, (Option.some.inj hn).symm⟩
  split at hn
  · exact Or.inr (Or.inl ⟨‹_›, (Option.some.inj hn).symm⟩)
  split at hn
  · exact Or.inr (Or.inr ⟨‹_›, (Option.some.inj hn).symm⟩)
  · cases hn

/-- The only directory of `emptiedFiles` is the root. -/
theorem emptiedFiles_dir {sb : SuperBlock} {cached : Nat} {i : NodeId} {n : Node}
    (hn : (emptiedFiles sb cached).nodes i = some n) (hd : n.isDir = true) :
    i = 0 ∧ n = { child := some 1, startCluster := 4, fptrCluster := cached
                  attrib := exfatAttribDir, isCached := true, size := 1024 } := by
  rcases emptiedFiles_node hn with h | ⟨rfl, rfl⟩ | ⟨rfl, rfl⟩
  · exact h
  · exact absurd hd (by decide)
  · exact absurd hd (by decide)

/-- Both files below the root. -/
abbrev emptiedForest : Forest := .node 1 .nil (.node 2 .nil .nil)

/-- The chains of the directories of `emptiedFiles`. -/
abbrev emptiedChains : NodeId → List Nat := fun i => if i = 0 then [4, 5] else []

theorem emptiedFiles_ready {sb : SuperBlock} {cached : Nat} (hsb : sb = smallSb ∧ cached = 4 ∨
    sb = fatInRootSb ∧ cached = 4 ∨ sb = smallSb ∧ cached = 0) :
    @FlushReady calmEnv (emptiedFiles sb cached) emptiedForest emptiedChains (· < 4) := by
  let _ := calmEnv
  have hdirs : ∀ {i n}, (emptiedFiles sb cached).nodes i = some n → n.isDir = true → i = 0 :=
    fun hn hd => (emptiedFiles_dir hn hd).1
  have hroot : ∀ i ∈ emptiedForest.ids, i ≠ 0 := by decide
  constructor
  case sizes => rcases hsb with ⟨rfl, rfl⟩ | ⟨rfl, rfl⟩ | ⟨rfl, rfl⟩ <;> exact ⟨by decide, by decide⟩
  case writable => rfl
  case root =>
    exact ⟨_, rfl, rfl, rfl, _, rfl, rfl, rfl, rfl, rfl, _, rfl, rfl, rfl, rfl, rfl⟩
  case nodup => exact (by decide : [0, 1, 2].Nodup)
  case bound => exact (by decide : ∀ i ∈ [0, 1, 2], i < 3)
  case walk =>
    intro i _ n hn hd
    obtain ⟨rfl, rfl⟩ := emptiedFiles_dir hn hd
    refine ⟨rfl, ?_, trivial⟩
    rcases hsb with ⟨rfl, rfl⟩ | ⟨rfl, rfl⟩ | ⟨rfl, rfl⟩ <;> decide +kernel
  case valid =>
    intro i _ n hn hd
    obtain ⟨rfl, rfl⟩ := emptiedFiles_dir hn hd
    rcases hsb with ⟨rfl, rfl⟩ | ⟨rfl, rfl⟩ | ⟨rfl, rfl⟩ <;> exact ⟨by decide, by decide, by decide⟩
  case disjoint =>
    intro i _ j _ n m hn hm hdn hdm hne
    exact absurd ((hdirs hn hdn).trans (hdirs hm hdm).symm) hne
  case inside =>
    intro i hi n p d hn hp hd
    rcases emptiedFiles_node hn with ⟨rfl, -⟩ | ⟨-, rfl⟩ | ⟨-, rfl⟩
    · exact absurd rfl (hroot 0 hi)
    all_goals
      obtain rfl := Option.some.inj hp
      obtain rfl := Option.some.inj hd
      rcases hsb with ⟨rfl, rfl⟩ | ⟨rfl, rfl⟩ | ⟨rfl, rfl⟩ <;> decide
  case apart =>
    intro i hi j hj n m hn hm _ hne
    rcases emptiedFiles_node hn with ⟨rfl, -⟩ | ⟨rfl, rfl⟩ | ⟨rfl, rfl⟩
    · exact absurd rfl (hroot 0 hi)
    all_goals rcases emptiedFiles_node hm with ⟨rfl, -⟩ | ⟨rfl, rfl⟩ | ⟨rfl, rfl⟩
    all_goals first
      | exact absurd rfl (hroot 0 hj)
      | exact absurd rfl hne
      | decide
  case clean =>
    intro i hi n p hn _ hc
    rcases emptiedFiles_node hn with ⟨rfl, -⟩ | ⟨-, rfl⟩ | ⟨-, rfl⟩
    · exact absurd rfl (hroot 0 hi)
    all_goals exact absurd hc (by decide)
  case dirty =>
    intro i hi n p hn hp _
    rcases emptiedFiles_node hn with ⟨rfl, -⟩ | ⟨-, rfl⟩ | ⟨-, rfl⟩
    · exact absurd rfl (hroot 0 hi)
    all_goals
      obtain rfl := Option.some.inj hp
      refine ⟨⟨by decide, by decide, by decide, by decide, by decide⟩, ?_⟩
      rcases hsb with ⟨rfl, rfl⟩ | ⟨rfl, rfl⟩ | ⟨rfl, rfl⟩ <;> decide +kernel
  case chunk => rfl
  case placed => exact Nat.le_refl 2
  case reserved =>
    intro i _ n hn hd
    obtain ⟨rfl, rfl⟩ := emptiedFiles_dir hn hd
    unfold InBitmap
    rcases hsb with ⟨rfl, rfl⟩ | ⟨rfl, rfl⟩ | ⟨rfl, rfl⟩ <;> decide +kernel
  case stored => exact fun h => by cases h

theorem emptiedFiles_pointers (sb : SuperBlock) :
    PointersOn (emptiedFiles sb 4) emptiedForest emptiedChains := by
  intro i _ n hn hd _
  obtain ⟨rfl, rfl⟩ := emptiedFiles_dir hn hd
  rfl

theorem emptiedFiles_spared (cached : Nat) :
    LinksSpared (emptiedFiles smallSb cached) emptiedForest emptiedChains := by
  intro i _ n hn hd _ c hc x _
  obtain ⟨rfl, rfl⟩ := emptiedFiles_dir hn hd
  have hbefore : ∀ c ∈ [4, 5], fatOffset smallSb c + 4 ≤ c2oRaw smallSb exfatFirstDataCluster := by
    decide
  exact Or.inl (Nat.le_trans (hbefore c hc) (c2oRaw_ge _ x))

theorem flush_agrees_emptiedFiles : letI := calmEnv
    ∃ v, flushAll (emptiedFiles smallSb 4) = .ok ((.ok, .ok), v) ∧
      BitmapStored v.sb v.dev v.cmap (· < 4) := by
  obtain ⟨v, hv, -, -, -, hb⟩ := @flush_agrees calmEnv _ _ _ _ calmEnv_quiet
    (emptiedFiles_ready (Or.inl ⟨rfl, rfl⟩)) (emptiedFiles_spared 4) (emptiedFiles_pointers _)
  exact ⟨v, hv, hb⟩

/-- An empty file is never marked as contiguous on disk, whatever its node says; a flush that writes
over the links of a directory, or starts from a file pointer outside of its chain, fails. -/
theorem flush_disagrees : letI := calmEnv
    (FlushReady (emptiedFiles smallSb 4) emptiedForest emptiedChains (· < 4) ∧
      LinksSpared (emptiedFiles smallSb 4) emptiedForest emptiedChains ∧
      PointersOn (emptiedFiles smallSb 4) emptiedForest emptiedChains ∧
      ∃ rc v, flushAll (emptiedFiles smallSb 4) = .ok (rc, v) ∧
        ((v.nodes 1).any fun m => m.isContiguous &&
          !(decoded (entrySet v.sb v.dev [4, 5] m)).isContiguous) = true) ∧
    (FlushReady (emptiedFiles fatInRootSb 4) emptiedForest emptiedChains (· < 4) ∧
      PointersOn (emptiedFiles fatInRootSb 4) emptiedForest emptiedChains ∧
      ∃ rc v, flushAll (emptiedFiles fatInRootSb 4) = .ok (rc, v) ∧
        decide (rc.1 = .err .eio) = true) ∧
    (FlushReady (emptiedFiles smallSb 0) emptiedForest emptiedChains (· < 4) ∧
      LinksSpared (emptiedFiles smallSb 0) emptiedForest emptiedChains ∧
      ∃ rc v, flushAll (emptiedFiles smallSb 0) = .ok (rc, v) ∧
        decide (rc.1 = .err .eio) = true) :=
  ⟨⟨emptiedFiles_ready (Or.inl ⟨rfl, rfl⟩), emptiedFiles_spared 4, emptiedFiles_pointers _,
      returns_of_check (by decide +kernel)⟩,
    ⟨emptiedFiles_ready (Or.inr (Or.inl ⟨rfl, rfl⟩)), emptiedFiles_pointers _,
      returns_of_check (by decide +kernel)⟩,
    emptiedFiles_ready (Or.inr (Or.inr ⟨rfl, rfl⟩)), emptiedFiles_spared 0,
    returns_of_check (by decide +kernel)⟩

end Proofs

end Exfat
