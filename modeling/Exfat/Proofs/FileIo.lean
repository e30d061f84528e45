import Exfat.Proofs.Erase

namespace Exfat
open Lib

/-! Reads and writes of a node are reads and writes of one byte array. -/

namespace Proofs

variable {E : Halt → Prop} {w v u : World} {n m l : Node} {L : List Nat} {id : NodeId}

/-- The bytes of a file whose chain is `L`. -/
def fileBytes (w : World) (n : Node) (L : List Nat) : List UInt8 := fileData w.sb w.dev L 0 n.size

theorem fileBytes_getD {i : Nat} (hi : i < n.size) :
    (fileBytes w n L).getD i 0 = w.dev (filePos w.sb L i) := by
  rw [fileBytes, fileData_getD hi, Nat.zero_add]

/-- Only the file pointer, the size, the times and the dirty flag of one node changed, besides data
on the device. -/
structure Touched (w v : World) (id : NodeId) (n m : Node) : Prop where
  node : v.nodes id = some m
  same : ∃ i c s t a d, m =
    { n with fptrIndex := i, fptrCluster := c, size := s, mtime := t, atime := a, isDirty := d }
  sb : v.sb = w.sb
  cmap : v.cmap = w.cmap
  others : ∀ j, j ≠ id → v.nodes j = w.nodes j

theorem Touched.refl (hn : w.nodes id = some n) : Touched w w id n n :=
  ⟨hn, ⟨_, _, _, _, _, _, rfl⟩, rfl, rfl, fun _ _ => rfl⟩

theorem Touched.trans (h : Touched w v id n m) (h' : Touched v u id m l) : Touched w u id n l := by
  obtain ⟨i, c, s, t, a, d, rfl⟩ := h.same
  obtain ⟨i', c', s', t', a', d', rfl⟩ := h'.same
  exact ⟨h'.node, ⟨i', c', s', t', a', d', rfl⟩, h'.sb.trans h.sb, h'.cmap.trans h.cmap,
    fun j hj => (h'.others j hj).trans (h.others j hj)⟩

theorem Touched.isContiguous (h : Touched w v id n m) : m.isContiguous = n.isContiguous := by
  obtain ⟨_, _, _, _, _, _, rfl⟩ := h.same
  rfl

theorem Touched.startCluster (h : Touched w v id n m) : m.startCluster = n.startCluster := by
  obtain ⟨_, _, _, _, _, _, rfl⟩ := h.same
  rfl

theorem Touched.references (h : Touched w v id n m) : m.references = n.references := by
  obtain ⟨_, _, _, _, _, _, rfl⟩ := h.same
  rfl

/-- A file extended to a new size over bytes that its chain holds already. -/
structure Extended (w v : World) (id : NodeId) (n m : Node) (L : List Nat) (erase : Bool)
    (size : Nat) : Prop where
  touched : Touched w v id n m
  size_eq : m.size = size
  chained : Chained v.sb v.dev m L
  -- data before the old end is unchanged, and with `erase` the new data is zero
  before : ∀ o, o < n.size → v.dev (filePos w.sb L o) = w.dev (filePos w.sb L o)
  zero : erase = true → ∀ o, n.size ≤ o → o < size → v.dev (filePos w.sb L o) = 0
  same : ∀ c, 2 ≤ c → c ∉ L → ∀ o < w.sb.clusterSize,
    v.dev (c2oRaw w.sb c + o) = w.dev (c2oRaw w.sb c + o)

section
variable [Env]

/-- `exfat_truncate` to a larger size that needs no other cluster. -/
theorem exfatTruncate_extends (hq : Env.Quiet) (hz : Sizes w.sb) {size : Nat}
    (hn : w.nodes id = some n) (hr : n.references ≠ 0) (hc : Chained w.sb w.dev n L)
    (ha : LinksApart w.sb n.isContiguous L) (hl : L.length = divRoundUp n.size w.sb.clusterSize)
    (hs : n.size < size)
    (hb : size ≤ L.length * w.sb.clusterSize) (erase : Bool) :
    Wp E (exfatTruncate id size erase) w fun rc v =>
      rc = .ok ∧ ∃ m, Extended w v id n m L erase size := by
  have hcs := clusterSize_pos w.sb
  have hlen := hc.length_le
  have hcount := hz.count
  have h1 : bytes2clusters w.sb n.size = L.length := by
    rw [bytes2clusters_eq hz.cluster (by rw [← hl]; omega), hl]
  have h2 : bytes2clusters w.sb size = L.length := by
    have hle := divRoundUp_le hcs hb
    rw [bytes2clusters_eq hz.cluster (by omega)]
    exact Nat.le_antisymm hle (hl ▸ divRoundUp_mono hs.le)
  have hge : ∀ x ∈ L, 2 ≤ x := fun x hx => hc.ge hx
  simp only [exfatTruncate, wp_bind, wp_get, wp_getNode hn, hr, false_and, if_false,
    if_neg (show ¬n.size = size by omega), h1, h2, resizeChain, lt_irrefl, wp_pure, ne_eq,
    not_true_eq_false]
  -- the new data, before size and times are set
  have herase : Wp E (eraseNew id erase n.size size) w fun rc v => rc = .ok ∧ ∃ k c,
      Extended w v id n (n.seek k c) L erase n.size ∧
      (erase = true → ∀ o, n.size ≤ o → o < size → v.dev (filePos w.sb L o) = 0) := by
    rw [eraseNew]
    split
    · refine (eraseRange_spec hq hcount hn hc ha hs hb).mono ?_
      rintro _ _ ⟨dev, len, k, c, hcover, hinside, hwr, hk, rfl, t, rfl⟩
      refine ⟨rfl, k, c, ⟨⟨by simp, ⟨k, c, _, _, _, _, rfl⟩, rfl, rfl,
        fun j hj => World.setNode_ne _ _ hj⟩, rfl, ?_, fun o ho => ?_, fun _ o h1 h2 => ?_,
        fun x hx hxL o ho => ?_⟩, fun _ o h1 h2 => ?_⟩
      · exact (hwr.chained ha (by simpa using hinside) hc).advanced hk
      · exact hwr.same hge hc.nodup (by simpa using hinside) (by omega) (Or.inl ho)
      · omega
      · exact hwr.cluster hge (by simpa using hinside) hx hxL ho
      · have := hwr.inside (o - n.size) (by rw [List.length_replicate]; omega)
        rw [show n.size + (o - n.size) = o by omega] at this
        exact this.trans (by simp [List.getD_eq_getElem?_getD, show o - n.size < len by omega])
    · rename_i hne
      simp only [wp_pure, true_and]
      exact ⟨n.fptrIndex, n.fptrCluster, ⟨Touched.refl hn, rfl, hc, fun _ _ => rfl,
        fun h => absurd h hne, fun _ _ _ _ _ => rfl⟩, fun h => absurd h hne⟩
  refine herase.mono ?_
  rintro _ v ⟨rfl, k, c, hext, hzero⟩
  simp only [not_true_eq_false, if_false, wp_bind, exfatUpdateMtime, wp_timeNow]
  rw [wp_modifyNode (n := n.seek k c) (by simpa using hext.touched.node)]
  simp only [wp_modifyNode_setNode, wp_pure, true_and]
  refine ⟨_, ⟨hext.touched.trans ⟨World.setNode_self _ _ _, ⟨_, _, _, _, _, _, rfl⟩, rfl, rfl,
    fun j hj => World.setNode_ne _ _ hj⟩, rfl, ?_, hext.before, hzero, hext.same⟩⟩
  exact hext.chained.congr (fun _ _ => rfl) rfl hext.chained.fptr

/-- The part of `exfat_generic_pwrite` that extends the file, where no other cluster is needed. -/
theorem extendTo_extends (hq : Env.Quiet) (hz : Sizes w.sb) {stop : Nat}
    (hn : w.nodes id = some n) (hr : n.references ≠ 0) (hc : Chained w.sb w.dev n L)
    (ha : LinksApart w.sb n.isContiguous L) (hl : L.length = divRoundUp n.size w.sb.clusterSize)
    (hb : stop ≤ L.length * w.sb.clusterSize) (erase : Bool) :
    Wp E (extendTo id n.size stop erase) w fun rc v =>
      rc = .ok ∧ ∃ m, Extended w v id n m L erase (max n.size stop) := by
  rw [extendTo]
  split
  · rename_i hs
    rw [Nat.max_eq_right (Nat.le_of_lt hs)]
    exact exfatTruncate_extends hq hz hn hr hc ha hl hs hb erase
  · rename_i hs
    rw [Nat.max_eq_left (Nat.le_of_not_lt hs)]
    simp only [wp_pure, true_and]
    exact ⟨n, ⟨Touched.refl hn, rfl, hc, fun _ _ => rfl, fun _ o h1 h2 => by omega,
      fun _ _ _ _ _ => rfl⟩⟩

omit [Env] in
theorem Extended.length {erase : Bool} {size : Nat} (h : Extended w v id n m L erase size)
    (hl : L.length = divRoundUp n.size w.sb.clusterSize) (hs : n.size ≤ size)
    (hb : size ≤ L.length * w.sb.clusterSize) : L.length = divRoundUp m.size v.sb.clusterSize := by
  rw [h.size_eq, h.touched.sb]
  exact Nat.le_antisymm (hl ▸ divRoundUp_mono hs) (divRoundUp_le (clusterSize_pos _) hb)

omit [Env] in
/-- The bytes of a file that was extended with zeros up to the data, then by the room for the data,
which is written last: the data over the bytes that there were. -/
theorem Extended.overwrites {off : Nat} {buf : List UInt8} {z : World} {m' : Node}
    (hgap : Extended w v id n m L true (max n.size off))
    (hfill : Extended v u id m l L false (max m.size (off + buf.length)))
    (hc : Chained w.sb w.dev n L) (hs : n.size ≤ L.length * w.sb.clusterSize)
    (hb : off + buf.length ≤ L.length * w.sb.clusterSize) (hw : Wrote w.sb u.dev L off buf z.dev)
    (ht : Touched u z id l m') (hm : m'.size = l.size) :
    m'.size = max n.size (off + buf.length) ∧
      fileBytes z m' L = overwrite (fileBytes w n L) off buf := by
  have hsb := hgap.touched.sb
  have hsize : m'.size = max n.size (off + buf.length) := by
    rw [hm, hfill.size_eq, hgap.size_eq]
    omega
  refine ⟨hsize, eq_of_getD ?_ fun o ho => ?_⟩
  · rw [overwrite_length, fileBytes, fileBytes, fileData_length, fileData_length, hsize]
  rw [fileBytes, fileData_length] at ho
  rw [fileBytes_getD ho, overwrite_getD, ht.sb, hfill.touched.sb, hsb]
  -- the device decides the bytes, whatever happened to the times
  by_cases hin : off ≤ o ∧ o < off + buf.length
  · have := hw.inside (o - off) (by omega)
    rw [if_pos hin, ← this, show off + (o - off) = o by omega]
  · rw [if_neg hin, hw.same (fun x hx => hc.ge hx) hc.nodup hb (by omega) (by omega)]
    have hfilled := hfill.before o (by rw [hgap.size_eq]; omega)
    rw [hsb] at hfilled
    rw [hfilled]
    by_cases hold : o < n.size
    · rw [hgap.before o hold, fileBytes_getD hold]
    · rw [hgap.zero rfl o (by omega) (by omega), List.getD_eq_getElem?_getD,
        List.getElem?_eq_none (by rw [fileBytes, fileData_length]; omega), Option.getD_none]

/-- `exfat_generic_pwrite` over clusters that the node has already. -/
theorem exfatGenericPwrite_overwrites (hq : Env.Quiet) (hz : Sizes w.sb)
    (hn : w.nodes id = some n) (hr : n.references ≠ 0) (hc : Chained w.sb w.dev n L)
    (ha : LinksApart w.sb n.isContiguous L) (hl : L.length = divRoundUp n.size w.sb.clusterSize)
    {off : Nat} {buf : List UInt8}
    (hbuf : buf ≠ []) (hb : off + buf.length ≤ L.length * w.sb.clusterSize) :
    Wp E (exfatGenericPwrite id buf off) w fun rc v => rc = .ok ∧ ∃ m,
      Touched w v id n m ∧ m.size = max n.size (off + buf.length) ∧ Chained v.sb v.dev m L ∧
      fileBytes v m L = overwrite (fileBytes w n L) off buf ∧
      ∀ c, 2 ≤ c → c ∉ L → ∀ o < w.sb.clusterSize,
        v.dev (c2oRaw w.sb c + o) = w.dev (c2oRaw w.sb c + o) := by
  have hge : ∀ x ∈ L, 2 ≤ x := fun x hx => hc.ge hx
  have hcs := clusterSize_pos w.sb
  have hpos := List.length_pos_iff.mpr hbuf
  have hsize : n.size ≤ L.length * w.sb.clusterSize := hl ▸ le_divRoundUp_mul n.size hcs
  have h64 : (off + buf.length) % 2 ^ 64 = off + buf.length := by
    have := hc.offset_lt hz hb
    exact Nat.mod_eq_of_lt (by omega)
  have hmod := Nat.div_add_mod' off w.sb.clusterSize
  simp only [exfatGenericPwrite, wp_bind, wp_getNode hn]
  refine (extendTo_extends hq hz hn hr hc ha hl (show off ≤ _ by omega) true).mono ?_
  rintro _ v ⟨rfl, m, hgap⟩
  have hsb := hgap.touched.sb
  simp only [ne_eq, not_true_eq_false, if_false, wp_bind, wp_getNode hgap.touched.node, h64]
  have hl1 : L.length = divRoundUp m.size v.sb.clusterSize :=
    hgap.length hl (Nat.le_max_left _ _) (by omega)
  refine (extendTo_extends hq (hsb ▸ hz) hgap.touched.node (hgap.touched.references ▸ hr)
    hgap.chained (by rwa [hsb, hgap.touched.isContiguous]) hl1 (by rw [hsb]; exact hb) false).mono ?_
  rintro _ u ⟨rfl, l, hfill⟩
  have hsb2 : u.sb = w.sb := hfill.touched.sb.trans hsb
  obtain ⟨c, hk, hcm⟩ := exists_cluster (show off < L.length * w.sb.clusterSize by omega)
  have hvc := hc.valid c hcm
  simp only [not_true_eq_false, if_false, List.isEmpty_iff, if_neg hbuf, wp_bind, wp_get, hsb2,
    hc.index_mod_count hz.count (show off < L.length * w.sb.clusterSize by omega)]
  refine after_ret (exfatAdvanceCluster_spec hq hfill.touched.node hfill.chained hk) fun t => ?_
  simp only [World.setNode_ticked, World.setNode_sb, World.ticked_sb, hsb2, hvc,
    Bool.false_eq_true, if_false, wp_bind, wp_getNode_setNode]
  have hchain := hfill.chained.advanced hk
  have hal : LinksApart u.sb l.isContiguous L := by
    rwa [hsb2, hfill.touched.isContiguous, hgap.touched.isContiguous]
  have hwrite := pwriteLoop_spec (E := E) hq
    (w := (u.ticked t).setNode id (l.seek (off / w.sb.clusterSize) c)) hchain.walk hal
    hchain.valid hchain.nodup buf.length (off / w.sb.clusterSize) c (off % w.sb.clusterSize) buf
    (fun _ => hk) (by simpa [hsb2] using Nat.mod_lt off hcs) (Nat.le_refl _)
    (by simp only [World.setNode_sb, World.ticked_sb, hsb2]; omega)
  refine hwrite.mono ?_
  rintro _ _ ⟨dev, hwr, rfl, t', rfl⟩
  simp only [World.setNode_sb, World.setNode_dev, World.ticked_sb, World.ticked_dev, hsb2, hmod]
    at hwr
  have hwrote : Wrote u.sb u.dev L off buf dev := hsb2 ▸ hwr
  have hfinish : ∀ z m', Touched u z id l m' → z.dev = dev → m'.size = l.size →
      m'.fptrIndex = off / w.sb.clusterSize → m'.fptrCluster = c →
      ∃ m, Touched w z id n m ∧ m.size = max n.size (off + buf.length) ∧
        Chained z.sb z.dev m L ∧ fileBytes z m L = overwrite (fileBytes w n L) off buf ∧
        ∀ c, 2 ≤ c → c ∉ L → ∀ o < w.sb.clusterSize,
          z.dev (c2oRaw w.sb c + o) = w.dev (c2oRaw w.sb c + o) := by
    intro z m' htouch hdev hms hfi hfc
    obtain ⟨hlast, hover⟩ := hgap.overwrites hfill hc hsize hb (hdev ▸ hwr) htouch hms
    refine ⟨m', (hgap.touched.trans hfill.touched).trans htouch, hlast, ?_, hover, ?_⟩
    · rw [htouch.sb, hdev]
      exact (hwrote.chained hal (by rw [hsb2]; exact hb) hfill.chained).congr
        (fun _ _ => by rw [htouch.isContiguous]) htouch.startCluster
        fun _ => by rw [hfi, hfc]; exact hk
    · intro x hx hxL o ho
      have hfilled := hfill.same x hx hxL o (by rw [hsb]; exact ho)
      rw [hsb] at hfilled
      rw [hdev, hwr.cluster hge hb hx hxL ho, hfilled, hgap.same x hx hxL o ho]
  simp only [not_true_eq_false, if_false]
  split
  · refine ⟨rfl, hfinish _ (l.seek (off / w.sb.clusterSize) c) ⟨by simp, ⟨_, _, _, _, _, _, rfl⟩,
      rfl, rfl, fun j hj => World.setNode_ne _ _ hj⟩ rfl rfl rfl rfl⟩
  · simp only [wp_bind, exfatUpdateMtime, wp_timeNow]
    rw [wp_modifyNode (n := l.seek (off / w.sb.clusterSize) c) (by simp)]
    refine ⟨rfl, hfinish _ _ ⟨World.setNode_self _ _ _, ⟨_, _, _, _, _, _, rfl⟩, rfl, rfl,
      fun j hj => ?_⟩ rfl rfl rfl rfl⟩
    rw [World.setNode_ne _ _ hj]
    exact World.setNode_ne _ _ hj

/-- `exfat_generic_pread` returns the bytes of the file. -/
theorem exfatGenericPread_reads (hq : Env.Quiet) (hcount : w.sb.clusterCount < 2 ^ 32)
    (hn : w.nodes id = some n) (hc : Chained w.sb w.dev n L)
    (hs : n.size ≤ L.length * w.sb.clusterSize) (size off : Nat) :
    Wp E (exfatGenericPread id size off) w fun r v =>
      r = .ok (((fileBytes w n L).drop off).take size) ∧ v.dev = w.dev := by
  have hbytes : fileData w.sb w.dev L off (min size (n.size - off)) =
      ((fileBytes w n L).drop off).take size := by
    refine eq_of_getD (by simp [fileBytes]) fun i hi => ?_
    rw [fileData_length] at hi
    rw [fileData_getD hi, ← fileBytes_getD (n := n) (by omega)]
    simp [List.getElem?_take_of_lt (show i < size by omega)]
  simp only [exfatGenericPread, wp_bind, wp_getNode hn]
  split
  · rename_i hge
    refine ⟨?_, rfl⟩
    rw [← hbytes, Nat.sub_eq_zero_of_le hge]
    simp [fileData]
  split
  · rename_i hz
    subst hz
    exact ⟨by simp, rfl⟩
  · rename_i hlt hz
    have hoff : off < L.length * w.sb.clusterSize := by omega
    obtain ⟨c, hk, hcm⟩ := exists_cluster hoff
    have hmod := Nat.div_add_mod' off w.sb.clusterSize
    simp only [wp_bind, wp_get, hc.index_mod_count hcount hoff]
    refine after_ret (exfatAdvanceCluster_spec hq hn hc hk) fun t => ?_
    simp only [World.setNode_ticked, World.setNode_sb, World.ticked_sb, hc.valid c hcm,
      Bool.false_eq_true, if_false, wp_bind]
    refine after_ret (preadLoop_spec hq
      (w := (w.ticked t).setNode id (n.seek (off / w.sb.clusterSize) c))
      hc.walk hc.valid _ (off / w.sb.clusterSize) c (off % w.sb.clusterSize) _ [] (fun _ => hk)
      (Nat.mod_lt _ (clusterSize_pos w.sb)) (Nat.le_refl _)
      (by simp only [World.setNode_sb, World.ticked_sb]; omega)) fun t => ?_
    simp only [wp_bind, wp_get, List.nil_append, World.setNode_sb, World.ticked_sb,
      World.setNode_dev, World.ticked_dev, hmod, hbytes]
    split
    · simp only [exfatUpdateAtime, wp_bind, wp_timeNow]
      rw [wp_modifyNode (n := n.seek (off / w.sb.clusterSize) c) (by simp)]
      exact ⟨rfl, rfl⟩
    · exact ⟨rfl, rfl⟩

/-- Reads and writes of a node are reads and writes of the byte array that its clusters hold, as
long as a write needs no other cluster and the data of the node does not hold its links. -/
theorem generic_io_byteArray (hq : Env.Quiet) (hcount : w.sb.clusterCount < 2 ^ 32)
    (hn : w.nodes id = some n) (hr : n.references ≠ 0) (hc : Chained w.sb w.dev n L)
    (hl : L.length = divRoundUp n.size w.sb.clusterSize) (off : Nat) :
    (∀ size, ∃ v, exfatGenericPread id size off w =
      .ok (.ok (((fileBytes w n L).drop off).take size), v)) ∧
    (w.sb.sectorBits + w.sb.spcBits ≤ 25 → LinksApart w.sb n.isContiguous L → ∀ buf, buf ≠ [] →
      divRoundUp (off + buf.length) w.sb.clusterSize ≤ L.length →
      ∃ v m, exfatGenericPwrite id buf off w = .ok (.ok, v) ∧ v.nodes id = some m ∧
        m.size = max n.size (off + buf.length) ∧ Chained v.sb v.dev m L ∧
        fileBytes v m L = overwrite (fileBytes w n L) off buf ∧
        ∀ c, 2 ≤ c → c ∉ L → ∀ o < w.sb.clusterSize,
          v.dev (c2oRaw w.sb c + o) = w.dev (c2oRaw w.sb c + o)) := by
  have hcs := clusterSize_pos w.sb
  constructor
  · intro size
    have hs : n.size ≤ L.length * w.sb.clusterSize := hl ▸ le_divRoundUp_mul n.size hcs
    obtain ⟨_, v, hrun, rfl, -⟩ := (exfatGenericPread_reads hq hcount hn hc hs size off).returns
    exact ⟨v, hrun⟩
  · intro hcluster ha buf hbuf hb
    have hle : off + buf.length ≤ L.length * w.sb.clusterSize :=
      (le_divRoundUp_mul _ hcs).trans (Nat.mul_le_mul_right _ hb)
    obtain ⟨_, v, hrun, rfl, m, htouch, hrest⟩ :=
      (exfatGenericPwrite_overwrites hq ⟨hcluster, hcount⟩ hn hr hc ha hl hbuf hle).returns
    exact ⟨v, m, hrun, htouch.node, hrest⟩

end

theorem generic_io_byteArray_twoClusters :
    (∀ size, ∃ v, @exfatGenericPread calmEnv 1 size 600 (twoClusters smallSb) =
      .ok (.ok (((fileBytes (twoClusters smallSb) twoClustersNode [2, 3]).drop 600).take size), v)) ∧
    (∃ v m, @exfatGenericPwrite calmEnv 1 [1, 2, 3] 600 (twoClusters smallSb) = .ok (.ok, v) ∧
      v.nodes 1 = some m ∧ m.size = max 1024 603 ∧ Chained v.sb v.dev m [2, 3] ∧
      fileBytes v m [2, 3] =
        overwrite (fileBytes (twoClusters smallSb) twoClustersNode [2, 3]) 600 [1, 2, 3] ∧
      ∀ c, 2 ≤ c → c ∉ [2, 3] → ∀ o < smallSb.clusterSize,
        v.dev (c2oRaw smallSb c + o) = (twoClusters smallSb).dev (c2oRaw smallSb c + o)) := by
  have hexact := (twoClusters_exact (Or.inl rfl)).2
  have hio := @generic_io_byteArray (twoClusters smallSb) twoClustersNode [2, 3] 1 calmEnv
    calmEnv_quiet (by decide) rfl (by decide) hexact.chained hexact.length 600
  have hapart : LinksApart smallSb false [2, 3] := Or.inr (by decide)
  exact ⟨hio.1, hio.2 (by decide) hapart [1, 2, 3] (by decide) (by decide)⟩

/-- Where the FAT lies inside a cluster of the file, a write cuts the chain that it follows. -/
theorem pwrite_loses_chain :
    Chained overlapSb (twoClusters overlapSb).dev twoClustersNode [2, 3] ∧
    [2, 3].length = divRoundUp twoClustersNode.size overlapSb.clusterSize ∧
    divRoundUp (0 + (List.replicate 513 (0 : UInt8)).length) overlapSb.clusterSize ≤ 2 ∧
    ∃ rc v, @exfatGenericPwrite calmEnv 1 (List.replicate 513 0) 0 (twoClusters overlapSb) =
      .ok (rc, v) ∧ rc = .err .eio := by
  have hexact := (twoClusters_exact (Or.inr rfl)).2
  refine ⟨hexact.chained, hexact.length, by decide +kernel, ?_⟩
  let _ := calmEnv
  obtain ⟨rc, v, hrun, hp⟩ := returns_of_check
    (m := exfatGenericPwrite 1 (List.replicate 513 0) 0) (s := twoClusters overlapSb)
    (p := fun rc _ => decide (rc = .err .eio)) (by decide +kernel)
  exact ⟨rc, v, hrun, of_decide_eq_true hp⟩

end Proofs

end Exfat
