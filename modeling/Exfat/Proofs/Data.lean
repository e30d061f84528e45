import Exfat.Proofs.Chain

namespace Exfat
open Lib

/-! Reading and writing the data of a node through its chain. -/

/-- Device position of a byte of the data that a chain holds. -/
def filePos (sb : SuperBlock) (L : List Nat) (o : Nat) : Nat :=
  c2oRaw sb (L.getD (o / sb.clusterSize) 0) + o % sb.clusterSize

/-- The data a chain holds, from an offset on. -/
def fileData (sb : SuperBlock) (dev : Store) (L : List Nat) (off len : Nat) : List UInt8 :=
  (List.range len).map fun i => dev (filePos sb L (off + i))

namespace Proofs

variable {E : Halt → Prop} {w : World} {n : Node} {L K : List Nat} {sb : SuperBlock} {d e : Store}
  {off len : Nat}

@[simp] theorem fileData_length (sb : SuperBlock) (d : Store) (L : List Nat) (off len : Nat) :
    (fileData sb d L off len).length = len := by simp [fileData]

theorem fileData_append (sb : SuperBlock) (d : Store) (L : List Nat) (off a b : Nat) :
    fileData sb d L off (a + b) = fileData sb d L off a ++ fileData sb d L (off + a) b := by
  simp [fileData, List.range_add, List.map_map, Function.comp_def, Nat.add_assoc]

theorem fileData_getD {i : Nat} (hi : i < len) :
    (fileData sb d L off len).getD i 0 = d (filePos sb L (off + i)) := by
  simp [fileData, hi]

theorem fileData_congr (h : ∀ i < len, e (filePos sb K (off + i)) = d (filePos sb L (off + i))) :
    fileData sb e K off len = fileData sb d L off len := by
  apply List.map_congr_left
  intro i hi
  exact h i (List.mem_range.mp hi)

/-- Inside one cluster the data lies in one piece. -/
theorem filePos_add {k c lo i : Nat} (hk : L[k]? = some c) (hi : lo + i < sb.clusterSize) :
    filePos sb L (k * sb.clusterSize + lo + i) = c2oRaw sb c + lo + i := by
  have hdiv : (k * sb.clusterSize + lo + i) / sb.clusterSize = k := by
    rw [Nat.add_assoc, Nat.mul_comm, Nat.mul_add_div (clusterSize_pos sb), Nat.div_eq_of_lt hi,
      Nat.add_zero]
  have hmod : (k * sb.clusterSize + lo + i) % sb.clusterSize = lo + i := by
    rw [Nat.add_assoc, Nat.mul_comm, Nat.mul_add_mod, Nat.mod_eq_of_lt hi]
  simp only [filePos, hdiv, hmod, List.getD_eq_getElem?_getD, hk, Option.getD_some]
  omega

theorem getElem?_lt {α : Type} {l : List α} {k : Nat} {x : α} (h : l[k]? = some x) :
    k < l.length := by
  by_contra hn
  simp [List.getElem?_eq_none (Nat.le_of_not_lt hn)] at h

theorem div_clusterSize_lt (hb : off < L.length * sb.clusterSize) :
    off / sb.clusterSize < L.length :=
  Nat.div_lt_of_lt_mul (by rwa [Nat.mul_comm] at hb)

/-- Every offset that the chain covers has a cluster. -/
theorem exists_cluster (hb : off < L.length * sb.clusterSize) :
    ∃ c, L[off / sb.clusterSize]? = some c ∧ c ∈ L :=
  ⟨_, List.getElem?_eq_getElem (div_clusterSize_lt hb), List.getElem_mem _⟩

/-- Data lies inside the heap. -/
theorem filePos_ge (sb : SuperBlock) (L : List Nat) (o : Nat) :
    c2oRaw sb exfatFirstDataCluster ≤ filePos sb L o := by
  have := c2oRaw_ge sb (L.getD (o / sb.clusterSize) 0)
  simp only [filePos]
  omega

theorem filePos_eq {c : Nat} (hc : L[off / sb.clusterSize]? = some c) :
    filePos sb L off = c2oRaw sb c + off % sb.clusterSize := by
  simp [filePos, hc]

/-- Two offsets of data at one position lie in one cluster. -/
theorem filePos_cluster {o p : Nat} (hL : ∀ c ∈ L, 2 ≤ c) (hK : ∀ c ∈ K, 2 ≤ c)
    (ho : o < L.length * sb.clusterSize) (hp : p < K.length * sb.clusterSize)
    (h : filePos sb L o = filePos sb K p) :
    ∃ c, L[o / sb.clusterSize]? = some c ∧ K[p / sb.clusterSize]? = some c ∧
      o % sb.clusterSize = p % sb.clusterSize := by
  obtain ⟨c, hc, hcm⟩ := exists_cluster ho
  obtain ⟨d, hd, hdm⟩ := exists_cluster hp
  rw [filePos_eq hc, filePos_eq hd] at h
  obtain ⟨rfl, hm⟩ := c2oRaw_inj (hL c hcm) (hK d hdm) (Nat.mod_lt _ (clusterSize_pos sb))
    (Nat.mod_lt _ (clusterSize_pos sb)) h
  exact ⟨c, hc, hd, hm⟩

/-- Different offsets of one chain without repetitions are different positions. -/
theorem filePos_inj {o p : Nat} (hv : ∀ c ∈ L, 2 ≤ c) (hn : L.Nodup)
    (ho : o < L.length * sb.clusterSize) (hp : p < L.length * sb.clusterSize)
    (h : filePos sb L o = filePos sb L p) : o = p := by
  obtain ⟨c, hc, hd, hm⟩ := filePos_cluster hv hv ho hp h
  have hi : o / sb.clusterSize = p / sb.clusterSize :=
    (List.getElem?_inj (div_clusterSize_lt ho) hn).mp (hc.trans hd.symm)
  rw [← Nat.div_add_mod o sb.clusterSize, ← Nat.div_add_mod p sb.clusterSize, hi, hm]

/-- Data of disjoint chains never shares a position. -/
theorem filePos_disjoint {o p : Nat} (hL : ∀ c ∈ L, 2 ≤ c) (hK : ∀ c ∈ K, 2 ≤ c)
    (hd : ∀ c ∈ L, c ∉ K) (ho : o < L.length * sb.clusterSize)
    (hp : p < K.length * sb.clusterSize) : filePos sb L o ≠ filePos sb K p := by
  intro h
  obtain ⟨c, hc, hk, -⟩ := filePos_cluster hL hK ho hp h
  exact hd c (List.mem_of_getElem? hc) (List.mem_of_getElem? hk)

/-- A device on which a range of the data that a chain holds was written. -/
structure Wrote (sb : SuperBlock) (d : Store) (L : List Nat) (off : Nat) (bs : List UInt8)
    (e : Store) : Prop where
  inside : ∀ i < bs.length, e (filePos sb L (off + i)) = bs.getD i 0
  outside : ∀ p, (∀ i < bs.length, p ≠ filePos sb L (off + i)) → e p = d p

section
variable {as bs : List UInt8} {o : Nat}

theorem Wrote.nil (sb : SuperBlock) (d : Store) (L : List Nat) (off : Nat) :
    Wrote sb d L off [] d :=
  ⟨fun _ h => absurd h (Nat.not_lt_zero _), fun _ _ => rfl⟩

/-- Data writes leave everything before the heap alone. -/
theorem Wrote.before_heap (h : Wrote sb d L off bs e) {p : Nat}
    (hp : p < c2oRaw sb exfatFirstDataCluster) : e p = d p :=
  h.outside p fun i _ => by
    have := filePos_ge sb L (off + i)
    omega

/-- Data of a chain that shares no cluster with the written one is unchanged. -/
theorem Wrote.other (h : Wrote sb d L off bs e) (hL : ∀ c ∈ L, 2 ≤ c) (hK : ∀ c ∈ K, 2 ≤ c)
    (hd : ∀ c ∈ L, c ∉ K) (hb : off + bs.length ≤ L.length * sb.clusterSize)
    (ho : o < K.length * sb.clusterSize) : e (filePos sb K o) = d (filePos sb K o) :=
  h.outside _ fun _ hi => (filePos_disjoint hL hK hd (by omega) ho).symm

/-- Data of the same chain outside the written range is unchanged. -/
theorem Wrote.same (h : Wrote sb d L off bs e) (hL : ∀ c ∈ L, 2 ≤ c) (hn : L.Nodup)
    (hb : off + bs.length ≤ L.length * sb.clusterSize) (ho : o < L.length * sb.clusterSize)
    (hr : o < off ∨ off + bs.length ≤ o) : e (filePos sb L o) = d (filePos sb L o) :=
  h.outside _ fun i hi he => by
    have := filePos_inj hL hn ho (by omega) he
    omega

/-- A data write followed by a write of the data after it is one write. -/
theorem Wrote.append {e' : Store} (h : Wrote sb d L off as e) (hv : ∀ c ∈ L, 2 ≤ c)
    (hn : L.Nodup) (hb : off + (as ++ bs).length ≤ L.length * sb.clusterSize)
    (h2 : Wrote sb e L (off + as.length) bs e') : Wrote sb d L off (as ++ bs) e' where
  inside := by
    intro i hi
    rw [List.length_append] at hi hb
    by_cases hl : i < as.length
    · have hout := h2.same (o := off + i) hv hn (by omega) (by omega) (Or.inl (by omega))
      rw [hout, h.inside i hl, List.getD_append _ _ _ _ hl]
    · have hin := h2.inside (i - as.length) (by omega)
      rw [show off + as.length + (i - as.length) = off + i by omega] at hin
      rw [hin, List.getD_append_right _ _ _ _ (Nat.le_of_not_lt hl)]
  outside := by
    intro p hp
    rw [List.length_append] at hp
    refine (h2.outside p fun i hi => ?_).trans (h.outside p fun i hi => hp i (by omega))
    have := hp (as.length + i) (by omega)
    rwa [← Nat.add_assoc] at this

/-- One write inside a cluster. -/
theorem wrote_cluster {k c lo : Nat} (hk : L[k]? = some c)
    (hb : lo + bs.length ≤ sb.clusterSize) :
    Wrote sb d L (k * sb.clusterSize + lo) bs (d.write (c2oRaw sb c + lo) bs) where
  inside := by
    intro i hi
    rw [filePos_add hk (by omega), Store.write_in _ (by omega) (by omega)]
    congr 1
    omega
  outside := by
    intro p hp
    apply Store.write_out
    by_contra hn
    have := hp (p - (c2oRaw sb c + lo)) (by omega)
    rw [filePos_add hk (by omega)] at this
    omega

end

/-- Clusters outside a chain are not part of its data. -/
theorem Wrote.cluster {c o : Nat} {bs : List UInt8}
    (h : Wrote sb d L off bs e) (hL : ∀ x ∈ L, 2 ≤ x)
    (hb : off + bs.length ≤ L.length * sb.clusterSize) (hc : 2 ≤ c) (hx : c ∉ L)
    (ho : o < sb.clusterSize) : e (c2oRaw sb c + o) = d (c2oRaw sb c + o) := by
  refine h.outside _ fun i hi => ?_
  obtain ⟨x, hk, hm⟩ := exists_cluster (show off + i < L.length * sb.clusterSize by omega)
  rw [filePos_eq hk]
  intro heq
  obtain ⟨rfl, -⟩ := c2oRaw_inj hc (hL x hm) ho (Nat.mod_lt _ (clusterSize_pos sb)) heq
  exact hx hm

/-- Data inside the written range is what was written. -/
theorem Wrote.fileData {bs : List UInt8} (h : Wrote sb d L off bs e) :
    fileData sb e L off bs.length = bs := by
  apply List.ext_getElem (by simp)
  intro i h1 h2
  have hi := h.inside i h2
  rw [List.getD_eq_getElem _ _ h2] at hi
  simpa [Exfat.fileData] using hi

/-- Offsets inside a chain fit in 64 bits. -/
theorem Chained.offset_lt {o : Nat} (hz : Sizes sb) (hc : Chained sb d n L)
    (ho : o ≤ L.length * sb.clusterSize) : o < 2 ^ 57 := by
  have hs : sb.clusterSize ≤ 2 ^ 25 := by
    simp only [SuperBlock.clusterSize, SuperBlock.sectorSize, ← Nat.pow_add]
    exact Nat.pow_le_pow_right (by omega) hz.cluster
  have hl := hc.length_le
  have hcount := hz.count
  calc o ≤ L.length * sb.clusterSize := ho
    _ ≤ (2 ^ 32 - 1) * 2 ^ 25 := Nat.mul_le_mul (by omega) hs
    _ < 2 ^ 57 := by norm_num

/-- Cluster indices below the length of a chain are 32-bit values. -/
theorem Chained.index_mod_count (hcount : sb.clusterCount < 2 ^ 32) (hc : Chained sb d n L)
    (ho : off < L.length * sb.clusterSize) :
    off / sb.clusterSize % 2 ^ 32 = off / sb.clusterSize := by
  have := div_clusterSize_lt ho
  have := hc.length_le
  exact Nat.mod_eq_of_lt (by omega)

/-- Data writes to a chain leave its links alone: it is contiguous, or the FAT entries of its clusters
lie outside of all of them. -/
def LinksApart (sb : SuperBlock) (contiguous : Bool) (L : List Nat) : Prop :=
  contiguous = true ∨ ∀ c ∈ L, ∀ x ∈ L,
    fatOffset sb c + 4 ≤ c2oRaw sb x ∨ c2oRaw sb x + sb.clusterSize ≤ fatOffset sb c

/-- A FAT before the heap is apart from every chain. -/
theorem Geometry.linksApart (hg : Geometry sb) {b : Bool}
    (hv : ∀ c ∈ L, sb.clusterInvalid c = false) : LinksApart sb b L := by
  refine Or.inr fun c hc x _ => Or.inl ?_
  exact (hg.fat_lt (clusterInvalid_false.mp (hv c hc)).2).trans (c2oRaw_ge sb x)

/-- Chains survive writes to their own data. -/
theorem Wrote.walk {bs : List UInt8} {b : Bool} {s : Nat} (h : Wrote sb d L off bs e)
    (ha : LinksApart sb b L) (hb : off + bs.length ≤ L.length * sb.clusterSize)
    (hw : Walk (link sb d b) s L) : Walk (link sb e b) s L := by
  refine hw.congr fun c hc => ?_
  rcases ha with rfl | ha
  · rfl
  have hread : e.read (fatOffset sb c) 4 = d.read (fatOffset sb c) 4 := by
    refine Store.read_congr fun p hp hp4 => h.outside p fun i hi => ?_
    have hlt := div_clusterSize_lt (show off + i < L.length * sb.clusterSize by omega)
    have hmod := Nat.mod_lt (off + i) (clusterSize_pos sb)
    have hapart := ha c (List.mem_of_mem_dropLast hc) _ (List.getElem_mem hlt)
    rw [filePos, List.getD_eq_getElem L 0 hlt]
    omega
  simp only [link, fat, hread]

theorem Wrote.chained {bs : List UInt8} (h : Wrote sb d L off bs e)
    (ha : LinksApart sb n.isContiguous L) (hb : off + bs.length ≤ L.length * sb.clusterSize)
    (hc : Chained sb d n L) : Chained sb e n L :=
  ⟨h.walk ha hb hc.walk, hc.valid, hc.nodup, hc.fptr⟩

section
variable [Env]

/-- The loop of `exfat_generic_pread` collects the data of the chain. -/
theorem preadLoop_spec (hq : Env.Quiet) {b : Bool} {s : Nat} (hw : Walk (link w.sb w.dev b) s L)
    (hv : ∀ c ∈ L, w.sb.clusterInvalid c = false) (fuel k c lo rem : Nat) (buf : List UInt8)
    (hk : 0 < rem → L[k]? = some c) (hlo : lo < w.sb.clusterSize) (hf : rem ≤ fuel)
    (hb : k * w.sb.clusterSize + lo + rem ≤ L.length * w.sb.clusterSize) :
    Wp E (preadLoop b fuel c lo rem buf) w
      (Ret (.ok (buf ++ fileData w.sb w.dev L (k * w.sb.clusterSize + lo) rem)) w) := by
  induction fuel generalizing w k c lo rem buf with
  | zero =>
    obtain rfl : rem = 0 := by omega
    simpa [preadLoop, fileData] using Ret.intro _ _
  | succ fuel ih =>
    by_cases hr : rem = 0
    · subst hr
      simpa [preadLoop, fileData] using Ret.intro _ _
    have hck := hk (Nat.pos_of_ne_zero hr)
    have hvc := hv c (List.mem_of_getElem? hck)
    have hc2 := (clusterInvalid_false.mp hvc).1
    have hsz := clusterSize_pos w.sb
    simp only [preadLoop, if_neg hr, wp_bind, wp_get, hvc, Bool.false_eq_true, if_false]
    generalize hls : min (w.sb.clusterSize - lo) rem = ls
    refine after_ret (exfatC2o_spec hc2) fun t => after_ret (exfatPread_spec hq _ _) fun t => ?_
    simp only [wp_bind]
    refine after_ret (exfatNextCluster_spec hq b hc2) fun t => ?_
    simp only [World.ticked_sb, World.ticked_dev, World.ticked_ticked]
    -- what was read is the data from the current offset on
    have hread : w.dev.read (c2oRaw w.sb c + lo) ls =
        fileData w.sb w.dev L (k * w.sb.clusterSize + lo) ls := by
      apply List.map_congr_left
      intro i hi
      have := List.mem_range.mp hi
      rw [filePos_add hck (by omega)]
    rw [hread]
    by_cases hmore : rem - ls = 0
    · have hlr : ls = rem := by omega
      refine after_ret (ih (w := w.ticked t) hw hv k _ 0 (rem - ls) _ (fun h => absurd h (by omega))
        hsz (by omega) (by simp only [World.ticked_sb]; omega)) fun t => ?_
      exact ⟨by simp [hlr, fileData], t, rfl⟩
    · have hlc : ls = w.sb.clusterSize - lo := by omega
      have hnext : k * w.sb.clusterSize + lo + ls = (k + 1) * w.sb.clusterSize := by
        rw [Nat.succ_mul]
        omega
      have hlt : k + 1 < L.length := by
        by_contra hn
        have := Nat.mul_le_mul_right w.sb.clusterSize (Nat.le_of_not_lt hn)
        omega
      have hk1 := List.getElem?_eq_getElem hlt
      refine after_ret (ih (w := w.ticked t) hw hv (k + 1) _ 0 (rem - ls) _
        (fun _ => by rw [hk1, hw.next hck hk1]) hsz (by omega)
        (by simp only [World.ticked_sb]; omega)) fun t => ?_
      refine ⟨?_, t, rfl⟩
      have hsplit : rem = ls + (rem - ls) := by omega
      simp only [World.ticked_sb, World.ticked_dev]
      rw [List.append_assoc, Nat.add_zero, ← hnext, ← fileData_append, ← hsplit]

/-- The loop of `exfat_generic_pwrite` writes the data of the chain. -/
theorem pwriteLoop_spec (hq : Env.Quiet) {b : Bool} {s : Nat}
    (hw : Walk (link w.sb w.dev b) s L) (ha : LinksApart w.sb b L)
    (hv : ∀ c ∈ L, w.sb.clusterInvalid c = false)
    (hn : L.Nodup) (fuel k c lo : Nat) (buf : List UInt8) (hk : buf ≠ [] → L[k]? = some c)
    (hlo : lo < w.sb.clusterSize) (hf : buf.length ≤ fuel)
    (hb : k * w.sb.clusterSize + lo + buf.length ≤ L.length * w.sb.clusterSize) :
    Wp E (pwriteLoop b fuel c lo buf) w fun rc v =>
      ∃ dev, Wrote w.sb w.dev L (k * w.sb.clusterSize + lo) buf dev ∧
        Ret .ok (w.withDev dev) rc v := by
  induction fuel generalizing w k c lo buf with
  | zero =>
    obtain rfl : buf = [] := List.eq_nil_of_length_eq_zero (by omega)
    exact ⟨w.dev, .nil _ _ _ _, Ret.intro _ _⟩
  | succ fuel ih =>
    by_cases he : buf = []
    · subst he
      exact ⟨w.dev, .nil _ _ _ _, Ret.intro _ _⟩
    have hck := hk he
    have hvc := hv c (List.mem_of_getElem? hck)
    have hc2 := (clusterInvalid_false.mp hvc).1
    have hge : ∀ c ∈ L, 2 ≤ c := fun c hc => (clusterInvalid_false.mp (hv c hc)).1
    have hsz := clusterSize_pos w.sb
    have hpos := List.length_pos_iff.mpr he
    simp only [pwriteLoop, List.isEmpty_iff, if_neg he, wp_bind, wp_get, hvc, Bool.false_eq_true,
      if_false]
    generalize hls : min (w.sb.clusterSize - lo) buf.length = ls
    refine after_ret (exfatC2o_spec hc2) fun t => after_ret (exfatPwrite_spec hq _ _) fun t => ?_
    simp only [if_true, wp_bind]
    refine after_ret (exfatNextCluster_spec hq b hc2) fun t => ?_
    simp only [World.ticked_sb, World.ticked_dev, World.withDev_sb, World.withDev_dev,
      World.withDev_ticked, World.ticked_ticked]
    have htake : (buf.take ls).length = ls := by rw [List.length_take]; omega
    have hfirst : Wrote w.sb w.dev L (k * w.sb.clusterSize + lo) (buf.take ls)
        (w.dev.write (c2oRaw w.sb c + lo) (buf.take ls)) := wrote_cluster hck (by omega)
    generalize w.dev.write (c2oRaw w.sb c + lo) (buf.take ls) = dev at hfirst
    -- the links are not touched, so the chain stays the same
    have hw' : Walk (link w.sb dev b) s L := hfirst.walk ha (by omega) hw
    have hrest : (buf.drop ls).length = buf.length - ls := List.length_drop
    -- the rest of the buffer goes to the data after the first part
    have hfinish : ∀ dev', Wrote w.sb dev L (k * w.sb.clusterSize + lo + ls) (buf.drop ls) dev' →
        Wrote w.sb w.dev L (k * w.sb.clusterSize + lo) buf dev' := by
      intro dev' h
      rw [← List.take_append_drop ls buf]
      refine hfirst.append hge hn (by rw [List.take_append_drop]; exact hb) ?_
      rwa [htake]
    by_cases hmore : buf.drop ls = []
    · refine (ih (w := (w.ticked t).withDev dev) hw' ha hv k _ 0 (buf.drop ls)
        (fun h => absurd hmore h) hsz (by omega)
        (by simp only [hmore, List.length_nil, World.withDev_sb, World.ticked_sb]; omega)).mono ?_
      rintro rc v ⟨dev', hwr, hret⟩
      refine ⟨dev', hfinish dev' ?_, hret⟩
      rw [hmore] at hwr ⊢
      exact ⟨fun _ h => absurd h (Nat.not_lt_zero _), fun p _ => hwr.outside p (by simp)⟩
    · have hlen : 0 < buf.length - ls := hrest ▸ List.length_pos_iff.mpr hmore
      have hlc : ls = w.sb.clusterSize - lo := by omega
      have hnext : k * w.sb.clusterSize + lo + ls = (k + 1) * w.sb.clusterSize := by
        rw [Nat.succ_mul]
        omega
      have hlt : k + 1 < L.length := by
        by_contra hn
        have := Nat.mul_le_mul_right w.sb.clusterSize (Nat.le_of_not_lt hn)
        omega
      have hk1 := List.getElem?_eq_getElem hlt
      refine (ih (w := (w.ticked t).withDev dev) hw' ha hv (k + 1) _ 0 (buf.drop ls)
        (fun _ => by rw [hk1, ← hw'.next hck hk1]) hsz (by omega)
        (by simp only [World.withDev_sb, World.ticked_sb]; omega)).mono ?_
      rintro rc v ⟨dev', hwr, hret⟩
      exact ⟨dev', hfinish dev' (hnext ▸ hwr), hret⟩

/-- Reading from a directory, as far as its chain goes, returns its data and moves only the file
pointer. -/
theorem exfatGenericPread_walk (hq : Env.Quiet) {id : NodeId} {c : Nat} (hn : w.nodes id = some n)
    (hd : n.isDir = true) (hw : Walk (link w.sb w.dev n.isContiguous) n.startCluster L)
    (hv : ∀ x ∈ L, w.sb.clusterInvalid x = false)
    (hf : n.fptrIndex ≤ off / w.sb.clusterSize → L[n.fptrIndex]? = some n.fptrCluster)
    (hidx : off / w.sb.clusterSize < 2 ^ 32) (ho : off < n.size) (hl : 0 < len)
    (hb : off + min len (n.size - off) ≤ L.length * w.sb.clusterSize)
    (hk : L[off / w.sb.clusterSize]? = some c) :
    Wp E (exfatGenericPread id len off) w
      (Ret (.ok (fileData w.sb w.dev L off (min len (n.size - off))))
        (w.setNode id (n.seek (off / w.sb.clusterSize) c))) := by
  have hvc := hv c (List.mem_of_getElem? hk)
  have hmod := Nat.div_add_mod' off w.sb.clusterSize
  simp only [exfatGenericPread, wp_bind, wp_getNode hn, if_neg (Nat.not_le.mpr ho),
    if_neg (Nat.pos_iff_ne_zero.mp hl), wp_get, Nat.mod_eq_of_lt hidx]
  refine after_ret (exfatAdvanceCluster_walk hq hn hw hv hf hk) fun t => ?_
  simp only [World.setNode_ticked, World.setNode_sb, World.ticked_sb, hvc, Bool.false_eq_true,
    if_false, wp_bind]
  refine after_ret (preadLoop_spec hq
    (w := (w.ticked t).setNode id (n.seek (off / w.sb.clusterSize) c))
    hw hv _ (off / w.sb.clusterSize) c (off % w.sb.clusterSize) _ [] (fun _ => hk)
    (Nat.mod_lt _ (clusterSize_pos w.sb)) (Nat.le_refl _)
    (by simp only [World.setNode_sb, World.ticked_sb]; omega)) fun t => ?_
  simp only [wp_bind, wp_get, hd, Bool.not_true, Bool.false_eq_true, false_and, if_false, wp_pure,
    List.nil_append, World.setNode_sb, World.ticked_sb, World.setNode_dev, World.ticked_dev, hmod]
  exact ⟨rfl, t, rfl⟩

/-- Reading from a directory with a chain that covers it. -/
theorem exfatGenericPread_dir (hq : Env.Quiet) (hcount : w.sb.clusterCount < 2 ^ 32) {id : NodeId}
    {c : Nat} (hn : w.nodes id = some n) (hd : n.isDir = true) (hc : Chained w.sb w.dev n L)
    (hs : n.size ≤ L.length * w.sb.clusterSize) (ho : off < n.size) (hl : 0 < len)
    (hk : L[off / w.sb.clusterSize]? = some c) :
    Wp E (exfatGenericPread id len off) w
      (Ret (.ok (fileData w.sb w.dev L off (min len (n.size - off))))
        (w.setNode id (n.seek (off / w.sb.clusterSize) c))) := by
  have hlt := getElem?_lt hk
  have hidx : off / w.sb.clusterSize < 2 ^ 32 := by
    have := hc.length_le
    omega
  refine exfatGenericPread_walk hq hn hd hc.walk hc.valid (fun _ => hc.fptr ?_) hidx ho hl
    (by omega) hk
  rintro rfl
  simp at hlt

/-- Writing inside a directory changes that range of its data and moves the file pointer. -/
theorem exfatGenericPwrite_dir (hq : Env.Quiet) (hz : Sizes w.sb) {id : NodeId} {c : Nat}
    {buf : List UInt8} (hn : w.nodes id = some n) (hd : n.isDir = true)
    (hc : Chained w.sb w.dev n L) (ha : LinksApart w.sb n.isContiguous L)
    (hs : n.size ≤ L.length * w.sb.clusterSize) (hb : buf ≠ [])
    (ho : off + buf.length ≤ n.size) (hk : L[off / w.sb.clusterSize]? = some c) :
    Wp E (exfatGenericPwrite id buf off) w fun rc v =>
      ∃ dev, Wrote w.sb w.dev L off buf dev ∧
        Ret .ok ((w.withDev dev).setNode id
          (n.seek (off / w.sb.clusterSize) c)) rc v := by
  have hpos := List.length_pos_iff.mpr hb
  have hoff : off < L.length * w.sb.clusterSize := by omega
  have hvc := hc.valid c (List.mem_of_getElem? hk)
  have hmod := Nat.div_add_mod' off w.sb.clusterSize
  have h64 : (off + buf.length) % 2 ^ 64 = off + buf.length := by
    have := hc.offset_lt hz (o := off + buf.length) (by omega)
    exact Nat.mod_eq_of_lt (by omega)
  simp only [exfatGenericPwrite, extendTo, wp_bind, wp_getNode hn, h64,
    if_neg (show ¬off > n.size by omega), wp_pure, ne_eq, not_true_eq_false, if_false,
    if_neg (show ¬off + buf.length > n.size by omega), List.isEmpty_iff, if_neg hb, wp_get,
    hc.index_mod_count hz.count hoff]
  refine after_ret (exfatAdvanceCluster_spec hq hn hc hk) fun t => ?_
  simp only [World.setNode_ticked, World.setNode_sb, World.ticked_sb, hvc, Bool.false_eq_true,
    if_false, wp_bind, wp_getNode_setNode]
  apply (pwriteLoop_spec hq
    (w := (w.ticked t).setNode id (n.seek (off / w.sb.clusterSize) c))
    hc.walk ha hc.valid hc.nodup _ (off / w.sb.clusterSize) c (off % w.sb.clusterSize) buf
    (fun _ => hk) (Nat.mod_lt _ (clusterSize_pos w.sb)) (Nat.le_refl _)
    (by simp only [World.setNode_sb, World.ticked_sb]; omega)).mono
  rintro _ _ ⟨dev, hwr, rfl, t, rfl⟩
  simp only [World.setNode_sb, World.setNode_dev, World.ticked_sb, World.ticked_dev, hmod] at hwr
  have hdir : (n.seek (off / w.sb.clusterSize) c).isDir = true :=
    hd
  simp only [not_true_eq_false, if_false, hdir, if_true, wp_pure]
  exact ⟨dev, hwr, rfl, t, rfl⟩

end

end Proofs

end Exfat
