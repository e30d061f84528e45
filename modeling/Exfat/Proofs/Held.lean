import Exfat.Proofs.CalmDir

namespace Exfat
open Lib

/-! Reading a directory whatever its FAT entries say and whichever requests fail: what is read is what
the valid clusters at the start of its chain hold. -/

namespace Proofs

variable {w : World} {n : Node} {L : List Nat} {sb : SuperBlock} {d : Store} {c off : Nat}

theorem fileData_drop (sb : SuperBlock) (d : Store) (L : List Nat) (off len k : Nat) :
    (fileData sb d L off len).drop k = fileData sb d L (off + k) (len - k) := by
  by_cases hk : k ≤ len
  · obtain ⟨r, rfl⟩ := Nat.exists_eq_add_of_le hk
    rw [fileData_append, List.drop_left' (fileData_length ..), Nat.add_sub_cancel_left]
  · rw [List.drop_eq_nil_of_le (by rw [fileData_length]; omega), Nat.sub_eq_zero_of_le (by omega)]
    rfl

theorem fileData_take (sb : SuperBlock) (d : Store) (L : List Nat) (off : Nat) {len k : Nat}
    (hk : k ≤ len) : (fileData sb d L off len).take k = fileData sb d L off k := by
  obtain ⟨r, rfl⟩ := Nat.exists_eq_add_of_le hk
  rw [fileData_append, List.take_left' (fileData_length ..)]

/-- At most `k` clusters from a given one on, up to the first that is not valid. -/
def validClusters (sb : SuperBlock) (dev : Store) (contiguous : Bool) : Nat → Nat → List Nat
  | 0, _ => []
  | k + 1, c =>
    if sb.clusterInvalid c then []
    else c :: validClusters sb dev contiguous k (link sb dev contiguous c)

/-- The clusters of a node that can be read: the valid beginning of its chain, as far as its size
goes. -/
def heldClusters (sb : SuperBlock) (dev : Store) (n : Node) : List Nat :=
  validClusters sb dev n.isContiguous (divRoundUp n.size sb.clusterSize) n.startCluster

/-- What the clusters of a directory hold. -/
def dirData (sb : SuperBlock) (dev : Store) (n : Node) : List UInt8 :=
  fileData sb dev (heldClusters sb dev n) 0
    (min n.size ((heldClusters sb dev n).length * sb.clusterSize))

/-- The clusters `L` are the valid beginning of the chain of a node. -/
structure Held (sb : SuperBlock) (dev : Store) (n : Node) (L : List Nat) : Prop where
  walk : Walk (link sb dev n.isContiguous) n.startCluster L
  valid : ∀ c ∈ L, sb.clusterInvalid c = false
  first : 0 < n.size → sb.clusterInvalid n.startCluster = false → L ≠ []
  next : ∀ k c, L[k]? = some c → (k + 1) * sb.clusterSize < n.size →
    sb.clusterInvalid (link sb dev n.isContiguous c) = false → k + 1 < L.length

section
variable {b : Bool} {k s x : Nat}

theorem validClusters_walk : Walk (link sb d b) s (validClusters sb d b k s) := by
  induction k generalizing s with
  | zero => trivial
  | succ k ih =>
    rw [validClusters]
    split
    · trivial
    · exact ⟨rfl, ih⟩

theorem validClusters_valid (h : x ∈ validClusters sb d b k s) : sb.clusterInvalid x = false := by
  induction k generalizing s with
  | zero => cases h
  | succ k ih =>
    rw [validClusters] at h
    split at h
    · cases h
    · rename_i hs
      rcases List.mem_cons.mp h with rfl | h
      · simpa using hs
      · exact ih h

theorem validClusters_next {i : Nat} (h : (validClusters sb d b k s)[i]? = some x) (hk : i + 1 < k)
    (hx : sb.clusterInvalid (link sb d b x) = false) :
    i + 1 < (validClusters sb d b k s).length := by
  induction k generalizing s i with
  | zero => omega
  | succ k ih =>
    rw [validClusters] at h ⊢
    split at h
    · cases h
    · rename_i hs
      rw [if_neg hs, List.length_cons]
      cases i with
      | zero =>
        rw [List.getElem?_cons_zero, Option.some.injEq] at h
        subst h
        obtain ⟨k, rfl⟩ := Nat.exists_eq_succ_of_ne_zero (show k ≠ 0 by omega)
        rw [validClusters, if_neg (by rw [hx]; decide), List.length_cons]
        omega
      | succ i =>
        rw [List.getElem?_cons_succ] at h
        have := ih h (by omega)
        omega

end

theorem heldClusters_held (sb : SuperBlock) (dev : Store) (n : Node) :
    Held sb dev n (heldClusters sb dev n) where
  walk := validClusters_walk
  valid _ h := validClusters_valid h
  first := by
    intro hs hv
    obtain ⟨k, hk⟩ := Nat.exists_eq_succ_of_ne_zero
      (Nat.pos_iff_ne_zero.mp ((divRoundUp_pos (clusterSize_pos sb)).mpr hs))
    rw [heldClusters, hk, validClusters, if_neg (by rw [hv]; decide)]
    exact List.cons_ne_nil _ _
  next := by
    intro k c hk hs hv
    refine validClusters_next hk ?_ hv
    have hle := le_divRoundUp_mul n.size (clusterSize_pos sb)
    by_contra hge
    have := Nat.mul_le_mul_right sb.clusterSize (Nat.le_of_not_lt hge)
    omega

/-- The element after one of the clusters, if it is valid, is one of them. -/
theorem Held.get_next (h : Held sb d n L) {k x : Nat} (hk : L[k]? = some c)
    (hs : (k + 1) * sb.clusterSize < n.size) (hx : sb.clusterInvalid x = false)
    (hl : x = link sb d n.isContiguous c) : L[k + 1]? = some x := by
  have hlt := h.next k c hk hs (hl ▸ hx)
  rw [List.getElem?_eq_getElem hlt, hl, h.walk.next hk (List.getElem?_eq_getElem hlt)]

section
variable [Env]

/-- A request that failed is not mistaken for a cluster: no read fails, or the mark of a bad cluster
is not valid. -/
def Honest (sb : SuperBlock) : Prop :=
  (∀ t, Env.ioFails t = false) ∨ sb.clusterInvalid exfatClusterBad = true

theorem Env.Quiet.honest (hq : Env.Quiet) (sb : SuperBlock) : Honest sb := Or.inl hq.io

theorem exfatNextCluster_honest (hb : Honest w.sb) (b : Bool) (c : Nat) :
    Wp (fun _ => True) (exfatNextCluster b c) w fun x v => (∃ t, v = w.ticked t) ∧
      (w.sb.clusterInvalid x = false → x = link w.sb w.dev b c) := by
  unfold exfatNextCluster
  split
  · trivial
  split
  · rename_i hb
    subst hb
    exact ⟨⟨w.tick, rfl⟩, fun _ => rfl⟩
  · rename_i hfat
    simp only [wp_bind, wp_get, exfatPread, wp_nextTick]
    split
    · rename_i hfail
      refine ⟨⟨_, rfl⟩, fun hx => ?_⟩
      rcases hb with hio | hbad
      · rw [hio] at hfail
        cases hfail
      · rw [hbad] at hx
        cases hx
    · refine ⟨⟨_, rfl⟩, fun _ => ?_⟩
      rw [link, if_neg hfat]
      rfl

/-- A cluster that the loop of `exfat_advance_cluster` finds valid is the one at its index. -/
theorem advanceLoop_held (hb : Honest w.sb) (h : Held w.sb w.dev n L) {i k : Nat}
    (hi : L[i]? = some c) (hs : (i + k) * w.sb.clusterSize < n.size) :
    Wp (fun _ => True) (advanceLoop n.isContiguous k c) w fun x v => (∃ t, v = w.ticked t) ∧
      (w.sb.clusterInvalid x = false → L[i + k]? = some x) := by
  induction k generalizing w i c with
  | zero => exact ⟨⟨w.tick, rfl⟩, fun _ => hi⟩
  | succ k ih =>
    simp only [advanceLoop, wp_bind]
    refine (exfatNextCluster_honest hb n.isContiguous c).mono ?_
    rintro x _ ⟨⟨t, rfl⟩, hx⟩
    simp only [wp_get]
    split
    · rename_i hinv
      exact ⟨⟨t, rfl⟩, fun hv => absurd hinv (by rw [World.ticked_sb, hv]; decide)⟩
    · rename_i hval
      have hv : w.sb.clusterInvalid x = false := by simpa using hval
      have hlt : (i + 1) * w.sb.clusterSize < n.size :=
        lt_of_le_of_lt (Nat.mul_le_mul_right _ (by omega)) hs
      have hnext := h.get_next hi hlt hv (hx hv)
      refine (ih (w := w.ticked t) hb h hnext (by rwa [Nat.add_assoc, Nat.add_comm 1 k])).mono ?_
      rintro y _ ⟨⟨t', rfl⟩, hy⟩
      refine ⟨⟨t', rfl⟩, fun hv' => ?_⟩
      rw [← Nat.add_assoc, Nat.add_right_comm]
      exact hy hv'

/-- What the loop of `exfat_generic_pread` reads is data of the clusters. -/
theorem preadLoop_held (hb : Honest w.sb) (h : Held w.sb w.dev n L) (fuel k c lo rem : Nat)
    (buf : List UInt8) (hk : 0 < rem → w.sb.clusterInvalid c = false → L[k]? = some c)
    (hlo : lo < w.sb.clusterSize) (hf : rem ≤ fuel)
    (hs : 0 < rem → k * w.sb.clusterSize + lo + rem ≤ n.size) :
    Wp (fun _ => True) (preadLoop n.isContiguous fuel c lo rem buf) w fun r v =>
      (∀ bs, r = .ok bs → (∃ t, v = w.ticked t) ∧
        (0 < rem → k * w.sb.clusterSize + lo + rem ≤ L.length * w.sb.clusterSize) ∧
        bs = buf ++ fileData w.sb w.dev L (k * w.sb.clusterSize + lo) rem) := by
  have hsz := clusterSize_pos w.sb
  induction fuel generalizing w k c lo rem buf with
  | zero =>
    obtain rfl : rem = 0 := by omega
    rintro bs ⟨⟩
    exact ⟨⟨w.tick, rfl⟩, fun h0 => absurd h0 (lt_irrefl 0), by simp [fileData]⟩
  | succ fuel ih =>
    rw [preadLoop]
    split
    · rename_i h0
      subst h0
      rintro bs ⟨⟩
      exact ⟨⟨w.tick, rfl⟩, fun h0 => absurd h0 (lt_irrefl 0), by simp [fileData]⟩
    rename_i h0
    have hpos := Nat.pos_of_ne_zero h0
    simp only [wp_bind, wp_get]
    split
    · simp
    rename_i hval
    have hv : w.sb.clusterInvalid c = false := by simpa using hval
    have hck := hk hpos hv
    have hlt := getElem?_lt hck
    have hle := hs hpos
    generalize hls : min (w.sb.clusterSize - lo) rem = ls
    simp only [wp_bind]
    refine after_ret (exfatC2o_spec (clusterInvalid_false.mp hv).1) fun t => ?_
    simp only [exfatPread, wp_bind, wp_nextTick]
    split
    · simp
    simp only [wp_bind, wp_get, wp_pure]
    refine (exfatNextCluster_honest (w := w.ticked ((w.ticked t).tick + 1)) hb _ _).mono ?_
    rintro x _ ⟨⟨t', rfl⟩, hx⟩
    simp only [World.ticked_ticked, World.ticked_sb, World.ticked_dev] at hx ⊢
    -- what was read is the data from the current offset on
    have hread : w.dev.read (c2oRaw w.sb c + lo) ls =
        fileData w.sb w.dev L (k * w.sb.clusterSize + lo) ls := by
      apply List.map_congr_left
      intro i hi
      have := List.mem_range.mp hi
      rw [filePos_add hck (by omega)]
    have hnext : (k + 1) * w.sb.clusterSize = k * w.sb.clusterSize + w.sb.clusterSize :=
      Nat.succ_mul _ _
    have hin : (k + 1) * w.sb.clusterSize ≤ L.length * w.sb.clusterSize :=
      Nat.mul_le_mul_right _ hlt
    have hmore : 0 < rem - ls → ls = w.sb.clusterSize - lo := by omega
    refine (ih (w := w.ticked t') (k := k + 1) hb h _ _ _ _ (fun hp hv' => ?_) hsz (by omega)
      (fun hp => ?_) hsz).mono ?_
    · have hfull := hmore hp
      exact h.get_next hck (by omega) hv' (hx hv')
    · have hfull := hmore hp
      simp only [World.ticked_sb]
      omega
    · rintro r v hr bs rfl
      obtain ⟨⟨t'', rfl⟩, hb', rfl⟩ := hr bs rfl
      simp only [World.ticked_ticked, World.ticked_sb, World.ticked_dev, Nat.add_zero] at hb' ⊢
      refine ⟨⟨t'', rfl⟩, fun _ => ?_, ?_⟩
      · by_cases hp : 0 < rem - ls
        · have hfull := hmore hp
          have := hb' hp
          omega
        · omega
      · by_cases hp : 0 < rem - ls
        · have hfull := hmore hp
          have hoff : k * w.sb.clusterSize + lo + ls = (k + 1) * w.sb.clusterSize := by omega
          rw [List.append_assoc, hread, ← hoff, ← fileData_append, show ls + (rem - ls) = rem by omega]
        · obtain rfl : ls = rem := by omega
          simp [hread, fileData]

/-- The cached file pointer is on one of the clusters, or the read starts over from the first. -/
def Aims (sb : SuperBlock) (n : Node) (L : List Nat) (off : Nat) : Prop :=
  L[n.fptrIndex]? = some n.fptrCluster ∨
    off < sb.clusterSize ∧ (n.fptrIndex = 0 → n.fptrCluster = n.startCluster)

variable {dir : NodeId} {len : Nat}

theorem exfatAdvanceCluster_held (hb : Honest w.sb) (h : Held w.sb w.dev n L)
    (hn : w.nodes dir = some n) (ha : Aims w.sb n L off) (ho : off < n.size) :
    Wp (fun _ => True) (exfatAdvanceCluster dir (off / w.sb.clusterSize)) w fun x v =>
      (∃ t, v = (w.setNode dir (n.seek (off / w.sb.clusterSize) x)).ticked t) ∧
        (w.sb.clusterInvalid x = false → L[off / w.sb.clusterSize]? = some x) := by
  have hk : off / w.sb.clusterSize * w.sb.clusterSize < n.size :=
    lt_of_le_of_lt (Nat.div_mul_le_self _ _) ho
  have hstart : ∀ x, L[0]? = some x → x = n.startCluster := fun x hx => h.walk.get hx
  have hloop : Wp (fun _ => True) (advanceLoop n.isContiguous
      (off / w.sb.clusterSize - (if n.fptrIndex > off / w.sb.clusterSize then (0, n.startCluster)
        else (n.fptrIndex, n.fptrCluster)).1)
      (if n.fptrIndex > off / w.sb.clusterSize then (0, n.startCluster)
        else (n.fptrIndex, n.fptrCluster)).2) w fun x v => (∃ t, v = w.ticked t) ∧
        (w.sb.clusterInvalid x = false → L[off / w.sb.clusterSize]? = some x) := by
    rcases ha with hon | ⟨hfirst, hzero⟩
    · split
      · have hne : L ≠ [] := by
          rintro rfl
          simp at hon
        have h0 : L[0]? = some n.startCluster := by
          rw [List.getElem?_eq_getElem (List.length_pos_iff.mpr hne)]
          exact congrArg some (hstart _ (List.getElem?_eq_getElem _))
        have hrun := advanceLoop_held hb h h0 (k := off / w.sb.clusterSize) (by rwa [Nat.zero_add])
        rwa [Nat.zero_add] at hrun
      · rename_i hle
        have hsum : n.fptrIndex + (off / w.sb.clusterSize - n.fptrIndex) =
            off / w.sb.clusterSize := by omega
        have hrun := advanceLoop_held hb h hon (k := off / w.sb.clusterSize - n.fptrIndex)
          (by rwa [hsum])
        rwa [hsum] at hrun
    · -- the first cluster: the start, if it is valid
      have hdiv : off / w.sb.clusterSize = 0 := Nat.div_eq_of_lt hfirst
      have hpair : (if n.fptrIndex > 0 then (0, n.startCluster) else (n.fptrIndex, n.fptrCluster)) =
          (0, n.startCluster) := by
        split
        · rfl
        · rename_i hle
          have h0 : n.fptrIndex = 0 := by omega
          rw [h0, hzero h0]
      rw [hdiv, hpair]
      refine ⟨⟨w.tick, rfl⟩, fun hv => ?_⟩
      obtain ⟨y, ys, rfl⟩ := List.exists_cons_of_ne_nil (h.first (by omega) hv)
      rw [List.getElem?_cons_zero, hstart y rfl]
  simp only [exfatAdvanceCluster, wp_bind, wp_getNode hn]
  refine hloop.mono ?_
  rintro x _ ⟨⟨t, rfl⟩, hx⟩
  rw [wp_modifyNode (n := n) (by simpa using hn)]
  exact ⟨⟨t, rfl⟩, hx⟩

/-- What is read of a directory is data of its clusters, and leaves the file pointer on them. -/
theorem exfatGenericPread_held (hb : Honest w.sb) (h : Held w.sb w.dev n L)
    (hn : w.nodes dir = some n) (hd : n.isDir = true) (ha : Aims w.sb n L off)
    (hidx : off / w.sb.clusterSize < 2 ^ 32) (ho : off + len ≤ n.size) (hl : 0 < len) :
    Wp (fun _ => True) (exfatGenericPread dir len off) w fun r v => ∀ bs, r = .ok bs →
      off + len ≤ L.length * w.sb.clusterSize ∧ bs = fileData w.sb w.dev L off len ∧
        ∃ x t, L[off / w.sb.clusterSize]? = some x ∧
          v = (w.setNode dir (n.seek (off / w.sb.clusterSize) x)).ticked t := by
  have hmod := Nat.div_add_mod' off w.sb.clusterSize
  have hlen : min len (n.size - off) = len := by omega
  simp only [exfatGenericPread, wp_bind, wp_getNode hn, if_neg (show ¬off ≥ n.size by omega),
    if_neg (Nat.pos_iff_ne_zero.mp hl), wp_get, Nat.mod_eq_of_lt hidx, hlen]
  refine (exfatAdvanceCluster_held hb h hn ha (by omega)).mono ?_
  rintro x _ ⟨⟨t, rfl⟩, hx⟩
  split
  · simp
  rename_i hval
  have hv : w.sb.clusterInvalid x = false := by simpa using hval
  simp only [wp_bind]
  refine (preadLoop_held
    (w := (w.setNode dir (n.seek (off / w.sb.clusterSize) x)).ticked t) hb h len
    (off / w.sb.clusterSize) x (off % w.sb.clusterSize) len [] (fun _ => hx)
    (Nat.mod_lt _ (clusterSize_pos w.sb)) (Nat.le_refl _) fun _ => ?_).mono fun r v hr => ?_
  · simp only [World.ticked_sb, World.setNode_sb]
    omega
  cases r with
  | error e => simp
  | ok bs =>
    obtain ⟨⟨t', rfl⟩, hin, rfl⟩ := hr bs rfl
    simp only [wp_bind, wp_get, hd, Bool.not_true, Bool.false_eq_true, false_and, if_false, wp_pure,
      List.nil_append, World.setNode_sb, World.ticked_sb, World.setNode_dev, World.ticked_dev, hmod]
      at hin ⊢
    rintro _ ⟨⟩
    exact ⟨hin hl, rfl, x, t', hx hv, rfl⟩

/-- What `read_entries` returns are entries of the clusters. -/
theorem readEntries_held (hb : Honest w.sb) (h : Held w.sb w.dev n L) (hn : w.nodes dir = some n)
    (ha : Aims w.sb n L off) (hidx : n.size ≤ 2 ^ 32 * w.sb.clusterSize) {k : Nat} (hk : 0 < k) :
    Wp (fun _ => True) (readEntries dir k off) w fun r v => ∀ bs, r = .ok bs →
      off + entrySize * k ≤ min n.size (L.length * w.sb.clusterSize) ∧
        bs = fileData w.sb w.dev L off (entrySize * k) ∧
          ∃ x t, L[off / w.sb.clusterSize]? = some x ∧
            v = (w.setNode dir (n.seek (off / w.sb.clusterSize) x)).ticked t := by
  have hlen : 0 < entrySize * k := by
    rw [entrySize]
    omega
  by_cases hin : off + entrySize * k ≤ n.size
  · have hdiv : off / w.sb.clusterSize < 2 ^ 32 :=
      Nat.div_lt_of_lt_mul (by rw [Nat.mul_comm]; omega)
    simp only [readEntries, wp_bind, wp_getNode hn]
    split
    · trivial
    rename_i hd
    simp only [wp_bind]
    refine (exfatGenericPread_held hb h hn (by simpa using hd) ha hdiv hin hlen).mono ?_
    rintro r v hr
    cases r with
    | error e => simp
    | ok bs =>
      obtain ⟨hb', hdata, hv⟩ := hr bs rfl
      have hfull : bs.length = entrySize * k := by rw [hdata, fileData_length]
      simp only [hfull, if_true, wp_pure]
      rintro _ ⟨⟩
      exact ⟨le_min hin hb', hdata, hv⟩
  · refine (readEntries_calm dir k off).mono ?_
    rintro r v ⟨-, hr, -⟩ bs hbs
    obtain ⟨-, m, hm, -, hm'⟩ := hr bs hbs
    obtain rfl := Option.some.inj (hn.symm.trans hm)
    exact absurd (hm' hk) hin

/-- Without a failing request all entries are read that the clusters hold. -/
theorem readEntries_quiet {E : Halt → Prop} (hq : Env.Quiet) (h : Held w.sb w.dev n L)
    (hn : w.nodes dir = some n) (hd : n.isDir = true) (ha : Aims w.sb n L off)
    (hidx : n.size ≤ 2 ^ 32 * w.sb.clusterSize) {k : Nat} (hk : 0 < k)
    (ho : off + entrySize * k ≤ min n.size (L.length * w.sb.clusterSize)) :
    Wp E (readEntries dir k off) w fun r _ => ∃ bs, r = .ok bs := by
  have hlen : 0 < entrySize * k := by
    rw [entrySize]
    omega
  obtain ⟨x, hx, -⟩ := exists_cluster (L := L) (show off < L.length * w.sb.clusterSize by omega)
  have hmin : min (entrySize * k) (n.size - off) = entrySize * k := by omega
  have hf : n.fptrIndex ≤ off / w.sb.clusterSize → L[n.fptrIndex]? = some n.fptrCluster := by
    intro hle
    rcases ha with hon | ⟨hfirst, hzero⟩
    · exact hon
    · rw [Nat.div_eq_of_lt hfirst] at hle hx
      have h0 : n.fptrIndex = 0 := by omega
      rw [h0, hzero h0, hx, h.walk.get hx]
      rfl
  simp only [readEntries, wp_bind, wp_getNode hn, hd, Bool.not_true, Bool.false_eq_true, if_false]
  refine (exfatGenericPread_walk hq hn hd h.walk h.valid hf
    (Nat.div_lt_of_lt_mul (by rw [Nat.mul_comm]; omega)) (by omega) hlen (by omega) hx).mono ?_
  rintro _ _ ⟨rfl, -⟩
  simp only [hmin, fileData_length, if_true, wp_pure]
  exact ⟨_, rfl⟩

end

end Proofs

end Exfat
