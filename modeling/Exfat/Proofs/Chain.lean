import Exfat.Lib.Walk
import Exfat.Proofs.Basic

namespace Exfat
open Lib

/-! Cluster chains: the FAT, the link function of a node and the cached file pointer. -/

/-- The FAT entry of a cluster. -/
def fat (sb : SuperBlock) (dev : Store) (c : Nat) : Nat := leNat (dev.read (fatOffset sb c) 4)

/-- The cluster after a given one, as `exfat_next_cluster` finds it. -/
def link (sb : SuperBlock) (dev : Store) (contiguous : Bool) (c : Nat) : Nat :=
  if contiguous then (c + 1) % 2 ^ 32 else fat sb dev c

/-- A node whose cached file pointer was moved. -/
def Node.seek (n : Node) (k c : Nat) : Node := { n with fptrIndex := k, fptrCluster := c }

section
variable (n : Node) (k c : Nat)

@[simp] theorem Node.seek_parent : (n.seek k c).parent = n.parent := rfl
@[simp] theorem Node.seek_child : (n.seek k c).child = n.child := rfl
@[simp] theorem Node.seek_next : (n.seek k c).next = n.next := rfl
@[simp] theorem Node.seek_prev : (n.seek k c).prev = n.prev := rfl
@[simp] theorem Node.seek_references : (n.seek k c).references = n.references := rfl
@[simp] theorem Node.seek_entryOffset : (n.seek k c).entryOffset = n.entryOffset := rfl
@[simp] theorem Node.seek_startCluster : (n.seek k c).startCluster = n.startCluster := rfl
@[simp] theorem Node.seek_attrib : (n.seek k c).attrib = n.attrib := rfl
@[simp] theorem Node.seek_continuations : (n.seek k c).continuations = n.continuations := rfl
@[simp] theorem Node.seek_isContiguous : (n.seek k c).isContiguous = n.isContiguous := rfl
@[simp] theorem Node.seek_isCached : (n.seek k c).isCached = n.isCached := rfl
@[simp] theorem Node.seek_isDirty : (n.seek k c).isDirty = n.isDirty := rfl
@[simp] theorem Node.seek_isUnlinked : (n.seek k c).isUnlinked = n.isUnlinked := rfl
@[simp] theorem Node.seek_size : (n.seek k c).size = n.size := rfl
@[simp] theorem Node.seek_mtime : (n.seek k c).mtime = n.mtime := rfl
@[simp] theorem Node.seek_atime : (n.seek k c).atime = n.atime := rfl
@[simp] theorem Node.seek_name : (n.seek k c).name = n.name := rfl
@[simp] theorem Node.seek_isDir : (n.seek k c).isDir = n.isDir := rfl
@[simp] theorem Node.seek_fptrIndex : (n.seek k c).fptrIndex = k := rfl
@[simp] theorem Node.seek_fptrCluster : (n.seek k c).fptrCluster = c := rfl
@[simp] theorem Node.seek_seek (k' c' : Nat) : (n.seek k c).seek k' c' = n.seek k' c' := rfl

end

namespace Proofs

/-- Sizes that `exfat_mount` checks, a cluster count of 32 bits, and a FAT that ends before the
clusters start. -/
structure Geometry (sb : SuperBlock) : Prop where
  sector : 9 ≤ sb.sectorBits
  cluster : sb.sectorBits + sb.spcBits ≤ 25
  count : sb.clusterCount < 2 ^ 32
  fat : fatOffset sb (sb.clusterCount + 2) ≤ c2oRaw sb exfatFirstDataCluster

/-- The sizes of a volume: clusters of up to 32 MiB, as `exfat_mount` checks, and a cluster count of
32 bits. -/
structure Sizes (sb : SuperBlock) : Prop where
  cluster : sb.sectorBits + sb.spcBits ≤ 25
  count : sb.clusterCount < 2 ^ 32

/-- A list of clusters is the chain of a node, and the cached file pointer lies on it. -/
structure Chained (sb : SuperBlock) (dev : Store) (n : Node) (L : List Nat) : Prop where
  walk : Walk (link sb dev n.isContiguous) n.startCluster L
  valid : ∀ c ∈ L, sb.clusterInvalid c = false
  nodup : L.Nodup
  fptr : L ≠ [] → L[n.fptrIndex]? = some n.fptrCluster

variable {E : Halt → Prop} {w : World} {n m : Node} {L : List Nat} {sb : SuperBlock} {d e : Store}
  {c x : Nat}

theorem clusterInvalid_false : sb.clusterInvalid c = false ↔ 2 ≤ c ∧ c < sb.clusterCount + 2 := by
  rw [SuperBlock.clusterInvalid, Bool.or_eq_false_iff, decide_eq_false_iff_not,
    decide_eq_false_iff_not, exfatFirstDataCluster]
  omega

theorem clusterSize_pos (sb : SuperBlock) : 0 < sb.clusterSize := by
  simp only [SuperBlock.clusterSize, SuperBlock.sectorSize]
  positivity

/-- A cluster holds whole entries. -/
theorem entrySize_dvd {sb : SuperBlock} (hs : 5 ≤ sb.sectorBits) : entrySize ∣ sb.clusterSize :=
  Dvd.dvd.mul_right (Nat.pow_dvd_pow 2 hs) _

/-- Clusters lie one after the other from the start of the heap. -/
theorem c2oRaw_eq (sb : SuperBlock) (c : Nat) :
    c2oRaw sb c = c2oRaw sb exfatFirstDataCluster + (c - 2) * sb.clusterSize := by
  simp only [c2oRaw, s2o, c2sRaw, exfatFirstDataCluster, SuperBlock.clusterSize,
    SuperBlock.sectorSize]
  ring

/-- A position inside the heap belongs to one cluster only. -/
theorem c2oRaw_inj {o p : Nat} (hc : 2 ≤ c) (hx : 2 ≤ x) (ho : o < sb.clusterSize)
    (hp : p < sb.clusterSize) (h : c2oRaw sb c + o = c2oRaw sb x + p) : c = x ∧ o = p := by
  rw [c2oRaw_eq sb c, c2oRaw_eq sb x] at h
  have hs := clusterSize_pos sb
  have hq : (c - 2) * sb.clusterSize + o = (x - 2) * sb.clusterSize + p := by omega
  have hdiv := congrArg (· / sb.clusterSize) hq
  simp only [Nat.mul_comm _ sb.clusterSize, Nat.mul_add_div hs, Nat.div_eq_of_lt ho,
    Nat.div_eq_of_lt hp, Nat.add_zero] at hdiv
  have hcx : c - 2 = x - 2 := hdiv
  rw [hcx] at hq
  omega

theorem c2oRaw_ge (sb : SuperBlock) (c : Nat) :
    c2oRaw sb exfatFirstDataCluster ≤ c2oRaw sb c := by
  rw [c2oRaw_eq sb c]
  omega

/-- FAT entries of clusters lie before the heap. -/
theorem Geometry.fat_lt (hg : Geometry sb) (hc : c < sb.clusterCount + 2) :
    fatOffset sb c + 4 ≤ c2oRaw sb exfatFirstDataCluster := by
  have := hg.fat
  simp only [fatOffset] at this ⊢
  omega

/-- What lies before the heap decides the FAT. -/
theorem fat_congr (hg : Geometry sb) (hd : ∀ p, p < c2oRaw sb exfatFirstDataCluster → e p = d p)
    (hc : c < sb.clusterCount + 2) : fat sb e c = fat sb d c := by
  have hlt := hg.fat_lt hc
  simp only [fat]
  rw [Store.read_congr fun i _ hi => hd i (by omega)]

theorem link_congr (hg : Geometry sb) (hd : ∀ p, p < c2oRaw sb exfatFirstDataCluster → e p = d p)
    {b : Bool} (hc : c < sb.clusterCount + 2) : link sb e b c = link sb d b c := by
  simp only [link, fat_congr hg hd hc]

/-- One FAT entry written. -/
theorem fat_write (sb : SuperBlock) (d : Store) (c x v : Nat) :
    fat sb (d.write (fatOffset sb c) (toLe 4 v)) x = if x = c then v % 2 ^ 32 else fat sb d x := by
  simp only [fat]
  by_cases h : x = c
  · subst h
    have hr := d.read_write_self (fatOffset sb x) (toLe 4 v)
    rw [toLe_length] at hr
    rw [hr, leNat_toLe, if_pos rfl]
    norm_num
  · rw [if_neg h, Store.read_write_out]
    simp only [fatOffset, toLe_length]
    omega

theorem link_contiguous (hc : c + 1 < 2 ^ 32) : link sb d true c = c + 1 := by
  simp only [link, if_true]
  exact Nat.mod_eq_of_lt hc

/-- A chain that another device or node links the same way. -/
theorem Chained.congr (h : Chained sb d n L)
    (hl : ∀ c ∈ L.dropLast, link sb d n.isContiguous c = link sb e m.isContiguous c)
    (hm : m.startCluster = n.startCluster) (hf : L ≠ [] → L[m.fptrIndex]? = some m.fptrCluster) :
    Chained sb e m L where
  walk := by
    rw [hm]
    exact h.walk.congr hl
  valid := h.valid
  nodup := h.nodup
  fptr := hf

theorem Chained.lt (h : Chained sb d n L) (hc : c ∈ L) : c < sb.clusterCount + 2 :=
  (clusterInvalid_false.mp (h.valid c hc)).2

theorem Chained.ge (h : Chained sb d n L) (hc : c ∈ L) : 2 ≤ c :=
  (clusterInvalid_false.mp (h.valid c hc)).1

/-- A chain does not depend on what the heap holds. -/
theorem Chained.heap (h : Chained sb d n L) (hg : Geometry sb)
    (hd : ∀ p, p < c2oRaw sb exfatFirstDataCluster → e p = d p) : Chained sb e n L :=
  h.congr (fun _ hc => (link_congr hg hd (h.lt (List.mem_of_mem_dropLast hc))).symm) rfl h.fptr

/-- There are no more clusters than the volume has. -/
theorem valid_length_le (hv : ∀ c ∈ L, sb.clusterInvalid c = false) (hn : L.Nodup) :
    L.length ≤ sb.clusterCount := by
  have hsub : L.toFinset ⊆ Finset.Ico 2 (sb.clusterCount + 2) := by
    intro c hc
    rw [List.mem_toFinset] at hc
    exact Finset.mem_Ico.mpr (clusterInvalid_false.mp (hv c hc))
  have hcard := Finset.card_le_card hsub
  rw [List.toFinset_card_of_nodup hn] at hcard
  simpa using hcard

/-- A chain has no more clusters than the volume. -/
theorem Chained.length_le (h : Chained sb d n L) : L.length ≤ sb.clusterCount :=
  valid_length_le h.valid h.nodup

/-- Moving the file pointer keeps the chain. -/
theorem Chained.advanced {k : Nat} (h : Chained sb d n L) (hk : L[k]? = some x) :
    Chained sb d (n.seek k x) L :=
  ⟨h.walk, h.valid, h.nodup, fun _ => hk⟩

theorem exfatC2o_spec (hc : 2 ≤ c) : Wp E (exfatC2o c) w (Ret (c2oRaw w.sb c) w) := by
  have hn : ¬c < exfatFirstDataCluster := by simp only [exfatFirstDataCluster]; omega
  simp only [exfatC2o, c2s, if_neg hn, wp_bind, wp_get, wp_pure]
  exact Ret.intro _ _

section
variable [Env]

theorem exfatNextCluster_spec (hq : Env.Quiet) (b : Bool) (hc : 2 ≤ c) :
    Wp E (exfatNextCluster b c) w (Ret (link w.sb w.dev b c) w) := by
  have hn : ¬c < exfatFirstDataCluster := by simp only [exfatFirstDataCluster]; omega
  unfold exfatNextCluster
  rw [if_neg hn]
  cases b with
  | true =>
    simp only [if_true, wp_pure, link]
    exact Ret.intro _ _
  | false =>
    simp only [Bool.false_eq_true, if_false, wp_bind, wp_get]
    refine after_ret (exfatPread_spec hq _ _) fun t => ?_
    exact ⟨rfl, t, rfl⟩

/-- The loop of `exfat_advance_cluster` goes `k` clusters ahead on a valid chain. -/
theorem advanceLoop_spec (hq : Env.Quiet) {b : Bool} {k : Nat} (hw : Walk (link w.sb w.dev b) c L)
    (hv : ∀ x ∈ L, w.sb.clusterInvalid x = false) (hk : L[k]? = some x) :
    Wp E (advanceLoop b k c) w (Ret x w) := by
  induction k generalizing w c L with
  | zero =>
    cases L with
    | nil => simp at hk
    | cons y ys =>
      obtain ⟨rfl, -⟩ := hw
      simp only [List.getElem?_cons_zero, Option.some.injEq] at hk
      subst hk
      exact Ret.intro _ _
  | succ k ih =>
    cases L with
    | nil => simp at hk
    | cons y ys =>
      obtain ⟨rfl, hw⟩ := hw
      rw [List.getElem?_cons_succ] at hk
      have hy := (clusterInvalid_false.mp (hv y (by simp))).1
      simp only [advanceLoop, wp_bind]
      refine after_ret (exfatNextCluster_spec hq b hy) fun t => ?_
      have hz : w.sb.clusterInvalid (link w.sb w.dev b y) = false := by
        cases ys with
        | nil => simp at hk
        | cons z zs => exact hw.1 ▸ hv z (by simp)
      simp only [wp_get, World.ticked_sb, hz, Bool.false_eq_true, if_false]
      exact ih (w := w.ticked t) hw (fun z hz => hv z (by simp [hz])) hk

/-- `exfat_advance_cluster` from a cached pointer that lies on the chain, if it is used at all. -/
theorem exfatAdvanceCluster_walk (hq : Env.Quiet) {id : NodeId} {k : Nat}
    (hn : w.nodes id = some n) (hw : Walk (link w.sb w.dev n.isContiguous) n.startCluster L)
    (hv : ∀ x ∈ L, w.sb.clusterInvalid x = false)
    (hf : n.fptrIndex ≤ k → L[n.fptrIndex]? = some n.fptrCluster) (hk : L[k]? = some x) :
    Wp E (exfatAdvanceCluster id k) w
      (Ret x (w.setNode id (n.seek k x))) := by
  have hstep : Wp E (advanceLoop n.isContiguous
      (k - (if n.fptrIndex > k then (0, n.startCluster) else (n.fptrIndex, n.fptrCluster)).1)
      (if n.fptrIndex > k then (0, n.startCluster) else (n.fptrIndex, n.fptrCluster)).2) w
      (Ret x w) := by
    by_cases hi : n.fptrIndex > k
    · simp only [if_pos hi]
      exact advanceLoop_spec hq hw hv hk
    · simp only [if_neg hi]
      apply advanceLoop_spec hq (hw.drop (hf (Nat.le_of_not_lt hi)))
        (fun x hx => hv x (List.mem_of_mem_drop hx))
      rw [List.getElem?_drop, Nat.add_sub_cancel' (Nat.le_of_not_lt hi)]
      exact hk
  simp only [exfatAdvanceCluster, wp_bind, wp_getNode hn]
  refine after_ret hstep fun t => ?_
  rw [wp_modifyNode (n := n) (by simpa using hn)]
  exact ⟨rfl, t, rfl⟩

/-- `exfat_advance_cluster` returns the cluster at an index of the chain and caches it. -/
theorem exfatAdvanceCluster_spec (hq : Env.Quiet) {id : NodeId} {k : Nat}
    (hn : w.nodes id = some n) (hc : Chained w.sb w.dev n L) (hk : L[k]? = some x) :
    Wp E (exfatAdvanceCluster id k) w
      (Ret x (w.setNode id (n.seek k x))) := by
  refine exfatAdvanceCluster_walk hq hn hc.walk hc.valid (fun _ => hc.fptr ?_) hk
  rintro rfl
  simp at hk

end

end Proofs

end Exfat
