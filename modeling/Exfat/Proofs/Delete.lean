import Exfat.Proofs.Cut
import Exfat.Proofs.Slots

namespace Exfat
open Lib

/-! Removing a child: `delete` may shrink the directory, and `shrink_directory` knows only the names of
the children that remain. -/

/-- What `shrink_directory` reads of a child. -/
def Node.tag (n : Node) : Nat × List Nat := (n.entryOffset, n.name)

/-- The one of two children that starts later, the first one of equal ones. -/
def laterKid : Option Node → Node → Option Node
  | none, node => some node
  | some l, node => some (if l.entryOffset < node.entryOffset then node else l)

/-- The child that starts last. -/
def lastKid (nodes : List Node) (last : Option Node) : Option Node := nodes.foldl laterKid last

namespace Proofs

variable {w v u : World} {n m : Node} {dir id : NodeId} {kids : NodeId → List NodeId}
  {sb : SuperBlock} {off : Nat} {last last' : Option Node}

/-- The cluster of a directory that holds the last name entry of a child, the first one without a
child. -/
def lastCluster (sb : SuperBlock) (last : Option Node) : Nat :=
  (entriesUpTo last * entrySize - 1) / sb.clusterSize

/-- The size `shrink_directory` gives a directory. -/
def shrunkSize (sb : SuperBlock) (off size : Nat) (nodes : List Node) : Nat :=
  match lastNode off nodes none with
  | none => size
  | some last =>
    let newSize := roundUp (entriesUpTo last * entrySize) sb.clusterSize
    if newSize = 0 then sb.clusterSize else newSize

/-- Entry `j` of a directory has the valid bit on disk, in the cluster that the links lead to. -/
def liveEntry (w : World) (m : Node) (j : Nat) : Bool :=
  (w.dev (c2oRaw w.sb (chainAt w m (entrySize * j / w.sb.clusterSize)) +
    entrySize * j % w.sb.clusterSize)).toNat &&& exfatEntryValid ≠ 0

theorem lastNode_eq (off : Nat) (nodes : List Node) (last : Option Node) :
    lastNode off nodes last =
      if ∃ n ∈ nodes, off < n.entryOffset then none else some (lastKid nodes last) := by
  induction nodes generalizing last with
  | nil => simp [lastNode, lastKid]
  | cons n ns ih =>
    by_cases hn : off < n.entryOffset
    · cases last with
      | none => simp [lastNode, hn]
      | some l => simp [lastNode, hn]
    · cases last with
      | none => simp [lastNode, hn, ih, lastKid, laterKid]
      | some l => simp [lastNode, hn, ih, lastKid, laterKid]

/-- The last child is found by offsets alone. -/
theorem lastKid_congr {nodes nodes' : List Node} (h : nodes.map Node.tag = nodes'.map Node.tag)
    (hl : last.map Node.tag = last'.map Node.tag) :
    (lastKid nodes last).map Node.tag = (lastKid nodes' last').map Node.tag := by
  induction nodes generalizing nodes' last last' with
  | nil =>
    cases nodes' with
    | nil => exact hl
    | cons _ _ => simp at h
  | cons n ns ih =>
    cases nodes' with
    | nil => simp at h
    | cons n' ns' =>
      obtain ⟨hn, hns⟩ := List.cons.inj h
      have hoff : n.entryOffset = n'.entryOffset := (Prod.mk.inj hn).1
      suffices hstep : (laterKid last n).map Node.tag = (laterKid last' n').map Node.tag by
        have := ih hns hstep
        exact this
      cases last with
      | none =>
        cases last' with
        | none => exact congrArg some hn
        | some _ => simp at hl
      | some l =>
        cases last' with
        | none => simp at hl
        | some l' =>
          have hll : l.tag = l'.tag := Option.some.inj hl
          have hlo : l.entryOffset = l'.entryOffset := (Prod.mk.inj hll).1
          simp only [laterKid, hoff, hlo]
          split
          · exact congrArg some hn
          · exact congrArg some hll

theorem entriesUpTo_congr (h : last.map Node.tag = last'.map Node.tag) :
    entriesUpTo last = entriesUpTo last' := by
  cases last with
  | none =>
    cases last' with
    | none => rfl
    | some _ => simp at h
  | some l =>
    cases last' with
    | none => simp at h
    | some l' =>
      obtain ⟨h1, h2⟩ := Prod.mk.inj (Option.some.inj h)
      rw [entriesUpTo, entriesUpTo, h1, h2]

theorem behind_congr {nodes nodes' : List Node} (h : nodes.map Node.tag = nodes'.map Node.tag) :
    (∃ n ∈ nodes, off < n.entryOffset) ↔ ∃ n ∈ nodes', off < n.entryOffset := by
  have hiff : ∀ l : List Node, (∃ n ∈ l, off < n.entryOffset) ↔ ∃ t ∈ l.map Node.tag, off < t.1 := by
    intro l
    simp [Node.tag]
  rw [hiff, hiff, h]

theorem shrunkSize_congr {nodes nodes' : List Node} {size : Nat}
    (h : nodes.map Node.tag = nodes'.map Node.tag) :
    shrunkSize sb off size nodes = shrunkSize sb off size nodes' := by
  rw [shrunkSize, shrunkSize, lastNode_eq, lastNode_eq]
  by_cases hb : ∃ n ∈ nodes, off < n.entryOffset
  · rw [if_pos hb, if_pos ((behind_congr h).mp hb)]
  · rw [if_neg hb, if_neg ((behind_congr h).not.mp hb)]
    simp only [entriesUpTo_congr (lastKid_congr h rfl)]

/-- The children that remain when one is removed. -/
def others (w : World) (kids : NodeId → List NodeId) (dir id : NodeId) : List Node :=
  ((kids dir).erase id).filterMap w.nodes

theorem tags_congr {ids : List NodeId}
    (h : ∀ i, (v.nodes i).map Node.tag = (w.nodes i).map Node.tag) :
    (ids.filterMap v.nodes).map Node.tag = (ids.filterMap w.nodes).map Node.tag := by
  rw [List.map_filterMap, List.map_filterMap]
  exact List.filterMap_congr fun i _ => h i

theorem Calm.tag (h : Calm w v) (i : NodeId) :
    (v.nodes i).map Node.tag = (w.nodes i).map Node.tag := by
  have hs := congrArg (Option.map Node.tag) (h.skel i)
  rwa [Option.map_map, Option.map_map] at hs

theorem Relinked.tag (h : Relinked w v) (i : NodeId) :
    (v.nodes i).map Node.tag = (w.nodes i).map Node.tag := by
  have hs := congrArg (Option.map Node.tag) (h.body i)
  rwa [Option.map_map, Option.map_map] at hs

theorem Resized.node_size {size : Nat} (h : Resized dir size w v) (hd : w.nodes dir = some m) :
    ∃ m', v.nodes dir = some m' ∧ m'.size = size := by
  have hs := h.skel dir
  rw [hd] at hs
  cases hm : v.nodes dir with
  | none => rw [hm] at hs; cases hs
  | some m' =>
    rw [hm, Option.map_some, Option.map_some, if_pos rfl] at hs
    exact ⟨m', rfl, congrArg Node.size (Option.some.inj hs)⟩

/-- Every entry of a directory that was live and not the removed child's lies below its size. -/
def KeptBelow (w v : World) (dir : NodeId) (n m : Node) : Prop :=
  ∀ m', v.nodes dir = some m' → ∀ j, entrySize * (j + 1) ≤ m.size → liveEntry w m j = true →
    (j < n.slot ∨ n.slotEnd ≤ j) → entrySize * (j + 1) ≤ m'.size

/-- The condition under which removing a child cuts off no live entry: another child starts behind
it, or all other live entries lie no further than the cluster with the last name entry of the child
that then starts last. -/
def ShrinkSafe (w : World) (kids : NodeId → List NodeId) (dir id : NodeId) (n m : Node) : Prop :=
  (∃ k ∈ others w kids dir id, n.entryOffset < k.entryOffset) ∨
  ∀ j, entrySize * (j + 1) ≤ m.size → liveEntry w m j = true → (j < n.slot ∨ n.slotEnd ≤ j) →
    entrySize * j / w.sb.clusterSize ≤ lastCluster w.sb (lastKid (others w kids dir id) none)

/-- A shrunk directory ends with the cluster of the last child's last name entry. -/
theorem shrunkSize_last {size : Nat} {nodes : List Node}
    (h : ¬∃ k ∈ nodes, off < k.entryOffset) :
    shrunkSize sb off size nodes = (lastCluster sb (lastKid nodes none) + 1) * sb.clusterSize := by
  have hcs := clusterSize_pos sb
  rw [shrunkSize, lastNode_eq, if_neg h]
  dsimp only
  rw [lastCluster]
  generalize entriesUpTo (lastKid nodes none) * entrySize = e
  rcases Nat.eq_zero_or_pos e with rfl | he
  · have hz : roundUp 0 sb.clusterSize = 0 := by
      rw [roundUp, divRoundUp, Nat.zero_add, Nat.div_eq_of_lt (by omega), Nat.zero_mul]
    rw [if_pos hz]
    simp
  · have hr : roundUp e sb.clusterSize = ((e - 1) / sb.clusterSize + 1) * sb.clusterSize := by
      rw [roundUp, divRoundUp, show e + sb.clusterSize - 1 = e - 1 + sb.clusterSize by omega,
        Nat.add_div_right _ hcs]
    have hpos : 0 < ((e - 1) / sb.clusterSize + 1) * sb.clusterSize :=
      Nat.mul_pos (Nat.succ_pos _) hcs
    rw [hr, if_neg (by omega)]

/-- Entries do not straddle clusters. -/
theorem entry_below {q j : Nat} (hs : 5 ≤ sb.sectorBits) :
    entrySize * (j + 1) ≤ (q + 1) * sb.clusterSize ↔ entrySize * j / sb.clusterSize ≤ q := by
  obtain ⟨t, ht⟩ := entrySize_dvd hs
  have hcs := clusterSize_pos sb
  rw [← Nat.lt_succ_iff (n := q), Nat.div_lt_iff_lt_mul hcs, ht]
  have hassoc : (q + 1) * (entrySize * t) = entrySize * ((q + 1) * t) := Nat.mul_left_comm _ _ _
  rw [Nat.succ_eq_add_one, hassoc]
  simp only [entrySize]
  omega

section
variable [Env]

/-- `shrink_directory` gives the directory the size computed from its children, or fails and leaves
it. -/
theorem shrinkDirectory_size (h : Tree w kids) (hd : w.nodes dir = some m) :
    Wp (fun _ => True) (shrinkDirectory dir off) w fun rc v => (rc ≠ .ok → Calm w v) ∧
      (rc = .ok → Resized dir (shrunkSize w.sb off m.size ((kids dir).filterMap w.nodes)) w v) := by
  simp only [shrinkDirectory, wp_bind, wp_getNode hd]
  split
  · trivial
  split
  · trivial
  simp only [wp_bind]
  refine (h.children hd).mono ?_
  rintro _ _ ⟨rfl, rfl⟩
  refine (getNodes_spec fun i hi => (h.kid_node hi).imp fun _ hm => hm.1).mono ?_
  rintro _ _ ⟨rfl, rfl⟩
  rw [shrunkSize]
  cases lastNode off ((kids dir).filterMap w.nodes) none with
  | none => exact ⟨fun hrc => absurd rfl hrc, fun _ => (Calm.refl w).resized_same hd⟩
  | some last =>
    simp only [wp_bind, wp_get]
    generalize (if roundUp (entriesUpTo last * entrySize) w.sb.clusterSize = 0 then
      w.sb.clusterSize else roundUp (entriesUpTo last * entrySize) w.sb.clusterSize) = newSize
    split
    · rename_i hsame
      rw [hsame]
      exact ⟨fun hrc => absurd rfl hrc, fun _ => (Calm.refl w).resized_same hd⟩
    · exact exfatTruncate_calm _ _ _

/-- The size of a directory after one of its children was removed. -/
theorem delete_size (h : TreeWF w kids) (hn : w.nodes id = some n) (hp : n.parent = some dir)
    (hd : w.nodes dir = some m) :
    Wp (fun _ => True) (delete id) w fun rc v => ∃ m', v.nodes dir = some m' ∧
      (m'.size = m.size ∨
        m'.size = shrunkSize w.sb n.entryOffset m.size (others w kids dir id)) ∧
      (rc = .ok → m'.size = shrunkSize w.sb n.entryOffset m.size (others w kids dir id)) := by
  simp only [delete, wp_bind, wp_getNode hn, hp, deref, wp_pure]
  refine (calm_getNodeRef dir w).mono fun _ a ha => ?_
  refine (calm_eraseNode id a).mono fun rc b hb => ?_
  have hwb := Calm.trans _ _ _ ha hb
  split
  · simp only [wp_bind]
    refine (calm_putNode dir b).mono fun _ c hc => ?_
    obtain ⟨m', hm', hsk⟩ := (Calm.trans _ _ _ hwb hc).node hd
    exact ⟨m', hm', Or.inl (skel_size hsk), fun hrc => absurd hrc ‹_›⟩
  · obtain ⟨nb, hnb, hskn⟩ := hwb.node hn
    obtain ⟨mb, hmb, hskm⟩ := hwb.node hd
    have hpb : nb.parent = some dir := ((skel_eq_iff.mp hskn).1).trans hp
    simp only [wp_bind]
    refine (treeDetach_spec trivial (h.calm hwb).toTree hnb hpb).mono ?_
    rintro _ c ⟨hr, htree, -, -⟩
    obtain ⟨mc, hmc, hbody⟩ := hr.node hmb
    have hsizec : mc.size = m.size := by
      rw [← skel_size hskm]
      exact (body_eq_iff.mp hbody).2.2.2.2.2.2.2.2.2.2.2.1
    have htags : ∀ i, (c.nodes i).map Node.tag = (w.nodes i).map Node.tag := fun i =>
      (hr.tag i).trans (hwb.tag i)
    have hsb : c.sb = w.sb := by
      rw [hr.rest]
      exact hwb.sb
    refine (shrinkDirectory_size htree hmc).mono ?_
    rintro rc' x ⟨hfail, hok⟩
    rw [Function.update_self, hsizec, hsb, shrunkSize_congr (tags_congr htags)] at hok
    have hx : ∃ mx, x.nodes dir = some mx ∧ (mx.size = m.size ∨
        mx.size = shrunkSize w.sb n.entryOffset m.size (others w kids dir id)) ∧
        (rc' = .ok → mx.size = shrunkSize w.sb n.entryOffset m.size (others w kids dir id)) := by
      by_cases hrc : rc' = .ok
      · obtain ⟨mx, hmx, hsz⟩ := (hok hrc).node_size hmc
        exact ⟨mx, hmx, Or.inr hsz, fun _ => hsz⟩
      · obtain ⟨mx, hmx, hsk⟩ := (hfail hrc).node hmc
        exact ⟨mx, hmx, Or.inl ((skel_size hsk).trans hsizec), fun h => absurd h hrc⟩
    obtain ⟨mx, hmx, hor, hrcok⟩ := hx
    rw [wp_modifyNode_iff trivial]
    intro nx hnx
    obtain ⟨my, hmy, hsy⟩ : ∃ my, (x.setNode id { nx with isUnlinked := true }).nodes dir = some my ∧
        my.size = mx.size := by
      by_cases hdi : dir = id
      · subst hdi
        obtain rfl := Option.some.inj (hnx.symm.trans hmx)
        exact ⟨_, World.setNode_self _ _ _, rfl⟩
      · exact ⟨mx, (World.setNode_ne _ _ hdi).trans hmx, rfl⟩
    have hend : ∀ {z : World}, Calm (x.setNode id { nx with isUnlinked := true }) z →
        ∃ m', z.nodes dir = some m' ∧ m'.size = mx.size := by
      intro z hz
      obtain ⟨m', hm', hsk⟩ := hz.node hmy
      exact ⟨m', hm', (skel_size hsk).trans hsy⟩
    split
    · simp only [wp_bind]
      refine (calm_flushNode dir _).mono fun _ y hy => ?_
      refine (calm_putNode dir y).mono fun _ z hz => ?_
      obtain ⟨m', hm', hs'⟩ := hend (Calm.trans _ _ _ hy hz)
      exact ⟨m', hm', by rw [hs']; exact hor, fun hrc => absurd hrc ‹_›⟩
    · rename_i hrc
      simp only [wp_bind]
      refine (calm_updateMtime dir _).mono fun _ y hy => ?_
      refine (calm_flushNode dir y).mono fun rc'' z hz => ?_
      refine (calm_putNode dir z).mono fun _ t ht => ?_
      obtain ⟨m', hm', hs'⟩ := hend (Calm.trans _ _ _ (Calm.trans _ _ _ hy hz) ht)
      exact ⟨m', hm', by rw [hs']; exact hor, fun _ => hs'.trans (hrcok (not_not.mp hrc))⟩

/-- Removing a child cuts off no live entry under `ShrinkSafe`, on whatever exit; where `delete`
returns 0, only then. -/
theorem delete_keptBelow_iff (hs : 9 ≤ w.sb.sectorBits) (h : TreeWF w kids)
    (hn : w.nodes id = some n) (hp : n.parent = some dir) (hd : w.nodes dir = some m) {rc : Rc}
    (hrun : delete id w = .ok (rc, v)) :
    (ShrinkSafe w kids dir id n m → KeptBelow w v dir n m) ∧
    (rc = .ok → (KeptBelow w v dir n m ↔ ShrinkSafe w kids dir id n m)) := by
  obtain ⟨m', hm', hsize, hok⟩ := (delete_size h hn hp hd).run hrun
  have hs5 : 5 ≤ w.sb.sectorBits := by omega
  have hsafe : ShrinkSafe w kids dir id n m → KeptBelow w v dir n m := by
    intro hsafe m'' hm'' j hj hl hout
    obtain rfl := Option.some.inj (hm'.symm.trans hm'')
    rcases hsize with hsize | hsize
    · rwa [hsize]
    · by_cases hb : ∃ k ∈ others w kids dir id, n.entryOffset < k.entryOffset
      · rw [hsize, shrunkSize, lastNode_eq, if_pos hb]
        exact hj
      · rw [hsize, shrunkSize_last hb, entry_below hs5]
        exact hsafe.resolve_left hb j hj hl hout
  refine ⟨hsafe, fun hrc => ⟨fun hkept => ?_, hsafe⟩⟩
  by_cases hb : ∃ k ∈ others w kids dir id, n.entryOffset < k.entryOffset
  · exact Or.inl hb
  · refine Or.inr fun j hj hl hout => ?_
    rw [← entry_below hs5, ← shrunkSize_last hb, ← hok hrc]
    exact hkept m' hm' j hj hl hout

end

/-- A root directory of two clusters with one child. -/
def twoClustersRoot : Node :=
  { child := some 1, references := 1, startCluster := 2, fptrCluster := 2, size := 1024
    attrib := exfatAttribDir, isCached := true }

/-- A file whose entry set starts the second cluster of its directory. -/
def secondClusterFile : Node :=
  { parent := some 0, entryOffset := 512, continuations := 2, name := padName [0x61] }

/-- A root directory of two clusters: an entry set at the start of the second one, and the label
behind it. -/
def labelBehind : World where
  dev := ((twoClusters smallSb).dev.write 1536 [0x85]).write 1664 [0x83]
  sb := smallSb
  cmap := { startCluster := 9, size := 8, chunk := some fun i => decide (i < 2), chunkSize := 8 }
  nodes := fun i =>
    if i = 0 then some twoClustersRoot else if i = 1 then some secondClusterFile else none
  fresh := 2

/-- The children in the tree above. -/
def onlyChild (d : NodeId) : List NodeId := if d = 0 then [1] else []

theorem labelBehind_nodes {i : NodeId} {n : Node} (h : labelBehind.nodes i = some n) :
    i = 0 ∧ n = twoClustersRoot ∨ i = 1 ∧ n = secondClusterFile := by
  simp only [labelBehind] at h
  split at h
  · exact Or.inl ⟨‹_›, (Option.some.inj h).symm⟩
  · split at h
    · exact Or.inr ⟨‹_›, (Option.some.inj h).symm⟩
    · cases h

theorem labelBehind_tree : TreeWF labelBehind onlyChild where
  bound := fun i hi =>
    match i, hi with
    | 0, hi => absurd hi (by decide)
    | 1, hi => absurd hi (by decide)
    | _ + 2, _ => rfl
  root := ⟨twoClustersRoot, rfl, rfl, rfl⟩
  list := fun d =>
    match d with
    | 0 => ⟨rfl, rfl, rfl⟩
    | 1 => rfl
    | _ + 2 => rfl
  nodup := fun d => by
    rw [onlyChild]
    split <;> simp
  kid := fun d i => by
    match i with
    | 0 => simp [onlyChild, parentOf, labelBehind, twoClustersRoot]
    | 1 => simp [onlyChild, parentOf, labelBehind, secondClusterFile, eq_comm]
    | i + 2 => simp [onlyChild, parentOf, labelBehind]
  loose := fun i _ =>
    match i with
    | 0 => ⟨rfl, rfl⟩
    | 1 => ⟨rfl, rfl⟩
    | _ + 2 => ⟨rfl, rfl⟩
  cached := fun d n hn hc => by
    obtain ⟨-, rfl⟩ | ⟨-, rfl⟩ := labelBehind_nodes hn
    · decide
    · cases hc
  unlinked := fun i n hn hu => by
    obtain ⟨-, rfl⟩ | ⟨-, rfl⟩ := labelBehind_nodes hn <;> cases hu
  uncached := fun d n hn hc => by
    obtain ⟨-, rfl⟩ | ⟨rfl, rfl⟩ := labelBehind_nodes hn
    · cases hc
    · rfl

theorem delete_keptBelow_iff_labelBehind : ∃ v,
    @delete calmEnv 1 labelBehind = .ok (.ok, v) ∧
      (KeptBelow labelBehind v 0 secondClusterFile twoClustersRoot ↔
        ShrinkSafe labelBehind onlyChild 0 1 secondClusterFile twoClustersRoot) := by
  let _ := calmEnv
  obtain ⟨rc, v, hrun, hp⟩ := returns_of_check (m := delete 1) (s := labelBehind)
    (p := fun rc _ => decide (rc = .ok)) (by decide +kernel)
  obtain rfl := of_decide_eq_true hp
  exact ⟨v, hrun, (delete_keptBelow_iff (by decide) labelBehind_tree rfl rfl rfl hrun).2 rfl⟩

/-- Removing the last child cuts off the label in the second cluster. -/
theorem delete_cuts_label : TreeWF labelBehind onlyChild ∧
    labelBehind.nodes 1 = some secondClusterFile ∧ labelBehind.nodes 0 = some twoClustersRoot ∧
    ∃ rc v, @delete calmEnv 1 labelBehind = .ok (rc, v) ∧ rc = .ok ∧
      ¬KeptBelow labelBehind v 0 secondClusterFile twoClustersRoot := by
  refine ⟨labelBehind_tree, rfl, rfl, ?_⟩
  let _ := calmEnv
  obtain ⟨rc, v, hrun, hp⟩ := returns_of_check (m := delete 1) (s := labelBehind)
    (p := fun rc v => decide (rc = .ok ∧ (v.nodes 0).map Node.size = some 512)) (by decide +kernel)
  obtain ⟨hrc, hsize⟩ := of_decide_eq_true hp
  refine ⟨rc, v, hrun, hrc, fun hkept => ?_⟩
  obtain ⟨m', hm', hs⟩ := Option.map_eq_some_iff.mp hsize
  have hlabel : liveEntry labelBehind twoClustersRoot 20 = true := by decide +kernel
  have := hkept m' hm' 20 (by decide) hlabel (Or.inr (by decide))
  rw [hs] at this
  exact absurd this (by decide)

end Proofs

end Exfat
