import Exfat.Lib.Walk
import Exfat.Model.Recovery
import Exfat.Proofs.Basic

namespace Exfat
open Lib

/-! The chain that the recovery tool builds for the allocation bitmap. -/

/-- The entries that look free. -/
def freeEntries (fat : FileAllocationTable) : Finset Nat :=
  (Finset.range clusterCount).filter fun c => fat.entries c = exfatClusterFree

/-- A chain of `n` clusters from cluster 2 on, taken from the free entries of an older table. -/
def ProperChain (old fat : FileAllocationTable) (n : Nat) : Prop :=
  ∃ L z, (L ++ [z]).length = n ∧ Walk fat.entries 2 (L ++ [z]) ∧ (L ++ [z]).Nodup ∧
    (∀ x ∈ L ++ [z], x < clusterCount) ∧ fat.entries z = exfatClusterEnd ∧
    (∀ x ∈ (L ++ [z]).tail, x ∈ freeEntries old) ∧ ∀ x, x ∉ L ++ [z] → fat.entries x = old.entries x

/-- What `init_cluster_heap` is to do for a bitmap of a size: it stays inside the table, succeeds
exactly if there are enough free entries, and then leaves the chain. -/
def HeapAllocated (fat : FileAllocationTable) (heap : Store) (size : Nat) : Prop :=
  ∃ rc fat' heap', initClusterHeap fat heap size = .ok (rc, fat', heap') ∧
    (rc = 0 ↔ divRoundUp size clusterSizeBytes - 1 ≤ (freeEntries fat).card) ∧
    (rc = 0 → ProperChain fat fat' (divRoundUp size clusterSizeBytes))

namespace Proofs

variable {old fat : FileAllocationTable} {L : List Nat} {c x n : Nat}

theorem mem_freeEntries : c ∈ freeEntries fat ↔ c < clusterCount ∧ fat.entries c = 0 := by
  rw [freeEntries, Finset.mem_filter, Finset.mem_range, exfatClusterFree]

theorem get_of_lt (h : c < clusterCount) : fat.get c = .ok (fat.entries c) := if_pos h

theorem set_of_lt {v : Nat} (h : c < clusterCount) :
    fat.set c v = .ok ⟨fun x => if x = c then v else fat.entries x⟩ := if_pos h

theorem findNextFreeLoop_succ (h : c < clusterCount) : findNextFreeLoop fat (n + 1) c =
    if fat.entries c = exfatClusterFree then .ok (some c) else findNextFreeLoop fat n (c + 1) := by
  simp only [findNextFreeLoop, get_of_lt h]
  rfl

theorem findNextFreeLoop_found (hx : x ∈ freeEntries fat)
    (hmin : ∀ y, c ≤ y → y < x → fat.entries y ≠ 0) (hc : c ≤ x) (hn : x < c + n) :
    findNextFreeLoop fat n c = .ok (some x) := by
  obtain ⟨hlt, hzero⟩ := mem_freeEntries.mp hx
  induction n generalizing c with
  | zero => omega
  | succ n ih =>
    rw [findNextFreeLoop_succ (Nat.lt_of_le_of_lt hc hlt)]
    rcases Nat.eq_or_lt_of_le hc with rfl | hcx
    · exact if_pos hzero
    · have hne : fat.entries c ≠ exfatClusterFree := hmin c le_rfl hcx
      rw [if_neg hne]
      exact ih (fun y h1 h2 => hmin y (by omega) h2) hcx (by omega)

/-- Without a free entry the scan runs over the end of the table. -/
theorem findNextFreeLoop_fault (hnone : freeEntries fat = ∅) (hc : c ≤ clusterCount)
    (hn : clusterCount < c + n) : findNextFreeLoop fat n c = .error .fault := by
  induction n generalizing c with
  | zero => omega
  | succ n ih =>
    rcases Nat.eq_or_lt_of_le hc with rfl | hlt
    · simp [findNextFreeLoop, FileAllocationTable.get, bind, Except.bind]
    · have hused : fat.entries c ≠ exfatClusterFree := by
        intro h0
        have hmem : c ∈ freeEntries fat := mem_freeEntries.mpr ⟨hlt, h0⟩
        rw [hnone] at hmem
        exact absurd hmem (Finset.notMem_empty c)
      rw [findNextFreeLoop_succ hlt, if_neg hused]
      exact ih hlt (by omega)

theorem findNextFreeCluster_found (hx : x ∈ freeEntries fat) (hmin : ∀ y ∈ freeEntries fat, x ≤ y) :
    findNextFreeCluster fat = .ok (some x) := by
  have hlt := (mem_freeEntries.mp hx).1
  refine findNextFreeLoop_found hx (fun y _ hy h0 => ?_) (Nat.zero_le x) (by omega)
  have := hmin y (mem_freeEntries.mpr ⟨by omega, h0⟩)
  omega

theorem findNextFreeCluster_fault (hnone : freeEntries fat = ∅) :
    findNextFreeCluster fat = .error .fault :=
  findNextFreeLoop_fault hnone (Nat.zero_le _) (by norm_num [clusterCount])

/-- The table while the chain is built: it is linked up to `c`. -/
structure FatLinked (old fat : FileAllocationTable) (L : List Nat) (c : Nat) : Prop where
  walk : Walk fat.entries 2 (L ++ [c])
  nodup : (L ++ [c]).Nodup
  lt : ∀ x ∈ L ++ [c], x < clusterCount
  free : ∀ x ∈ (L ++ [c]).tail, x ∈ freeEntries old
  same : ∀ x, x ∉ L ++ [c] → fat.entries x = old.entries x
  taken : ∀ x ∈ L, fat.entries x ≠ 0

theorem FatLinked.last_lt (h : FatLinked old fat L c) : c < clusterCount := h.lt c (by simp)

/-- An entry changed at the end of the chain. -/
theorem FatLinked.walk_set (h : FatLinked old fat L c) (v : Nat) :
    Walk (fun x => if x = c then v else fat.entries x) 2 (L ++ [c]) :=
  h.walk.update h.nodup fun _ hz => if_neg hz

theorem FatLinked.same_set (h : FatLinked old fat L c) (v : Nat) (hx : x ∉ L ++ [c]) :
    (if x = c then v else fat.entries x) = old.entries x := by
  have hxc : x ≠ c := by
    rintro rfl
    simp at hx
  rw [if_neg hxc]
  exact h.same x hx

/-- The chain ends here. -/
theorem FatLinked.close (h : FatLinked old fat L c) : ∃ fat', fat.set c exfatClusterEnd = .ok fat' ∧
    ProperChain old fat' (L.length + 1) := by
  refine ⟨_, set_of_lt h.last_lt, L, c, by simp, h.walk_set _, h.nodup, h.lt, if_pos rfl, h.free, ?_⟩
  intro x hx
  exact h.same_set _ hx

/-- The last cluster links to itself and no longer looks free. -/
theorem FatLinked.self (h : FatLinked old fat L c) (h0 : c ≠ 0) : ∃ fat', fat.set c c = .ok fat' ∧
    FatLinked old fat' L c ∧ fat'.entries c ≠ 0 ∧ freeEntries fat' = (freeEntries fat).erase c := by
  refine ⟨_, set_of_lt h.last_lt, ⟨h.walk_set _, h.nodup, h.lt, h.free, fun x hx => h.same_set _ hx,
    fun x hx => ?_⟩, ?_, ?_⟩
  · have hxc : x ≠ c := by
      rintro rfl
      exact (List.nodup_append.mp h.nodup).2.2 x hx x (by simp) rfl
    simp only [if_neg hxc]
    exact h.taken x hx
  · simpa using h0
  · ext x
    rw [Finset.mem_erase, mem_freeEntries, mem_freeEntries]
    by_cases hx : x = c
    · simp [hx, h0]
    · simp [hx]

/-- A free cluster is linked behind the last one. -/
theorem FatLinked.extend (h : FatLinked old fat L c) (hc : fat.entries c ≠ 0) (hx : x ∈ freeEntries fat)
    (h0 : x ≠ 0) : ∃ fat', fat.set c x = .ok fat' ∧ FatLinked old fat' (L ++ [c]) x ∧
      freeEntries fat' = freeEntries fat := by
  obtain ⟨hlt, hzero⟩ := mem_freeEntries.mp hx
  have hxL : x ∉ L ++ [c] := by
    intro hmem
    rcases List.mem_append.mp hmem with hL | hL
    · exact h.taken x hL hzero
    · rw [List.mem_singleton.mp hL] at hzero
      exact hc hzero
  have hold : x ∈ freeEntries old := mem_freeEntries.mpr ⟨hlt, (h.same x hxL).symm.trans hzero⟩
  refine ⟨_, set_of_lt h.last_lt, ⟨?_, ?_, ?_, ?_, ?_, ?_⟩, ?_⟩
  · exact (h.walk_set x).append ⟨(if_pos rfl).symm, trivial⟩
  · exact List.nodup_append.mpr ⟨h.nodup, by simp, fun a ha b hb => by
      rintro rfl
      exact hxL (List.mem_singleton.mp hb ▸ ha)⟩
  · intro y hy
    rcases List.mem_append.mp hy with hy | hy
    · exact h.lt y hy
    · exact List.mem_singleton.mp hy ▸ hlt
  · intro y hy
    rw [List.tail_append_of_ne_nil (by simp)] at hy
    rcases List.mem_append.mp hy with hy | hy
    · exact h.free y hy
    · exact List.mem_singleton.mp hy ▸ hold
  · intro y hy
    exact h.same_set x fun hmem => hy (List.mem_append_left _ hmem)
  · intro y hy
    by_cases hyc : y = c
    · simpa [hyc] using h0
    · simp only [if_neg hyc]
      rcases List.mem_append.mp hy with hy | hy
      · exact h.taken y hy
      · exact absurd (List.mem_singleton.mp hy) hyc
  · ext y
    rw [mem_freeEntries, mem_freeEntries]
    by_cases hy : y = c
    · simp [hy, h0, hc]
    · simp [hy]

theorem linkClusters_succ {next : Nat} {fat' : FileAllocationTable}
    (hfind : findNextFreeCluster fat = .ok (some next)) (hset : fat.set c next = .ok fat') :
    linkClusters (n + 1) c fat = linkClusters n next fat' := by
  simp only [linkClusters, hfind, hset, bind, Except.bind]

theorem linkClusters_zero {fat' : FileAllocationTable}
    (hset : fat.set c exfatClusterEnd = .ok fat') : linkClusters 0 c fat = .ok (0, fat') := by
  simp only [linkClusters, hset, bind, Except.bind]

/-- One round of the loop: the first free cluster is linked behind the last one. -/
theorem FatLinked.round (h : FatLinked old fat L c) (hc : fat.entries c ≠ 0) (h0 : 0 ∉ freeEntries fat)
    (hne : (freeEntries fat).Nonempty) : ∃ x fat', x ≠ 0 ∧ findNextFreeCluster fat' = .ok (some x) ∧
      x ∈ freeEntries fat ∧ freeEntries fat' = freeEntries fat ∧ FatLinked old fat' (L ++ [c]) x ∧
      ∀ n, linkClusters (n + 1) c fat = linkClusters n x fat' := by
  have hx := Finset.min'_mem _ hne
  have hmin : ∀ y ∈ freeEntries fat, (freeEntries fat).min' hne ≤ y := fun y hy =>
    Finset.min'_le _ y hy
  generalize (freeEntries fat).min' hne = x at hx hmin
  have hx0 : x ≠ 0 := fun he => h0 (he ▸ hx)
  obtain ⟨fat', hset, hlink, hfree⟩ := h.extend hc hx hx0
  have hfind : findNextFreeCluster fat' = .ok (some x) := by
    apply findNextFreeCluster_found
    · rwa [hfree]
    · rwa [hfree]
  refine ⟨x, fat', hx0, hfind, hx, hfree, hlink, fun n => ?_⟩
  exact linkClusters_succ (findNextFreeCluster_found hx hmin) hset

/-- While entry 0 is taken, every second round takes another cluster: a cluster just linked still
looks free and is linked to itself before it no longer does. -/
theorem FatLinked.linkClusters (h : FatLinked old fat L c) (hc : fat.entries c ≠ 0)
    (h0 : 0 ∉ freeEntries fat) :
    ((n + 1) / 2 ≤ (freeEntries fat).card → ∃ fat', linkClusters n c fat = .ok (0, fat') ∧
      ProperChain old fat' (L.length + 1 + (n + 1) / 2)) ∧
    ((freeEntries fat).card < (n + 1) / 2 → linkClusters n c fat = .error .fault) := by
  induction n using Nat.twoStepInduction generalizing fat L c with
  | zero =>
    obtain ⟨fat', hset, hchain⟩ := h.close
    exact ⟨fun _ => ⟨fat', linkClusters_zero hset, hchain⟩, fun hlt => by omega⟩
  | one =>
    rcases (freeEntries fat).eq_empty_or_nonempty with hempty | hne
    · refine ⟨fun hle => ?_, fun _ => ?_⟩
      · have := Finset.card_eq_zero.mpr hempty
        omega
      · simp only [Exfat.linkClusters, findNextFreeCluster_fault hempty, bind, Except.bind]
    · have hpos := Finset.card_pos.mpr hne
      obtain ⟨x, fat', -, -, -, -, hlink, hrun⟩ := h.round hc h0 hne
      obtain ⟨fat'', hset, hchain⟩ := hlink.close
      rw [List.length_append, List.length_singleton] at hchain
      refine ⟨fun _ => ⟨fat'', (hrun 0).trans (linkClusters_zero hset), hchain⟩, fun hlt => ?_⟩
      omega
  | more n ih _ =>
    rcases (freeEntries fat).eq_empty_or_nonempty with hempty | hne
    · refine ⟨fun hle => ?_, fun _ => ?_⟩
      · have := Finset.card_eq_zero.mpr hempty
        omega
      · simp only [Exfat.linkClusters, findNextFreeCluster_fault hempty, bind, Except.bind]
    · obtain ⟨x, fat', hx0, hfind, hx, hfree, hlink, hrun⟩ := h.round hc h0 hne
      obtain ⟨fat'', hset, hself, hused, herase⟩ := hlink.self hx0
      have hrun' : Exfat.linkClusters (n + 2) c fat = Exfat.linkClusters n x fat'' :=
        (hrun (n + 1)).trans (linkClusters_succ hfind hset)
      have hcard : (freeEntries fat'').card + 1 = (freeEntries fat).card := by
        rw [herase, hfree]
        exact Finset.card_erase_add_one hx
      have h0' : 0 ∉ freeEntries fat'' := by
        rw [herase, hfree]
        exact fun hmem => h0 (Finset.mem_of_mem_erase hmem)
      obtain ⟨hok, hfault⟩ := ih hself hused h0'
      rw [hrun', List.length_append, List.length_singleton] at *
      refine ⟨fun hle => ?_, fun hlt => hfault (by omega)⟩
      obtain ⟨fat3, hres, hchain⟩ := hok (by omega)
      refine ⟨fat3, hres, ?_⟩
      rwa [show L.length + 1 + (n + 2 + 1) / 2 = L.length + 1 + 1 + (n + 1) / 2 by omega]

theorem fatLinked_start (old : FileAllocationTable) : FatLinked old old [] 2 where
  walk := ⟨rfl, trivial⟩
  nodup := by simp
  lt := by simp [clusterCount]
  free := by simp
  same := fun _ _ => rfl
  taken := by simp

/-- A free entry 0 stays free whatever is linked to it, until the chain ends there. -/
theorem linkClusters_first (h0 : 0 ∈ freeEntries fat) : ∃ fat', fat.set 0 exfatClusterEnd = .ok fat' ∧
    linkClusters n 0 fat = .ok (0, fat') := by
  have hpos : 0 < clusterCount := by norm_num [clusterCount]
  refine ⟨_, set_of_lt hpos, ?_⟩
  induction n with
  | zero => exact linkClusters_zero (set_of_lt hpos)
  | succ n ih =>
    have hsame : fat.set 0 0 = .ok fat := by
      rw [set_of_lt hpos]
      congr 2
      funext x
      by_cases hx : x = 0
      · rw [if_pos hx, hx, (mem_freeEntries.mp h0).2]
      · rw [if_neg hx]
    rw [linkClusters_succ (findNextFreeCluster_found h0 fun _ _ => Nat.zero_le _) hsame]
    exact ih

/-- A chain that ends has one length. -/
theorem ProperChain.unique {m : Nat} (hn : ProperChain old fat n) (hm : ProperChain old fat m) :
    n = m := by
  -- the shorter one ends inside the longer one
  have hle : ∀ {a b : Nat}, ProperChain old fat a → ProperChain old fat b → a ≤ b := by
    rintro a b ⟨L, z, rfl, hw, -, hlt, -⟩ ⟨K, y, rfl, hw', -, -, hend, -⟩
    by_contra hab
    have htake : K ++ [y] = (L ++ [z]).take (K ++ [y]).length :=
      hw'.unique (hw.take _) (by rw [List.length_take]; omega)
    have hy : (L ++ [z])[K.length]? = some y := by
      have hget := congrArg (fun l => l[K.length]?) htake
      simp only [List.getElem?_take, List.length_append, List.length_singleton,
        Nat.lt_succ_self, if_true] at hget
      rw [← hget, List.getElem?_append_right le_rfl, Nat.sub_self]
      rfl
    have hlong : K.length + 1 < (L ++ [z]).length := by
      rw [@List.length_append _ K, List.length_singleton] at hab
      omega
    have hv := hw.next hy (List.getElem?_eq_getElem hlong)
    have hbound := hlt _ (List.getElem_mem hlong)
    rw [← hv, hend] at hbound
    norm_num [clusterCount] at hbound
  exact Nat.le_antisymm (hle hn hm) (hle hm hn)

section
variable {heap : Store} {size : Nat}

theorem heapAllocated_of_run {fat' : FileAllocationTable} {m : Nat}
    (hrun : linkClusters (bmpSizeClusters size - 1) 2 fat = .ok (0, fat'))
    (hchain : ProperChain fat fat' m) : HeapAllocated fat heap size ↔
      divRoundUp size clusterSizeBytes - 1 ≤ (freeEntries fat).card ∧
        m = divRoundUp size clusterSizeBytes := by
  have hinit : initClusterHeap fat heap size =
      .ok (0, fat', heap.write 0 (List.replicate clusterHeapSizeBytes 0xff)) := by
    simp only [initClusterHeap, hrun, bind, Except.bind]
  constructor
  · rintro ⟨rc, fat2, heap2, hr, hrc, hwant⟩
    rw [hinit, Except.ok.injEq, Prod.mk.injEq, Prod.mk.injEq] at hr
    obtain ⟨rfl, rfl, -⟩ := hr
    exact ⟨hrc.mp rfl, ProperChain.unique hchain (hwant rfl)⟩
  · rintro ⟨hle, rfl⟩
    exact ⟨0, fat', _, hinit, ⟨fun _ => hle, fun _ => rfl⟩, fun _ => hchain⟩

theorem not_heapAllocated_of_fault
    (hrun : linkClusters (bmpSizeClusters size - 1) 2 fat = .error .fault) :
    ¬HeapAllocated fat heap size := by
  rintro ⟨rc, fat', heap', hr, -⟩
  simp [initClusterHeap, hrun, bind, Except.bind] at hr

theorem heapAllocated_iff_of_taken (h2 : fat.entries 2 = exfatClusterEnd) (hs : 1 ≤ size)
    (h0 : fat.entries 0 ≠ 0) : HeapAllocated fat heap size ↔
      bmpSizeClusters size / 2 + 1 = divRoundUp size clusterSizeBytes ∧
        divRoundUp size clusterSizeBytes - 1 ≤ (freeEntries fat).card := by
  have hN : 1 ≤ bmpSizeClusters size := by
    simp only [bmpSizeClusters, clusterSizeBytes, sectorSizeBytes, sectorsPerCluster]
    omega
  have h0' : 0 ∉ freeEntries fat := fun hmem => h0 (mem_freeEntries.mp hmem).2
  have hused : fat.entries 2 ≠ 0 := by
    rw [h2]
    norm_num
  obtain ⟨hok, hfault⟩ := (fatLinked_start fat).linkClusters (n := bmpSizeClusters size - 1) hused h0'
  rw [Nat.sub_add_cancel hN] at hok hfault
  rcases Nat.lt_or_ge (freeEntries fat).card (bmpSizeClusters size / 2) with hlt | hge
  · refine iff_of_false (not_heapAllocated_of_fault (hfault hlt)) ?_
    rintro ⟨h1, h3⟩
    omega
  · obtain ⟨fat', hrun, hchain⟩ := hok hge
    rw [heapAllocated_of_run hrun hchain, List.length_nil]
    constructor
    · rintro ⟨h1, h3⟩
      exact ⟨by omega, h1⟩
    · rintro ⟨h1, h3⟩
      exact ⟨h3, by omega⟩

theorem heapAllocated_iff_of_free (hs : 1 ≤ size) (h0 : fat.entries 0 = 0) :
    HeapAllocated fat heap size ↔
      bmpSizeClusters size = 1 ∨ divRoundUp size clusterSizeBytes = 2 := by
  have hN : 1 ≤ bmpSizeClusters size := by
    simp only [bmpSizeClusters, clusterSizeBytes, sectorSizeBytes, sectorsPerCluster]
    omega
  have hcc : 2 < clusterCount := by norm_num [clusterCount]
  have hfree : 0 ∈ freeEntries fat := mem_freeEntries.mpr ⟨by omega, h0⟩
  have hcard : 0 < (freeEntries fat).card := Finset.card_pos.mpr ⟨0, hfree⟩
  rcases Nat.eq_or_lt_of_le hN with hone | hmore
  · -- no cluster is linked
    obtain ⟨fat', hset, hchain⟩ := (fatLinked_start fat).close
    have hrun : linkClusters (bmpSizeClusters size - 1) 2 fat = .ok (0, fat') := by
      rw [← hone]
      exact linkClusters_zero hset
    have hC : divRoundUp size clusterSizeBytes = 1 := by
      simp only [bmpSizeClusters, divRoundUp, clusterSizeBytes, sectorSizeBytes,
        sectorsPerCluster] at hone ⊢
      omega
    rw [heapAllocated_of_run hrun hchain, hC, List.length_nil]
    exact ⟨fun _ => Or.inl hone.symm, fun _ => ⟨by omega, rfl⟩⟩
  · -- cluster 0 is linked, again and again
    obtain ⟨k, hk⟩ := Nat.exists_eq_add_of_le hmore
    have hset := @set_of_lt fat _ 0 hcc
    have hfree' : 0 ∈ freeEntries ⟨fun x => if x = 2 then 0 else fat.entries x⟩ :=
      mem_freeEntries.mpr ⟨by omega, h0⟩
    obtain ⟨fat', hset', hrun'⟩ := linkClusters_first (n := k) hfree'
    have hrun : linkClusters (bmpSizeClusters size - 1) 2 fat = .ok (0, fat') := by
      rw [hk, show 1 + 1 + k - 1 = k + 1 by omega,
        linkClusters_succ (findNextFreeCluster_found hfree fun _ _ => Nat.zero_le _) hset]
      exact hrun'
    rw [set_of_lt (by omega), Except.ok.injEq] at hset'
    subst hset'
    have hchain : ProperChain fat ⟨fun x => if x = 0 then exfatClusterEnd else
        if x = 2 then 0 else fat.entries x⟩ 2 := by
      refine ⟨[2], 0, rfl, ⟨rfl, rfl, trivial⟩, by simp, ?_, rfl, ?_, ?_⟩
      · simp [clusterCount]
      · simpa using hfree
      · intro x hx
        rw [List.cons_append, List.nil_append, List.mem_cons, List.mem_singleton, not_or] at hx
        simp only [if_neg hx.2, if_neg hx.1]
    rw [heapAllocated_of_run hrun hchain]
    constructor
    · rintro ⟨-, h⟩
      exact Or.inr h.symm
    · rintro (h | h)
      · omega
      · exact ⟨by omega, h.symm⟩

/-- `init_cluster_heap` does its work exactly if there are enough free entries and the sum of the
quotient and the remainder of the size, which it takes for the number of clusters, is such that
linking every second time gives the right number; or if entry 0 is free and nothing more than
that entry is wanted. -/
theorem initClusterHeap_allocates_iff (fat : FileAllocationTable) (heap : Store) (size : Nat)
    (h2 : fat.entries 2 = exfatClusterEnd) (hs : 1 ≤ size) : HeapAllocated fat heap size ↔
      fat.entries 0 ≠ exfatClusterFree ∧
        divRoundUp size clusterSizeBytes - 1 ≤ (freeEntries fat).card ∧
        (size % clusterSizeBytes = 0 ∧ size / clusterSizeBytes ≤ 2 ∨
          0 < size % clusterSizeBytes ∧ (size % clusterSizeBytes = size / clusterSizeBytes ∨
            size % clusterSizeBytes = size / clusterSizeBytes + 1)) ∨
      fat.entries 0 = exfatClusterFree ∧
        (size / clusterSizeBytes + size % clusterSizeBytes = 1 ∨
          divRoundUp size clusterSizeBytes = 2) := by
  by_cases h0 : fat.entries 0 = exfatClusterFree
  · rw [heapAllocated_iff_of_free hs h0]
    simp only [h0, ne_eq, not_true_eq_false, false_and, true_and, false_or, bmpSizeClusters]
  · rw [heapAllocated_iff_of_taken h2 hs h0]
    simp only [h0, ne_eq, not_false_eq_true, true_and, false_and, or_false, bmpSizeClusters,
      divRoundUp, clusterSizeBytes, sectorSizeBytes, sectorsPerCluster]
    omega

/-- A bitmap of two clusters in a new table. -/
theorem initClusterHeap_allocates_two :
    HeapAllocated initFat (fun _ => 0) (2 * clusterSizeBytes) := by
  refine (initClusterHeap_allocates_iff initFat (fun _ => 0) _ rfl (by decide)).mpr (Or.inl
    ⟨by decide, ?_, Or.inl (by decide)⟩)
  have hfree : 5 ∈ freeEntries initFat := mem_freeEntries.mpr ⟨by norm_num [clusterCount], rfl⟩
  exact Finset.card_pos.mpr ⟨5, hfree⟩

/-- The bitmap that the recovery tool asks for needs eight clusters; 72572 are counted for it, and
every second of them is linked. -/
theorem initClusterHeap_fsrestore : initFat.entries 2 = exfatClusterEnd ∧
    ¬HeapAllocated initFat (fun _ => 0) (fatClusterCount / 8 + fatClusterCount % 8) := by
  refine ⟨rfl, ?_⟩
  rw [heapAllocated_iff_of_taken rfl (by decide) (by decide)]
  rintro ⟨h, -⟩
  revert h
  decide

end

end Proofs

end Exfat
