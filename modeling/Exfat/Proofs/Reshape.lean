import Exfat.Lib.ByteStore
import Exfat.Proofs.NoSpace

namespace Exfat
open Lib

/-! Chains that get another length beside those of other nodes: what is foreign to the one node
stays. -/

namespace Proofs

variable {E : Halt → Prop} {w u v : World} {n m : Node} {L K A : List Nat} {id : NodeId}
  {bits bits' bits'' : Nat → Bool} {bs : List UInt8} {size off c k : Nat}
/-- A valid cluster in use that is none of `L`. -/
structure Foreign (w : World) (bits : Nat → Bool) (L : List Nat) (c : Nat) : Prop where
  valid : w.sb.clusterInvalid c = false
  used : bits (c - 2) = true
  apart : c ∉ L

/-- The chain of one node became `K`. Nothing happened to the clusters of the others. -/
structure Moved (w v : World) (bits bits' : Nat → Bool) (id : NodeId) (L K : List Nat) : Prop where
  sb : v.sb = w.sb
  mapped : Mapped v bits'
  others : ∀ j, j ≠ id → v.nodes j = w.nodes j
  kept : ∀ i, bits i = true → i + 2 ∉ L → bits' i = true
  taken : ∀ c ∈ K, c ∉ L → 2 ≤ c ∧ bits (c - 2) = false
  fat : ∀ c, Foreign w bits L c → fat w.sb v.dev c = fat w.sb w.dev c
  data : ∀ c, Foreign w bits L c → ∀ o < w.sb.clusterSize,
    v.dev (c2oRaw w.sb c + o) = w.dev (c2oRaw w.sb c + o)

theorem Foreign.ge (h : Foreign w bits L c) : 2 ≤ c := (clusterInvalid_false.mp h.valid).1

theorem Foreign.moved (h : Foreign w bits L c) (hm : Moved w v bits bits' id L K) :
    Foreign v bits' K c where
  valid := hm.sb ▸ h.valid
  used := by
    have := h.ge
    exact hm.kept _ h.used (by rw [show c - 2 + 2 = c by omega]; exact h.apart)
  apart := by
    intro hc
    have := (hm.taken c hc h.apart).2
    rw [h.used] at this
    cases this

theorem Moved.refl (hm : Mapped w bits) : Moved w w bits bits id L L where
  sb := rfl
  mapped := hm
  others := fun _ _ => rfl
  kept := fun _ h _ => h
  taken := fun _ h hn => absurd h hn
  fat := fun _ _ => rfl
  data := fun _ _ _ _ => rfl

theorem Moved.trans {M : List Nat} (h : Moved w v bits bits' id L K)
    (h' : Moved v u bits' bits'' id K M) : Moved w u bits bits'' id L M where
  sb := h'.sb.trans h.sb
  mapped := h'.mapped
  others := fun j hj => (h'.others j hj).trans (h.others j hj)
  kept := by
    intro i hi hL
    refine h'.kept i (h.kept i hi hL) fun hK => ?_
    have := (h.taken _ hK hL).2
    rw [Nat.add_sub_cancel, hi] at this
    cases this
  taken := by
    intro c hc hL
    by_cases hK : c ∈ K
    · exact h.taken c hK hL
    · obtain ⟨h2, hfree⟩ := h'.taken c hc hK
      refine ⟨h2, ?_⟩
      by_contra hused
      rw [Bool.not_eq_false] at hused
      rw [h.kept _ hused (by rw [show c - 2 + 2 = c by omega]; exact hL)] at hfree
      cases hfree
  fat := by
    intro c hc
    have := h'.fat c (hc.moved h)
    rw [h.sb] at this
    exact this.trans (h.fat c hc)
  data := by
    intro c hc o ho
    have := h'.data c (hc.moved h) o (by rw [h.sb]; exact ho)
    rw [h.sb] at this
    exact this.trans (h.data c hc o ho)

/-- A referenced node with a chain of allocated clusters. -/
structure Owner (w : World) (bits : Nat → Bool) (id : NodeId) (n : Node) (L : List Nat) : Prop where
  node : w.nodes id = some n
  referenced : n.references ≠ 0
  chained : Chained w.sb w.dev n L
  allocated : ∀ c ∈ L, bits (c - 2) = true
  empty : L = [] → n.startCluster = exfatClusterFree ∧ n.fptrIndex = 0 ∧
    n.fptrCluster = exfatClusterFree

/-- The chain of a node got another length; no data moved. -/
structure Reshaped (w v : World) (bits bits' : Nat → Bool) (id : NodeId) (n m : Node)
    (L K : List Nat) : Prop where
  moved : Moved w v bits bits' id L K
  owner : Owner v bits' id m K
  size_eq : m.size = n.size
  same : ∀ i, i < L.length → i < K.length → K[i]? = L[i]?
  heap : ∀ p, c2oRaw w.sb exfatFirstDataCluster ≤ p → v.dev p = w.dev p
  free : (freeSet bits' w.sb.clusterCount).card + K.length =
    (freeSet bits w.sb.clusterCount).card + L.length

theorem Growing.moved (hg : Geometry w.sb) (hc : Chained w.sb w.dev n L)
    (h : Growing w v bits bits' id n m L A) : Moved w v bits bits' id L (L ++ A) where
  sb := h.sb
  mapped := h.mapped
  others := h.others
  kept := by
    intro i hi _
    rw [h.bits_eq, hi, Bool.true_or]
  taken := by
    intro c hcm hL
    have := h.taken c ((List.mem_append.mp hcm).resolve_left hL)
    exact ⟨(clusterInvalid_false.mp this.1).1, this.2⟩
  fat := by
    intro c hf
    simp only [Exfat.fat]
    congr 1
    refine Store.read_congr fun q h1 h2 => h.device q fun x hx => ?_
    -- neither a cluster of the chain nor a free one
    have hne : x ≠ c := by
      rintro rfl
      rcases hx with hx | hx
      · exact hf.apart hx
      · rw [hf.used] at hx
        cases hx.2
    simp only [fatOffset] at h1 h2 ⊢
    omega
  data := fun c hf o _ => h.heap hg hc (by
    have := c2oRaw_ge w.sb c
    omega)

theorem Growing.reshaped (hg : Geometry w.sb) (ho : Owner w bits id n L)
    (h : Growing w v bits bits' id n m L A) : Reshaped w v bits bits' id n m L (L ++ A) where
  moved := h.moved hg ho.chained
  owner := by
    refine ⟨h.node, ?_, h.chained, fun c hc => h.used ho.allocated hc, h.empty⟩
    obtain ⟨_, _, _, _, _, rfl⟩ := h.same
    exact ho.referenced
  size_eq := by
    obtain ⟨_, _, _, _, _, rfl⟩ := h.same
    rfl
  same := fun i hi _ => List.getElem?_append_left hi
  heap := fun p hp => h.heap hg ho.chained hp
  free := by
    rw [List.length_append, ← h.card]
    omega

theorem Reshaped.refl (hm : Mapped w bits) (ho : Owner w bits id n L) :
    Reshaped w w bits bits id n n L L where
  moved := .refl hm
  owner := ho
  size_eq := rfl
  same := fun _ _ _ => rfl
  heap := fun _ _ => rfl
  free := rfl

/-- Dropping the end of a chain frees its clusters. -/
theorem card_dropped {D : List Nat} {count : Nat} (hn : D.Nodup)
    (hD : ∀ c ∈ D, 2 ≤ c ∧ c < count + 2 ∧ bits (c - 2) = true) :
    (freeSet (fun i => bits i && decide (i + 2 ∉ D)) count).card =
      (freeSet bits count).card + D.length := by
  have hinj : Set.InjOn (fun c => c - 2) (D.toFinset : Set Nat) := by
    intro a ha b hb hab
    have h1 := hD a (List.mem_toFinset.mp (Finset.mem_coe.mp ha))
    have h2 := hD b (List.mem_toFinset.mp (Finset.mem_coe.mp hb))
    simp only at hab
    omega
  have hcard : (D.toFinset.image fun c => c - 2).card = D.length := by
    rw [Finset.card_image_of_injOn hinj, List.toFinset_card_of_nodup hn]
  have hdisj : Disjoint (freeSet bits count) (D.toFinset.image fun c => c - 2) := by
    rw [Finset.disjoint_left]
    intro i hi hd
    obtain ⟨c, hc, rfl⟩ := Finset.mem_image.mp hd
    have := (hD c (List.mem_toFinset.mp hc)).2.2
    rw [(mem_freeSet.mp hi).2] at this
    cases this
  have hunion : freeSet (fun i => bits i && decide (i + 2 ∉ D)) count =
      freeSet bits count ∪ D.toFinset.image fun c => c - 2 := by
    ext i
    rw [Finset.mem_union, mem_freeSet, mem_freeSet, Finset.mem_image, Bool.and_eq_false_iff,
      decide_eq_false_iff_not, not_not]
    constructor
    · rintro ⟨hi, hb | hd⟩
      · exact Or.inl ⟨hi, hb⟩
      · exact Or.inr ⟨i + 2, List.mem_toFinset.mpr hd, by omega⟩
    · rintro (⟨hi, hb⟩ | ⟨c, hc, rfl⟩)
      · exact ⟨hi, Or.inl hb⟩
      · have hc := List.mem_toFinset.mp hc
        obtain ⟨h2, hlt, -⟩ := hD c hc
        exact ⟨by omega, Or.inr (by rwa [show c - 2 + 2 = c by omega])⟩
  rw [hunion, Finset.card_union_of_disjoint hdisj, hcard]

/-- A referenced node that holds these bytes in a chain of exactly the clusters they need. -/
structure Owns (w : World) (bits : Nat → Bool) (id : NodeId) (n : Node) (L : List Nat)
    (bs : List UInt8) : Prop extends Owner w bits id n L where
  length : L.length = divRoundUp n.size w.sb.clusterSize
  bytes : fileBytes w n L = bs

theorem Owns.bytes_length (h : Owns w bits id n L bs) : bs.length = n.size := by
  rw [← h.bytes, fileBytes, fileData_length]

/-- Data written to the chain of a node is no business of the others. -/
theorem Wrote.moved {xs : List UInt8} {dev : Store} (hg : Geometry w.sb) (hm : Mapped w bits)
    (hc : Chained w.sb w.dev n L) (h : Wrote w.sb w.dev L off xs dev)
    (hb : off + xs.length ≤ L.length * w.sb.clusterSize) (hd : v.dev = dev) (hs : v.sb = w.sb)
    (hcm : v.cmap = w.cmap) (hn : ∀ j, j ≠ id → v.nodes j = w.nodes j) :
    Moved w v bits bits id L L where
  sb := hs
  mapped := hm.congr hs hcm
  others := hn
  kept := fun _ h _ => h
  taken := fun _ h hn => absurd h hn
  fat := by
    intro c hf
    rw [hd]
    exact fat_congr hg (fun p hp => h.before_heap hp) (clusterInvalid_false.mp hf.valid).2
  data := by
    intro c hf o ho
    rw [hd]
    exact h.cluster (fun x hx => hc.ge hx) hb hf.ge hf.apart ho

/-- The size, the times and the place of the cached pointer are no part of owning a chain. -/
theorem Owner.written (ho : Owner w bits id n L) (hg : Geometry w.sb)
    (hd : ∀ p, p < c2oRaw w.sb exfatFirstDataCluster → v.dev p = w.dev p) (hs : v.sb = w.sb)
    (hm : v.nodes id = some m) (hr : m.references = n.references)
    (hst : m.startCluster = n.startCluster) (hb : m.isContiguous = n.isContiguous)
    (hf : m.fptrIndex = n.fptrIndex ∧ m.fptrCluster = n.fptrCluster ∨
      L[m.fptrIndex]? = some m.fptrCluster) : Owner v bits id m L where
  node := hm
  referenced := hr ▸ ho.referenced
  chained := by
    rw [hs]
    refine (ho.chained.heap hg hd).congr (fun _ _ => by rw [hb]) hst fun hne => ?_
    rcases hf with ⟨hi, hc⟩ | hf
    · rw [hi, hc]
      exact ho.chained.fptr hne
    · exact hf
  allocated := ho.allocated
  empty := by
    rintro rfl
    obtain ⟨h1, h2, h3⟩ := ho.empty rfl
    rcases hf with ⟨hi, hc⟩ | hf
    · exact ⟨hst.trans h1, hi.trans h2, hc.trans h3⟩
    · simp at hf

theorem Reshaped.filePos_eq {o : Nat} (h : Reshaped w v bits bits' id n m L K)
    (hL : o < L.length * w.sb.clusterSize) (hK : o < K.length * w.sb.clusterSize) :
    filePos w.sb K o = filePos w.sb L o := by
  simp only [filePos, List.getD_eq_getElem?_getD,
    h.same _ (div_clusterSize_lt hL) (div_clusterSize_lt hK)]

/-- The bytes of a node that was resized: what was there before the smaller end, and the rest. -/
theorem fileBytes_resized (hs : m.size = size)
    (hd : ∀ o, o < n.size → o < size → v.dev (filePos v.sb K o) = w.dev (filePos w.sb L o)) :
    fileBytes v m K = (fileBytes w n L).take size ++ (fileBytes v m K).drop n.size := by
  have hl : (fileBytes w n L).length = n.size := by rw [fileBytes, fileData_length]
  have hl' : (fileBytes v m K).length = size := by rw [fileBytes, fileData_length, hs]
  refine eq_of_getD ?_ fun i hi => ?_
  · rw [List.length_append, List.length_take, List.length_drop, hl, hl']
    omega
  rw [hl'] at hi
  by_cases hin : i < n.size
  · rw [List.getD_append _ _ _ _ (by rw [List.length_take, hl]; omega), fileBytes_getD (by omega),
      hd i hin hi, List.getD_eq_getElem?_getD, List.getElem?_take_of_lt hi,
      ← List.getD_eq_getElem?_getD, fileBytes_getD hin]
  · have hmin : min size n.size = n.size := by omega
    rw [List.getD_append_right _ _ _ _ (by rw [List.length_take, hl]; omega), List.length_take, hl,
      hmin, List.getD_eq_getElem?_getD, List.getD_eq_getElem?_getD, List.getElem?_drop]
    congr 2
    omega

section
variable [Env]

/-- `shrink_file` gives the end of a chain back. -/
theorem shrinkFile_reshapes (hq : Env.Quiet) (hg : Geometry w.sb) (hm : Mapped w bits)
    (ho : Owner w bits id n L) (hk : k < L.length) :
    Wp E (shrinkFile id L.length (L.length - k)) w fun rc v =>
      rc = .ok ∧ ∃ bits' m, Reshaped w v bits bits' id n m L (L.take k) := by
  have hge : ∀ c ∈ L.drop k, 2 ≤ c := fun c h => ho.chained.ge (List.mem_of_mem_drop h)
  have hout : ∀ p, (∀ c ∈ L, p < fatOffset w.sb c ∨ fatOffset w.sb c + 4 ≤ p) →
      freeFat w.sb n.isContiguous (endFat w.sb n.isContiguous w.dev L k) (L.drop k) p =
        w.dev p := by
    intro p hp
    rw [freeFat_out fun c h => hp c (List.mem_of_mem_drop h), endFat_out hp]
  have hheap : ∀ p, c2oRaw w.sb exfatFirstDataCluster ≤ p →
      freeFat w.sb n.isContiguous (endFat w.sb n.isContiguous w.dev L k) (L.drop k) p =
        w.dev p := by
    intro p hp
    refine hout p fun c hc => Or.inr ?_
    have := hg.fat_lt (ho.chained.lt hc)
    omega
  refine after_ret (shrinkFile_spec hq hm ho.node ho.chained hk) fun t => ⟨rfl,
    fun i => bits i && decide (i + 2 ∉ L.drop k), n.cropped k, ?_⟩
  have hmap : Mapped (World.dropped (w.withDev (endFat w.sb n.isContiguous w.dev L k))
      n.isContiguous (L.drop k)) fun i => bits i && decide (i + 2 ∉ L.drop k) :=
    (hm.congr (v := w.withDev (endFat w.sb n.isContiguous w.dev L k)) rfl rfl).dropped hge
  refine ⟨⟨rfl, hmap.congr rfl rfl, fun j hj => World.setNode_ne _ _ hj, ?_, ?_, ?_, ?_⟩,
    ⟨World.setNode_self _ _ _, ?_, ho.chained.cropped hk.le, ?_, ?_⟩, ?_, ?_, hheap, ?_⟩
  · intro i hi hL
    simp only [hi, Bool.true_and, decide_eq_true_eq]
    exact fun hd => hL (List.mem_of_mem_drop hd)
  · exact fun c hc hL => absurd (List.mem_of_mem_take hc) hL
  · intro c hf
    simp only [Exfat.fat]
    congr 1
    refine Store.read_congr fun q h1 h2 => hout q fun x hx => ?_
    have hne : x ≠ c := fun he => hf.apart (he ▸ hx)
    simp only [fatOffset] at h1 h2 ⊢
    omega
  · intro c hf o _
    have := c2oRaw_ge w.sb c
    exact hheap _ (by omega)
  · rw [Node.cropped]
    split <;> exact ho.referenced
  · intro c hc
    have h2 := ho.chained.ge (List.mem_of_mem_take hc)
    have hd := not_mem_drop_of_mem_take ho.chained.nodup hc
    simp [ho.allocated c (List.mem_of_mem_take hc), show c - 2 + 2 = c by omega, hd]
  · intro hnil
    have hlen := congrArg List.length hnil
    rw [List.length_take, List.length_nil] at hlen
    obtain rfl : k = 0 := by omega
    exact ⟨rfl, rfl, rfl⟩
  · rw [Node.cropped]
    split <;> rfl
  · intro i _ hi
    rw [List.length_take] at hi
    exact List.getElem?_take_of_lt (by omega)
  · rw [card_dropped (ho.chained.nodup.sublist (List.drop_sublist k L)) fun c hc =>
      ⟨hge c hc, ho.chained.lt (List.mem_of_mem_drop hc),
        ho.allocated c (List.mem_of_mem_drop hc)⟩, List.length_drop, List.length_take]
    omega

/-- The first cluster of an empty node is the lowest free one. -/
theorem growFile_lowest (hq : Env.Quiet) (hm : Mapped w bits)
    (hend : w.sb.clusterCount + 2 < 2 ^ 32) (hn : w.nodes id = some n)
    (hs : n.startCluster = exfatClusterFree) (hf : n.fptrIndex = 0) :
    Wp (fun _ => True) (growFile id 0 1) w fun rc v => rc = .ok → ∀ m, v.nodes id = some m →
      ∀ j, j + 2 < m.startCluster → bits j = true := by
  simp only [growFile, wp_bind, wp_getNode hn, Nat.one_ne_zero, if_false, hs, ne_eq,
    not_true_eq_false, hf]
  refine (allocateCluster_spec hm hend 0).mono ?_
  rintro x a (⟨i, rfl, hfit, rfl⟩ | ⟨-, rfl, rfl⟩)
  · have hnode : (World.took w bits (i + 2)).nodes id = some n := hn
    simp only [wp_get]
    split
    · intro he
      cases he
    simp only [wp_bind]
    rw [wp_modifyNode hnode]
    simp only [Nat.sub_self, growLoop, wp_bind, wp_getNode_setNode]
    refine after_ret (setNextCluster_spec hq _ _ _) fun t => ?_
    simp only [if_true, wp_pure]
    intro _ m hm' j hj
    simp only [World.ticked_nodes, World.withDev_nodes, World.setNode_self,
      Option.some.injEq] at hm'
    subst hm'
    have h0 : hintIndex w 0 = 0 := by
      rw [hintIndex, if_pos (by omega)]
    rcases hfit.first with ⟨-, h2⟩ | ⟨h1, -, -⟩
    · exact h2 j (by omega) (by simp only at hj; omega)
    · omega
  · simp only [wp_get, World.erred_sb, clusterEnd_invalid hend, if_true]
    intro he
    cases he

/-- A chain gets the number of clusters asked for, as long as there are enough; growing does not lead
into a trap. -/
theorem resizeChain_reshapes (hq : Env.Quiet) (hg : Geometry w.sb) (hm : Mapped w bits)
    (hend : w.sb.clusterCount + 2 < 2 ^ 32) (ho : Owner w bits id n L)
    (hle : k ≤ L.length + (freeSet bits w.sb.clusterCount).card)
    (hsafe : L.length < k → ¬Trapped bits w.sb.clusterCount n L) :
    Wp E (resizeChain id L.length k) w fun rc v => rc = .ok ∧ ∃ bits' m K, K.length = k ∧
      Reshaped w v bits bits' id n m L K ∧
      (L.length ≤ k → Trapped bits' w.sb.clusterCount m K →
        Trapped bits w.sb.clusterCount n L) := by
  rw [resizeChain]
  split
  · rename_i hlt
    have hgrow := growFile_spec (E := E) hq hm hend ho.node ho.chained ho.allocated ho.empty
      (k := k - L.length) (by omega) (hsafe hlt)
    have hlow : Wp (fun _ => True) (growFile id L.length (k - L.length)) w fun rc v => rc = .ok →
        L = [] → k = 1 → ∀ m, v.nodes id = some m → ∀ j, j + 2 < m.startCluster →
          bits j = true := by
      by_cases hone : L = [] ∧ k = 1
      · obtain ⟨rfl, rfl⟩ := hone
        obtain ⟨hs, hf, -⟩ := ho.empty rfl
        exact (growFile_lowest hq hm hend ho.node hs hf).mono fun _ _ h he _ _ => h he
      · exact (wp_const trivial).mono fun _ _ _ _ hL hk => absurd ⟨hL, hk⟩ hone
    refine (hgrow.both hlow).mono fun rc v hv => ?_
    obtain ⟨rfl, bits', m, A, hA, hgr, -⟩ := hv.1.1 (by omega)
    refine ⟨rfl, bits', m, L ++ A, by rw [List.length_append]; omega, hgr.reshaped hg ho,
      fun _ htrap => ?_⟩
    -- only the first cluster of an empty node could be taken into a trap
    obtain ⟨-, c, h2, hc, hfree⟩ := htrap
    have hlen := congrArg List.length hc
    rw [List.length_append, List.length_singleton] at hlen
    have hL : L = [] := List.eq_nil_of_length_eq_zero (by omega)
    have hwalk := hgr.chained.walk
    rw [hc] at hwalk
    have hused := hv.2 rfl hL (by omega) m hgr.node (c - 2) (by rw [← hwalk.1]; omega)
    have hmem : c - 2 ∈ freeSet bits' w.sb.clusterCount := by rw [hfree, Finset.mem_singleton]
    have hclear := (mem_freeSet.mp hmem).2
    rw [hgr.bits_eq, hused] at hclear
    cases hclear
  · rename_i hlt
    split
    · rename_i hgt
      refine (shrinkFile_reshapes hq hg hm ho hgt).mono ?_
      rintro rc v ⟨rfl, bits', m, hres⟩
      refine ⟨rfl, bits', m, L.take k, by rw [List.length_take]; omega, hres,
        fun h => absurd h (by omega)⟩
    · exact ⟨rfl, bits, n, L, by omega, .refl hm ho, fun _ h => h⟩
end

end Proofs

end Exfat
