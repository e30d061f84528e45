import Exfat.Proofs.Alloc

namespace Exfat
open Lib

/-! Growing a chain: `grow_file` takes clusters one by one and gives them back when it runs out. -/

/-- The device after `make_noncontiguous` linked `k` clusters from `c` on. -/
def stringFat (sb : SuperBlock) (d : Store) : Nat → Nat → Store
  | 0, _ => d
  | k + 1, c => stringFat sb (linkFat sb false d c (c + 1)) k (c + 1)

namespace Proofs

variable {E : Halt → Prop} {w v : World} {n m : Node} {L K A : List Nat} {sb : SuperBlock}
  {d : Store} {id : NodeId} {bits bits' : Nat → Bool} {p x : Nat}

theorem fat_stringFat (sb : SuperBlock) (d : Store) (k c x : Nat) :
    fat sb (stringFat sb d k c) x = if c ≤ x ∧ x < c + k then (x + 1) % 2 ^ 32 else fat sb d x := by
  induction k generalizing d c with
  | zero => rw [if_neg (by omega)]; rfl
  | succ k ih =>
    rw [stringFat, ih, fat_linkFat]
    by_cases hx : x = c
    · subst hx
      simp
    · by_cases hin : c + 1 ≤ x ∧ x < c + 1 + k
      · rw [if_pos hin, if_pos (by omega)]
      · rw [if_neg hin, if_neg fun h => hx h.1, if_neg (by omega)]

theorem stringFat_out {q : Nat} {k c : Nat}
    (h : ∀ y, c ≤ y → y < c + k → q < fatOffset sb y ∨ fatOffset sb y + 4 ≤ q) :
    stringFat sb d k c q = d q := by
  induction k generalizing d c with
  | zero => rfl
  | succ k ih =>
    rw [stringFat, ih fun y h1 h2 => h y (by omega) (by omega),
      linkFat_out (h c (Nat.le_refl c) (by omega))]

/-- A contiguous chain of valid clusters is an interval. -/
theorem contiguous_get (hcount : sb.clusterCount < 2 ^ 32) {s : Nat}
    (hw : Walk (link sb d true) s L) (hv : ∀ c ∈ L, sb.clusterInvalid c = false) {i : Nat}
    (hi : L[i]? = some x) : x = s + i := by
  induction i generalizing x with
  | zero => exact hw.get hi
  | succ i ih =>
    have hlt := getElem?_lt hi
    obtain ⟨y, hy⟩ : ∃ y, L[i]? = some y := ⟨_, List.getElem?_eq_getElem (by omega)⟩
    have hx := (clusterInvalid_false.mp (hv x (List.mem_of_getElem? hi)))
    have hlink := hw.next hy hi
    have hyi := ih hy
    have hyv := (clusterInvalid_false.mp (hv y (List.mem_of_getElem? hy)))
    simp only [link, if_true] at hlink
    omega

/-- The chain of a node grew from `L` to `L ++ A`; nothing but FAT entries of `L` and of free
clusters changed on the device. -/
structure Growing (w v : World) (bits bits' : Nat → Bool) (id : NodeId) (n m : Node)
    (L A : List Nat) : Prop where
  node : v.nodes id = some m
  others : ∀ j, j ≠ id → v.nodes j = w.nodes j
  sb : v.sb = w.sb
  mapped : Mapped v bits'
  bits_eq : ∀ i, bits' i = (bits i || decide (i + 2 ∈ A))
  taken : ∀ c ∈ A, w.sb.clusterInvalid c = false ∧ bits (c - 2) = false
  chained : Chained v.sb v.dev m (L ++ A)
  empty : L ++ A = [] → m.startCluster = exfatClusterFree ∧ m.fptrIndex = 0 ∧
    m.fptrCluster = exfatClusterFree
  same : ∃ s k c b d, m =
    { n with startCluster := s, fptrIndex := k, fptrCluster := c, isContiguous := b, isDirty := d }
  device : ∀ q, (∀ c, c ∈ L ∨ w.sb.clusterInvalid c = false ∧ bits (c - 2) = false →
    q < fatOffset w.sb c ∨ fatOffset w.sb c + 4 ≤ q) → v.dev q = w.dev q

/-- Clusters of the chain are in use. -/
theorem Growing.used (h : Growing w v bits bits' id n m L A) (hL : ∀ c ∈ L, bits (c - 2) = true)
    {c : Nat} (hc : c ∈ L ++ A) : bits' (c - 2) = true := by
  have hge := h.chained.ge hc
  rw [h.bits_eq, show c - 2 + 2 = c by omega]
  rcases List.mem_append.mp hc with hc | hc
  · simp [hL c hc]
  · simp [hc]

/-- Every cluster taken is one free cluster less. -/
theorem Growing.card (h : Growing w v bits bits' id n m L A) :
    (freeSet bits' w.sb.clusterCount).card + A.length = (freeSet bits w.sb.clusterCount).card := by
  have hge : ∀ c ∈ A, 2 ≤ c := fun c hc => (clusterInvalid_false.mp (h.taken c hc).1).1
  have hnodup : A.Nodup := (List.nodup_append.mp h.chained.nodup).2.1
  have hinj : Set.InjOn (fun c => c - 2) (A.toFinset : Set Nat) := by
    intro a ha b hb hab
    have h1 := hge a (List.mem_toFinset.mp (Finset.mem_coe.mp ha))
    have h2 := hge b (List.mem_toFinset.mp (Finset.mem_coe.mp hb))
    simp only at hab
    omega
  have hcard : (A.toFinset.image fun c => c - 2).card = A.length := by
    rw [Finset.card_image_of_injOn hinj, List.toFinset_card_of_nodup hnodup]
  have hsub : (A.toFinset.image fun c => c - 2) ⊆ freeSet bits w.sb.clusterCount := by
    intro i hi
    obtain ⟨c, hc, rfl⟩ := Finset.mem_image.mp hi
    obtain ⟨hv, hf⟩ := h.taken c (List.mem_toFinset.mp hc)
    have := clusterInvalid_false.mp hv
    exact mem_freeSet.mpr ⟨by omega, hf⟩
  have hdiff : freeSet bits' w.sb.clusterCount =
      freeSet bits w.sb.clusterCount \ (A.toFinset.image fun c => c - 2) := by
    ext i
    rw [Finset.mem_sdiff, mem_freeSet, mem_freeSet, h.bits_eq, Bool.or_eq_false_iff,
      decide_eq_false_iff_not, Finset.mem_image, and_assoc]
    refine and_congr_right fun _ => and_congr_right fun _ => not_congr ⟨fun hi => ?_, ?_⟩
    · exact ⟨i + 2, List.mem_toFinset.mpr hi, by omega⟩
    · rintro ⟨c, hc, rfl⟩
      have := hge c (List.mem_toFinset.mp hc)
      rw [show c - 2 + 2 = c by omega]
      exact List.mem_toFinset.mp hc
  rw [hdiff, ← hcard]
  exact Finset.card_sdiff_add_card_eq_card hsub

/-- A free cluster linked to the end of the chain. -/
theorem Growing.link {u : World} {i : Nat} {b : Bool} (h : Growing w v bits bits' id n m L A)
    (hL : ∀ c ∈ L, bits (c - 2) = true) (he : L ++ A = K ++ [p])
    (hend : w.sb.clusterCount + 2 < 2 ^ 32) (hi : i < w.sb.clusterCount) (hfree : bits' i = false)
    (hu : u = ((World.took v bits' (i + 2)).withDev (linkFat v.sb false d p (i + 2))).setNode id
      { m with isContiguous := false, isDirty := b })
    (hc : Chained v.sb d { m with isContiguous := false, isDirty := b } (K ++ [p]))
    (hd : ∀ q, (∀ c ∈ K, q < fatOffset v.sb c ∨ fatOffset v.sb c + 4 ≤ q) → d q = v.dev q) :
    Growing w u bits (bmapSet bits' i) id n { m with isContiguous := false, isDirty := b } L
      (A ++ [i + 2]) := by
  subst hu
  have hmap : Mapped (World.took v bits' (i + 2)) (bmapSet bits' i) := h.mapped.took
  have hvalid : w.sb.clusterInvalid (i + 2) = false := clusterInvalid_false.mpr ⟨by omega, by omega⟩
  have hnew : i + 2 ∉ K ++ [p] := by
    intro hmem
    rw [← he] at hmem
    have := h.used hL hmem
    rw [Nat.add_sub_cancel, hfree] at this
    cases this
  have hbits : bits i = false := by
    have := h.bits_eq i
    rw [hfree] at this
    exact (Bool.or_eq_false_iff.mp this.symm).1
  have hchain : L ++ (A ++ [i + 2]) = K ++ [p] ++ [i + 2] := by rw [← List.append_assoc, he]
  refine ⟨by simp, fun j hj => (World.setNode_ne _ _ hj).trans (h.others j hj), h.sb,
    hmap.congr rfl rfl, fun j => ?_, fun c hm => ?_, ?_, by simp, ?_, fun q hq => ?_⟩
  · by_cases hj : j = i
    · simp [bmapSet, hj]
    · simp [bmapSet, hj, h.bits_eq j, List.mem_append]
  · rcases List.mem_append.mp hm with hm | hm
    · exact h.taken c hm
    · rw [List.mem_singleton] at hm
      subst hm
      exact ⟨hvalid, by rwa [Nat.add_sub_cancel]⟩
  · rw [hchain]
    have hlink : Exfat.link v.sb (linkFat v.sb false d p (i + 2)) false p = i + 2 := by
      simp only [Exfat.link, Bool.false_eq_true, if_false, fat_linkFat, and_self, if_true]
      omega
    have hwalk : Walk (Exfat.link v.sb (linkFat v.sb false d p (i + 2)) false) m.startCluster
        (K ++ [p]) := by
      refine hc.walk.update hc.nodup fun z hz => link_linkFat fun hzp => absurd hzp hz
    refine ⟨hwalk.append ⟨hlink.symm, trivial⟩, fun c hm => ?_, ?_, fun _ => ?_⟩
    · rcases List.mem_append.mp hm with hm | hm
      · exact hc.valid c hm
      · rw [List.mem_singleton] at hm
        subst hm
        exact h.sb ▸ hvalid
    · rw [List.nodup_append]
      refine ⟨hc.nodup, List.nodup_singleton _, fun a ha b hb => ?_⟩
      rw [List.mem_singleton] at hb
      rintro rfl
      exact hnew (hb ▸ ha)
    · have hne : K ++ [p] ≠ [] := by simp
      have hf := hc.fptr hne
      rw [List.getElem?_append_left (getElem?_lt hf)]
      exact hf
  · obtain ⟨s, k, c, b', d', rfl⟩ := h.same
    exact ⟨s, k, c, false, b, rfl⟩
  · have hmem : ∀ c ∈ K ++ [p], q < fatOffset w.sb c ∨ fatOffset w.sb c + 4 ≤ q := by
      intro c hc
      rw [← he] at hc
      rcases List.mem_append.mp hc with hc | hc
      · exact hq c (Or.inl hc)
      · exact hq c (Or.inr (h.taken c hc))
    have hlast := hmem p (by simp)
    have hfront := hd q fun c hc => by
      rw [h.sb]
      exact hmem c (by simp [hc])
    calc linkFat v.sb false d p (i + 2) q = d q := linkFat_out (by rw [h.sb]; exact hlast)
      _ = v.dev q := hfront
      _ = w.dev q := h.device q hq

/-- The end of the chain marked. -/
theorem Growing.mark {u : World} {x : Nat} (h : Growing w v bits bits' id n m L A)
    (he : L ++ A = K ++ [p]) (hu : u = v.withDev (linkFat v.sb m.isContiguous v.dev p x)) :
    Growing w u bits bits' id n m L A := by
  subst hu
  refine ⟨h.node, h.others, h.sb, h.mapped.congr rfl rfl, h.bits_eq, h.taken, ?_, h.empty, h.same,
    fun q hq => ?_⟩
  · refine h.chained.congr (fun c hc => (link_linkFat fun hcp => ?_).symm) rfl h.chained.fptr
    subst hcp
    have hn := h.chained.nodup
    rw [he] at hn hc
    rw [List.dropLast_concat] at hc
    exact absurd rfl ((List.nodup_append.mp hn).2.2 c hc c (by simp))
  · have hp : p ∈ L ++ A := by rw [he]; simp
    have hout : q < fatOffset v.sb p ∨ fatOffset v.sb p + 4 ≤ q := by
      rw [h.sb]
      rcases List.mem_append.mp hp with hp | hp
      · exact hq p (Or.inl hp)
      · exact hq p (Or.inr (h.taken p hp))
    exact (linkFat_out hout).trans (h.device q hq)

/-- Requests and errors are no part of a chain. -/
theorem Growing.quiet {u : World} (h : Growing w v bits bits' id n m L A) (hn : u.nodes = v.nodes)
    (hs : u.sb = v.sb) (hc : u.cmap = v.cmap) (hd : u.dev = v.dev) :
    Growing w u bits bits' id n m L A where
  node := hn ▸ h.node
  others := hn ▸ h.others
  sb := hs.trans h.sb
  mapped := h.mapped.congr hs hc
  bits_eq := h.bits_eq
  taken := h.taken
  chained := by
    rw [hs, hd]
    exact h.chained
  empty := h.empty
  same := h.same
  device := hd ▸ h.device

section
variable [Env]

theorem makeNoncontiguous_spec (hq : Env.Quiet) (k c : Nat) :
    Wp E (makeNoncontiguous k c) w (Ret true (w.withDev (stringFat w.sb w.dev k c))) := by
  induction k generalizing w c with
  | zero => exact Ret.intro _ _
  | succ k ih =>
    simp only [makeNoncontiguous, wp_bind]
    refine after_ret (setNextCluster_spec hq _ _ _) fun t => ?_
    simp only [if_true]
    refine after_ret (ih (c + 1)) fun t => ?_
    exact ⟨rfl, t, rfl⟩

/-- `grow_file` writes the links of a contiguous chain before it goes on elsewhere. -/
theorem leaveContiguous_spec (hq : Env.Quiet) (hcount : w.sb.clusterCount < 2 ^ 32)
    (hn : w.nodes id = some m) (hc : Chained w.sb w.dev m (K ++ [p]))
    (hx : m.isContiguous = true → x ≠ p - 1) :
    Wp E (leaveContiguous id p x) w fun r v => r = true ∧ ∃ d t b,
      v = ((w.ticked t).withDev d).setNode id { m with isContiguous := false, isDirty := b } ∧
      Chained w.sb d { m with isContiguous := false, isDirty := b } (K ++ [p]) ∧
      ∀ q, (∀ c ∈ K, q < fatOffset w.sb c ∨ fatOffset w.sb c + 4 ≤ q) → d q = w.dev q := by
  have hp := clusterInvalid_false.mp (hc.valid p (by simp))
  simp only [leaveContiguous, wp_bind, wp_getNode hn]
  cases hb : m.isContiguous with
  | false =>
    simp only [Bool.false_eq_true, and_false, if_false, wp_pure, true_and]
    have hself : { m with isContiguous := false, isDirty := m.isDirty } = m := by rw [← hb]
    refine ⟨w.dev, w.tick, m.isDirty, ?_, ?_, fun _ _ => rfl⟩
    · rw [hself]
      exact (World.setNode_eq _ hn).symm
    · rw [hself]
      exact hc
  | true =>
    have hne : x ≠ (p + 2 ^ 32 - 1) % 2 ^ 32 := by
      have := hx hb
      omega
    have hpos : m.startCluster + K.length = p :=
      (contiguous_get hcount (hb ▸ hc.walk) hc.valid (i := K.length) (by simp)).symm
    simp only [hne, ne_eq, not_false_eq_true, and_true, if_true, wp_bind]
    refine after_ret (makeNoncontiguous_spec hq _ _) fun t => ?_
    simp only [if_true, wp_bind]
    rw [wp_modifyNode (n := m) (by simpa using hn)]
    simp only [wp_pure, true_and]
    refine ⟨stringFat w.sb w.dev (p - m.startCluster) m.startCluster, t, true, rfl, ?_, ?_⟩
    · refine hc.congr (fun y hy => ?_) rfl hc.fptr
      rw [List.dropLast_concat] at hy
      obtain ⟨i, hi⟩ := List.mem_iff_getElem?.mp hy
      have hilt := getElem?_lt hi
      have hyi : y = m.startCluster + i := contiguous_get hcount (hb ▸ hc.walk) hc.valid
        (by rw [List.getElem?_append_left hilt]; exact hi)
      rw [hb]
      simp only [link, if_true, Bool.false_eq_true, if_false]
      rw [fat_stringFat, if_pos (by omega)]
    · intro q hq
      refine stringFat_out fun y h1 h2 => hq y ?_
      have hlt : y - m.startCluster < K.length := by omega
      obtain ⟨z, hz⟩ : ∃ z, K[y - m.startCluster]? = some z := ⟨_, List.getElem?_eq_getElem hlt⟩
      have hzi := contiguous_get hcount (hb ▸ hc.walk) hc.valid
        (i := y - m.startCluster) (by rw [List.getElem?_append_left hlt]; exact hz)
      rw [show y = z by omega]
      exact List.mem_of_getElem? hz

/-- `shrink_file` gives back the clusters that were taken. -/
theorem Growing.rollback (hq : Env.Quiet) (h : Growing w v bits bits' id n m L A) (hA : A ≠ []) :
    Wp E (shrinkFile id (L.length + A.length) A.length) v fun rc u =>
      rc = .ok ∧ ∃ m', Growing w u bits bits id n m' L [] := by
  have hpos := List.length_pos_iff.mpr hA
  have hlen : (L ++ A).length = L.length + A.length := List.length_append
  have hdiff : (L ++ A).length - L.length = A.length := by omega
  have hspec := @shrinkFile_spec E _ _ _ _ _ hq _ L.length h.mapped h.node h.chained (by omega)
  rw [hdiff, hlen] at hspec
  refine after_ret hspec fun t => ⟨rfl, m.cropped L.length, ?_⟩
  have hge : ∀ c ∈ (L ++ A).drop L.length, 2 ≤ c := fun c hc =>
    h.chained.ge (List.mem_of_mem_drop hc)
  have hcrop := @Chained.cropped _ _ _ _ L.length h.chained (by omega)
  have hmap := h.mapped.dropped (b := m.isContiguous) hge
  rw [List.drop_left] at hmap
  rw [List.take_left, List.drop_left] at hcrop
  rw [List.drop_left]
  have hbits : (fun i => bits' i && decide (i + 2 ∉ A)) = bits := by
    funext i
    rw [h.bits_eq]
    by_cases hi : i + 2 ∈ A
    · have := (h.taken _ hi).2
      rw [Nat.add_sub_cancel] at this
      simp [hi, this]
    · simp [hi]
  rw [hbits] at hmap
  refine ⟨by simp, fun j hj => (World.setNode_ne _ _ hj).trans (h.others j hj), h.sb,
    hmap.congr rfl rfl, by simp, by simp, ?_, fun hnil => ?_, ?_, fun q hq => ?_⟩
  · rw [List.append_nil]
    exact hcrop
  · rw [List.append_nil] at hnil
    subst hnil
    exact ⟨rfl, rfl, rfl⟩
  · obtain ⟨s, k, c, b, d, rfl⟩ := h.same
    rw [Node.cropped]
    split
    · exact ⟨_, _, _, _, _, rfl⟩
    · exact ⟨_, _, _, _, _, rfl⟩
  · have hmem : ∀ c ∈ L ++ A, q < fatOffset v.sb c ∨ fatOffset v.sb c + 4 ≤ q := by
      intro c hc
      rw [h.sb]
      rcases List.mem_append.mp hc with hc | hc
      · exact hq c (Or.inl hc)
      · exact hq c (Or.inr (h.taken c hc))
    simp only [World.dropped, World.setNode_ticked, World.setNode_dev, World.ticked_dev,
      World.withCmap_dev, World.withDev_dev, World.withDev_sb]
    rw [freeFat_out fun c hc => hmem c (by simp [hc]), endFat_out hmem, h.device q hq]

omit [Env] in
theorem clusterEnd_invalid (hend : sb.clusterCount + 2 < 2 ^ 32) :
    sb.clusterInvalid exfatClusterEnd = true := by
  by_contra hc
  have hlt := (clusterInvalid_false.mp (Bool.not_eq_true _ ▸ hc)).2
  rw [exfatClusterEnd] at hlt
  omega

omit [Env] in
/-- A chain that did not grow yet. -/
theorem growing_refl (hm : Mapped w bits) (hn : w.nodes id = some n)
    (hc : Chained w.sb w.dev n L)
    (hempty : L = [] → n.startCluster = exfatClusterFree ∧ n.fptrIndex = 0 ∧
      n.fptrCluster = exfatClusterFree) :
    Growing w w bits bits id n n L [] := by
  refine ⟨hn, fun _ _ => rfl, rfl, hm, by simp, by simp, ?_, ?_, ⟨_, _, _, _, _, rfl⟩,
    fun _ _ => rfl⟩
  · rw [List.append_nil]
    exact hc
  · rw [List.append_nil]
    exact hempty

/-- The loop of `grow_file` takes all the clusters asked for, or gives back what it took. -/
theorem growLoop_spec (hq : Env.Quiet) (hend : w.sb.clusterCount + 2 < 2 ^ 32) {k : Nat}
    (hL : ∀ c ∈ L, bits (c - 2) = true) (h : Growing w v bits bits' id n m L A)
    (he : L ++ A = K ++ [p])
    (hsafe : m.isContiguous = true → ∀ i,
      FirstFit bits' w.sb.clusterCount (hintIndex v ((p + 1) % 2 ^ 32)) i → i + 2 ≠ p - 1) :
    Wp E (growLoop id L.length k A.length p) v fun rc u =>
      (k ≤ (freeSet bits' w.sb.clusterCount).card → rc = .ok ∧ ∃ bits'' m' B,
        B.length = A.length + k ∧ Growing w u bits bits'' id n m' L B ∧
        (m'.isContiguous = false → ∀ c, (L ++ B).getLast? = some c →
          fat u.sb u.dev c = exfatClusterEnd)) ∧
      ((freeSet bits' w.sb.clusterCount).card < k → rc = .err .enospc ∧
        ∃ m', Growing w u bits bits id n m' L []) := by
  induction k generalizing v m bits' A K p with
  | zero =>
    simp only [growLoop, wp_bind, wp_getNode h.node]
    refine after_ret (setNextCluster_spec hq _ _ _) fun t => ?_
    simp only [if_true, wp_pure, Nat.zero_le, true_implies, Nat.not_lt_zero, false_implies,
      and_true, true_and]
    refine ⟨bits', m, A, rfl, (h.mark he rfl).quiet rfl rfl rfl rfl, fun hb c hc => ?_⟩
    rw [he] at hc
    obtain rfl : p = c := by simpa using hc
    simp [fat_linkFat, hb]
  | succ k ih =>
    simp only [growLoop, wp_bind]
    refine (allocateCluster_spec h.mapped (h.sb ▸ hend) _).mono ?_
    rintro x a (⟨i, rfl, hfit, rfl⟩ | ⟨hnone, rfl, rfl⟩)
    · have hfit' : FirstFit bits' w.sb.clusterCount (hintIndex v ((p + 1) % 2 ^ 32)) i :=
        h.sb ▸ hfit
      have hvalid : w.sb.clusterInvalid (i + 2) = false :=
        clusterInvalid_false.mpr ⟨by omega, Nat.add_lt_add_right hfit'.lt 2⟩
      have hasb : (World.took v bits' (i + 2)).sb = w.sb := h.sb
      simp only [wp_get, hasb, hvalid, Bool.false_eq_true, if_false, wp_bind]
      have hchain : Chained v.sb v.dev m (K ++ [p]) := he ▸ h.chained
      refine (leaveContiguous_spec (w := World.took v bits' (i + 2)) hq h.mapped.count h.node
        hchain fun hb => hsafe hb i hfit').mono ?_
      rintro _ _ ⟨rfl, d, t, b, rfl, hc, hd⟩
      simp only [if_true, wp_bind, wp_getNode_setNode]
      refine after_ret (setNextCluster_spec hq _ _ _) fun t => ?_
      have hlinked := h.link hL he hend hfit'.lt hfit'.clear rfl hc hd
      have hcard := hfit'.card
      have hlen : A.length + 1 = (A ++ [i + 2]).length := by simp
      rw [if_pos rfl, hlen]
      refine Wp.mono (ih (A := A ++ [i + 2]) (K := K ++ [p]) (hlinked.quiet rfl rfl rfl rfl)
        (by rw [← List.append_assoc, he]) fun h => by cases h)
        fun rc u hu => ⟨fun hk => ?_, fun hk => ?_⟩
      · obtain ⟨rfl, bits'', m', B, hB, hgrow, hmark⟩ := hu.1 (by omega)
        exact ⟨rfl, bits'', m', B, by rw [hB, ← hlen]; omega, hgrow, hmark⟩
      · exact hu.2 (by omega)
    · have hcard : (freeSet bits' w.sb.clusterCount).card = 0 := by
        rw [← h.sb, hnone, Finset.card_empty]
      have herr := h.quiet (u := v.erred (v.errors + 1)) rfl rfl rfl rfl
      simp only [wp_get, World.erred_sb, h.sb, clusterEnd_invalid hend, if_true, hcard]
      have hpost : ∀ u, (∃ m', Growing w u bits bits id n m' L []) →
          (k + 1 ≤ 0 → Rc.err .enospc = .ok ∧ ∃ bits'' m' B, B.length = A.length + (k + 1) ∧
            Growing w u bits bits'' id n m' L B ∧ (m'.isContiguous = false →
              ∀ c, (L ++ B).getLast? = some c → fat u.sb u.dev c = exfatClusterEnd)) ∧
          (0 < k + 1 → Rc.err .enospc = .err .enospc ∧
            ∃ m', Growing w u bits bits id n m' L []) :=
        fun u hu => ⟨fun hk => absurd hk (by omega), fun _ => ⟨rfl, hu⟩⟩
      split
      · rename_i hA
        simp only [wp_bind]
        refine (herr.rollback hq fun hnil => hA (by rw [hnil]; rfl)).mono ?_
        rintro _ u ⟨-, hu⟩
        exact hpost u hu
      · rename_i hA
        obtain rfl : A = [] := List.eq_nil_of_length_eq_zero (not_not.mp hA)
        obtain rfl : bits' = bits := funext fun i => by simpa using h.bits_eq i
        exact hpost _ ⟨m, herr⟩

omit [Env] in
/-- The only free cluster lies right before the only cluster of a contiguous node. -/
def Trapped (bits : Nat → Bool) (count : Nat) (n : Node) (L : List Nat) : Prop :=
  n.isContiguous = true ∧ ∃ c, 2 ≤ c ∧ L = [c + 1] ∧ freeSet bits count = {c - 2}

omit [Env] in
/-- First fit goes to the cluster before the end of a contiguous chain only from a trap. -/
theorem FirstFit.trapped {i : Nat} (hm : Mapped w bits) (hend : w.sb.clusterCount + 2 < 2 ^ 32)
    (hc : Chained w.sb w.dev n (K ++ [p])) (hL : ∀ c ∈ K ++ [p], bits (c - 2) = true)
    (hb : n.isContiguous = true) (h : FirstFit bits w.sb.clusterCount
      (hintIndex w ((p + 1) % 2 ^ 32)) i) (hi : i + 2 = p - 1) :
    Trapped bits w.sb.clusterCount n (K ++ [p]) := by
  have hp := clusterInvalid_false.mp (hc.valid p (by simp))
  have hown := hL p (by simp)
  have hK : K = [] := by
    by_contra hne
    obtain ⟨K', y, rfl⟩ := List.eq_nil_or_concat' K |>.resolve_left hne
    have hy : y = n.startCluster + K'.length := contiguous_get hm.count (hb ▸ hc.walk) hc.valid
      (by simp)
    have hpp : p = n.startCluster + (K'.length + 1) := contiguous_get hm.count (hb ▸ hc.walk)
      hc.valid (by simp)
    have := hL y (by simp)
    rw [show y - 2 = i by omega, h.clear] at this
    cases this
  subst hK
  refine ⟨hb, p - 1, by omega, by rw [List.nil_append, show p - 1 + 1 = p by omega], ?_⟩
  rw [show p - 1 - 2 = i by omega]
  have hstart : hintIndex w ((p + 1) % 2 ^ 32) = if p - 1 ≥ w.sb.clusterCount then 0 else p - 1 := by
    have hidx : ((p + 1) % 2 ^ 32 + 2 ^ 32 - 2) % 2 ^ 32 = p - 1 := by omega
    rw [hintIndex, hidx]
  ext j
  rw [mem_freeSet, Finset.mem_singleton]
  constructor
  · rintro ⟨hj, hclear⟩
    by_contra hne
    have hset : bits j = true := by
      by_cases hjp : j = p - 2
      · rw [hjp]
        exact hown
      rcases h.first with ⟨h1, h2⟩ | ⟨h1, h2, h3⟩
      · exact h2 j (by split at hstart <;> omega) (by split at hstart <;> omega)
      · by_cases hji : j < i
        · exact h3 j hji
        · exact h2 j (by split at hstart <;> omega) hj
    rw [hclear] at hset
    cases hset
  · rintro rfl
    exact ⟨h.lt, h.clear⟩

omit [Env] in
/-- The first cluster of an empty node. -/
theorem growing_first {i : Nat} (hm : Mapped w bits) (hi : i < w.sb.clusterCount)
    (hfree : bits i = false) (h0 : n.fptrIndex = 0) :
    Growing w ((World.took w bits (i + 2)).setNode id { n with
      fptrCluster := i + 2, startCluster := i + 2, isContiguous := true }) bits (bmapSet bits i) id n
      { n with fptrCluster := i + 2, startCluster := i + 2, isContiguous := true } [] [i + 2] := by
  have hvalid : w.sb.clusterInvalid (i + 2) = false := clusterInvalid_false.mpr ⟨by omega, by omega⟩
  have hmap : Mapped (World.took w bits (i + 2)) (bmapSet bits i) := hm.took
  refine ⟨by simp, fun j hj => World.setNode_ne _ _ hj, rfl, hmap.congr rfl rfl, fun j => ?_, ?_,
    ⟨⟨rfl, trivial⟩, ?_, by simp, fun _ => ?_⟩, by simp, ⟨_, _, _, _, _, rfl⟩, fun _ _ => rfl⟩
  · by_cases hj : j = i <;> simp [bmapSet, hj]
  · intro c hc
    rw [List.mem_singleton] at hc
    subst hc
    exact ⟨hvalid, hfree⟩
  · intro c hc
    rw [List.nil_append, List.mem_singleton] at hc
    exact hc ▸ hvalid
  · simp [h0]

/-- `grow_file` adds clusters to the end of the chain, or runs out of them and leaves the chain as it
was. -/
theorem growFile_spec (hq : Env.Quiet) {k : Nat} (hm : Mapped w bits)
    (hend : w.sb.clusterCount + 2 < 2 ^ 32) (hn : w.nodes id = some n)
    (hc : Chained w.sb w.dev n L) (hL : ∀ c ∈ L, bits (c - 2) = true)
    (hempty : L = [] → n.startCluster = exfatClusterFree ∧ n.fptrIndex = 0 ∧
      n.fptrCluster = exfatClusterFree) (hk : 0 < k)
    (hsafe : ¬Trapped bits w.sb.clusterCount n L) :
    Wp E (growFile id L.length k) w fun rc u =>
      (k ≤ (freeSet bits w.sb.clusterCount).card → rc = .ok ∧ ∃ bits' m A,
        A.length = k ∧ Growing w u bits bits' id n m L A ∧
        (m.isContiguous = false → ∀ c, (L ++ A).getLast? = some c →
          fat u.sb u.dev c = exfatClusterEnd)) ∧
      ((freeSet bits w.sb.clusterCount).card < k → rc = .err .enospc ∧
        ∃ m, Growing w u bits bits id n m L []) := by
  simp only [growFile, wp_bind, wp_getNode hn, if_neg (Nat.pos_iff_ne_zero.mp hk)]
  rcases List.eq_nil_or_concat' L with rfl | ⟨K, p, rfl⟩
  · obtain ⟨hs0, hf0, -⟩ := hempty rfl
    simp only [hs0, ne_eq, not_true_eq_false, if_false, hf0, wp_bind]
    refine (allocateCluster_spec hm hend 0).mono ?_
    rintro x a (⟨i, rfl, hfit, rfl⟩ | ⟨hnone, rfl, rfl⟩)
    · have hvalid : w.sb.clusterInvalid (i + 2) = false :=
        clusterInvalid_false.mpr ⟨by omega, Nat.add_lt_add_right hfit.lt 2⟩
      have hasb : (World.took w bits (i + 2)).sb = w.sb := rfl
      have hnode : (World.took w bits (i + 2)).nodes id = some n := hn
      simp only [wp_get, hasb, hvalid, Bool.false_eq_true, if_false, wp_bind]
      rw [wp_modifyNode hnode]
      have hgrow := @growing_first _ n id _ _ hm hfit.lt hfit.clear hf0
      have hcard := hfit.card
      have hmin : ∀ j, j < i → bits j = true := by
        have h0 : hintIndex w 0 = 0 := by
          rw [hintIndex, if_pos (by omega)]
        rcases hfit.first with ⟨-, h2⟩ | ⟨-, -, h3⟩
        · exact fun j hj => h2 j (by omega) hj
        · exact h3
      refine Wp.mono (growLoop_spec (w := w) (L := []) (A := [i + 2]) (K := []) (k := k - 1) hq hend
        (by simp) hgrow rfl fun _ j hj he => ?_) fun rc u hu => ⟨fun hle => ?_, fun hlt => ?_⟩
      · have hclear := hj.clear
        have hji : j < i := by omega
        rw [bmapSet, if_neg (by omega), hmin j hji] at hclear
        cases hclear
      · obtain ⟨rfl, bits', m, B, hB, hrest⟩ := hu.1 (by omega)
        exact ⟨rfl, bits', m, B, by rw [hB, List.length_singleton]; omega, hrest⟩
      · exact hu.2 (by omega)
    · simp only [wp_get, World.erred_sb, clusterEnd_invalid hend, if_true, hnone, Finset.card_empty]
      refine ⟨fun hle => absurd hle (by omega), fun _ => ⟨rfl, n, ?_⟩⟩
      exact (growing_refl hm hn hc hempty).quiet rfl rfl rfl rfl
  · have hlast : (K ++ [p])[K.length]? = some p := by simp
    have hvp := hc.valid p (by simp)
    have hs : n.startCluster ≠ exfatClusterFree := by
      have hhead : (K ++ [p])[0]? = some n.startCluster := by
        cases K with
        | nil => exact congrArg some hc.walk.1
        | cons y ys => exact congrArg some hc.walk.1
      have := hc.ge (List.mem_of_getElem? hhead)
      simp only [exfatClusterFree]
      omega
    have hlen := hc.length_le
    have hidx : ((K ++ [p]).length + 2 ^ 32 - 1) % 2 ^ 32 = K.length := by
      rw [List.length_append, List.length_singleton] at hlen ⊢
      omega
    simp only [if_pos hs, wp_bind, hidx]
    refine after_ret (exfatAdvanceCluster_spec hq hn hc hlast) fun t => ?_
    simp only [wp_get, World.ticked_sb, World.setNode_sb, hvp, Bool.false_eq_true, if_false]
    have hgrow : Growing w ((w.setNode id (n.seek K.length p)).ticked t) bits bits id n
        (n.seek K.length p) (K ++ [p]) [] := by
      refine ⟨by simp, fun j hj => World.setNode_ne _ _ hj, rfl, hm.congr rfl rfl, by simp, by simp,
        ?_, by simp, ⟨_, _, _, _, _, rfl⟩, fun _ _ => rfl⟩
      rw [List.append_nil]
      exact hc.advanced hlast
    refine Wp.mono (growLoop_spec (A := []) hq hend hL hgrow (List.append_nil _)
      fun hb i hi he => hsafe (FirstFit.trapped hm hend hc hL hb hi he))
      fun rc u hu => ⟨fun hle => ?_, hu.2⟩
    obtain ⟨rfl, bits', m, B, hB, hrest⟩ := hu.1 hle
    exact ⟨rfl, bits', m, B, by simpa using hB, hrest⟩

end

end Proofs

end Exfat
