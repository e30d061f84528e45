import Exfat.Model.Dump
import Exfat.Proofs.Data

namespace Exfat
open Lib

/-! The fragments of a file on the device: put together they are the file. -/

/-- The bytes of the fragments, one fragment after the other. -/
def assemble (dev : Store) (frags : List (Nat × Nat)) : List UInt8 :=
  frags.flatMap fun f => dev.read f.1 f.2

namespace Proofs

variable {E : Halt → Prop} {w : World} {n : Node} {L : List Nat} {sb : SuperBlock} {d : Store}
  {c x start : Nat}

/-- A fragment that ends where the next one starts. -/
def Touches (f g : Nat × Nat) : Prop := f.1 + f.2 = g.1

/-- Data of a chain inside its first cluster. -/
theorem fileData_head {k : Nat} (hk : k ≤ sb.clusterSize) :
    fileData sb d (c :: L) 0 k = d.read (c2oRaw sb c) k := by
  refine eq_of_getD (by simp) fun i hi => ?_
  rw [fileData_length] at hi
  have hpos : filePos sb (c :: L) (0 * sb.clusterSize + 0 + i) = c2oRaw sb c + 0 + i :=
    filePos_add rfl (by omega)
  rw [fileData_getD hi, Store.read_getD _ hi]
  simpa using congrArg d hpos

/-- Data of a chain behind its first cluster. -/
theorem fileData_tail (k : Nat) :
    fileData sb d (c :: L) sb.clusterSize k = fileData sb d L 0 k := by
  apply List.map_congr_left
  intro i _
  have hsz := clusterSize_pos sb
  rw [filePos, filePos, Nat.add_div_left _ hsz, Nat.add_mod_left, Nat.zero_add,
    List.getD_cons_succ]

theorem c2oRaw_add (hc : 2 ≤ c) (k : Nat) : c2oRaw sb (c + k) = c2oRaw sb c + k * sb.clusterSize := by
  rw [c2oRaw_eq sb (c + k), c2oRaw_eq sb c, show c + k - 2 = c - 2 + k by omega, Nat.add_mul]
  omega

theorem link_lt (b : Bool) (c : Nat) : link sb d b c < 2 ^ 32 := by
  unfold link
  split
  · exact Nat.mod_lt _ (by decide)
  · have hlt := leNat_lt (d.read (fatOffset sb c) 4)
    rwa [Store.read_length] at hlt

/-- The first cluster of a chain and the rest of its data. -/
theorem fileData_step (remainder : Nat) :
    fileData sb d (c :: L) 0 remainder = d.read (c2oRaw sb c) (min sb.clusterSize remainder) ++
      fileData sb d L 0 (remainder - min sb.clusterSize remainder) := by
  rcases le_or_gt remainder sb.clusterSize with hle | hlt
  · rw [Nat.min_eq_right hle, Nat.sub_self, fileData_head hle]
    exact (List.append_nil _).symm
  · have hsum : remainder = sb.clusterSize + (remainder - sb.clusterSize) := by omega
    rw [Nat.min_eq_left hlt.le]
    conv_lhs => rw [hsum]
    rw [fileData_append, fileData_head le_rfl, Nat.zero_add, fileData_tail]

/-- What is printed for a pending fragment and the clusters that are left: both are covered in
order, and no fragment touches the one after it. -/
structure Covers (sb : SuperBlock) (d : Store) (start size : Nat) (L : List Nat) (remainder : Nat)
    (frags : List (Nat × Nat)) : Prop where
  total : (frags.map Prod.snd).sum = size + remainder
  data : assemble d frags = d.read (c2oRaw sb start) size ++ fileData sb d L 0 remainder
  first : ∀ f ∈ frags.head?, f.1 = c2oRaw sb start
  stops : remainder = 0 → frags = []
  apart : frags.IsChain fun f g => ¬Touches f g

theorem covers_nil : Covers sb d start 0 L 0 [] :=
  ⟨rfl, rfl, nofun, fun _ => rfl, .nil⟩

/-- The pending fragment with what the next cluster adds. -/
theorem pending_data {size k : Nat} (h2 : 2 ≤ start) (hs : size = k * sb.clusterSize)
    (remainder : Nat) :
    d.read (c2oRaw sb start) (size + min sb.clusterSize remainder) ++
        fileData sb d L 0 (remainder - min sb.clusterSize remainder) =
      d.read (c2oRaw sb start) size ++ fileData sb d ((start + k) :: L) 0 remainder := by
  rw [fileData_step, Store.read_append, List.append_assoc, c2oRaw_add h2, ← hs]

/-- A cluster more belongs to the pending fragment. -/
theorem Covers.extend {size remainder k : Nat} {frags : List (Nat × Nat)} (h2 : 2 ≤ start)
    (hs : size = k * sb.clusterSize)
    (hr : remainder - min sb.clusterSize remainder ≠ 0)
    (h : Covers sb d start (size + min sb.clusterSize remainder) L
      (remainder - min sb.clusterSize remainder) frags) :
    Covers sb d start size ((start + k) :: L) remainder frags where
  total := by
    have ht := h.total
    omega
  data := h.data.trans (pending_data h2 hs remainder)
  first := h.first
  stops := fun h0 => absurd h0 (by omega)
  apart := h.apart

/-- The pending fragment is printed, and the next one does not continue it. -/
theorem Covers.print {size remainder k : Nat} {frags : List (Nat × Nat)} (h2 : 2 ≤ start)
    (hs : size = k * sb.clusterSize) (hr : remainder ≠ 0)
    (hx : remainder - min sb.clusterSize remainder ≠ 0 → 2 ≤ x ∧ x ≠ start + k + 1)
    (h : Covers sb d x 0 L (remainder - min sb.clusterSize remainder) frags) :
    Covers sb d start size ((start + k) :: L) remainder
      ((c2oRaw sb start, size + min sb.clusterSize remainder) :: frags) where
  total := by
    have ht := h.total
    simp only [List.map_cons, List.sum_cons]
    omega
  data := by
    have hd := h.data
    rw [assemble, List.flatMap_cons, ← assemble, hd, ← pending_data h2 hs]
    rfl
  first := by
    rintro _ ⟨⟩
    rfl
  stops := fun h0 => absurd h0 hr
  apart := by
    cases frags with
    | nil => exact .singleton _
    | cons g frags =>
      refine List.isChain_cons_cons.mpr ⟨fun ht => ?_, h.apart⟩
      have hrest : remainder - min sb.clusterSize remainder ≠ 0 := fun h0 =>
        absurd (h.stops h0) (List.cons_ne_nil _ _)
      obtain ⟨hx2, hne⟩ := hx hrest
      have hpos := clusterSize_pos sb
      -- the fragment ends with a whole cluster, so the next one would be its successor
      have hstop : c2oRaw sb (start + (k + 1)) + 0 = c2oRaw sb x + 0 := by
        rw [c2oRaw_add h2, Nat.add_mul, ← hs, ← h.first g rfl]
        unfold Touches at ht
        simp only at ht
        omega
      exact hne (c2oRaw_inj (by omega) hx2 hpos hpos hstop).1.symm

section
variable [Env]

/-- The loop of `dump_file_fragments` covers the pending fragment, which consists of whole clusters
and ends at the next one, and the clusters that are left. -/
theorem fragmentsLoop_covers (hq : Env.Quiet) (hcount : w.sb.clusterCount < 2 ^ 32) {b : Bool}
    {fuel size remainder k : Nat} (hw : Walk (link w.sb w.dev b) (start + k) L)
    (hv : ∀ c ∈ L, w.sb.clusterInvalid c = false) (hr : remainder ≤ L.length * w.sb.clusterSize)
    (hf : remainder ≤ fuel) (h0 : remainder = 0 → k = 0) (h2 : remainder ≠ 0 → 2 ≤ start)
    (hs : size = k * w.sb.clusterSize) :
    Wp E (fragmentsLoop b fuel (start + k) start size remainder) w fun r v =>
      r.1 = true ∧ Covers w.sb w.dev start size L remainder r.2 ∧ ∃ t, v = w.ticked t := by
  induction fuel generalizing w start k size remainder L with
  | zero =>
    obtain rfl : remainder = 0 := by omega
    obtain rfl : size = 0 := by rw [hs, h0 rfl, Nat.zero_mul]
    exact ⟨rfl, covers_nil, w.tick, rfl⟩
  | succ fuel ih =>
    by_cases hrem : remainder = 0
    · subst hrem
      obtain rfl : size = 0 := by rw [hs, h0 rfl, Nat.zero_mul]
      exact ⟨rfl, covers_nil, w.tick, rfl⟩
    cases L with
    | nil => exact absurd hr (by simp; omega)
    | cons c L =>
      obtain ⟨rfl, hw⟩ := hw
      have hvc := hv (start + k) List.mem_cons_self
      have hc := clusterInvalid_false.mp hvc
      have hsz := clusterSize_pos w.sb
      have hstart := h2 hrem
      simp only [fragmentsLoop, if_neg hrem, wp_bind, wp_get, hvc, Bool.false_eq_true, if_false]
      refine after_ret (exfatNextCluster_spec hq b hc.1) fun t => ?_
      have hrest : remainder - min w.sb.clusterSize remainder ≤ L.length * w.sb.clusterSize := by
        rw [List.length_cons, Nat.add_mul, Nat.one_mul] at hr
        omega
      have hvL : ∀ c ∈ L, w.sb.clusterInvalid c = false := fun c hcL =>
        hv c (List.mem_cons_of_mem _ hcL)
      -- a cluster that is still needed is valid
      have hnext : remainder - min w.sb.clusterSize remainder ≠ 0 →
          2 ≤ link w.sb w.dev b (start + k) := by
        intro hne
        cases L with
        | nil => exact absurd hrest (by simp; omega)
        | cons x L =>
          obtain ⟨rfl, -⟩ := hw
          exact (clusterInvalid_false.mp (hvL _ List.mem_cons_self)).1
      split
      · rename_i hprint
        simp only [wp_bind]
        refine after_ret (exfatC2o_spec hstart) fun t' => ?_
        simp only [World.ticked_ticked]
        refine (ih (w := w.ticked t') (k := 0) hcount hw hvL hrest (by omega) (fun _ => rfl) hnext
          (Nat.zero_mul _).symm).mono ?_
        rintro ⟨ok, frags⟩ v ⟨hok, hcov, t'', rfl⟩
        refine ⟨hok, hcov.print hstart hs hrem fun hne => ⟨hnext hne, fun he => ?_⟩, t'', rfl⟩
        have hlt : link w.sb w.dev b (start + k) < 2 ^ 32 := link_lt b (start + k)
        rw [he] at hlt
        rcases hprint with hp | hp
        · exact hp (he.trans (Nat.mod_eq_of_lt hlt).symm)
        · exact hne hp
      · rename_i hprint
        obtain ⟨hp, hne⟩ := not_or.mp hprint
        have hx := not_not.mp hp
        have hx2 := hnext hne
        have hsucc : link w.sb w.dev b (start + k) = start + (k + 1) := by
          rw [hx] at hx2 ⊢
          omega
        rw [hsucc] at hw
        have hlsize : min w.sb.clusterSize remainder = w.sb.clusterSize := by omega
        rw [hsucc]
        refine (ih (w := w.ticked t) (k := k + 1) hcount hw hvL hrest (by omega)
          (fun h => absurd h hne) (fun _ => hstart) (by rw [hlsize, hs, Nat.succ_mul]; rfl)).mono ?_
        rintro ⟨ok, frags⟩ v ⟨hok, hcov, t'', rfl⟩
        exact ⟨hok, hcov.extend hstart hs hne, t'', rfl⟩

/-- Seeking to the start of a node gives its first cluster. -/
theorem exfatAdvanceCluster_start {id : NodeId} (hn : w.nodes id = some n)
    (hf : n.fptrIndex = 0 → n.fptrCluster = n.startCluster) :
    Wp E (exfatAdvanceCluster id 0) w fun c v =>
      c = n.startCluster ∧ v = w.setNode id (n.seek 0 n.startCluster) := by
  simp only [exfatAdvanceCluster, wp_bind, wp_getNode hn]
  by_cases h0 : n.fptrIndex = 0
  · simp only [h0, gt_iff_lt, Nat.lt_irrefl, if_false, Nat.sub_self, advanceLoop, wp_pure,
      wp_modifyNode hn, hf h0]
    exact ⟨trivial, rfl⟩
  · simp only [gt_iff_lt, Nat.pos_of_ne_zero h0, if_true, Nat.sub_self, advanceLoop, wp_pure,
      wp_modifyNode hn]
    exact ⟨trivial, rfl⟩

/-- `exfat_generic_pread` of a whole node returns the data of its chain. -/
theorem exfatGenericPread_whole (hq : Env.Quiet) {id : NodeId} (hn : w.nodes id = some n)
    (hw : Walk (link w.sb w.dev n.isContiguous) n.startCluster L)
    (hv : ∀ c ∈ L, w.sb.clusterInvalid c = false) (hs : n.size ≤ L.length * w.sb.clusterSize)
    (hf : n.fptrIndex = 0 → n.fptrCluster = n.startCluster) :
    Wp E (exfatGenericPread id n.size 0) w fun r _ => r = .ok (fileData w.sb w.dev L 0 n.size) := by
  simp only [exfatGenericPread, wp_bind, wp_getNode hn]
  split
  · rename_i h0
    obtain h0 := Nat.le_zero.mp h0
    rw [h0]
    rfl
  · rename_i h0
    have hne : n.size ≠ 0 := by omega
    have hfirst : L[0]? = some n.startCluster := by
      cases L with
      | nil => exact absurd hs (by simp; omega)
      | cons c L => rw [hw.1]; rfl
    simp only [if_neg hne, wp_bind, wp_get, Nat.zero_div, Nat.zero_mod, Nat.sub_zero, Nat.min_self]
    refine (exfatAdvanceCluster_start hn hf).mono ?_
    rintro _ _ ⟨rfl, rfl⟩
    simp only [World.setNode_sb, hv _ (List.mem_of_getElem? hfirst), Bool.false_eq_true, if_false,
      wp_bind]
    refine after_ret (preadLoop_spec hq (w := w.setNode id (n.seek 0 n.startCluster)) hw hv _ 0
      n.startCluster 0 _ [] (fun _ => hfirst) (clusterSize_pos w.sb) le_rfl
      (by simpa using hs)) fun t => ?_
    simp only [wp_bind, wp_get, List.nil_append, World.setNode_sb, World.setNode_dev, Nat.zero_mul]
    split
    · simp only [exfatUpdateAtime, wp_bind, wp_timeNow]
      rw [wp_modifyNode (n := n.seek 0 n.startCluster) (by simp)]
      rfl
    · rfl

/-- The fragments printed for a file are the file, and none of them could be joined with the next. -/
theorem printFragments_reassembles (hq : Env.Quiet) (hcount : w.sb.clusterCount < 2 ^ 32)
    {id : NodeId} (hn : w.nodes id = some n) (hsize : n.size < 2 ^ 63)
    (hf : n.fptrIndex = 0 → n.fptrCluster = n.startCluster)
    (hw : Walk (link w.sb w.dev n.isContiguous) n.startCluster L)
    (hv : ∀ c ∈ L, w.sb.clusterInvalid c = false)
    (hl : divRoundUp n.size w.sb.clusterSize ≤ L.length) :
    ∃ frags v, printFragments id w = .ok ((true, frags), v) ∧
      (frags.map Prod.snd).sum = n.size ∧
      (∃ u, exfatGenericPread id n.size 0 w = .ok (.ok (assemble w.dev frags), u)) ∧
      frags.IsChain fun f g => ¬Touches f g := by
  have hr : n.size ≤ L.length * w.sb.clusterSize :=
    (le_divRoundUp_mul n.size (clusterSize_pos w.sb)).trans (Nat.mul_le_mul_right _ hl)
  have hstart : n.size ≠ 0 → 2 ≤ n.startCluster := by
    intro hne
    cases L with
    | nil => exact absurd hr (by simp; omega)
    | cons c L =>
      obtain ⟨rfl, -⟩ := hw
      exact (clusterInvalid_false.mp (hv _ List.mem_cons_self)).1
  have hprint : Wp (fun _ => False) (printFragments id) w fun r _ =>
      r.1 = true ∧ Covers w.sb w.dev n.startCluster 0 L n.size r.2 := by
    simp only [printFragments, wp_bind, wp_getNode hn, if_pos hsize]
    refine (fragmentsLoop_covers (k := 0) hq hcount hw hv hr le_rfl (fun _ => rfl) hstart
      (Nat.zero_mul _).symm).mono ?_
    rintro r v ⟨hok, hcov, -⟩
    exact ⟨hok, hcov⟩
  obtain ⟨⟨ok, frags⟩, v, hrun, hok, hcov⟩ := hprint.returns
  obtain ⟨r, u, hread, rfl⟩ := (exfatGenericPread_whole (E := fun _ => False) hq hn hw hv hr
    hf).returns
  obtain rfl : ok = true := hok
  have htotal := hcov.total
  rw [Nat.zero_add] at htotal
  refine ⟨frags, v, hrun, htotal, ⟨u, ?_⟩, hcov.apart⟩
  rw [hread, hcov.data]
  rfl

end

/-- A file of 1500 bytes in clusters 2, 3 and 5. -/
def splitFile : Node := { references := 1, startCluster := 2, fptrCluster := 2, size := 1500 }

def splitVolume : World where
  dev := ((Store.write (fun _ => 0) (fatOffset smallSb 2) (toLe 4 3)).write (fatOffset smallSb 3)
    (toLe 4 5)).write (fatOffset smallSb 5) (toLe 4 exfatClusterEnd)
  sb := smallSb
  nodes := fun i => if i = 1 then some splitFile else none

theorem printFragments_reassembles_split : ∃ frags v,
    @printFragments calmEnv 1 splitVolume = .ok ((true, frags), v) ∧
      (frags.map Prod.snd).sum = 1500 ∧
      (∃ u, @exfatGenericPread calmEnv 1 1500 0 splitVolume =
        .ok (.ok (assemble splitVolume.dev frags), u)) ∧
      frags.IsChain fun f g => ¬Touches f g := by
  let _ := calmEnv
  have hwalk : Walk (link smallSb splitVolume.dev false) 2 [2, 3, 5] :=
    ⟨rfl, by decide +kernel, by decide +kernel, trivial⟩
  exact printFragments_reassembles (n := splitFile) (L := [2, 3, 5]) calmEnv_quiet (by decide) rfl
    (by decide) (fun _ => rfl) hwalk (by decide) (by decide)

end Proofs

end Exfat
