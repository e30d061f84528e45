import Exfat.Proofs.NoSpace
import Exfat.Proofs.Slots

namespace Exfat
open Lib

/-! The entries `find_slot` returns: which of them may be live on disk. -/

/-- The number of entries at the end of a directory that no child occupies, up to `n` of them. -/
def trailing (taken : Nat → Bool) : Nat → Nat → Nat
  | _, 0 => 0
  | 0, _ + 1 => 0
  | total + 1, n + 1 => if taken total then 0 else trailing taken total n + 1

namespace Proofs

variable {E : Halt → Prop} {w v : World} {m : Node} {L : List Nat} {dir : NodeId}
  {taken : Nat → Bool} {total n k c : Nat} {bits : Nat → Bool} {kids : NodeId → List NodeId}

/-- `n` entries from `k` on that no child occupies. -/
def Gap (taken : Nat → Bool) (total n k : Nat) : Prop :=
  k + n ≤ total ∧ ∀ j, k ≤ j → j < k + n → taken j = false

/-- Entry `j` of a directory has the valid bit on disk. -/
def live (w : World) (L : List Nat) (j : Nat) : Bool :=
  (w.dev (filePos w.sb L (entrySize * j))).toNat &&& exfatEntryValid ≠ 0

/-- The free entries at the end, of which the first is preceded by a child or by the start. -/
theorem trailing_eq (hct : c ≤ total) (hcn : c ≤ n)
    (hfree : ∀ j, total - c ≤ j → j < total → taken j = false)
    (hstop : c < n → c < total → taken (total - c - 1) = true) : trailing taken total n = c := by
  induction n generalizing total c with
  | zero =>
    rw [trailing]
    omega
  | succ n ih =>
    cases total with
    | zero =>
      rw [trailing]
      omega
    | succ total =>
      cases c with
      | zero =>
        have := hstop (by omega) (by omega)
        rw [trailing, if_pos (by simpa using this)]
      | succ c =>
        have hlast := hfree total (by omega) (by omega)
        rw [trailing, hlast]
        simp only [Bool.false_eq_true, if_false, Nat.add_right_cancel_iff]
        refine ih (by omega) (by omega) (fun j h1 h2 => hfree j (by omega) (by omega)) fun h1 h2 => ?_
        have := hstop (by omega) (by omega)
        rwa [show total + 1 - (c + 1) - 1 = total - c - 1 by omega] at this

theorem trailing_le (taken : Nat → Bool) (total n : Nat) :
    trailing taken total n ≤ total ∧ trailing taken total n ≤ n := by
  induction n generalizing total with
  | zero => simp [trailing]
  | succ n ih =>
    cases total with
    | zero => simp [trailing]
    | succ total =>
      have := ih total
      rw [trailing]
      split <;> omega

/-- How the search ends: at the first gap that `check_slot` finds good, or with the free entries at
the end. -/
def Searched (taken : Nat → Bool) (good bad : Nat → Prop) (noisy : Prop) (total n : Nat) :
    Search → Prop
  | .found o => ∃ k, o = k * entrySize ∧ Gap taken total n k ∧ good k ∧
      ∀ k' < k, Gap taken total n k' → bad k'
  | .failed _ => noisy
  | .exhausted c o => c = trailing taken total (n - 1) ∧ (c ≠ 0 → o = (total - c) * entrySize) ∧
      ∀ k, Gap taken total n k → bad k

/-- A search that moves its start ahead has fuel left. -/
theorem searchFuel_lt {s t fuel : Nat} (hst : s < t) (ht : t ≤ total) (hc : c < n)
    (hf : (total - s) * (n + 1) - c < fuel + 1) : (total - t) * (n + 1) - 0 < fuel := by
  have hmul := Nat.mul_le_mul_right (n + 1) (show total - t + 1 ≤ total - s by omega)
  rw [Nat.succ_mul] at hmul
  omega

section
variable [Env]

/-- The search loop looks at every gap once, from the first on, and comes to an end. -/
theorem slotLoop_exact {P : World → Prop} {good bad : Nat → Prop} {noisy : Prop}
    {fuel i off : Nat}
    (hcheck : ∀ v k, P v → Gap taken total n k →
      Wp E (checkSlot dir (k * entrySize) n) v fun rc u => P u ∧
        (rc = .ok ∧ good k ∨ rc = .err .einval ∧ bad k ∨ rc = .err .eio ∧ noisy))
    (hw : P w) (hc : c < n) (hci : c ≤ i) (hit : i ≤ total)
    (ho : c ≠ 0 → off = (i - c) * entrySize)
    (hf : ∀ j, i - c ≤ j → j < i → taken j = false)
    (hstart : i - c = 0 ∨ taken (i - c - 1) = true ∨ i - c - 1 + n ≤ total)
    (hbad : ∀ k < i - c, Gap taken total n k → bad k)
    (hfuel : (total - (i - c)) * (n + 1) - c < fuel) :
    Wp E (slotLoop dir taken total n fuel i c off) w fun r u =>
      P u ∧ Searched taken good bad noisy total n r := by
  induction fuel generalizing w i c off with
  | zero => omega
  | succ fuel ih =>
    unfold slotLoop
    split
    · obtain rfl : i = total := by omega
      refine ⟨hw, (trailing_eq hci (by omega) hf fun h1 h2 => ?_).symm, ho, fun k hk => ?_⟩
      · rcases hstart with h | h | h
        · omega
        · exact h
        · omega
      · exact hbad k (by have := hk.1; omega) hk
    · rename_i hi
      split
      · rename_i ht
        refine ih hw (by omega) (by omega) (by omega) (fun h0 => absurd rfl h0)
          (fun j h1 h2 => by omega) (Or.inr (Or.inl (by simpa using ht))) (fun k hk hgap => ?_) ?_
        · by_cases hki : k < i - c
          · exact hbad k hki hgap
          · have := hgap.2 i (by omega) (by omega)
            rw [this] at ht
            cases ht
        · exact searchFuel_lt (show i - c < i + 1 by omega) (by omega) hc hfuel
      · rename_i hd
        have hoff : (if c = 0 then i * entrySize else off) = (i - c) * entrySize := by
          split
          · rename_i h0
            simp [h0]
          · rename_i h0
            exact ho h0
        have hfree : ∀ j, i - c ≤ j → j < i + 1 → taken j = false := by
          intro j h1 h2
          by_cases hj : j = i
          · subst hj
            simpa using hd
          · exact hf j h1 (by omega)
        dsimp only
        rw [hoff]
        split
        · rename_i hcn
          have hgap : Gap taken total n (i - c) :=
            ⟨by omega, fun j h1 h2 => hfree j h1 (by omega)⟩
          simp only [wp_bind]
          refine (hcheck w (i - c) hw hgap).mono ?_
          rintro rc u ⟨hu, ⟨rfl, hgood⟩ | ⟨rfl, hb⟩ | ⟨rfl, hno⟩⟩
          · exact ⟨hu, i - c, rfl, hgap, hgood, hbad⟩
          · -- the slot at `i - c` is occupied: back to the entry after its first one
            have hback : i - (c + 1 - 1) + 1 = i - c + 1 := by omega
            dsimp only
            rw [hback]
            refine ih hu (by omega) (by omega) (by omega) (fun h0 => absurd rfl h0)
              (fun j h1 h2 => by omega) (Or.inr (Or.inr ?_)) (fun k hk hg => ?_) ?_
            · have := hgap.1
              omega
            · by_cases hki : k < i - c
              · exact hbad k hki hg
              · rwa [show k = i - c by omega]
            · exact searchFuel_lt (show i - c < i - c + 1 by omega) (by omega) hc hfuel
          · exact ⟨hu, hno⟩
        · rename_i hcn
          have hs : i + 1 - (c + 1) = i - c := by omega
          refine ih hw (by omega) (by omega) (by omega) (fun _ => ?_) ?_ ?_ ?_ ?_
          · rw [hs]
          · rw [hs]
            exact hfree
          · rwa [hs]
          · rwa [hs]
          · rw [hs]
            have hpos : 1 ≤ total - (i - c) := by omega
            have := Nat.mul_le_mul_right (n + 1) hpos
            omega

omit [Env] in
/-- No entry from `k` on is live, `n` entries long. -/
def NoneLive (w : World) (L : List Nat) (k n : Nat) : Prop :=
  ∀ j, k ≤ j → j < k + n → live w L j = false

omit [Env] in
/-- Only the file pointer of a directory was moved along its chain. -/
def Sought (w : World) (dir : NodeId) (m : Node) (L : List Nat) (v : World) : Prop :=
  ∃ k c t, v = (w.setNode dir (m.seek k c)).ticked t ∧ Chained w.sb w.dev (m.seek k c) L ∧
    (L = [] → m.seek k c = m)

omit [Env] in
theorem Sought.refl (hd : w.nodes dir = some m) (hc : Chained w.sb w.dev m L) (t : Nat) :
    Sought w dir m L (w.ticked t) :=
  ⟨m.fptrIndex, m.fptrCluster, t, by
    rw [show m.seek m.fptrIndex m.fptrCluster = m from rfl, World.setNode_eq w hd], hc,
    fun _ => rfl⟩

omit [Env] in
/-- The types `check_slot` reads. -/
theorem entryTypes_live {off : Nat} (hoff : off = entrySize * k) :
    ((entryTypes (fileData w.sb w.dev L off (entrySize * n)) n).any
      fun t => t &&& exfatEntryValid ≠ 0) = false ↔ NoneLive w L k n := by
  have htype : ∀ i < n, entryType (fileData w.sb w.dev L off (entrySize * n)) i =
      (w.dev (filePos w.sb L (entrySize * (k + i)))).toNat := by
    intro i hi
    rw [entryType, fileData_getD (by simp only [entrySize]; omega), hoff, ← Nat.mul_add]
  rw [List.any_eq_false]
  constructor
  · intro h j h1 h2
    have := h _ (List.mem_map.mpr ⟨j - k, List.mem_range.mpr (by omega), rfl⟩)
    rw [htype _ (by omega), Nat.add_sub_cancel' h1] at this
    simpa [live] using this
  · intro h t ht
    obtain ⟨i, hi, rfl⟩ := List.mem_map.mp ht
    rw [List.mem_range] at hi
    rw [htype i hi]
    simpa [live] using h (k + i) (by omega) (by omega)

/-- `check_slot` inside a directory: in the root it tells whether an entry is live. -/
theorem checkSlot_exact (hq : Env.Quiet) (hg : Geometry w.sb) (hdir : m.isDir = true)
    (hs : m.size = L.length * w.sb.clusterSize) (hn : 0 < n) (hv : Sought w dir m L v)
    (hk : (k + n) * entrySize ≤ m.size) :
    Wp E (checkSlot dir (k * entrySize) n) v fun rc u => Sought w dir m L u ∧
      (rc = .ok ∧ (dir = w.root → NoneLive w L k n) ∨
        rc = .err .einval ∧ ¬(dir = w.root → NoneLive w L k n) ∨ rc = .err .eio ∧ False) := by
  obtain ⟨i, x, t, rfl, hc, hnil⟩ := hv
  simp only [checkSlot, wp_bind, wp_get]
  split
  · rename_i hr
    exact ⟨⟨i, x, t, rfl, hc, hnil⟩, Or.inl ⟨rfl, fun h => absurd h hr⟩⟩
  · rename_i hr
    have hroot : dir = w.root := not_not.mp hr
    have hin : k * entrySize + entrySize * n ≤ m.size := by
      simp only [entrySize] at hk ⊢
      omega
    have hlt : k * entrySize < L.length * w.sb.clusterSize := by
      simp only [entrySize] at hk ⊢
      omega
    obtain ⟨y, hy, -⟩ := exists_cluster hlt
    simp only [wp_bind]
    refine after_ret (readEntries_spec (w := (w.setNode dir (m.seek i x)).ticked t) hq hg.count
      (World.setNode_self _ _ _) hdir hc hs.le hn hin hy) fun t' => ?_
    have hlive := entryTypes_live (w := w) (L := L) (n := n) (Nat.mul_comm k entrySize)
    have hsought : Sought w dir m L ((w.setNode dir (m.seek (k * entrySize / w.sb.clusterSize) y)).ticked
        t') := ⟨_, y, t', rfl, hc.advanced hy, fun h0 => by simp [h0] at hy⟩
    dsimp only
    split
    · rename_i hany
      refine ⟨?_, Or.inr (Or.inl ⟨rfl, fun h => ?_⟩)⟩
      · simpa using hsought
      · exact absurd (hany.symm.trans (hlive.mpr (h hroot))) (by decide)
    · rename_i hany
      refine ⟨?_, Or.inl ⟨rfl, fun _ => hlive.mp ?_⟩⟩
      · simpa using hsought
      · exact Bool.not_eq_true _ ▸ hany

omit [Env] in
/-- There is room to extend a directory to a size. -/
structure Extendable (w : World) (bits : Nat → Bool) (m : Node) (L : List Nat) (size : Nat) :
    Prop where
  referenced : Referenced m
  narrow : divRoundUp size w.sb.clusterSize < 2 ^ 32
  fits : bytes2clusters w.sb size ≤ L.length + (freeSet bits w.sb.clusterCount).card
  safe : ¬(TrappedLast bits w.sb.clusterCount m L ∧ bytes2clusters w.sb size = 2)

omit [Env] in
theorem extendable_seek {size x : Nat} (hsb : v.sb = w.sb) :
    Extendable v bits (m.seek k x) L size ↔ Extendable w bits m L size := by
  constructor
  · rintro ⟨h1, h2, h3, h4⟩
    rw [hsb] at h2 h3 h4
    exact ⟨h1, h2, h3, h4⟩
  · rintro ⟨h1, h2, h3, h4⟩
    rw [← hsb] at h2 h3 h4
    exact ⟨h1, h2, h3, h4⟩

/-- With room, `exfat_truncate` extends the directory. -/
theorem Counted.extends (hq : Env.Quiet) {size : Nat} (h : Counted w bits dir m L)
    (hs : m.size < size) (hx : Extendable w bits m L size) :
    Wp E (exfatTruncate dir size true) w fun rc v =>
      rc = .ok ∧ ∃ m', v.nodes dir = some m' ∧ m'.size = size := by
  refine (h.gap hq hx.referenced hs hx.narrow hx.fits hx.safe).mono ?_
  rintro rc v ⟨hrc, m', bits', K, hcount, hsize, -⟩
  exact ⟨hrc, m', hcount.node, hsize⟩

/-- Without room it does not return 0. -/
theorem Counted.not_extends (hq : Env.Quiet) {size : Nat} (h : Counted w bits dir m L)
    (hlen : L.length = divRoundUp m.size w.sb.clusterSize) (hs : m.size < size)
    (hends : m.isContiguous = false → ∀ c, L.getLast? = some c →
      fat w.sb w.dev c = exfatClusterEnd)
    (hx : ¬Extendable w bits m L size) :
    Wp (fun _ => True) (exfatTruncate dir size true) w fun rc _ => rc ≠ .ok := by
  by_cases href : Referenced m
  · by_cases hfit : bytes2clusters w.sb size ≤ L.length + (freeSet bits w.sb.clusterCount).card
    · refine h.gap_fails hq hs hlen hfit (fun _ => hends) ?_
      by_contra hcase
      rw [not_or, Nat.not_le] at hcase
      exact hx ⟨href, hcase.1, hfit, hcase.2⟩
    · refine (h.fails hq href (Nat.lt_of_not_le hfit) true).mono ?_
      rintro rc v ⟨rfl, -⟩
      exact nofun
  · exact exfatTruncate_unreferenced h.node href

omit [Env] in
/-- A cached directory of whole clusters on a chain of its own, in a well-formed tree. -/
structure SlotDir (w : World) (kids : NodeId → List NodeId) (bits : Nat → Bool) (dir : NodeId)
    (m : Node) (L : List Nat) : Prop where
  tree : TreeWF w kids
  counted : Counted w bits dir m L
  isDir : m.isDir = true
  isCached : m.isCached = true
  size : m.size = L.length * w.sb.clusterSize
  ends : m.isContiguous = false → ∀ c, L.getLast? = some c → fat w.sb w.dev c = exfatClusterEnd

omit [Env] in
/-- The entries the children of a directory occupy. -/
def takenBy (w : World) (kids : NodeId → List NodeId) (dir : NodeId) : Nat → Bool :=
  slotTaken ((kids dir).filterMap w.nodes)

omit [Env] in
/-- `find_slot` accepts a gap: in the root it has looked at the entries. -/
def Accepts (w : World) (kids : NodeId → List NodeId) (dir : NodeId) (m : Node) (L : List Nat)
    (n k : Nat) : Prop :=
  Gap (takenBy w kids dir) (m.size / entrySize) n k ∧ (dir = w.root → NoneLive w L k n)

omit [Env] in
/-- The free entries at the end of a directory that `find_slot` starts from when it extends it. -/
def slotTail (w : World) (kids : NodeId → List NodeId) (dir : NodeId) (m : Node) (n : Nat) : Nat :=
  trailing (takenBy w kids dir) (m.size / entrySize) (n - 1)

omit [Env] in
/-- The size `find_slot` extends a directory to. -/
def slotSize (w : World) (kids : NodeId → List NodeId) (dir : NodeId) (m : Node) (n : Nat) : Nat :=
  roundUp (m.size + entrySize * (n - slotTail w kids dir m n)) w.sb.clusterSize

omit [Env] in
theorem SlotDir.size_entries (h : SlotDir w kids bits dir m L) :
    m.size / entrySize * entrySize = m.size := by
  have hsec := h.counted.geometry.sector
  refine Nat.div_mul_cancel ?_
  rw [h.size, SuperBlock.clusterSize, SuperBlock.sectorSize]
  refine Dvd.dvd.mul_left (Dvd.dvd.mul_right ?_ _) _
  exact Nat.pow_dvd_pow 2 (show 5 ≤ w.sb.sectorBits by omega)

/-- The search of `find_slot`. -/
theorem SlotDir.search (hq : Env.Quiet) (h : SlotDir w kids bits dir m L) (hn : 0 < n)
    (hv : Sought w dir m L v) :
    Wp E (slotLoop dir (takenBy w kids dir) (m.size / entrySize) n
      ((m.size / entrySize + 1) * (n + 1) + 1) 0 0 0) v fun r u => Sought w dir m L u ∧
      Searched (takenBy w kids dir) (fun k => dir = w.root → NoneLive w L k n)
        (fun k => ¬(dir = w.root → NoneLive w L k n)) False (m.size / entrySize) n r := by
  have hsize := h.size_entries
  refine slotLoop_exact (fun v k hv hk => ?_) hv hn le_rfl (Nat.zero_le _)
    (fun h0 => absurd rfl h0) (fun j _ hj => by omega) (Or.inl rfl) (fun k hk => by omega) ?_
  · have := Nat.mul_le_mul_right entrySize hk.1
    exact checkSlot_exact hq h.counted.geometry h.isDir h.size hn hv (by omega)
  · rw [Nat.sub_self, Nat.sub_zero, Nat.sub_zero, Nat.add_one_mul]
    omega

/-- What `find_slot` does after its search. -/
theorem SlotDir.findSlot (hq : Env.Quiet) (h : SlotDir w kids bits dir m L) (hn : 0 < n)
    {Q : Rc × Nat → World → Prop}
    (hfound : ∀ k u, Accepts w kids dir m L n k → (∀ k' < k, ¬Accepts w kids dir m L n k') →
      Sought w dir m L u → Q (.ok, k * entrySize) u)
    (hend : (∀ k, ¬Accepts w kids dir m L n k) → ∀ u, Sought w dir m L u →
      Wp E (exfatTruncate dir (slotSize w kids dir m n) true) u fun rc v =>
        Q (rc, (m.size / entrySize - slotTail w kids dir m n) * entrySize) v) :
    Wp E (findSlot dir n) w Q := by
  have hd := h.counted.node
  have hsize := h.size_entries
  have htree : Tree (w.ticked (w.tick + 1)) kids :=
    ⟨h.tree.bound, h.tree.root, h.tree.list, h.tree.nodup, h.tree.kid, h.tree.loose, h.tree.cached,
      h.tree.unlinked⟩
  have hnodes : ∀ i ∈ kids dir, ∃ m, (w.ticked (w.tick + 1)).nodes i = some m := fun i hi =>
    let ⟨m, hm, _⟩ := htree.kid_node hi
    ⟨m, hm⟩
  simp only [Exfat.findSlot, wp_bind, wp_getNode hd, h.isCached, Bool.not_true, Bool.false_eq_true,
    if_false, wp_mallocOk hq]
  refine (htree.children hd).mono ?_
  rintro _ _ ⟨rfl, rfl⟩
  refine (getNodes_spec hnodes).mono ?_
  rintro _ _ ⟨rfl, rfl⟩
  refine (h.search hq hn (Sought.refl hd h.counted.chained _)).mono ?_
  rintro r u ⟨hu, hr⟩
  cases r with
  | failed e => exact hr.elim
  | found o =>
    obtain ⟨k, rfl, hgap, hgood, hfirst⟩ := hr
    exact hfound k u ⟨hgap, hgood⟩ (fun k' hk' ha => hfirst k' hk' ha.1 ha.2) hu
  | exhausted c o =>
    obtain ⟨rfl, ho, hnone⟩ := hr
    have hwp := hend (fun k ha => hnone k ha.1 ha.2) u hu
    have hoff : (if slotTail w kids dir m n = 0 then m.size else o) =
        (m.size / entrySize - slotTail w kids dir m n) * entrySize := by
      split
      · rename_i h0
        rw [h0, Nat.sub_zero, hsize]
      · rename_i h0
        exact ho h0
    obtain ⟨k, x, t, rfl, -⟩ := hu
    simp only [wp_bind]
    refine (wp_getNode (n := m.seek k x) (by simp)).mpr ?_
    rw [← hoff] at hwp
    exact hwp

omit [Env] in
/-- A slot inside a directory, none of whose entries was live. -/
structure SlotFree (w v : World) (dir : NodeId) (m : Node) (L : List Nat) (n off : Nat) : Prop where
  inside : ∃ m', v.nodes dir = some m' ∧ off + entrySize * n ≤ m'.size
  dead : ∀ j, off ≤ entrySize * j → entrySize * j < off + entrySize * n → entrySize * j < m.size →
    live w L j = false

omit [Env] in
/-- The condition under which `find_slot` returns no live entry: the first gap it accepts has none,
and where it has to extend the directory and can, the free entries at the end have none. -/
def SlotSafe (w : World) (kids : NodeId → List NodeId) (bits : Nat → Bool) (dir : NodeId) (m : Node)
    (L : List Nat) (n : Nat) : Prop :=
  (∀ k, Accepts w kids dir m L n k → (∀ k' < k, ¬Accepts w kids dir m L n k') →
    NoneLive w L k n) ∧
  ((∀ k, ¬Accepts w kids dir m L n k) → Extendable w bits m L (slotSize w kids dir m n) →
    NoneLive w L (m.size / entrySize - slotTail w kids dir m n) (slotTail w kids dir m n))

omit [Env] in
theorem Counted.sought {u : World} (h : Counted w bits dir m L) (hu : Sought w dir m L u) :
    ∃ k x, Counted u bits dir (m.seek k x) L ∧ u.sb = w.sb ∧ u.dev = w.dev := by
  obtain ⟨k, x, t, rfl, hch, hnil⟩ := hu
  refine ⟨k, x, ⟨by simp, h.geometry, h.mapped.congr rfl rfl, h.last, hch, h.count, h.allocated,
    fun h0 => ?_⟩, rfl, rfl⟩
  rw [hnil h0]
  exact h.empty h0

/-- Where there is a gap to accept, `find_slot` returns the first one. -/
theorem SlotDir.found (hq : Env.Quiet) (h : SlotDir w kids bits dir m L) (hn : 0 < n)
    (hacc : ∃ k, Accepts w kids dir m L n k) :
    Wp E (Exfat.findSlot dir n) w fun r v => ∃ k, Accepts w kids dir m L n k ∧
      (∀ k' < k, ¬Accepts w kids dir m L n k') ∧ r = (.ok, k * entrySize) ∧
      ∃ m', v.nodes dir = some m' ∧ m'.size = m.size := by
  refine h.findSlot hq hn (fun k u hk hfirst hu => ?_) fun hnone => ?_
  · obtain ⟨i, x, t, rfl, -⟩ := hu
    exact ⟨k, hk, hfirst, rfl, m.seek i x, by simp, rfl⟩
  · obtain ⟨k, hk⟩ := hacc
    exact absurd hk (hnone k)

omit [Env] in
theorem SlotDir.slotSize_gt (h : SlotDir w kids bits dir m L) (hn : 0 < n) :
    m.size < slotSize w kids dir m n ∧
      (m.size / entrySize - slotTail w kids dir m n) * entrySize + entrySize * n ≤
        slotSize w kids dir m n := by
  have hsize := h.size_entries
  have htail := trailing_le (takenBy w kids dir) (m.size / entrySize) (n - 1)
  have hup := le_roundUp (m.size + entrySize * (n - slotTail w kids dir m n))
    (clusterSize_pos w.sb)
  change slotTail w kids dir m n ≤ _ ∧ slotTail w kids dir m n ≤ _ at htail
  change _ ≤ slotSize w kids dir m n at hup
  simp only [entrySize] at hsize hup htail ⊢
  omega

omit [Env] in
theorem SlotDir.length (h : SlotDir w kids bits dir m L) :
    L.length = divRoundUp m.size w.sb.clusterSize := by
  rw [h.size, divRoundUp, Nat.add_sub_assoc (clusterSize_pos w.sb),
    Nat.mul_comm, Nat.mul_add_div (clusterSize_pos w.sb),
    Nat.div_eq_of_lt (Nat.sub_lt (clusterSize_pos w.sb) Nat.one_pos), Nat.add_zero]

/-- Without such a gap and with room, it extends the directory and returns the end of it. -/
theorem SlotDir.extended (hq : Env.Quiet) (h : SlotDir w kids bits dir m L) (hn : 0 < n)
    (hnone : ∀ k, ¬Accepts w kids dir m L n k)
    (hx : Extendable w bits m L (slotSize w kids dir m n)) :
    Wp E (Exfat.findSlot dir n) w fun r v =>
      r = (.ok, (m.size / entrySize - slotTail w kids dir m n) * entrySize) ∧
      ∃ m', v.nodes dir = some m' ∧ m'.size = slotSize w kids dir m n := by
  refine h.findSlot hq hn (fun k u hk => absurd hk (hnone k)) fun _ u hu => ?_
  obtain ⟨k, x, hcount, hsb, -⟩ := h.counted.sought hu
  refine (hcount.extends hq (h.slotSize_gt hn).1 ((extendable_seek hsb).mpr hx)).mono ?_
  rintro rc v ⟨rfl, hv⟩
  exact ⟨rfl, hv⟩

/-- Without such a gap and without room, it does not return 0. -/
theorem SlotDir.full (hq : Env.Quiet) (h : SlotDir w kids bits dir m L) (hn : 0 < n)
    (hnone : ∀ k, ¬Accepts w kids dir m L n k)
    (hx : ¬Extendable w bits m L (slotSize w kids dir m n)) :
    Wp (fun _ => True) (Exfat.findSlot dir n) w fun r _ => r.1 ≠ .ok := by
  refine h.findSlot hq hn (fun k u hk => absurd hk (hnone k)) fun _ u hu => ?_
  obtain ⟨k, x, hcount, hsb, hdev⟩ := h.counted.sought hu
  refine hcount.not_extends hq ?_ (h.slotSize_gt hn).1 ?_ ((extendable_seek hsb).not.mpr hx)
  · rw [hsb]
    exact h.length
  · rw [hsb, hdev]
    exact h.ends

/-- A slot that `find_slot` returns holds no live entry exactly under `SlotSafe`, and its search
comes to an end. -/
theorem findSlot_free_iff (hq : Env.Quiet) (h : SlotDir w kids bits dir m L) (hn : 0 < n) :
    (∃ r u, slotLoop dir (takenBy w kids dir) (m.size / entrySize) n
      ((m.size / entrySize + 1) * (n + 1) + 1) 0 0 0 w = .ok (r, u)) ∧
    ((∀ off v, findSlot dir n w = .ok ((.ok, off), v) → SlotFree w v dir m L n off) ↔
      SlotSafe w kids bits dir m L n) := by
  refine ⟨?_, ?_⟩
  · obtain ⟨r, u, hrun, -⟩ := (h.search hq hn
      (Sought.refl h.counted.node h.counted.chained w.tick)).returns
    exact ⟨r, u, hrun⟩
  have hsize := h.size_entries
  by_cases hacc : ∃ k, Accepts w kids dir m L n k
  · obtain ⟨r, v, hrun, k, hk, hfirst, rfl, m', hm', hsz⟩ := (h.found hq hn hacc).returns
    have hin := hk.1.1
    simp only [entrySize] at hsize hin
    constructor
    · intro hfree
      refine ⟨fun k' hk' hfirst' j h1 h2 => ?_, fun hnone => absurd hk (hnone k)⟩
      obtain rfl : k' = k := by
        rcases Nat.lt_trichotomy k' k with hlt | heq | hlt
        · exact absurd hk' (hfirst k' hlt)
        · exact heq
        · exact absurd hk (hfirst' k hlt)
      refine (hfree _ v hrun).dead j ?_ ?_ ?_ <;> simp only [entrySize] <;> omega
    · rintro hsafe off v' hrun'
      obtain ⟨hr, rfl⟩ := Prod.mk.inj (Except.ok.inj (hrun.symm.trans hrun'))
      obtain rfl : k * entrySize = off := (Prod.mk.inj hr).2
      refine ⟨⟨m', hm', ?_⟩, fun j h1 h2 h3 => hsafe.1 k hk hfirst j ?_ ?_⟩
      · rw [hsz]
        simp only [entrySize]
        omega
      · simp only [entrySize] at h1
        omega
      · simp only [entrySize] at h2
        omega
  have hnone : ∀ k, ¬Accepts w kids dir m L n k := not_exists.mp hacc
  by_cases hx : Extendable w bits m L (slotSize w kids dir m n)
  · obtain ⟨r, v, hrun, rfl, m', hm', hsz⟩ := (h.extended hq hn hnone hx).returns
    have htail := (trailing_le (takenBy w kids dir) (m.size / entrySize) (n - 1))
    change slotTail w kids dir m n ≤ _ ∧ slotTail w kids dir m n ≤ _ at htail
    constructor
    · intro hfree
      refine ⟨fun k hk => absurd hk (hnone k), fun _ _ j h1 h2 => ?_⟩
      simp only [entrySize] at hsize h1 h2 htail
      refine (hfree _ v hrun).dead j ?_ ?_ ?_ <;> simp only [entrySize] <;> omega
    · rintro hsafe off v' hrun'
      obtain ⟨hr, rfl⟩ := Prod.mk.inj (Except.ok.inj (hrun.symm.trans hrun'))
      obtain rfl := (Prod.mk.inj hr).2
      refine ⟨⟨m', hm', ?_⟩, fun j h1 h2 h3 => hsafe.2 hnone hx j ?_ ?_⟩
      · rw [hsz]
        exact (h.slotSize_gt hn).2
      · simp only [entrySize] at h1 ⊢
        omega
      · simp only [entrySize] at hsize h3 htail ⊢
        omega
  · constructor
    · exact fun _ => ⟨fun k hk => absurd hk (hnone k), fun _ hx' => absurd hx' hx⟩
    · intro _ off v hrun
      exact absurd rfl ((h.full hq hn hnone hx).run hrun)

end

/-- A root directory of one cluster. -/
def rootNode : Node :=
  { references := 1, startCluster := 2, fptrCluster := 2, size := 512, attrib := exfatAttribDir
    isCached := true }

/-- A root directory without children: the bitmap and the upper case table come first, and the label
is its last entry. -/
def labelRoot : World where
  dev := ((((Store.write (fun _ => 0) (fatOffset smallSb 2) (toLe 4 exfatClusterEnd)).write 1024
    [0x81]).write 1056 [0x82]).write 1504 [0x83])
  sb := smallSb
  cmap := { startCluster := 9, size := 8, chunk := some fun i => decide (i < 1), chunkSize := 8 }
  nodes := fun i => if i = 0 then some rootNode else none
  fresh := 1

theorem labelRoot_nodes {i : NodeId} {n : Node} (h : labelRoot.nodes i = some n) :
    i = 0 ∧ n = rootNode := by
  simp only [labelRoot] at h
  split at h
  · exact ⟨‹_›, (Option.some.inj h).symm⟩
  · cases h

theorem labelRoot_links {f : Node → Option NodeId} (hf : f rootNode = none) (i : NodeId) :
    (labelRoot.nodes i).bind f = none := by
  cases h : labelRoot.nodes i with
  | none => rfl
  | some n =>
    rw [(labelRoot_nodes h).2]
    exact hf

theorem labelRoot_tree : TreeWF labelRoot fun _ => [] where
  bound := fun i hi => if_neg (Nat.pos_iff_ne_zero.mp hi)
  root := ⟨rootNode, rfl, rfl, rfl⟩
  list := labelRoot_links rfl
  nodup := fun _ => List.nodup_nil
  kid := fun d i => by
    have hp : parentOf labelRoot.nodes i = none := labelRoot_links rfl i
    simp [hp]
  loose := fun i _ => ⟨labelRoot_links rfl i, labelRoot_links rfl i⟩
  cached := fun d n hn _ => by
    rw [(labelRoot_nodes hn).2]
    decide
  unlinked := fun i n hn hu => by
    rw [(labelRoot_nodes hn).2] at hu
    cases hu
  uncached := fun _ _ _ _ => rfl

theorem labelRoot_dir : SlotDir labelRoot (fun _ => []) (fun i => decide (i < 1)) 0 rootNode [2] where
  tree := labelRoot_tree
  counted := ⟨rfl, ⟨by decide, by decide, by decide, by decide⟩,
    ⟨by decide, by decide, by decide, by decide, rfl⟩, by decide,
    ⟨⟨rfl, trivial⟩, by decide, by decide, fun _ => rfl⟩, by decide +kernel, by decide, nofun⟩
  isDir := by decide
  isCached := rfl
  size := by decide
  ends := fun _ c hc => by
    obtain rfl : c = 2 := by simpa using hc.symm
    decide +kernel

theorem findSlot_free_iff_labelRoot :
    SlotDir labelRoot (fun _ => []) (fun i => decide (i < 1)) 0 rootNode [2] ∧ ∀ off v,
      @findSlot calmEnv 0 3 labelRoot = .ok ((.ok, off), v) →
        SlotFree labelRoot v 0 rootNode [2] 3 off := by
  refine ⟨labelRoot_dir, ?_⟩
  refine (@findSlot_free_iff _ _ _ _ _ _ _ calmEnv calmEnv_quiet labelRoot_dir
    (by decide)).2.mpr ⟨fun k hk _ => hk.2 rfl, fun hnone => absurd ?_ (hnone 2)⟩
  refine ⟨⟨by decide, fun j _ _ => rfl⟩, fun _ j h1 h2 => ?_⟩
  interval_cases j <;> decide +kernel

/-- When the root has to be extended, the label at its end is overwritten. -/
theorem findSlot_returns_label :
    SlotDir labelRoot (fun _ => []) (fun i => decide (i < 1)) 0 rootNode [2] ∧
    ∃ r v, @findSlot calmEnv 0 14 labelRoot = .ok (r, v) ∧ r = (.ok, 96) ∧
      ¬SlotFree labelRoot v 0 rootNode [2] 14 96 := by
  refine ⟨labelRoot_dir, ?_⟩
  let _ := calmEnv
  obtain ⟨r, v, hrun, hp⟩ := returns_of_check (m := findSlot 0 14) (s := labelRoot)
    (p := fun r _ => decide (r = (.ok, 96))) (by decide +kernel)
  refine ⟨r, v, hrun, of_decide_eq_true hp, fun hfree => ?_⟩
  have hlabel : live labelRoot [2] 15 = true := by decide +kernel
  rw [hfree.dead 15 (by decide) (by decide) (by decide)] at hlabel
  cases hlabel

end Proofs

end Exfat
