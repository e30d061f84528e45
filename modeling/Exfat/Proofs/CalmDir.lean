import Exfat.Proofs.Calm
import Exfat.Proofs.Chain
import Exfat.Proofs.Entries

namespace Exfat
open Lib

/-! Calls on directories that leave the tree alone: reads and writes of entries inside a directory, and
`exfat_truncate`, which changes one size. -/

namespace Proofs

/-- The tree is the same, but one node may have got another size. -/
structure Resized (id : NodeId) (size : Nat) (w v : World) : Prop where
  skel : ∀ i, (v.nodes i).map Node.skel =
    (w.nodes i).map fun n => if i = id then { n.skel with size := size } else n.skel
  fresh : w.fresh ≤ v.fresh
  root : v.root = w.root
  upcase : ∀ u, w.upcase = some u → v.upcase = some u
  sb : v.sb = w.sb

variable [Env] {w : World}

omit [Env] in
theorem Calm.resized {v u : World} {id : NodeId} {size : Nat} (h : Calm w v)
    (h' : Resized id size v u) : Resized id size w u := by
  refine ⟨fun i => (h'.skel i).trans ?_, h.fresh.trans h'.fresh, h'.root.trans h.root,
    fun u hu => h'.upcase u (h.upcase u hu), h'.sb.trans h.sb⟩
  have hs := congrArg (Option.map fun n => if i = id then { n with size := size } else n) (h.skel i)
  simpa only [Option.map_map, Function.comp_def] using hs

/-- `exfat_truncate` changes the size of its node, and only if it returns zero. -/
theorem exfatTruncate_calm (id : NodeId) (size : Nat) (erase : Bool) :
    Wp (fun _ => True) (exfatTruncate id size erase) w fun rc v =>
      (rc ≠ .ok → Calm w v) ∧ (rc = .ok → Resized id size w v) := by
  simp only [exfatTruncate, wp_bind, wp_get]
  rw [wp_getNode_iff trivial]
  intro n hn
  split
  · trivial
  · split
    · rename_i hsize
      refine ⟨fun h => absurd rfl h, fun _ => ⟨fun i => ?_, le_rfl, rfl, fun _ h => h, rfl⟩⟩
      by_cases hi : i = id
      · subst hi
        simp [hn, Node.skel, hsize]
      · simp only [hi, if_false]
    · simp only [wp_bind]
      apply (calm_resizeChain _ _ _ w).mono
      intro rc v hv
      split
      · rename_i hrc
        exact ⟨fun _ => hv, fun h => absurd h hrc⟩
      · simp only [wp_bind]
        apply (calm_eraseNew _ _ _ _ v).mono
        intro rc u hu
        have hwu := Calm.trans _ _ _ hv hu
        split
        · rename_i hrc
          exact ⟨fun _ => hwu, fun h => absurd h hrc⟩
        · simp only [wp_bind]
          apply (calm_updateMtime _ u).mono
          intro _ x hx
          rw [wp_modifyNode_iff trivial]
          intro m hm
          refine ⟨fun h => absurd rfl h, fun _ => (Calm.trans _ _ _ hwu hx).resized
            ⟨fun i => ?_, le_rfl, rfl, fun _ h => h, rfl⟩⟩
          by_cases hi : i = id
          · subst hi
            simp [hm, Node.skel]
          · simp only [World.setNode_ne _ _ hi, hi, if_false]

/-- The loop returns as much as is asked for. -/
theorem preadLoop_length (b : Bool) {k c lo r : Nat} (buf : List UInt8) (hk : r ≤ k)
    (hlo : lo < w.sb.clusterSize) :
    Wp (fun _ => True) (preadLoop b k c lo r buf) w fun res _ =>
      ∀ bs, res = .ok bs → bs.length = buf.length + r := by
  induction k generalizing w c lo r buf with
  | zero =>
    rintro bs ⟨⟩
    omega
  | succ k ih =>
    simp only [preadLoop]
    split
    · rintro bs ⟨⟩
      omega
    · simp only [wp_bind, wp_get]
      split
      · simp
      · simp only [wp_bind]
        apply (calm_c2o c w).mono
        intro o v hv
        simp only [exfatPread, wp_bind, wp_nextTick]
        split
        · simp
        · simp only [wp_bind, wp_get, wp_pure]
          apply (calm_nextCluster _ _ _).mono
          intro x u hu
          apply (ih _ (by omega) (clusterSize_pos _)).mono
          intro res _ h bs hbs
          have hb := h bs hbs
          rw [List.length_append, Store.read_length] at hb
          omega

/-- Reading returns what is there of what is asked for. -/
theorem genericPread_length {id : NodeId} {n : Node} (hn : w.nodes id = some n) (k off : Nat) :
    Wp (fun _ => True) (exfatGenericPread id k off) w fun r _ =>
      (∀ bs, r = .ok bs → bs.length = min k (n.size - off)) := by
  simp only [exfatGenericPread, wp_bind]
  rw [wp_getNode hn]
  split
  · rintro bs ⟨⟩
    simp only [List.length_nil]
    omega
  · split
    · rintro bs ⟨⟩
      simp only [List.length_nil]
      omega
    · simp only [wp_bind, wp_get]
      apply (calm_advanceCluster _ _ w).mono
      intro c v hv
      split
      · simp
      · simp only [wp_bind]
        apply (preadLoop_length _ _ le_rfl (hv.sb ▸ Nat.mod_lt _ (clusterSize_pos _))).mono
        intro res u hres
        cases res with
        | error e => simp
        | ok bs =>
          have hbs := hres bs rfl
          simp only [List.length_nil, Nat.zero_add] at hbs
          simp only [wp_bind, wp_get]
          split
          · simp only [wp_bind]
            apply (calm_updateAtime _ _).mono
            rintro _ _ _ _ ⟨⟩
            exact hbs
          · rintro _ ⟨⟩
            exact hbs

/-- Entries that were read lie inside the directory, and entries inside it are found. -/
theorem readEntries_calm (dir : NodeId) (k off : Nat) :
    Wp (fun _ => True) (readEntries dir k off) w fun r v => Calm w v ∧
      (∀ bs, r = .ok bs → bs.length = entrySize * k ∧
        ∃ n, w.nodes dir = some n ∧ n.isDir = true ∧ (0 < k → off + entrySize * k ≤ n.size)) ∧
      ∀ e n, r = .error e → w.nodes dir = some n → 0 < k → off + entrySize * k ≤ n.size →
        e = .eio := by
  refine (calm_readEntries dir k off w).and ?_
  simp only [readEntries, wp_bind]
  rw [wp_getNode_iff trivial]
  intro n hn
  split
  · trivial
  · rename_i hd
    simp only [wp_bind]
    apply (genericPread_length hn _ _).mono
    intro res v hres
    cases res with
    | error e =>
      simp only [wp_pure]
      refine ⟨(fun _ h => by cases h), fun e' _ he _ _ _ => ?_⟩
      cases he
      rfl
    | ok bs =>
      have hbs := hres bs rfl
      dsimp only
      split
      · rename_i hl
        rw [wp_pure]
        refine ⟨?_, fun _ _ he => by cases he⟩
        rintro _ ⟨⟩
        refine ⟨hl, n, hn, by simpa using hd, fun hk => ?_⟩
        simp only [entrySize] at hl hbs ⊢
        omega
      · rename_i hl
        have hfull : ∀ m, w.nodes dir = some m → 0 < k → ¬off + entrySize * k ≤ m.size := by
          intro m hm hk hin
          obtain rfl := Option.some.inj (hn.symm.trans hm)
          apply hl
          simp only [entrySize] at hbs hin ⊢
          omega
        split
        · rw [wp_pure]
          exact ⟨(fun _ h => by cases h), fun _ m _ hm hk hin => absurd hin (hfull m hm hk)⟩
        · rw [wp_bind, wp_exfatError, wp_pure]
          exact ⟨(fun _ h => by cases h), fun _ m _ hm hk hin => absurd hin (hfull m hm hk)⟩

/-- Writing inside a file leaves the tree alone. -/
theorem genericPwrite_calm {id : NodeId} {n : Node} {buf : List UInt8} {off : Nat}
    (hn : w.nodes id = some n) (ho : off + buf.length ≤ n.size) :
    Wp (fun _ => True) (exfatGenericPwrite id buf off) w fun _ v => Calm w v := by
  have hmod := Nat.mod_le (off + buf.length) (2 ^ 64)
  simp only [exfatGenericPwrite, extendTo, wp_bind, wp_getNode hn,
    if_neg (show ¬off > n.size by omega), wp_pure, ne_eq, not_true_eq_false, if_false,
    if_neg (show ¬(off + buf.length) % 2 ^ 64 > n.size by omega)]
  split
  · exact .refl w
  · simp only [wp_bind, wp_get]
    apply (calm_advanceCluster _ _ w).mono
    intro c v hv
    refine (?_ : Frame Calm _) v |>.mono fun _ u hu => Calm.trans _ _ _ hv hu
    exact calm_ite (calm_bind (calm_error _) fun _ => calm_pure _)
      (calm_bind (calm_getNode _) fun _ => calm_bind (calm_pwriteLoop _ _ _ _ _) fun _ =>
        calm_ite (calm_pure _) (calm_ite (calm_pure _)
          (calm_bind (calm_updateMtime _) fun _ => calm_pure _)))

theorem writeEntries_calm {dir : NodeId} {n : Node} {entries : List UInt8} {off : Nat}
    (hn : w.nodes dir = some n) (ho : off + entries.length ≤ n.size) :
    Wp (fun _ => True) (writeEntries dir entries off) w fun _ v => Calm w v := by
  simp only [writeEntries, wp_bind, wp_getNode hn]
  split
  · trivial
  · simp only [wp_bind]
    apply (genericPwrite_calm hn ho).mono
    intro r v hv
    cases r <;> exact hv

omit [Env] in
theorem eraseTypes_length (entries : List UInt8) : (eraseTypes entries).length = entries.length := by
  simp [eraseTypes]

theorem calm_eraseEntries (dir : NodeId) {k : Nat} (off : Nat) (hk : 0 < k) :
    Frame Calm (eraseEntries dir k off) := by
  intro w
  simp only [eraseEntries, wp_bind]
  apply (readEntries_calm dir k off).mono
  rintro r v ⟨hv, hr, -⟩
  cases r with
  | error e => exact hv
  | ok bs =>
    obtain ⟨hl, n, hn, -, hs⟩ := hr bs rfl
    obtain ⟨m, hm, hsk⟩ := hv.node hn
    have hsize : m.size = n.size := skel_size hsk
    have hlen := eraseTypes_length bs
    have hin := hs hk
    exact (writeEntries_calm hm (by omega)).mono fun _ u hu => Calm.trans _ _ _ hv hu

theorem calm_flushNode (id : NodeId) : Frame Calm (exfatFlushNode id) := by
  intro w
  simp only [exfatFlushNode, wp_bind]
  rw [wp_getNode_iff trivial]
  intro n hn
  split
  · exact .refl w
  · simp only [wp_bind, wp_get]
    split
    · trivial
    · cases n.parent with
      | none => exact .refl w
      | some parent =>
        simp only [wp_bind]
        apply (readEntries_calm _ _ _).mono
        rintro r v ⟨hv, hr, -⟩
        cases r with
        | error e => exact hv
        | ok bs =>
          obtain ⟨hl, d, hd, -, hs⟩ := hr bs rfl
          obtain ⟨m, hm, hsk⟩ := hv.node hd
          have hsize : m.size = d.size := skel_size hsk
          simp only [checkEntries]
          by_cases hc : checkTypes none (entryTypes bs (1 + n.continuations)) = true
          · have hcont := checkTypes_two hc
            have h64 : 64 ≤ bs.length := by
              simp only [entrySize] at hl
              omega
            have hfl := flushEntries_length h64 n
            have hin := hs (by omega)
            simp only [hc, if_true, wp_bind, wp_pure, Bool.not_true, Bool.false_eq_true, if_false]
            apply (writeEntries_calm hm (by omega)).mono
            intro rc u hu
            have hwu := Calm.trans _ _ _ hv hu
            refine (?_ : Frame Calm _) u |>.mono fun _ x hx => Calm.trans _ _ _ hwu hx
            exact calm_ite (calm_pure _)
              (calm_bind (calm_modifyNode id fun _ => rfl) fun _ => calm_flush)
          · simp only [hc, Bool.false_eq_true, if_false, wp_bind, wp_exfatError, wp_pure,
              Bool.not_false, if_true]
            exact Calm.trans _ _ _ hv ⟨fun _ => rfl, le_rfl, rfl, fun _ h => h, rfl⟩

theorem calm_eraseNode (id : NodeId) : Frame Calm (eraseNode id) :=
  calm_bind (calm_getNode id) fun _ => calm_bind (calm_deref _) fun _ =>
    calm_bind (calm_getNodeRef _) fun _ => calm_bind (calm_eraseEntries _ _ (by omega)) fun _ =>
      calm_ite (calm_bind (calm_putNode _) fun _ => calm_pure _)
        (calm_bind (calm_flushNode _) fun _ => calm_bind (calm_putNode _) fun _ => calm_pure _)

end Proofs

end Exfat
