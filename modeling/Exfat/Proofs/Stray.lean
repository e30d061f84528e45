import Exfat.Proofs.Resolve

namespace Exfat
open Lib

/-! Which paths a lookup survives: those that look nothing up in a file. -/

/-- A component follows one that leads to a file. -/
def Catalog.Through (T : Catalog) (same : List Nat → List Nat → Bool) (p : List Nat)
    (comps : List (List UInt8)) : Prop :=
  ∃ front c back q, comps = front ++ c :: back ∧ T.resolve same p front = .ok q ∧
    (T.record q).isDir = false

namespace Proofs

variable [Env] {w : World} {T : Catalog} {kids : NodeId → List NodeId} {u : Nat → Nat}
  {p : List Nat}

omit [Env] in
/-- Through a file a path resolves to nothing, unless it strays. -/
theorem resolve_through {same : List Nat → List Nat → Bool} {comps : List (List UInt8)}
    (h : T.Through same p comps) (hs : ¬T.Strays same p comps) :
    ∃ e, T.resolve same p comps = .error e := by
  obtain ⟨front, c, back, q, rfl, hr, hd⟩ := h
  cases hb : utf8ToUtf16 c (exfatNameMax + 1) with
  | ok units => exact absurd ⟨front, c, back, q, units, rfl, hr, hd, hb⟩ hs
  | error e =>
    have hstep : T.step same q c = .error e := by simp only [Catalog.step, hb]
    refine ⟨e, ?_⟩
    rw [Catalog.resolve, List.foldlM_append, ← Catalog.resolve, hr]
    change (T.step same q c >>= fun r => List.foldlM (T.step same) r back) = .error e
    rw [hstep]
    rfl

/-- A lookup returns, with an error for a path through a file, exactly when the path does not
stray. -/
theorem lookup_safe_iff (hq : Env.Quiet) (h : Shows w kids T) (hu : w.upcase = some u)
    (path : List UInt8) :
    (∃ r v, exfatLookup path w = .ok (r, v) ∧
      (T.Through (comparesEqual u) [] (steps path) → ∃ e, r = .error e)) ↔
        ¬T.Strays (comparesEqual u) [] (steps path) := by
  have hcases := exfatLookup_cases hq h hu path
  constructor
  · rintro ⟨r, v, hrun, -⟩
    exact (hcases.run hrun).1
  · intro hs
    obtain ⟨r, v, hrun, -, kids', -, hr⟩ := (hcases.halts fun e he => hs he.2).returns
    refine ⟨r, v, hrun, fun ht => ?_⟩
    obtain ⟨e, he⟩ := resolve_through ht hs
    rw [he] at hr
    exact ⟨e, hr⟩

/-- A path that strays ends in `exfat_bug`. -/
theorem lookup_strays (hq : Env.Quiet) (h : Shows w kids T) (hu : w.upcase = some u)
    {path : List UInt8} (hs : T.Strays (comparesEqual u) [] (steps path)) :
    exfatLookup path w = .error readsFile := by
  obtain ⟨e, hrun, he, -⟩ :=
    ((exfatLookup_cases hq h hu path).mono fun _ _ hn => hn.1 hs).error
  exact he ▸ hrun

/-- A volume with an empty file `a` in its root directory. -/
def letterFile : Node := { name := padName [0x61] }

omit [Env] in
theorem letterFile_units : ∀ l ∈ [letterFile], ∀ c ∈ l.name, c < 2 ^ 16 := by
  decide +kernel

theorem letterFile_shows : Shows (family (fun _ => 0) id letterFile) soleChild
    (familyCatalog letterFile [] letterFile_units) :=
  family_shows (fun hd => absurd hd (by decide)) (by simp)

omit [Env] in
/-- The path `a` in that volume. -/
theorem lookup_safe_letter : ∃ r v,
    @exfatLookup calmEnv [0x61] (family (fun _ => 0) id letterFile) = .ok (r, v) ∧
      ((familyCatalog letterFile [] letterFile_units).Through (comparesEqual id) [] (steps [0x61]) →
        ∃ e, r = .error e) := by
  let _ := calmEnv
  have hsteps : steps [0x61] = [[0x61]] := by decide
  have hlead : (familyCatalog letterFile [] letterFile_units).Leads (comparesEqual id) [] [[0x61]] :=
    leads_one (by decide) [0x61]
  exact (lookup_safe_iff calmEnv_quiet letterFile_shows rfl [0x61]).mpr
    (hsteps ▸ leads_not_strays hlead)

omit [Env] in
/-- The path `a/b` in that volume ends in `exfat_bug`. -/
theorem lookup_through_file :
    @Shows calmEnv (family (fun _ => 0) id letterFile) soleChild
      (familyCatalog letterFile [] letterFile_units) ∧
    @exfatLookup calmEnv [0x61, 0x2f, 0x62] (family (fun _ => 0) id letterFile) =
      .error readsFile := by
  let _ := calmEnv
  have hsteps : steps [0x61, 0x2f, 0x62] = [[0x61], [0x62]] := by decide
  have hfirst : (familyCatalog letterFile [] letterFile_units).resolve (comparesEqual id) []
      [[0x61]] = .ok [0] := by decide +kernel
  have hname : utf8ToUtf16 [0x62] (exfatNameMax + 1) = .ok [0x62] := by decide
  refine ⟨letterFile_shows, lookup_strays calmEnv_quiet letterFile_shows rfl ?_⟩
  rw [hsteps]
  exact ⟨[[0x61]], [0x62], [], [0], [0x62], rfl, hfirst, by decide, hname⟩

end Proofs

end Exfat
