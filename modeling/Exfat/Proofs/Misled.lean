import Exfat.Proofs.Resolve

namespace Exfat
open Lib

/-! Which names `compare_name` mistakes for one another, and which lookups that misleads. -/

/-- One name ends where the other goes on with a unit that the table maps to what it maps the
terminator to; up to there they are equal in upper case. -/
def mistaken (u : Nat → Nat) (as bs : List Nat) : Bool :=
  utf16Length as ≠ utf16Length bs ∧
    ∀ i ≤ min (utf16Length as) (utf16Length bs), u (as.getD i 0) = u (bs.getD i 0)

/-- Names that are equal in upper case, or mistaken for one another. -/
def nearName (u : Nat → Nat) (as bs : List Nat) : Bool := sameName u as bs || mistaken u as bs

/-- In a directory a child that is mistaken for a component comes before every child that has its
name. -/
def Catalog.Confuses (T : Catalog) (u : Nat → Nat) (p : List Nat) (comp : List UInt8) : Prop :=
  ∃ units k, utf8ToUtf16 comp (exfatNameMax + 1) = .ok units ∧ k < T.count p ∧
    mistaken u units (T.record (p ++ [k])).name = true ∧
    ∀ j < k, sameName u units (T.record (p ++ [j])).name = false

/-- On the way along the components there is such a directory. -/
def Catalog.Misleads (T : Catalog) (u : Nat → Nat) (p : List Nat) (comps : List (List UInt8)) :
    Prop :=
  ∃ front c back q, comps = front ++ c :: back ∧ T.resolve (sameName u) p front = .ok q ∧
    T.Confuses u q c

/-- There is no file at the end of the way, and taking mistaken children for the components ends in the
same error, without looking into a file. -/
def Catalog.InVain (T : Catalog) (u : Nat → Nat) (p : List Nat) (comps : List (List UInt8)) : Prop :=
  ¬T.Strays (nearName u) p comps ∧ ∃ e, T.resolve (sameName u) p comps = .error e ∧
    T.resolve (nearName u) p comps = .error e

namespace Proofs

variable {u : Nat → Nat} {T : Catalog} {p : List Nat} {c : List UInt8} {cs : List (List UInt8)}

theorem utf16Length_cons {a : Nat} (ha : a ≠ 0) (as : List Nat) :
    utf16Length (a :: as) = utf16Length as + 1 := by
  simp [utf16Length, ha]

theorem utf16Length_zero_cons (as : List Nat) : utf16Length (0 :: as) = 0 := by
  simp [utf16Length]

/-- `compare_name` compares up to where the first name ends, and there as well. -/
theorem compareName_eq_zero (as bs : List Nat) : compareName u as bs = 0 ↔
    ∀ i ≤ min (utf16Length as) (utf16Length bs), u (as.getD i 0) = u (bs.getD i 0) := by
  have hchar : ∀ a b, compareChar u a b = 0 ↔ u a = u b := by
    intro a b
    rw [compareChar]
    omega
  have hhead : ∀ as bs : List Nat, utf16Length as = 0 ∨ utf16Length bs = 0 →
      ((∀ i ≤ min (utf16Length as) (utf16Length bs), u (as.getD i 0) = u (bs.getD i 0)) ↔
        u (as.headD 0) = u (bs.headD 0)) := by
    intro as bs h
    have hmin : min (utf16Length as) (utf16Length bs) = 0 := by omega
    have hget : ∀ l : List Nat, l.getD 0 0 = l.headD 0 := by
      intro l
      cases l <;> rfl
    rw [hmin]
    constructor
    · intro h
      rw [← hget, ← hget]
      exact h 0 le_rfl
    · intro h i hi
      rw [Nat.le_zero.mp hi, hget, hget]
      exact h
  induction as generalizing bs with
  | nil =>
    rw [hhead [] bs (Or.inl rfl), compareName.eq_def, hchar]
  | cons a as ih =>
    cases bs with
    | nil => rw [hhead _ [] (Or.inr rfl), compareName.eq_def, hchar]
    | cons b bs =>
      rw [compareName]
      by_cases hab : a ≠ 0 ∧ b ≠ 0
      · rw [if_pos hab, utf16Length_cons hab.1, utf16Length_cons hab.2, Nat.add_min_add_right]
        by_cases hu : u a = u b
        · simp only [(hchar a b).mpr hu, ne_eq, not_true_eq_false, if_false, ih]
          constructor
          · intro h i hi
            cases i with
            | zero => exact hu
            | succ i => exact h i (Nat.le_of_succ_le_succ hi)
          · intro h i hi
            exact h (i + 1) (Nat.succ_le_succ hi)
        · simp only [ne_eq, hchar, hu, not_false_eq_true, if_true, false_iff]
          intro h
          exact hu (h 0 (Nat.zero_le _))
      · rw [if_neg hab, hchar, hhead]
        · rfl
        · by_cases ha : a = 0
          · exact Or.inl (by rw [ha, utf16Length_zero_cons])
          · exact Or.inr (by rw [not_not.mp fun hb => hab ⟨ha, hb⟩, utf16Length_zero_cons])

theorem getD_utf16Length (as : List Nat) : as.getD (utf16Length as) 0 = 0 := by
  induction as with
  | nil => rfl
  | cons a as ih =>
    by_cases ha : a = 0
    · rw [ha, utf16Length_zero_cons]
      rfl
    · rw [utf16Length_cons ha, List.getD_cons_succ]
      exact ih

/-- The names that `compare_name` takes for equal are the near ones. -/
theorem comparesEqual_eq (u : Nat → Nat) : comparesEqual u = nearName u := by
  funext as bs
  rw [Bool.eq_iff_iff, nearName, Bool.or_eq_true]
  simp only [comparesEqual, sameName, mistaken, decide_eq_true_eq, compareName_eq_zero, upName_iff]
  by_cases hl : utf16Length as = utf16Length bs
  · simp only [hl, min_self, true_and, ne_eq, not_true_eq_false, false_and, or_false]
    constructor
    · exact fun h i hi => h i hi.le
    · intro h i hi
      rcases Nat.lt_or_eq_of_le hi with hi | rfl
      · exact h i hi
      · rw [getD_utf16Length, ← hl, getD_utf16Length]
  · simp only [hl, false_and, ne_eq, not_false_eq_true, true_and, false_or]

theorem mistaken_not_same {as bs : List Nat} (h : mistaken u as bs = true) :
    sameName u as bs = false := by
  rw [mistaken, decide_eq_true_eq] at h
  rw [sameName, decide_eq_false_iff_not, upName_iff]
  exact fun hs => h.1 hs.1

/-- Two searches, of which one takes more, find the same unless the other elements come first. -/
theorem find?_or_iff {f m : Nat → Bool} (hf : ∀ k, m k = true → f k = false) (n : Nat) :
    (List.range n).find? (fun k => f k || m k) = (List.range n).find? f ↔
      ¬∃ k < n, m k = true ∧ ∀ j < k, f j = false := by
  constructor
  · rintro h ⟨k, hk, hm, hj⟩
    cases hr : (List.range n).find? f with
    | none =>
      rw [hr, List.find?_eq_none] at h
      exact h k (List.mem_range.mpr hk) (by simp [hm])
    | some r =>
      have hfr := (List.find?_range_eq_some.mp hr).1
      rw [hr, List.find?_range_eq_some] at h
      rcases lt_trichotomy r k with hlt | rfl | hlt
      · rw [hj r hlt] at hfr
        cases hfr
      · rw [hf r hm] at hfr
        cases hfr
      · have := h.2.2 k hlt
        simp [hm] at this
  · intro h
    cases hr : (List.range n).find? f with
    | none =>
      rw [List.find?_eq_none] at hr ⊢
      intro k hk hor
      rw [Bool.or_eq_true] at hor
      refine hor.elim (hr k hk) fun hm => h ⟨k, List.mem_range.mp hk, hm, fun j hj => ?_⟩
      simpa using hr j (List.mem_range.mpr (hj.trans (List.mem_range.mp hk)))
    | some r =>
      obtain ⟨h1, h2, h3⟩ := List.find?_range_eq_some.mp hr
      refine List.find?_range_eq_some.mpr ⟨by simp [h1], h2, fun j hj => ?_⟩
      have hfj : f j = false := by simpa using h3 j hj
      cases hm : m j with
      | false => simp [hfj]
      | true =>
        refine absurd ⟨j, hj.trans (List.mem_range.mp h2), hm, fun i hi => ?_⟩ h
        simpa using h3 i (hi.trans hj)

theorem step_find {units : List Nat} (same : List Nat → List Nat → Bool)
    (h : utf8ToUtf16 c (exfatNameMax + 1) = .ok units) : T.step same p c =
      (((List.range (T.count p)).find? fun k => same units (T.record (p ++ [k])).name).map fun k =>
        Except.ok (p ++ [k])).getD (.error .enoent) := by
  have hkids : (T.kids p).find? (fun q => same units (T.record q).name) =
      ((List.range (T.count p)).find? fun k => same units (T.record (p ++ [k])).name).map
        fun k => p ++ [k] := List.find?_map ..
  rw [Catalog.step, h]
  simp only [hkids]
  cases (List.range (T.count p)).find? fun k => same units (T.record (p ++ [k])).name with
  | none => rfl
  | some k => rfl

theorem step_error {e : Errno} (same : List Nat → List Nat → Bool)
    (h : utf8ToUtf16 c (exfatNameMax + 1) = .error e) : T.step same p c = .error e := by
  rw [Catalog.step, h]

/-- A step goes to the same child exactly if the directory does not confuse the component. -/
theorem step_near_iff : T.step (nearName u) p c = T.step (sameName u) p c ↔ ¬T.Confuses u p c := by
  cases hb : utf8ToUtf16 c (exfatNameMax + 1) with
  | error e =>
    rw [step_error _ hb, step_error _ hb]
    refine iff_of_true rfl ?_
    rintro ⟨units, k, hb', -⟩
    rw [hb] at hb'
    cases hb'
  | ok units =>
    have hinj : ∀ a b : Option Nat,
        (a.map fun k => (Except.ok (p ++ [k]) : Except Errno (List Nat))).getD (.error .enoent) =
          (b.map fun k => Except.ok (p ++ [k])).getD (.error .enoent) ↔ a = b := by
      intro a b
      cases a <;> cases b <;> simp
    have hiff := find?_or_iff (f := fun k => sameName u units (T.record (p ++ [k])).name)
      (m := fun k => mistaken u units (T.record (p ++ [k])).name) (fun k => mistaken_not_same)
      (T.count p)
    rw [step_find _ hb, step_find _ hb, hinj]
    refine hiff.trans (not_congr ⟨?_, ?_⟩)
    · rintro ⟨k, hk⟩
      exact ⟨units, k, hb, hk⟩
    · rintro ⟨units', k, hb', hk⟩
      rw [hb] at hb'
      cases hb'
      exact ⟨k, hk⟩

theorem resolve_cons (same : List Nat → List Nat → Bool) :
    T.resolve same p (c :: cs) = T.step same p c >>= fun q => T.resolve same q cs :=
  List.foldlM_cons

theorem misleads_cons : T.Misleads u p (c :: cs) ↔
    T.Confuses u p c ∨ ∃ q, T.step (sameName u) p c = .ok q ∧ T.Misleads u q cs := by
  constructor
  · rintro ⟨front, d, back, q, hc, hq, hconf⟩
    cases front with
    | nil =>
      obtain ⟨rfl, rfl⟩ := List.cons.inj hc
      cases hq
      exact .inl hconf
    | cons e front =>
      obtain ⟨rfl, rfl⟩ := List.cons.inj hc
      rw [resolve_cons] at hq
      cases hst : T.step (sameName u) p c with
      | error e =>
        rw [hst] at hq
        cases hq
      | ok r =>
        rw [hst] at hq
        exact .inr ⟨r, rfl, front, d, back, q, rfl, hq, hconf⟩
  · rintro (hconf | ⟨r, hst, front, d, back, q, rfl, hq, hconf⟩)
    · exact ⟨[], c, cs, p, rfl, rfl, hconf⟩
    · refine ⟨c :: front, d, back, q, rfl, ?_, hconf⟩
      rw [resolve_cons, hst]
      exact hq

/-- A path that is not misled resolves as if names were not mistaken, and strays no more. -/
theorem not_misleads (h : ¬T.Misleads u p cs) :
    T.resolve (nearName u) p cs = T.resolve (sameName u) p cs ∧
      (T.Strays (nearName u) p cs ↔ T.Strays (sameName u) p cs) := by
  induction cs generalizing p with
  | nil => exact ⟨rfl, iff_of_false strays_nil strays_nil⟩
  | cons c cs ih =>
    rw [misleads_cons, not_or, ← step_near_iff] at h
    obtain ⟨hstep, hrest⟩ := h
    have hnext : ∀ q, T.step (sameName u) p c = .ok q →
        T.resolve (nearName u) q cs = T.resolve (sameName u) q cs ∧
          (T.Strays (nearName u) q cs ↔ T.Strays (sameName u) q cs) :=
      fun q hq => ih fun hm => hrest ⟨q, hq, hm⟩
    rw [resolve_cons, resolve_cons, strays_cons, strays_cons, hstep]
    cases hst : T.step (sameName u) p c with
    | error e => simp [bind, Except.bind]
    | ok q =>
      obtain ⟨h1, h2⟩ := hnext q hst
      exact ⟨h1, by simp [h2]⟩

/-- A place that was resolved is as many components below. -/
theorem resolve_prefix {same : List Nat → List Nat → Bool} {r : List Nat}
    (h : T.resolve same p cs = .ok r) : p <+: r ∧ r.length = p.length + cs.length := by
  induction cs generalizing p with
  | nil =>
    cases h
    exact ⟨List.prefix_rfl, rfl⟩
  | cons c cs ih =>
    rw [resolve_cons] at h
    cases hst : T.step same p c with
    | error e =>
      rw [hst] at h
      cases h
    | ok q =>
      rw [hst] at h
      obtain ⟨hpre, hlen⟩ := ih h
      obtain ⟨k, rfl⟩ : ∃ k, q = p ++ [k] := by
        cases hb : utf8ToUtf16 c (exfatNameMax + 1) with
        | error e =>
          rw [step_error same hb] at hst
          cases hst
        | ok units =>
          rw [step_find same hb] at hst
          cases hf : (List.range (T.count p)).find?
              fun k => same units (T.record (p ++ [k])).name with
          | none =>
            rw [hf] at hst
            cases hst
          | some k =>
            rw [hf] at hst
            exact ⟨k, (Except.ok.inj hst).symm⟩
      refine ⟨(List.prefix_append p [k]).trans hpre, ?_⟩
      rw [hlen, List.length_append, List.length_singleton, List.length_cons]
      omega

/-- Two ways to one place are the same way, so nothing misled the second. -/
theorem not_misleads_of_found {r : List Nat} (h : T.resolve (sameName u) p cs = .ok r)
    (hn : T.resolve (nearName u) p cs = .ok r) : ¬T.Misleads u p cs := by
  induction cs generalizing p with
  | nil =>
    rintro ⟨front, c, back, q, hc, -⟩
    simp at hc
  | cons c cs ih =>
    rw [resolve_cons] at h hn
    cases hs : T.step (sameName u) p c with
    | error e =>
      rw [hs] at h
      cases h
    | ok q =>
      cases ht : T.step (nearName u) p c with
      | error e =>
        rw [ht] at hn
        cases hn
      | ok q' =>
        rw [hs] at h
        rw [ht] at hn
        obtain ⟨h1, h2⟩ := resolve_prefix h
        obtain ⟨h1', h2'⟩ := resolve_prefix hn
        have hlen : q'.length = q.length := by omega
        obtain rfl : q' = q := by
          rw [List.prefix_iff_eq_take.mp h1, List.prefix_iff_eq_take.mp h1', hlen]
        rw [misleads_cons, not_or, ← step_near_iff, hs, ht]
        refine ⟨rfl, ?_⟩
        rintro ⟨q'', hq, hm⟩
        cases hq
        exact ih h hn hm

/-- Taking mistaken children too leads to the same end exactly if nothing misleads, or in vain. -/
theorem resolve_near_iff (hl : T.Leads (sameName u) p cs) :
    (¬T.Strays (nearName u) p cs ∧
      T.resolve (nearName u) p cs = T.resolve (sameName u) p cs) ↔
      ¬T.Misleads u p cs ∨ T.InVain u p cs := by
  constructor
  · rintro ⟨hstray, heq⟩
    cases hr : T.resolve (sameName u) p cs with
    | error e => exact .inr ⟨hstray, e, hr, heq.trans hr⟩
    | ok r => exact .inl (not_misleads_of_found hr (heq.trans hr))
  · rintro (h | ⟨hstray, e, hs, hn⟩)
    · obtain ⟨h1, h2⟩ := not_misleads h
      exact ⟨fun hstray => leads_not_strays hl (h2.mp hstray), h1⟩
    · exact ⟨hstray, hn.trans hs.symm⟩

section
variable [Env] {w v x : World} {kids kids' : NodeId → List NodeId} {i : NodeId} {q : List Nat}

omit [Env] in
/-- A directory in memory has its children in one order. -/
theorem kids_unique {d : NodeId} {n : Node} (h : Tree v kids) (h' : Tree v kids')
    (hd : v.nodes d = some n) : kids d = kids' d := by
  obtain ⟨l, x, hrun, hl, -⟩ := (h.children (E := fun _ => False) hd).returns
  exact hl.symm.trans ((h'.children (E := fun _ => False) hd).run hrun).1

omit [Env] in
theorem locate_unique {d : NodeId} {n : Node} (h : Tree v kids) (h' : Tree v kids')
    (hd : v.nodes d = some n) (hq : locate kids d q = some i) : locate kids' d q = some i := by
  induction q generalizing d n with
  | nil => exact hq
  | cons k q ih =>
    rw [locate] at hq ⊢
    rw [← kids_unique h h' hd]
    cases hk : (kids d)[k]? with
    | none =>
      rw [hk] at hq
      cases hq
    | some j =>
      rw [hk] at hq
      obtain ⟨m, hm, -⟩ := h.kid_node (List.mem_of_getElem? hk)
      exact ih hm hq

/-- A lookup ends as resolving the components does only where `compare_name` leads to the same end. -/
theorem resolve_of_ends (hq : Env.Quiet) {path : List UInt8} {r : Except Errno NodeId}
    (hw : Shows w kids T) (huw : w.upcase = some u) (hrun : exfatLookup path w = .ok (r, v))
    (he : Ends T u path r v kids') : ¬T.Strays (nearName u) [] (steps path) ∧
      T.resolve (nearName u) [] (steps path) = T.resolve (sameName u) [] (steps path) := by
  rw [← comparesEqual_eq]
  obtain ⟨hstray, kids'', hv, hr⟩ := (exfatLookup_cases hq hw huw path).run hrun
  refine ⟨hstray, ?_⟩
  cases hres : T.resolve (comparesEqual u) [] (steps path) with
  | error e =>
    rw [hres] at hr
    exact ((he.failed e).mp hr).symm
  | ok q =>
    rw [hres] at hr
    obtain ⟨i, rfl, hi⟩ := hr
    obtain ⟨q', hq', hi'⟩ := (he.found i).mp rfl
    obtain ⟨n, hn, -⟩ := hv.tree.root
    rw [hq', locate_inj hv.tree hi (locate_unique he.shown.tree.toTree hv.tree.toTree hn hi')]

/-- A path is looked up component by component, in every state of the cache and for every spelling of
the path, exactly when no directory on the way confuses a component, or the search is in vain
anyway. -/
theorem lookup_component_wise_iff (hq : Env.Quiet) (hw : Shows w kids T) (huw : w.upcase = some u)
    (path : List UInt8) (hl : T.Leads (sameName u) [] (steps path)) :
    (∃ r v kids', exfatLookup path w = .ok (r, v) ∧ Ends T u path r v kids' ∧
      ∀ path' w' kids'', steps path' = steps path → Shows w' kids'' T → w'.upcase = some u →
        ∃ r' v' kids''', exfatLookup path' w' = .ok (r', v') ∧ Shows v' kids''' T ∧
          (∀ e, r = .error e ↔ r' = .error e) ∧
          ∀ q, (∃ i, r = .ok i ∧ locate kids' v.root q = some i) ↔
            ∃ i, r' = .ok i ∧ locate kids''' v'.root q = some i) ↔
      ¬T.Misleads u [] (steps path) ∨ T.InVain u [] (steps path) := by
  rw [← resolve_near_iff hl]
  constructor
  · rintro ⟨r, v, kids', hrun, he, -⟩
    exact resolve_of_ends hq hw huw hrun he
  · rintro ⟨hstray, heq⟩
    rw [← comparesEqual_eq] at hstray heq
    obtain ⟨r, v, kids', hrun, he⟩ := exfatLookup_ends hq hstray heq hw huw
    refine ⟨r, v, kids', hrun, he, fun path' w' kids'' hs hw' hu' => ?_⟩
    rw [← hs] at hstray heq
    obtain ⟨r', v', kids''', hrun', he'⟩ := exfatLookup_ends hq hstray heq hw' hu'
    exact ⟨r', v', kids''', hrun', he'.shown, he.alike he' hs⟩

end

/-- A table that maps `b` to what it maps the terminator to. -/
def lossyTable (c : Nat) : Nat := if c = 0x62 then 0 else c

/-- The path `/d//./a/` in a volume with that directory, not cached yet, and that table. -/
theorem lookup_component_wise_iff_letter : ∃ r v kids',
    @exfatLookup calmEnv [0x2f, 0x64, 0x2f, 0x2f, 0x2e, 0x2f, 0x61, 0x2f]
      (family letterDev lossyTable letterDir) = .ok (r, v) ∧
    @Ends calmEnv (familyCatalog letterDir [@listed calmEnv (0, letterSet)] letter_units) lossyTable
      [0x2f, 0x64, 0x2f, 0x2f, 0x2e, 0x2f, 0x61, 0x2f] r v kids' := by
  let _ := calmEnv
  have hshow : Shows (family letterDev lossyTable letterDir) soleChild
      (familyCatalog letterDir [listed (0, letterSet)] letter_units) :=
    family_shows (fun _ => ⟨[2], letter_stored, fun _ => rfl⟩) (by decide +kernel)
  have hsteps : steps [0x2f, 0x64, 0x2f, 0x2f, 0x2e, 0x2f, 0x61, 0x2f] = [[0x64], [0x61]] := by
    decide
  have hone : (familyCatalog letterDir [listed (0, letterSet)] letter_units).step
      (sameName lossyTable) [] [0x64] = .ok [0] := by decide +kernel
  have hlead : (familyCatalog letterDir [listed (0, letterSet)] letter_units).Leads
      (sameName lossyTable) []
      (steps [0x2f, 0x64, 0x2f, 0x2f, 0x2e, 0x2f, 0x61, 0x2f]) := by
    intro front c back hs q hq
    rw [hsteps] at hs
    match front with
    | [] =>
      cases hq
      decide
    | [e] =>
      obtain rfl : [0x64] = e := (List.cons.inj hs).1
      rw [Catalog.resolve, List.foldlM_cons, hone] at hq
      cases hq
      decide
    | _ :: _ :: front => simp at hs
  have hclear : ¬(familyCatalog letterDir [listed (0, letterSet)] letter_units).Misleads lossyTable []
      (steps [0x2f, 0x64, 0x2f, 0x2f, 0x2e, 0x2f, 0x61, 0x2f]) := by
    have hnear : (familyCatalog letterDir [listed (0, letterSet)] letter_units).step
        (nearName lossyTable) [] [0x64] = .ok [0] := by decide +kernel
    have htwo : (familyCatalog letterDir [listed (0, letterSet)] letter_units).step
        (sameName lossyTable) [0] [0x61] = .ok [0, 0] := by decide +kernel
    have hnear' : (familyCatalog letterDir [listed (0, letterSet)] letter_units).step
        (nearName lossyTable) [0] [0x61] = .ok [0, 0] := by decide +kernel
    rw [hsteps]
    refine not_misleads_of_found (r := [0, 0]) ?_ ?_
    · rw [resolve_cons, hone]
      exact (resolve_cons _).trans (by rw [htwo])
    · rw [resolve_cons, hnear]
      exact (resolve_cons _).trans (by rw [hnear'])
  obtain ⟨r, v, kids', hrun, hends, -⟩ := (lookup_component_wise_iff calmEnv_quiet hshow rfl _
    hlead).mpr (.inl hclear)
  exact ⟨r, v, kids', hrun, hends⟩

theorem longFile_units : ∀ l ∈ [{ name := padName [0x61, 0x62] : Node }], ∀ c ∈ l.name, c < 2 ^ 16 := by
  decide +kernel

/-- With such a table and a file `ab` the path `a` leads to that file. -/
theorem lookup_finds_longer_name :
    @Shows calmEnv (family (fun _ => 0) lossyTable { name := padName [0x61, 0x62] }) soleChild
      (familyCatalog { name := padName [0x61, 0x62] } [] longFile_units) ∧
    (∃ v, @exfatLookup calmEnv [0x61]
      (family (fun _ => 0) lossyTable { name := padName [0x61, 0x62] }) = .ok (.ok 1, v)) ∧
    (familyCatalog { name := padName [0x61, 0x62] } [] longFile_units).resolve (sameName lossyTable) []
      (steps [0x61]) = .error .enoent := by
  let _ := calmEnv
  have hfile : ({ name := padName [0x61, 0x62] } : Node).isDir = true → False := by
    simp [Node.isDir]
  have hnone : (familyCatalog { name := padName [0x61, 0x62] } [] longFile_units).resolve
      (sameName lossyTable) [] (steps [0x61]) = .error .enoent := by decide +kernel
  refine ⟨family_shows (fun hd => (hfile hd).elim) (by simp), ?_, hnone⟩
  obtain ⟨r, v, hrun, hr⟩ := returns_of_check (m := exfatLookup [0x61])
    (s := family (fun _ => 0) lossyTable { name := padName [0x61, 0x62] })
    (p := fun r _ => decide (r = .ok 1)) (by decide +kernel)
  obtain rfl := of_decide_eq_true hr
  exact ⟨v, hrun⟩

end Proofs

end Exfat
