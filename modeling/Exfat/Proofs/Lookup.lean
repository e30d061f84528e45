import Exfat.Lib.Pieces
import Exfat.Proofs.Cache

namespace Exfat
open Lib

/-! Names under `compare_name`, the components of a path and the nodes that a lookup may start at. -/

/-- A name up to its terminator, in upper case. -/
def upName (u : Nat → Nat) (name : List Nat) : List Nat := (name.takeWhile (· ≠ 0)).map u

/-- The name of a node. -/
def nameOf (nodes : NodeId → Option Node) (i : NodeId) : List Nat :=
  ((nodes i).map Node.name).getD []

/-- A child of a directory has the name. -/
def named (w : World) (u : Nat → Nat) (buffer : List Nat) (i : NodeId) : Bool :=
  compareName u buffer (nameOf w.nodes i) = 0

/-- An array of units with a terminator in it. -/
structure TerminatedName where
  units : List Nat
  wide : ∀ c ∈ units, c < 2 ^ 16
  terminated : 0 ∈ units

/-- The components of a path. -/
def components (path : List UInt8) : List (List UInt8) := pieces slash path

namespace Proofs

/-- `get_comp` finds the components one after the other. -/
theorem components_getComp (path : List UInt8) :
    components path = if (getComp path).1 = [] then []
      else (getComp path).1 :: components (getComp path).2 := pieces_step slash path

theorem slash_getComp (path : List UInt8) : slash ∉ (getComp path).1 := fun hm => by
  simpa using List.mem_takeWhile_imp hm

theorem isLastComp_iff (rest : List UInt8) : isLastComp rest = true ↔ components rest = [] := by
  rw [components_getComp, isLastComp, List.isEmpty_iff]
  split
  · simp [*]
  · simp [*]

/-- No unit of a name has the upper case form of the terminator. -/
def Terminated (u : Nat → Nat) : Prop := ∀ c, c ≠ 0 → c < 2 ^ 16 → u c ≠ u 0

/-- With such a table `compare_name` compares the names in upper case. -/
theorem compareName_iff {u : Nat → Nat} (hu : Terminated u) {as bs : List Nat}
    (has : ∀ c ∈ as, c < 2 ^ 16) (hbs : ∀ c ∈ bs, c < 2 ^ 16) :
    compareName u as bs = 0 ↔ upName u as = upName u bs := by
  have hchar : ∀ a b, compareChar u a b = 0 ↔ u a = u b := by
    intro a b
    rw [compareChar]
    omega
  induction as generalizing bs with
  | nil =>
    rw [compareName.eq_def, hchar]
    cases bs with
    | nil => simp [upName]
    | cons b bs =>
      simp only [List.headD_nil, List.headD_cons]
      by_cases hb : b = 0
      · simp [upName, hb]
      · simp [upName, hb, (hu b hb (hbs b (by simp))).symm]
  | cons a as ih =>
    have ha16 := has a (by simp)
    cases bs with
    | nil =>
      rw [compareName.eq_def, hchar]
      simp only [List.headD_nil, List.headD_cons]
      by_cases ha : a = 0
      · simp [upName, ha]
      · simp [upName, ha, hu a ha ha16]
    | cons b bs =>
      have hb16 := hbs b (by simp)
      have htail : compareName u as bs = 0 ↔ upName u as = upName u bs :=
        ih (fun c hc => has c (by simp [hc])) fun c hc => hbs c (by simp [hc])
      rw [compareName]
      by_cases ha : a = 0
      · by_cases hb : b = 0
        · simp [upName, ha, hb, hchar]
        · simp [upName, ha, hb, hchar, (hu b hb hb16).symm]
      · by_cases hb : b = 0
        · simp [upName, ha, hb, hchar, hu a ha ha16]
        · rw [if_pos ⟨ha, hb⟩]
          by_cases hab : u a = u b
          · simp only [(hchar a b).mpr hab, ne_eq, not_true_eq_false, if_false, htail]
            simp [upName, ha, hb, hab]
          · simp only [ne_eq, hchar, hab, not_false_eq_true, if_true]
            simp [upName, ha, hb, hab]

theorem upName_iff {u : Nat → Nat} {as bs : List Nat} :
    upName u as = upName u bs ↔ utf16Length as = utf16Length bs ∧
      ∀ i < utf16Length as, u (as.getD i 0) = u (bs.getD i 0) := by
  have hunit : ∀ (cs : List Nat) (i : Nat) (hi : i < (upName u cs).length),
      (upName u cs)[i] = u (cs.getD i 0) := by
    intro cs i hi
    have hin : i < (cs.takeWhile (· ≠ 0)).length := by rwa [upName, List.length_map] at hi
    have hfront : cs.takeWhile (· ≠ 0) <+: cs := List.takeWhile_prefix _
    simp only [upName, List.getElem_map]
    rw [hfront.getElem hin, List.getD_eq_getElem _ _ (Nat.lt_of_lt_of_le hin hfront.length_le)]
  have hlen : ∀ cs, (upName u cs).length = utf16Length cs := fun cs => List.length_map _
  constructor
  · intro h
    refine ⟨by rw [← hlen as, h, hlen bs], fun i hi => ?_⟩
    have hi' : i < (upName u as).length := (hlen as).symm ▸ hi
    rw [← hunit as i hi', ← hunit bs i (h ▸ hi')]
    exact List.getElem_of_eq h hi'
  · rintro ⟨hl, hunits⟩
    refine List.ext_getElem (by rw [hlen, hlen, hl]) fun i hi hi' => ?_
    rw [hunit as i hi, hunit bs i hi']
    exact hunits i (hlen as ▸ hi)

/-- Names compared the other way round differ the other way round. -/
theorem compareName_swap (u : Nat → Nat) (as bs : List Nat) :
    compareName u bs as = -compareName u as bs := by
  have hchar : ∀ a b, compareChar u b a = -compareChar u a b := fun a b => by
    rw [compareChar, compareChar, Int.neg_sub]
  induction as generalizing bs with
  | nil =>
    rw [compareName.eq_def u [] bs]
    cases bs <;> exact hchar _ _
  | cons a as ih =>
    cases bs with
    | nil => exact hchar _ _
    | cons b bs =>
      rw [compareName, compareName]
      by_cases hab : a ≠ 0 ∧ b ≠ 0
      · rw [if_pos hab, if_pos hab.symm, hchar a b, ih bs]
        by_cases hc : compareChar u a b = 0
        · simp [hc]
        · simp [hc]
      · rw [if_neg hab, if_neg fun h => hab h.symm, hchar a b]

/-- The hash of a name is made of its upper case form alone. -/
theorem exfatCalcNameHash_upName (u : Nat → Nat) (name : List Nat) :
    exfatCalcNameHash u name (utf16Length name) = (upName u name).foldl (nameHashUnit id) 0 := by
  have htake : name.take (utf16Length name) = name.takeWhile (· ≠ 0) :=
    (List.prefix_iff_eq_take.mp (List.takeWhile_prefix _)).symm
  rw [exfatCalcNameHash, htake, upName, List.foldl_map]
  rfl

/-- `compare_name` is an equivalence of names, the one that the length and the mapped units make, and
names that it takes for equal have equal hashes. -/
theorem compareName_agrees (u : Nat → Nat) (hu : Terminated u) :
    (∀ a b : TerminatedName, compareName u a.units b.units = 0 ↔
      utf16Length a.units = utf16Length b.units ∧
        ∀ i < utf16Length a.units, u (a.units.getD i 0) = u (b.units.getD i 0)) ∧
    Equivalence (fun a b : TerminatedName => compareName u a.units b.units = 0) ∧
    (∀ a b : TerminatedName, compareName u b.units a.units = -compareName u a.units b.units) ∧
    ∀ a b : TerminatedName, compareName u a.units b.units = 0 →
      exfatCalcNameHash u a.units (utf16Length a.units) =
        exfatCalcNameHash u b.units (utf16Length b.units) := by
  have heq : ∀ a b : TerminatedName, compareName u a.units b.units = 0 ↔
      upName u a.units = upName u b.units := fun a b => compareName_iff hu a.wide b.wide
  refine ⟨fun a b => (heq a b).trans upName_iff, ⟨?_, ?_, ?_⟩,
    fun a b => compareName_swap u a.units b.units, fun a b h => ?_⟩
  · intro a
    exact (heq a a).mpr rfl
  · intro a b h
    exact (heq b a).mpr ((heq a b).mp h).symm
  · intro a b c hab hbc
    exact (heq a c).mpr (((heq a b).mp hab).trans ((heq b c).mp hbc))
  · rw [exfatCalcNameHash_upName, exfatCalcNameHash_upName, (heq a b).mp h]

/-- Latin letters in either case. -/
theorem compareName_agrees_latin :
    let u := fun c => if 0x61 ≤ c ∧ c ≤ 0x7a then c - 0x20 else c
    compareName u [0x41, 0x62, 0, 7] [0x61, 0x42, 0] = 0 ∧
      exfatCalcNameHash u [0x41, 0x62, 0, 7] 2 = exfatCalcNameHash u [0x61, 0x42, 0] 2 := by
  intro u
  have hu : Terminated u := by
    intro c hc _
    simp only [u]
    split <;> simp <;> omega
  obtain ⟨hiff, -, -, hhash⟩ := compareName_agrees u hu
  have hab := (hiff ⟨[0x41, 0x62, 0, 7], by decide, by decide⟩ ⟨[0x61, 0x42, 0], by decide, by decide⟩).mpr
    (by decide)
  exact ⟨hab, hhash ⟨[0x41, 0x62, 0, 7], by decide, by decide⟩
    ⟨[0x61, 0x42, 0], by decide, by decide⟩ hab⟩

variable {w v : World} {kids : NodeId → List NodeId}

theorem nameOf_eq {i : NodeId} {n : Node} (hn : w.nodes i = some n) :
    nameOf w.nodes i = n.name := by
  simp [nameOf, hn]

theorem nameOf_calm (h : Calm w v) (i : NodeId) : nameOf v.nodes i = nameOf w.nodes i := by
  have hs := h.skel i
  cases hw : w.nodes i with
  | none =>
    rw [hw] at hs
    simp only [nameOf, hw, Option.map_eq_none_iff.mp hs]
  | some n =>
    obtain ⟨m, hm, he⟩ := h.node hw
    rw [skel_eq_iff] at he
    rw [nameOf_eq hm, nameOf_eq hw, he.2.2.2.2.2.2.2.2.2.2]

/-- A directory that can be opened: it exists and is not unlinked. -/
def Live (w : World) (d : NodeId) : Prop := ∃ n, w.nodes d = some n ∧ n.isUnlinked = false

theorem TreeWF.live_of_parent {i d : NodeId} {n : Node} (h : TreeWF w kids)
    (hn : w.nodes i = some n) (hp : n.parent = some d) : Live w i := by
  refine ⟨n, hn, ?_⟩
  cases hu : n.isUnlinked with
  | false => rfl
  | true =>
    rw [(h.unlinked i n hn hu).1] at hp
    cases hp

theorem TreeWF.live_root (h : TreeWF w kids) : Live w w.root := by
  obtain ⟨r, hr, -, hu⟩ := h.root
  exact ⟨r, hr, hu⟩

end Proofs

end Exfat
