import Exfat.Proofs.Lookup
import Exfat.Proofs.Names
import Exfat.Proofs.Sets

namespace Exfat
open Lib

/-! Which names `exfat_split` lets through: its filter works on bytes, the stored name is what the
bytes encode. -/

/-- The units that are not allowed in a name. -/
def illegal (u : Nat) : Bool :=
  (1 ≤ u ∧ u ≤ 0x1f) || [0x2f, 0x5c, 0x3a, 0x2a, 0x3f, 0x22, 0x3c, 0x3e, 0x7c].contains u

/-- The characters of a byte string as `utf8_to_wchar` reads them, each with the number of its bytes; one
of value zero is the last. -/
def sequences : Nat → List UInt8 → List (Nat × Nat)
  | 0, _ => []
  | fuel + 1, input =>
    if input.isEmpty then []
    else
      match utf8ToWchar input with
      | none => []
      | some (wc, k) => (wc, k) :: if wc = 0 then [] else sequences fuel (input.drop k)

namespace Proofs

variable {w v : World} {u : Nat → Nat}

/-- The first character is not a zero in a longer form, and no illegal character has one. -/
structure NoLongForms (comp : List UInt8) : Prop where
  first : ∀ s, (sequences comp.length comp).head? = some s → s.1 ≠ 0
  others : ∀ s ∈ sequences comp.length comp, 1 < s.2 → illegal s.1 = false

/-- A name that may be stored: not empty and without illegal units. -/
structure LegalName (name : List Nat) : Prop where
  nonempty : 0 < utf16Length name
  units : ∀ u ∈ name, illegal u = false

theorem isAllowed_iff (comp : List UInt8) :
    isAllowed comp = true ↔ ∀ b ∈ comp, illegal b.toNat = false := by
  rw [isAllowed, List.all_eq_true]
  exact forall₂_congr fun b _ => iff_of_eq (Bool.not_eq_true' (illegal b.toNat))

theorem sequences_wchars {fuel : Nat} {input : List UInt8} {cs : List Nat}
    (h : wchars fuel input = some cs) : (sequences fuel input).map Prod.fst = cs := by
  induction fuel generalizing input cs with
  | zero =>
    cases h
    rfl
  | succ fuel ih =>
    rw [wchars] at h
    rw [sequences]
    split at h
    · cases h
      simp [*]
    · split at h
      · cases h
      · split at h
        · cases h
          simp [*]
        · obtain ⟨es, he, rfl⟩ := Option.map_eq_some_iff.mp h
          simp [*, ih he]

/-- A character of one byte is that byte. -/
theorem utf8ToWchar_byte {input : List UInt8} {wc k : Nat} (h : utf8ToWchar input = some (wc, k)) :
    1 < k ∨ ∃ b ∈ input, wc = b.toNat := by
  unfold utf8ToWchar at h
  dsimp only at h
  split at h
  · rename_i hone
    cases input with
    | nil => simp at hone
    | cons b bs =>
      cases h
      exact .inr ⟨b, by simp, rfl⟩
  · left
    split at h
    · cases h
      omega
    split at h
    · cases h
      omega
    split at h
    · cases h
      omega
    split at h
    · cases h
      omega
    split at h
    · cases h
      omega
    · cases h

theorem sequences_byte {fuel : Nat} {input : List UInt8} {s : Nat × Nat}
    (h : s ∈ sequences fuel input) : 1 < s.2 ∨ ∃ b ∈ input, s.1 = b.toNat := by
  induction fuel generalizing input with
  | zero => simp [sequences] at h
  | succ fuel ih =>
    rw [sequences] at h
    split at h
    · simp at h
    · split at h
      · simp at h
      · rename_i wc k hw
        rcases List.mem_cons.mp h with rfl | h
        · exact utf8ToWchar_byte hw
        · split at h
          · simp at h
          · rcases ih h with h1 | ⟨b, hb, he⟩
            · exact .inl h1
            · exact .inr ⟨b, List.mem_of_mem_drop hb, he⟩

/-- Surrogates are legal, so the illegal units are those of illegal characters. -/
theorem illegal_toUtf16 (c : Nat) : (∀ x ∈ toUtf16 c, illegal x = false) ↔ illegal c = false := by
  have hbig : ∀ x, 0x7d ≤ x → illegal x = false := by
    intro x hx
    simp only [illegal, List.contains_eq_mem, List.mem_cons, List.not_mem_nil, or_false,
      Bool.or_eq_false_iff, decide_eq_false_iff_not]
    omega
  by_cases hc : c < 0x10000
  · rw [toUtf16, if_pos hc]
    simp
  · refine iff_of_true (fun x hx => hbig x ?_) (hbig c (by omega))
    rw [toUtf16, if_neg hc] at hx
    simp only [List.mem_cons, List.not_mem_nil, or_false] at hx
    omega

theorem padName_zero {us : List Nat} (h : us.length ≤ exfatNameMax) :
    padName (us ++ [0]) = padName us := by
  rw [padName_terminated h, padName, List.append_assoc, List.length_append, List.length_singleton,
    Nat.add_sub_add_right, List.singleton_append]

/-- The name of an accepted byte string, without what follows a zero. -/
theorem name_characters {comp : List UInt8} {units : List Nat}
    (h : utf8ToUtf16 comp (exfatNameMax + 1) = .ok units) :
    ∃ ds, (∀ d ∈ ds, d ≠ 0) ∧ padName units = padName (ds.flatMap toUtf16) ∧
      (ds.flatMap toUtf16).length ≤ exfatNameMax ∧
      ((sequences comp.length comp).map Prod.fst = ds ∨
        (sequences comp.length comp).map Prod.fst = ds ++ [0]) := by
  obtain ⟨cs, hcs, rfl, hl⟩ := utf8ToUtf16_ok.mp h
  have hseq := sequences_wchars hcs
  obtain ⟨ds, hd, rfl | rfl⟩ := wchars_zero hcs
  · exact ⟨_, hd, rfl, Nat.le_of_lt_succ hl, .inl hseq⟩
  · have hsplit : (ds ++ [0]).flatMap toUtf16 = ds.flatMap toUtf16 ++ [0] := by
      rw [List.flatMap_append, List.flatMap_singleton]
      rfl
    rw [hsplit, List.length_append, List.length_singleton] at hl
    refine ⟨ds, hd, ?_, by omega, .inr hseq⟩
    rw [hsplit, padName_zero (by omega)]

/-- Legal names in terms of their characters. -/
theorem legalName_iff {ds : List Nat} (hd : ∀ d ∈ ds, d ≠ 0) :
    LegalName (padName (ds.flatMap toUtf16)) ↔ ds ≠ [] ∧ ∀ d ∈ ds, illegal d = false := by
  have hlen : utf16Length (padName (ds.flatMap toUtf16)) = (ds.flatMap toUtf16).length := by
    rw [utf16Length_padName, utf16Length_eq fun x hx => (flatMap_toUtf16_pos hd x hx).1]
  constructor
  · rintro ⟨hne, hu⟩
    rw [hlen, List.length_pos_iff, Ne, flatMap_toUtf16_nil] at hne
    refine ⟨hne, fun d hm => (illegal_toUtf16 d).mp fun x hx => hu x ?_⟩
    exact List.mem_append_left _ (List.mem_flatMap.mpr ⟨d, hm, hx⟩)
  · rintro ⟨hne, hu⟩
    refine ⟨?_, fun x hx => ?_⟩
    · rwa [hlen, List.length_pos_iff, Ne, flatMap_toUtf16_nil]
    · rcases List.mem_append.mp hx with hx | hx
      · obtain ⟨d, hm, hx⟩ := List.mem_flatMap.mp hx
        exact (illegal_toUtf16 d).mpr (hu d hm) x hx
      · rw [List.eq_of_mem_replicate hx]
        rfl

theorem sequences_nonempty {comp : List UInt8} {units : List Nat} {outsize : Nat}
    (h : utf8ToUtf16 comp outsize = .ok units) (hne : comp ≠ []) :
    sequences comp.length comp ≠ [] := by
  obtain ⟨cs, hcs, -⟩ := utf8ToUtf16_ok.mp h
  cases comp with
  | nil => exact absurd rfl hne
  | cons b bs =>
    rw [characters, List.length_cons, wchars] at hcs
    rw [List.length_cons, sequences]
    cases hw : utf8ToWchar (b :: bs) with
    | none => simp [hw] at hcs
    | some s => simp

/-- The condition on the bytes in terms of the characters. -/
theorem noLongForms_iff {comp : List UInt8} {ds : List Nat} (ha : isAllowed comp = true)
    (hne : sequences comp.length comp ≠ []) (hd : ∀ d ∈ ds, d ≠ 0)
    (hs : (sequences comp.length comp).map Prod.fst = ds ∨
      (sequences comp.length comp).map Prod.fst = ds ++ [0]) :
    NoLongForms comp ↔ ds ≠ [] ∧ ∀ d ∈ ds, illegal d = false := by
  have hin : ∀ d ∈ ds, ∃ s ∈ sequences comp.length comp, s.1 = d := by
    intro d hm
    have : d ∈ (sequences comp.length comp).map Prod.fst := by
      rcases hs with hs | hs
      · rwa [hs]
      · rw [hs]
        exact List.mem_append_left _ hm
    exact List.mem_map.mp this
  have hout : ∀ s ∈ sequences comp.length comp, s.1 ∈ ds ∨ s.1 = 0 := by
    intro s hm
    have := List.mem_map_of_mem (f := Prod.fst) hm
    rcases hs with hs | hs
    · rw [hs] at this
      exact .inl this
    · rw [hs] at this
      simpa using this
  constructor
  · rintro ⟨hfirst, hothers⟩
    constructor
    · rintro rfl
      obtain ⟨s, ss, hcons⟩ := List.exists_cons_of_ne_nil hne
      rcases hout s (by simp [hcons]) with hm | hz
      · simp at hm
      · exact hfirst s (by rw [hcons]; rfl) hz
    · intro d hm
      obtain ⟨s, hmem, rfl⟩ := hin d hm
      rcases sequences_byte hmem with hlong | ⟨b, hb, he⟩
      · exact hothers s hmem hlong
      · rw [he]
        exact (isAllowed_iff comp).mp ha b hb
  · rintro ⟨hnil, hall⟩
    constructor
    · intro s hhead
      obtain ⟨d, es, rfl⟩ := List.exists_cons_of_ne_nil hnil
      have hmap : ((sequences comp.length comp).map Prod.fst).head? = some d := by
        rcases hs with hs | hs <;> rw [hs] <;> rfl
      rw [List.head?_map, hhead] at hmap
      have he : s.1 = d := by simpa using hmap
      rw [he]
      exact hd d (by simp)
    · intro s hmem _
      rcases hout s hmem with hm | hz
      · exact hall s.1 hm
      · rw [hz]
        rfl

/-- What `exfat_split` made a name of: the last component of the path. -/
structure SplitName (path comp : List UInt8) (name : List Nat) : Prop where
  last : (components path).getLast? = some comp
  allowed : isAllowed comp = true
  ordinary : comp ≠ [] ∧ comp ≠ [dot] ∧ slash ∉ comp
  units : ∃ units, utf8ToUtf16 comp (exfatNameMax + 1) = .ok units ∧ name = padName units

/-- A component before the last one. -/
theorem SplitName.step {path comp : List UInt8} {name : List Nat} (hne : (getComp path).1 ≠ [])
    (h : SplitName (getComp path).2 comp name) : SplitName path comp name := by
  refine ⟨?_, h.allowed, h.ordinary, h.units⟩
  rw [components_getComp, if_neg hne, List.getLast?_cons, h.last]
  rfl

section
variable [Env]

theorem splitPath_name {fuel : Nat} {p : NodeId} {path : List UInt8} :
    Wp (fun _ => True) (splitPath fuel p path) w fun r _ =>
      ∀ dir existing name, r = .ok (dir, existing, name) → ∃ comp, SplitName path comp name := by
  induction fuel generalizing w p path with
  | zero => trivial
  | succ fuel ih =>
    simp only [splitPath]
    split
    · trivial
    rename_i hempty
    have hne : (getComp path).1 ≠ [] := by simpa using hempty
    split
    · refine ih.mono fun r v hr dir existing name hrun => ?_
      obtain ⟨comp, hs⟩ := hr dir existing name hrun
      exact ⟨comp, hs.step hne⟩
    rename_i hdot
    split
    · rename_i hlast
      have hput : ∀ {x : World} (e : Errno), Wp (fun _ => True) (do
          exfatPutNode p
          pure (.error e) : M (Except Errno (NodeId × Option NodeId × List Nat))) x
          fun r _ => ∀ dir existing name, r = .ok (dir, existing, name) →
            ∃ comp, SplitName path comp name := by
        intro x e
        exact wp_bind.mpr ((wp_const trivial).mono fun _ _ _ => nofun)
      split
      · exact hput _
      · rename_i hallowed
        simp only [wp_bind, nameToUtf16]
        cases hb : utf8ToUtf16 (getComp path).1 (exfatNameMax + 1) with
        | error e =>
          simp only [wp_bind, wp_exfatError, wp_pure]
          exact wp_bind.mp (hput e)
        | ok units =>
          have hname : SplitName path (getComp path).1 (padName units) := by
            refine ⟨?_, by simpa using hallowed, ⟨hne, hdot, slash_getComp path⟩, units, hb, rfl⟩
            rw [components_getComp, if_neg hne, (isLastComp_iff _).mp hlast]
            rfl
          simp only [wp_pure, wp_bind]
          refine (wp_const trivial).mono fun r x _ => ?_
          cases r with
          | ok j =>
            intro dir existing name hr
            cases hr
            exact ⟨_, hname⟩
          | error e =>
            cases e with
            | enoent =>
              intro dir existing name hr
              cases hr
              exact ⟨_, hname⟩
            | _ => exact hput _
    · simp only [wp_bind]
      refine (wp_const trivial).mono fun r x _ => ?_
      cases r with
      | error e => exact wp_bind.mpr ((wp_const trivial).mono fun _ _ _ => nofun)
      | ok j =>
        rw [wp_bind]
        refine (wp_const trivial).mono fun _ y _ => ih.mono fun r v hr dir existing name hrun => ?_
        obtain ⟨comp, hs⟩ := hr dir existing name hrun
        exact ⟨comp, hs.step hne⟩

/-- A name whose entry sets can be read back: those of a new file and of a renamed one. -/
def Readable (name : List Nat) : Prop :=
  ∀ (u : Nat → Nat) (w : World) (id : NodeId) (n : Node), w.nodes id = some n →
    (∀ attrib now, attrib < 2 ^ 16 → ∃ v, parseFileEntries id (commitEntries u name attrib now)
      (2 + nameEntries name) w = .ok (.ok, v)) ∧
    ∀ set k v, set.length = entrySize * k → parseFileEntries id set k w = .ok (.ok, v) →
      ∃ v', parseFileEntries id (renameEntries u (set.take (entrySize * 2)) name)
        (2 + nameEntries name) w = .ok (.ok, v')

/-- A name that a component of a path leads to. -/
def Addressable (name : List Nat) : Prop :=
  ∃ comp units, (comp ≠ [] ∧ comp ≠ [dot] ∧ slash ∉ comp) ∧
    utf8ToUtf16 comp (exfatNameMax + 1) = .ok units ∧ name = padName units

theorem readable_padName {us : List Nat} (h0 : us ≠ []) (hl : us.length ≤ exfatNameMax)
    (hu : ∀ x ∈ us, 0 < x ∧ x < 2 ^ 16) : Readable (padName us) := by
  obtain ⟨hs, -⟩ := storedName_padName h0 hl hu
  intro u w id n hn
  constructor
  · intro attrib now ha
    obtain ⟨v, m, hrun, -⟩ := commitEntries_read_back u hs ha now hn
    exact ⟨v, hrun⟩
  · intro set k v hlen hrun
    obtain ⟨m, v', m', -, hrun', -⟩ := renameEntries_read_back u hs hn hlen hrun rfl hn
    exact ⟨v', hrun'⟩

/-- The names `exfat_split` returns are legal exactly when no illegal character, and no zero at the
beginning, was written in more than one byte. -/
theorem split_name_legal_iff {path : List UInt8} {dir : NodeId} {existing : Option NodeId}
    {name : List Nat} (h : exfatSplit path w = .ok (.ok (dir, existing, name), v)) :
    (LegalName name ∧ Readable name ∧ Addressable name) ↔
      NoLongForms ((components path).getLast?.getD []) := by
  have hsplit : Wp (fun _ => True) (exfatSplit path) w fun r _ =>
      ∀ dir existing name, r = .ok (dir, existing, name) → ∃ comp, SplitName path comp name := by
    simp only [exfatSplit, wp_bind, wp_get]
    exact (wp_const trivial).mono fun _ _ _ => splitPath_name
  obtain ⟨comp, hs⟩ := hsplit.run h dir existing name rfl
  obtain ⟨units, hu, rfl⟩ := hs.units
  obtain ⟨ds, hd, hname, hl, hseq⟩ := name_characters hu
  have hiff := noLongForms_iff hs.allowed (sequences_nonempty hu hs.ordinary.1) hd hseq
  rw [hs.last, Option.getD_some, hiff, ← legalName_iff hd, ← hname]
  constructor
  · exact fun hp => hp.1
  · intro hp
    refine ⟨hp, ?_, comp, units, hs.ordinary, hu, rfl⟩
    rw [hname] at hp ⊢
    exact readable_padName (by
      rw [Ne, flatMap_toUtf16_nil]
      exact ((legalName_iff hd).mp hp).1) hl (flatMap_toUtf16_pos hd)

end

/-- A volume with an empty root directory. -/
def emptyRoot : World :=
  World.setNode { dev := fun _ => 0, sb := smallSb, upcase := some id, fresh := 1 } 0
    { attrib := exfatAttribDir, isCached := true, startCluster := 4, size := 512 }

/-- The run of `exfat_split` on that volume. -/
def splitsTo (path : List UInt8) (units : List Nat) : Bool :=
  match @exfatSplit calmEnv path emptyRoot with
  | .ok (r, _) => decide (r = .ok (0, none, padName units))
  | .error _ => false

theorem split_emptyRoot {path : List UInt8} {units : List Nat} (h : splitsTo path units = true) :
    ∃ v, @exfatSplit calmEnv path emptyRoot = .ok (.ok (0, none, padName units), v) := by
  unfold splitsTo at h
  cases hm : @exfatSplit calmEnv path emptyRoot with
  | error e => simp [hm] at h
  | ok r =>
    rw [hm] at h
    exact ⟨r.2, by rw [← of_decide_eq_true h]⟩

theorem split_name_legal_iff_letter :
    ∃ v, @exfatSplit calmEnv [0x61] emptyRoot = .ok (.ok (0, none, padName [0x61]), v) ∧
      ((LegalName (padName [0x61]) ∧ @Readable calmEnv (padName [0x61]) ∧
        Addressable (padName [0x61])) ↔
          NoLongForms ((components [0x61]).getLast?.getD [])) := by
  have hsplit : splitsTo [0x61] [0x61] = true := by decide +kernel
  obtain ⟨v, hrun⟩ := split_emptyRoot hsplit
  exact ⟨v, hrun, @split_name_legal_iff _ _ calmEnv _ _ _ _ hrun⟩

/-- The bytes `c0 af` pass the filter and make the name `/`; the bytes `c0 80` make an empty name. -/
theorem split_name_slash :
    (∃ v, @exfatSplit calmEnv [0xc0, 0xaf] emptyRoot = .ok (.ok (0, none, padName [0x2f]), v)) ∧
      ¬LegalName (padName [0x2f]) ∧
    (∃ v, @exfatSplit calmEnv [0xc0, 0x80] emptyRoot = .ok (.ok (0, none, padName [0]), v)) ∧
      ¬LegalName (padName [0]) := by
  refine ⟨split_emptyRoot (by decide +kernel), fun h => ?_, split_emptyRoot (by decide +kernel),
    fun h => ?_⟩
  · have := h.units 0x2f (List.mem_append_left _ (List.mem_singleton_self _))
    exact absurd this (by decide)
  · have := h.nonempty
    rw [utf16Length_padName] at this
    exact absurd this (by decide)

end Proofs

end Exfat
