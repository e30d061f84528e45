import Exfat.Lib.Trade
import Exfat.Proofs.Resolve
import Exfat.Proofs.Steady

namespace Exfat
open Lib

/-! References of nodes: what a call takes it gives back, but for the nodes it returns. -/

/-- A node that exists and is not cached. -/
def World.Uncached (w : World) (d : NodeId) : Prop := (w.nodes d).map Node.isCached = some false

namespace Proofs

/-- A mounted volume between calls: new nodes have new identifiers, and only a cached directory has
children. -/
structure Mounted (w : World) : Prop where
  bound : ∀ i, w.fresh ≤ i → w.nodes i = none
  bare : ∀ d, w.Uncached d → childOf w.nodes d = none
  below : ∀ i d, parentOf w.nodes i = some d → d < w.fresh ∧ ¬w.Uncached d

variable {w v u x : World} {dir i d : NodeId} {n m : Node} {ids : List NodeId}

theorem refs_none (h : w.nodes i = none) : refs w i = 0 := by simp [refs, h]

theorem refs_congr (h : (v.nodes i).map Node.references = (w.nodes i).map Node.references) :
    refs v i = refs w i := by rw [refs, refs, h]

theorem Steady.counts (h : Steady w v) : refs v = refs w := by
  funext i
  have hs := congrArg (Option.map Node.references) (h.stand i)
  rw [Option.map_map, Option.map_map] at hs
  exact refs_congr hs

theorem Still.counts (h : Still w v) : refs v = refs w := h.steady.counts

theorem Relinked.counts (h : Relinked w v) : refs v = refs w := by
  funext i
  have hs := congrArg (Option.map Node.references) (h.body i)
  rw [Option.map_map, Option.map_map] at hs
  exact refs_congr hs

/-- Whether a node is cached is part of its place. -/
theorem uncached_iff (h : ∀ j, (v.nodes j).map Node.place = (w.nodes j).map Node.place) :
    v.Uncached d ↔ w.Uncached d := by
  have hp := congrArg (Option.map fun p : _ × _ × _ × _ × Nat × Bool × Bool => p.2.2.2.2.2.1) (h d)
  rw [Option.map_map, Option.map_map] at hp
  exact Eq.congr_left hp

theorem Relinked.uncached (h : Relinked w v) : v.Uncached d ↔ w.Uncached d := by
  have hp := congrArg (Option.map Node.isCached) (h.body d)
  rw [Option.map_map, Option.map_map] at hp
  exact Eq.congr_left hp

theorem Relinked.bound (h : Relinked w v) (hb : ∀ i, w.fresh ≤ i → w.nodes i = none) (i : NodeId)
    (hi : v.fresh ≤ i) : v.nodes i = none := by
  have hs := h.body i
  rw [hb i (by rwa [h.rest] at hi)] at hs
  exact Option.map_eq_none_iff.mp hs

theorem bound_of_places (h : ∀ j, (v.nodes j).map Node.place = (w.nodes j).map Node.place)
    (hf : w.fresh ≤ v.fresh) (hb : ∀ i, w.fresh ≤ i → w.nodes i = none) (i : NodeId)
    (hi : v.fresh ≤ i) : v.nodes i = none := by
  have hs := h i
  rw [hb i (hf.trans hi)] at hs
  exact Option.map_eq_none_iff.mp hs

theorem Mounted.places (h : Mounted w)
    (hp : ∀ j, (v.nodes j).map Node.place = (w.nodes j).map Node.place) (hf : w.fresh ≤ v.fresh) :
    Mounted v := by
  obtain ⟨hpar, hchild, -, -⟩ := links_of_places hp
  refine ⟨bound_of_places hp hf h.bound, fun d hd => ?_, fun i d hi => ?_⟩
  · rw [hchild]
    exact h.bare d ((uncached_iff hp).mp hd)
  · rw [hpar] at hi
    obtain ⟨hlt, hd⟩ := h.below i d hi
    exact ⟨hlt.trans_le hf, fun hu => hd ((uncached_iff hp).mp hu)⟩

theorem Steady.places (h : Steady w v) (j : NodeId) :
    (v.nodes j).map Node.place = (w.nodes j).map Node.place := by
  have hs := congrArg (Option.map Node.place) (h.stand j)
  rwa [Option.map_map, Option.map_map] at hs

theorem Calm.places (h : Calm w v) (j : NodeId) :
    (v.nodes j).map Node.place = (w.nodes j).map Node.place := by
  have hs := congrArg (Option.map Node.place) (h.skel j)
  rwa [Option.map_map, Option.map_map] at hs

/-- A tree in which uncached directories have no children. -/
theorem TreeWF.mounted {kids : NodeId → List NodeId} (h : TreeWF w kids) : Mounted w where
  bound := h.bound
  bare := fun d hd => by
    obtain ⟨n, hn, hc⟩ := Option.map_eq_some_iff.mp hd
    have hl := (h.list d).head
    rwa [h.uncached d n hn hc] at hl
  below := fun i d hi => by
    have hk := (h.kid d i).mpr hi
    refine ⟨?_, fun hd => ?_⟩
    · by_contra hlt
      rw [h.free (h.bound d (Nat.le_of_not_lt hlt))] at hk
      cases hk
    · obtain ⟨n, hn, hc⟩ := Option.map_eq_some_iff.mp hd
      rw [h.uncached d n hn hc] at hk
      cases hk

section
variable {E : Halt → Prop} [Lenient E] [Env]

/-- A set that is parsed changes no references; a node made in vain is freed. -/
theorem parseFileEntry_counts (hb : ∀ i, w.fresh ≤ i → w.nodes i = none) (offset n : Nat) :
    Wp E (parseFileEntry dir offset n) w fun _ v => refs v = refs w := by
  simp only [parseFileEntry, wp_bind]
  apply (still_readEntries _ _ _ w).mono
  intro r v hv
  cases r with
  | error e => exact hv.counts
  | ok entries =>
    simp only [allocateNode, wp_bind]
    apply (still_mallocOk v).mono
    intro b u hu
    have hwu := Still.trans _ _ _ hv hu
    cases b with
    | false =>
      simp only [Bool.false_eq_true, if_false, wp_bind, wp_exfatError, wp_pure]
      exact hwu.counts
    | true =>
      have hnu : u.nodes u.fresh = none :=
        bound_of_places hwu.calm.places hwu.fresh hb _ le_rfl
      simp only [if_true, wp_bind, wp_get, wp_set, wp_pure]
      rw [wp_modifyNode (n := { name := padName [] }) (by simp [World.setNode])]
      apply (filled_parseFileEntries _ _ _).mono
      intro rc x hx
      have hother : ∀ i, i ≠ u.fresh → refs x i = refs w i := by
        intro i hi
        rw [← hwu.counts, refs, refs, hx.others i hi, World.setNode_ne _ _ hi]
        simp only
        rw [World.setNode_ne _ _ hi]
      have hnone : refs w u.fresh = 0 := refs_none (hb _ hwu.fresh)
      cases rc with
      | err e =>
        simp only [wp_bind, wp_freeNode, wp_pure]
        funext i
        by_cases hi : i = u.fresh
        · rw [hi, hnone]
          exact refs_none (if_pos rfl)
        · rw [← hother i hi]
          simp only [refs, if_neg hi]
      | ok =>
        rw [wp_pure]
        funext i
        by_cases hi : i = u.fresh
        · obtain ⟨m, hm, -, -, -, -, -, -, -, hr⟩ := hx.same _ (World.setNode_self _ _ _)
          rw [hi, hnone, refs_eq hm, hr]
        · exact hother i hi

theorem readdir_counts (hb : ∀ i, w.fresh ≤ i → w.nodes i = none) (fuel offset : Nat) :
    Wp E (readdir dir fuel offset) w fun _ v => refs v = refs w := by
  induction fuel generalizing w offset with
  | zero => exact lenient_fuel
  | succ fuel ih =>
    simp only [readdir, wp_bind]
    apply (still_readEntries _ _ _ w).mono
    intro r v hv
    have hbv := bound_of_places hv.calm.places hv.fresh hb
    cases r with
    | error e => exact hv.counts
    | ok entry =>
      dsimp only
      split
      · exact (parseFileEntry_counts hbv _ _).mono fun _ _ hr => hr.trans hv.counts
      · simp only [wp_bind]
        apply (steady_readdirOther _ _ _ v).mono
        intro rc u hu
        cases rc with
        | err e => exact hu.counts.trans hv.counts
        | ok =>
          have hbu := bound_of_places hu.places hu.fresh hbv
          exact (ih hbu _).mono fun _ _ hr => hr.trans (hu.counts.trans hv.counts)

end

/-- While a directory is being cached: `ids` are the nodes made so far, its children. -/
structure Filling (dir : NodeId) (w v : World) (ids : List NodeId) : Prop where
  inside : dir < w.fresh
  bound : ∀ i, v.fresh ≤ i → v.nodes i = none
  fresh : w.fresh ≤ v.fresh
  counts : refs v = refs w
  bare : ∀ d, d ≠ dir → v.Uncached d → childOf v.nodes d = none
  list : Dlist (nextOf v.nodes) (prevOf v.nodes) none (childOf v.nodes dir) ids
  nodup : ids.Nodup
  new : ∀ i ∈ ids, w.fresh ≤ i ∧ ∃ n, v.nodes i = some n
  below : ∀ i d, parentOf v.nodes i = some d → d < v.fresh ∧ (v.Uncached d → d = dir ∧ i ∈ ids)

theorem Mounted.filling (h : Mounted w) (hd : w.Uncached dir) : Filling dir w w [] where
  inside := by
    by_contra hlt
    rw [World.Uncached, h.bound dir (Nat.le_of_not_lt hlt)] at hd
    cases hd
  bound := h.bound
  fresh := le_rfl
  counts := rfl
  bare := fun d _ => h.bare d
  list := h.bare dir hd
  nodup := List.nodup_nil
  new := nofun
  below := fun i d hi => ⟨(h.below i d hi).1, fun hu => absurd hu (h.below i d hi).2⟩

theorem Filling.calm (h : Filling dir w v ids) (hc : Calm v u) (hr : refs u = refs v) :
    Filling dir w u ids := by
  obtain ⟨hpar, hchild, hnext, hprev⟩ := links_of_places hc.places
  refine ⟨h.inside, bound_of_places hc.places hc.fresh h.bound, h.fresh.trans hc.fresh,
    hr.trans h.counts, fun d hd hu => ?_, ?_, h.nodup, fun i hi => ?_, fun i d hi => ?_⟩
  · rw [hchild]
    exact h.bare d hd ((uncached_iff hc.places).mp hu)
  · rw [hnext, hprev, hchild]
    exact h.list
  · obtain ⟨hlt, n, hn⟩ := h.new i hi
    obtain ⟨m, hm, -⟩ := hc.node hn
    exact ⟨hlt, m, hm⟩
  · rw [hpar] at hi
    obtain ⟨hlt, hd⟩ := h.below i d hi
    exact ⟨hlt.trans_le hc.fresh, fun hu => hd ((uncached_iff hc.places).mp hu)⟩

/-- A node outside the tree has the links of no node. -/
theorem Spawned.links (h : Spawned i w v) (hn : w.nodes i = none) :
    parentOf v.nodes = parentOf w.nodes ∧ childOf v.nodes = childOf w.nodes ∧
      nextOf v.nodes = nextOf w.nodes ∧ prevOf v.nodes = prevOf w.nodes := by
  obtain ⟨m, hm, hl⟩ := h.node
  have hother : ∀ j, j ≠ i → (v.nodes j).map Node.place = (w.nodes j).map Node.place := by
    intro j hj
    have hs := congrArg (Option.map Node.place) (h.others j hj)
    rwa [Option.map_map, Option.map_map] at hs
  refine ⟨funext fun j => ?_, funext fun j => ?_, funext fun j => ?_, funext fun j => ?_⟩ <;>
  · by_cases hj : j = i
    · subst hj
      simp [parentOf, childOf, nextOf, prevOf, hm, hn, hl.parent, hl.child, hl.next, hl.prev]
    · have hp := hother j hj
      cases hv : v.nodes j <;> cases hw : w.nodes j <;>
        simp_all [parentOf, childOf, nextOf, prevOf, Node.place]

/-- One more node is linked. -/
theorem Filling.link {E : Halt → Prop} (hE : E .fault) (h : Filling dir w v ids)
    (hs : Spawned i v u) (hr : refs u = refs v) :
    Wp E (linkLast dir i ids.getLast?) u fun _ x => Filling dir w x (ids ++ [i]) := by
  have hvi : v.nodes i = none := h.bound i hs.old
  obtain ⟨hpar, hchild, hnext, hprev⟩ := hs.links hvi
  obtain ⟨m, hm, hl⟩ := hs.node
  have hnot : i ∉ ids := by
    intro hi
    obtain ⟨-, n, hn⟩ := h.new i hi
    rw [hvi] at hn
    cases hn
  have hold : ∀ d, d ≠ i → (u.Uncached d ↔ v.Uncached d) := by
    intro d hd
    have hp := congrArg (Option.map Node.isCached) (hs.others d hd)
    rw [Option.map_map, Option.map_map] at hp
    exact Eq.congr_left hp
  refine (linkLast_links hE hm ((prevOf_eq hm).trans hl.prev)).mono ?_
  rintro _ x ⟨hux, h1, h2, h3, h4⟩
  have hfresh : x.fresh = u.fresh := by rw [hux.rest]
  have hbu : ∀ j, u.fresh ≤ j → u.nodes j = none := by
    intro j hj
    have hji : j ≠ i := (hs.fresh.trans_le hj).ne'
    have ho := hs.others j hji
    rw [h.bound j (hs.old.trans (hs.fresh.le.trans hj))] at ho
    exact Option.map_eq_none_iff.mp ho
  have hchildi : childOf v.nodes i = none := by simp [childOf, hvi]
  refine ⟨h.inside, hux.bound hbu, ?_, hux.counts.trans (hr.trans h.counts), fun d hd hu => ?_,
    ?_, ?_, fun j hj => ?_, fun j d hj => ?_⟩
  · rw [hfresh]
    exact h.fresh.trans (hs.old.trans hs.fresh.le)
  · rw [h4, if_neg fun hc => hd hc.2, hchild]
    by_cases hdi : d = i
    · rw [hdi, hchildi]
    · exact h.bare d hd ((hold d hdi).mp (hux.uncached.mp hu))
  · refine linked_snoc ?_ h.nodup hnot ((nextOf_eq hm).trans hl.next) h2 h3 h4
    rw [hnext, hprev, hchild]
    exact h.list
  · rw [List.nodup_append]
    refine ⟨h.nodup, by simp, fun a ha b hb => ?_⟩
    rintro rfl
    exact hnot (List.mem_singleton.mp hb ▸ ha)
  · rcases List.mem_append.mp hj with hj | hj
    · obtain ⟨hlt, n, hn⟩ := h.new j hj
      have hji : j ≠ i := ne_of_mem_of_not_mem hj hnot
      have ho := hs.others j hji
      rw [hn] at ho
      obtain ⟨a, ha, -⟩ := Option.map_eq_some_iff.mp ho
      obtain ⟨b, hb, -⟩ := hux.node ha
      exact ⟨hlt, b, hb⟩
    · obtain rfl := List.mem_singleton.mp hj
      obtain ⟨b, hb, -⟩ := hux.node hm
      exact ⟨h.fresh.trans hs.old, b, hb⟩
  · rw [h1, Function.update_apply] at hj
    by_cases hji : j = i
    · rw [if_pos hji] at hj
      obtain rfl := Option.some.inj hj
      refine ⟨?_, fun _ => ⟨rfl, by simp [hji]⟩⟩
      rw [hfresh]
      exact h.inside.trans_le (h.fresh.trans (hs.old.trans hs.fresh.le))
    · rw [if_neg hji, hpar] at hj
      obtain ⟨hlt, hd⟩ := h.below j d hj
      have hdi : d ≠ i := (hlt.trans_le hs.old).ne
      refine ⟨hfresh ▸ (hlt.trans_le (hs.old.trans hs.fresh.le)), fun hu => ?_⟩
      obtain ⟨rfl, hmem⟩ := hd ((hold d hdi).mp (hux.uncached.mp hu))
      exact ⟨rfl, by simp [hmem]⟩

theorem uncached_setNode : (w.setNode i n).Uncached d ↔
    if d = i then n.isCached = false else w.Uncached d := by
  rw [World.Uncached, World.setNode_nodes]
  split
  · simp
  · rfl

theorem refs_setNode (hn : w.nodes i = some n) (hr : m.references = n.references) :
    refs (w.setNode i m) = refs w := by
  funext j
  refine refs_congr ?_
  rw [World.setNode_nodes]
  split
  · rename_i hj
    rw [hj, hn, Option.map_some, Option.map_some, hr]
  · rfl

theorem bound_setNode (hb : ∀ j, w.fresh ≤ j → w.nodes j = none) (hn : w.nodes i = some n)
    (j : NodeId) (hj : (w.setNode i m).fresh ≤ j) : (w.setNode i m).nodes j = none := by
  have hji : j ≠ i := by
    rintro rfl
    rw [hb j hj] at hn
    cases hn
  exact (World.setNode_ne _ _ hji).trans (hb j hj)

/-- The directory is marked as cached. -/
theorem Filling.done (h : Filling dir w v ids) (hm : v.nodes dir = some m) :
    Mounted (v.setNode dir { m with isCached := true }) ∧
      refs (v.setNode dir { m with isCached := true }) = refs w := by
  refine ⟨⟨bound_setNode h.bound hm, fun d hd => ?_, fun i d hi => ?_⟩,
    (refs_setNode (m := { m with isCached := true }) hm rfl).trans h.counts⟩
  · rw [uncached_setNode] at hd
    split at hd
    · cases hd
    · rename_i hdd
      rw [childOf_setNode, if_neg hdd]
      exact h.bare d hdd hd
  · have hpar : parentOf v.nodes i = some d := by
      rw [parentOf_setNode] at hi
      split at hi
      · rename_i hid
        rw [hid, parentOf_eq hm]
        exact hi
      · exact hi
    obtain ⟨hlt, hd⟩ := h.below i d hpar
    refine ⟨hlt, fun hu => ?_⟩
    rw [uncached_setNode] at hu
    split at hu
    · cases hu
    · rename_i hdd
      exact hdd (hd hu).1

/-- With fewer nodes no directory became uncached. -/
theorem uncached_of_fewer (h : ∀ j, v.nodes j = none ∨ v.nodes j = w.nodes j) (hd : v.Uncached d) :
    w.Uncached d := by
  rcases h d with hn | hn
  · rw [World.Uncached, hn] at hd
    cases hd
  · rwa [World.Uncached, hn] at hd

/-- With fewer nodes there are no other links. -/
theorem link_of_fewer {β : Type} {f : Node → Option β} {b : β}
    (h : ∀ j, v.nodes j = none ∨ v.nodes j = w.nodes j) (hj : (v.nodes i).bind f = some b) :
    (w.nodes i).bind f = some b := by
  rcases h i with hn | hn
  · rw [hn] at hj
    cases hj
  · rwa [hn] at hj

/-- A node is freed. -/
theorem Mounted.fewer (h : Mounted w) (hv : ∀ j, v.nodes j = none ∨ v.nodes j = w.nodes j)
    (hf : v.fresh = w.fresh) : Mounted v := by
  refine ⟨fun i hi => ?_, fun d hd => ?_, fun i d hi => ?_⟩
  · rcases hv i with hn | hn
    · exact hn
    · exact hn.trans (h.bound i (hf ▸ hi))
  · cases hc : childOf v.nodes d with
    | none => rfl
    | some b =>
      have hw := h.bare d (uncached_of_fewer hv hd)
      rw [childOf, link_of_fewer hv hc] at hw
      cases hw
  · obtain ⟨hlt, hd⟩ := h.below i d (link_of_fewer hv hi)
    exact ⟨hf ▸ hlt, fun hu => hd (uncached_of_fewer hv hu)⟩

/-- The nodes made are freed again, and the directory has no children. -/
theorem Filling.undone (h : Filling dir w v ids) (hb : ∀ i, w.fresh ≤ i → w.nodes i = none)
    (hm : (v.freed ids).nodes dir = some m) :
    Mounted ((v.freed ids).setNode dir { m with child := none }) ∧
      refs ((v.freed ids).setNode dir { m with child := none }) = refs w := by
  have hbound : ∀ j, (v.freed ids).fresh ≤ j → (v.freed ids).nodes j = none := by
    intro j hj
    simp only [World.freed]
    split
    · rfl
    · exact h.bound j hj
  have hrefs : refs (v.freed ids) = refs w := by
    funext i
    by_cases hi : i ∈ ids
    · rw [refs_none (hb i (h.new i hi).1)]
      exact refs_none (if_pos hi)
    · rw [← h.counts]
      exact congrArg (fun o : Option Node => (o.map Node.references).getD 0) (if_neg hi)
  have hfewer : ∀ j, (v.freed ids).nodes j = none ∨ (v.freed ids).nodes j = v.nodes j := fun j =>
    ite_eq_or_eq _ _ _
  refine ⟨⟨bound_setNode hbound hm, fun d hd => ?_, fun i d hi => ?_⟩,
    (refs_setNode (m := { m with child := none }) hm rfl).trans hrefs⟩
  · rw [childOf_setNode]
    split
    · rfl
    · rename_i hdd
      rw [uncached_setNode, if_neg hdd] at hd
      cases hc : childOf (v.freed ids).nodes d with
      | none => rfl
      | some b =>
        have hv := h.bare d hdd (uncached_of_fewer hfewer hd)
        rw [childOf, link_of_fewer hfewer hc] at hv
        cases hv
  · have hpar : parentOf (v.freed ids).nodes i = some d := by
      rw [parentOf_setNode] at hi
      split at hi
      · rename_i hid
        rw [hid, parentOf_eq hm]
        exact hi
      · exact hi
    obtain ⟨hlt, hd⟩ := h.below i d (link_of_fewer hfewer hpar)
    refine ⟨hlt, fun hu => ?_⟩
    have hu' : (v.freed ids).Uncached d := by
      rw [uncached_setNode] at hu
      split at hu
      · rename_i hdd
        rw [World.Uncached, hdd, hm, Option.map_some]
        exact congrArg some hu
      · exact hu
    have hnone : (v.freed ids).nodes i = none := if_pos (hd (uncached_of_fewer hfewer hu')).2
    rw [parentOf, hnone] at hpar
    cases hpar

/-- All children are found. -/
theorem Filling.children {E : Halt → Prop} [Lenient E] (h : Filling dir w v ids) :
    Wp E (children dir) v fun l x => l = ids ∧ v = x := by
  have hlen : ids.length ≤ v.fresh := by
    refine nodup_length_le h.nodup fun i hi => ?_
    obtain ⟨-, m, hm⟩ := h.new i hi
    by_contra hlt
    rw [h.bound i (Nat.le_of_not_lt hlt)] at hm
    cases hm
  have hl := h.list
  simp only [Exfat.children, wp_bind]
  rw [wp_getNode_iff lenient_fault]
  intro n hd
  rw [childOf_eq hd] at hl
  simp only [wp_get]
  exact siblings_dlist hl (fun j hj => (h.new j hj).2) (by omega)

section
variable {E : Halt → Prop} [Lenient E] [Env]

theorem cacheLoop_fills (h : Filling dir w v ids) (fuel offset : Nat) :
    Wp E (cacheLoop dir fuel ids.getLast? offset) v fun _ u => ∃ ids', Filling dir w u ids' := by
  induction fuel generalizing v ids offset with
  | zero => exact lenient_fuel
  | succ fuel ih =>
    simp only [cacheLoop, dirFuel, wp_bind]
    rw [wp_getNode_iff lenient_fault]
    intro m hm
    simp only [wp_pure]
    refine ((readdir_counts h.bound _ offset).both (readdir_spec h.bound _ offset)).mono ?_
    rintro r u ⟨hr, h1, h2⟩
    cases r with
    | error e => exact ⟨ids, h.calm (h1 e rfl) hr⟩
    | ok p =>
      obtain ⟨id, o⟩ := p
      simp only [wp_bind]
      refine (h.link lenient_fault (h2 id o rfl) hr).mono ?_
      intro _ x hx
      have hlast : some id = (ids ++ [id]).getLast? := by simp
      rw [hlast]
      exact ih hx _

/-- `exfat_cache_directory` keeps all references: the nodes it frees again are not held. -/
theorem exfatCacheDirectory_counts (h : Mounted w) (dir : NodeId) :
    Wp E (exfatCacheDirectory dir) w fun _ v => Mounted v ∧ refs v = refs w := by
  simp only [exfatCacheDirectory, wp_bind]
  rw [wp_getNode_iff lenient_fault]
  intro n hn
  cases hc : n.isCached with
  | true => exact ⟨h, rfl⟩
  | false =>
    have hun : w.Uncached dir := by rw [World.Uncached, hn, Option.map_some, hc]
    simp only [Bool.false_eq_true, if_false, dirFuel, wp_bind, wp_getNode hn, wp_pure]
    have hstart : Filling dir w w [] := h.filling hun
    refine (cacheLoop_fills hstart _ 0).mono ?_
    rintro rc v ⟨ids, hv⟩
    split
    · simp only [wp_bind]
      refine hv.children.mono ?_
      rintro L _ ⟨rfl, rfl⟩
      refine (freeNodes_spec L).mono ?_
      rintro _ _ rfl
      rw [wp_modifyNode_iff lenient_fault]
      exact fun m hm => hv.undone h.bound hm
    · simp only [wp_bind]
      rw [wp_modifyNode_iff lenient_fault]
      exact fun m hm => hv.done hm

end

/-- A node that exists and is cached. -/
def Cached (w : World) (d : NodeId) : Prop := (w.nodes d).map Node.isCached = some true

/-- A mounted volume on which the directories of a list are cached. -/
def Sound (C : List NodeId) (w : World) : Prop := Mounted w ∧ ∀ d ∈ C, Cached w d

/-- The nodes kept their references and what a mounted volume is about. -/
structure Alike (w v : World) : Prop where
  fresh : w.fresh ≤ v.fresh
  cached : ∀ i, (v.nodes i).map Node.isCached = (w.nodes i).map Node.isCached
  parent : parentOf v.nodes = parentOf w.nodes
  child : childOf v.nodes = childOf w.nodes
  counts : refs v = refs w

theorem Steady.alike (h : Steady w v) : Alike w v := by
  obtain ⟨hpar, hchild, -, -⟩ := links_of_places h.places
  refine ⟨h.fresh, fun i => ?_, hpar, hchild, h.counts⟩
  have hs := congrArg (Option.map Node.isCached) (h.stand i)
  rwa [Option.map_map, Option.map_map] at hs

theorem alike_setNode (hn : w.nodes i = some n) (hr : m.references = n.references)
    (hp : m.parent = n.parent) (hc : m.child = n.child) (hca : m.isCached = n.isCached) :
    Alike w (w.setNode i m) := by
  refine ⟨le_rfl, fun j => ?_, funext fun j => ?_, funext fun j => ?_, refs_setNode hn hr⟩
  · rw [World.setNode_nodes]
    split
    · rename_i hj
      rw [hj, hn, Option.map_some, Option.map_some, hca]
    · rfl
  · rw [parentOf_setNode]
    split
    · rename_i hj
      rw [hj, parentOf_eq hn, hp]
    · rfl
  · rw [childOf_setNode]
    split
    · rename_i hj
      rw [hj, childOf_eq hn, hc]
    · rfl

theorem Sound.alike {C : List NodeId} (h : Sound C w) (ha : Alike w v) : Sound C v := by
  obtain ⟨hm, hc⟩ := h
  have hun : ∀ d, v.Uncached d → w.Uncached d := fun d hd => (ha.cached d).symm.trans hd
  refine ⟨⟨fun i hi => ?_, fun d hd => ?_, fun i d hi => ?_⟩, fun d hd => ?_⟩
  · have hs := ha.cached i
    rw [hm.bound i (ha.fresh.trans hi)] at hs
    exact Option.map_eq_none_iff.mp hs
  · rw [ha.child]
    exact hm.bare d (hun d hd)
  · rw [ha.parent] at hi
    obtain ⟨hlt, hd⟩ := hm.below i d hi
    exact ⟨hlt.trans_le ha.fresh, fun hu => hd (hun d hu)⟩
  · exact (ha.cached d).trans (hc d hd)

/-- One reference of a node. -/
def hold (i : NodeId) : NodeId → Int := Pi.single i 1

/-- A caller that holds `d` runs `m` and holds `g` then; the directories of `C` are cached before
and after. -/
def Balance {α : Type} (C : List NodeId) (d : NodeId → Int) (m : M α) (g : α → NodeId → Int) :
    Prop :=
  Trade (· ≠ belowZero) refs (Sound C) d m (fun _ => Sound C) g

section
variable {α β : Type} {C : List NodeId} {d e : NodeId → Int} {m : M α} {g : α → NodeId → Int}

theorem balance_pure (a : α) (h : d = g a) : Balance C d (pure a : M α) g := by
  subst h
  exact trade_pure fun _ hs => hs

theorem balance_bug (s : String) (hs : s ≠ "reference counter of '%s' is below zero") :
    Balance C d (exfatBug s : M α) g := trade_throw (lenient_bug (E := (· ≠ belowZero)) hs)

theorem balance_bind {f : α → M β} {k : β → NodeId → Int} (hm : Balance C d m g)
    (hf : ∀ a, Balance C (g a) (f a) k) : Balance C d (m >>= f) k := Trade.bind hm hf

theorem balance_ite {c : Prop} [Decidable c] {n : M α} (hm : c → Balance C d m g)
    (hn : ¬c → Balance C d n g) : Balance C d (if c then m else n) g := trade_ite hm hn

theorem balance_alike (h : Safe (· ≠ belowZero) Alike m) : Balance C d m fun _ => d := by
  intro s hs _
  refine (h s).mono fun a t ht => ⟨hs.alike ht, ?_⟩
  rw [ht.counts, sub_add_cancel]

theorem balance_steady (h : Safe (· ≠ belowZero) Steady m) : Balance C d m fun _ => d :=
  balance_alike (h.mono fun _ _ => Steady.alike)

theorem balance_still (h : Safe (· ≠ belowZero) Still m) : Balance C d m fun _ => d :=
  balance_steady (steady_of h)

theorem balance_modifyNode (i : NodeId) {f : Node → Node} (hf : ∀ n,
    (f n).references = n.references ∧ (f n).parent = n.parent ∧ (f n).child = n.child ∧
      (f n).isCached = n.isCached) : Balance C d (modifyNode i f) fun _ => d := by
  refine balance_alike fun s => ?_
  rw [wp_modifyNode_iff lenient_fault]
  intro n hn
  obtain ⟨h1, h2, h3, h4⟩ := hf n
  exact alike_setNode hn h1 h2 h3 h4

/-- A change of a node's references. -/
theorem Sound.counted (h : Sound C w) (hn : w.nodes i = some n) (k : Int) :
    Sound C (w.setNode i { n with references := k }) := by
  have hp : ∀ j, ((w.setNode i { n with references := k }).nodes j).map Node.place =
      (w.nodes j).map Node.place := by
    intro j
    rw [World.setNode_nodes]
    split
    · rename_i hj
      rw [hj, hn]
      rfl
    · rfl
  refine ⟨h.1.places hp le_rfl, fun d hd => ?_⟩
  rw [Cached, World.setNode_nodes]
  split
  · rename_i hdi
    have hc := h.2 d hd
    rw [hdi, Cached, hn] at hc
    exact hc
  · exact h.2 d hd

theorem refs_counted (hn : w.nodes i = some n) (k : Int) :
    refs (w.setNode i { n with references := k }) = Function.update (refs w) i k := by
  funext j
  by_cases hj : j = i
  · subst hj
    rw [refs_eq (World.setNode_self _ _ _), Function.update_self]
  · rw [Function.update_of_ne hj, refs, refs, World.setNode_ne _ _ hj]

/-- A reference is taken. -/
theorem balance_get (i : NodeId) : Balance C d (exfatGetNode i) fun _ => d + hold i := by
  intro s hs _
  rw [exfatGetNode, wp_modifyNode_iff lenient_fault]
  intro n hn
  refine ⟨hs.counted hn _, ?_⟩
  rw [refs_counted hn]
  funext j
  by_cases hj : j = i
  · subst hj
    simp only [hold, Function.update_self, Pi.add_apply, Pi.sub_apply, Pi.single_eq_same,
      refs_eq hn]
    ring
  · simp [hold, hj]

/-- A reference that is held can be given back. -/
theorem balance_put (hd : 0 ≤ d) (i : NodeId) (he : e = d + hold i) :
    Balance C e (exfatPutNode i) fun _ => d := by
  subst he
  intro s hs hle
  simp only [exfatPutNode, wp_bind]
  rw [wp_modifyNode_iff lenient_fault]
  intro n hn
  have hone : 1 ≤ n.references := by
    have h := hle i
    rw [refs_eq hn] at h
    have h0 := hd i
    simp only [hold, Pi.add_apply, Pi.single_eq_same, Pi.zero_apply] at h h0
    omega
  have hpost : Sound C (s.setNode i { n with references := n.references - 1 }) ∧
      refs (s.setNode i { n with references := n.references - 1 }) = refs s - (d + hold i) + d := by
    refine ⟨hs.counted hn _, ?_⟩
    rw [refs_counted hn]
    funext j
    by_cases hj : j = i
    · subst hj
      simp only [hold, Function.update_self, Pi.add_apply, Pi.sub_apply, Pi.single_eq_same,
        refs_eq hn]
      ring
    · simp [hold, hj]
  simp only [wp_getNode_setNode]
  rw [if_neg (by simp only [not_lt]; omega)]
  simp only [wp_bind, wp_get]
  split
  · simp only [wp_bind]
    refine (still_exfatGetName (E := (· ≠ belowZero)) _ _).mono fun _ t ht => ?_
    rw [wp_exfatWarn]
    exact ⟨hpost.1.alike ht.steady.alike, ht.counts.trans hpost.2⟩
  · exact hpost

/-- A call that gives a reference back and returns. -/
theorem balance_return (hd : 0 ≤ d) (i : NodeId) (he : e = d + hold i) (a : α) (ha : d = g a) :
    Balance C e (do exfatPutNode i; pure a) g :=
  balance_bind (balance_put hd i he) fun _ => balance_pure a ha

end

end Proofs

end Exfat
