import Exfat.Proofs.Marks

namespace Exfat
open Lib

/-! `exfat_cache_directory` on a subdirectory: when it leaves the bitmap and the label of the volume
alone. -/

namespace Proofs

/-- Whatever `readdir` met, the upper case table is the same, and a directory that was not marked as
cached still is not. -/
structure Outside (dir : NodeId) (w v : World) : Prop where
  upcase : v.upcase = w.upcase
  repair : v.repair = w.repair
  uncached : (∀ n, w.nodes dir = some n → n.isCached = false) →
    ∀ n, v.nodes dir = some n → n.isCached = false

variable {dir : NodeId} {w v x : World}

theorem Outside.trans (h : Outside dir w v) (h' : Outside dir v x) : Outside dir w x :=
  ⟨h'.upcase.trans h.upcase, h'.repair.trans h.repair, fun hw => h'.uncached (h.uncached hw)⟩

theorem Aside.outside (h : Aside dir w v) : Outside dir w v := ⟨h.upcase, h.repair, h.uncached⟩

theorem Stays.outside (h : Stays w v) : Outside dir w v :=
  ⟨h.upcase, h.repair, fun hw n hn => hw n (h.nodes ▸ hn)⟩

/-- The start cluster that an entry gives to the bitmap of the volume. -/
def bitmapStart (entry : List UInt8) : Option Nat :=
  if entryType entry 0 = exfatEntryBitmap then some (leAt entry 20 4) else none

/-- The contents that an entry gives to it. -/
def bitmapChunk (sb : SuperBlock) (dev : Store) (entry : List UInt8) :
    Option (Option (Nat → Bool)) :=
  if entryType entry 0 = exfatEntryBitmap ∧ bitmapFits sb entry = true then
    some (some (bitmapBitsOn sb dev entry))
  else none

/-- The last entries that reach the bitmap and each byte of the label say what the volume has in
memory. -/
structure Restores (w : World) (es : List (List UInt8)) : Prop where
  start : ∀ c ∈ (es.filterMap bitmapStart).getLast?, c = w.cmap.startCluster
  chunk : ∀ f ∈ (es.filterMap (bitmapChunk w.sb w.dev)).getLast?, f = w.cmap.chunk
  label : ∀ i, ∀ b ∈ (es.filterMap fun e => (labelWrites e)[i]?).getLast?,
    b = w.labelBuffer.getD i 0

/-- An entry that is no clusters bitmap, and writes no byte to the label that is not there. -/
def Harmless (w : World) (entry : List UInt8) : Prop :=
  entryType entry 0 ≠ exfatEntryBitmap ∧
    ∀ i, ∀ b ∈ (labelWrites entry)[i]?, b = w.labelBuffer.getD i 0

/-- The bitmap, the upper case table and the label are as they were. -/
structure Untouched (w v : World) : Prop where
  cmap : v.cmap = w.cmap
  upcase : v.upcase = w.upcase
  label : ∀ i, v.labelBuffer.getD i 0 = w.labelBuffer.getD i 0

/-- A directory of a mounted volume, and the bitmap there. -/
structure Subdirectory (w : World) (dir : NodeId) (n : Node) : Prop where
  node : w.nodes dir = some n
  bound : dir < w.fresh
  isDir : n.isDir = true
  size : n.size ≤ w.sb.clusterCount * w.sb.clusterSize
  fptr : n.fptrIndex = 0 → n.fptrCluster = n.startCluster
  count : w.sb.clusterCount < 2 ^ 32
  loaded : w.upcase.isSome = true
  bitmap : w.cmap.size = w.sb.clusterCount
  chunk : w.cmap.chunkSize = w.sb.clusterCount

theorem mem_of_filterMap_getLast? {α β : Type} {es : List α} {f : α → Option β} {b : β}
    (h : b ∈ (es.filterMap f).getLast?) : ∃ a ∈ es, f a = some b :=
  List.mem_filterMap.mp (List.mem_of_getLast? h)

theorem Restores.of_harmless {es : List (List UInt8)} (h : ∀ entry ∈ es, Harmless w entry) :
    Restores w es where
  start c hc := by
    obtain ⟨entry, he, hset⟩ := mem_of_filterMap_getLast? hc
    rw [bitmapStart, if_neg (h entry he).1] at hset
    cases hset
  chunk f hf := by
    obtain ⟨entry, he, hset⟩ := mem_of_filterMap_getLast? hf
    rw [bitmapChunk, if_neg fun hx => (h entry he).1 hx.1] at hset
    cases hset
  label i b hb := by
    obtain ⟨entry, he, hset⟩ := mem_of_filterMap_getLast? hb
    exact (h entry he).2 i b hset

theorem getD_eq_self {α : Type} {o : Option α} {a : α} : o.getD a = a ↔ ∀ b ∈ o, b = a := by
  cases o with
  | none => simp
  | some b => simp

section
variable [Env]

theorem readdir_outside {fuel off : Nat} (hu : w.upcase.isSome = true) (hr : w.repair = .no) :
    Wp (fun _ => True) (readdir dir fuel off) w fun _ v => Outside dir w v := by
  induction fuel generalizing w off with
  | zero => trivial
  | succ fuel ih =>
    have hentry : Frame (Aside dir) (readEntries dir 1 off) := aside_readEntries dir 1 off
    have hfile : ∀ k, Frame (Aside dir) (parseFileEntry dir off k) := aside_parseFileEntry dir off
    simp only [readdir, wp_bind]
    refine (hentry w).mono fun r a ha => ?_
    cases r with
    | error e => exact ha.outside
    | ok entry =>
      dsimp only
      split
      · exact (hfile _ a).mono fun r b hb => ha.outside.trans hb.outside
      · simp only [wp_bind]
        refine (readdirOther_marks dir off (ha.upcase ▸ hu) (ha.repair.trans hr)).mono ?_
        rintro rc b ⟨hb, -⟩
        have hwb := ha.outside.trans hb.outside
        cases rc with
        | err e => exact hwb
        | ok => exact (ih (hwb.upcase ▸ hu) (hwb.repair.trans hr)).mono fun _ _ hv => hwb.trans hv

theorem cacheLoop_outside {fuel off : Nat} {current : Option NodeId} (hu : w.upcase.isSome = true)
    (hr : w.repair = .no) :
    Wp (fun _ => True) (cacheLoop dir fuel current off) w fun _ v => Outside dir w v := by
  induction fuel generalizing w off current with
  | zero => trivial
  | succ fuel ih =>
    simp only [cacheLoop, dirFuel, wp_bind]
    rw [wp_getNode_iff trivial]
    intro n _
    simp only [wp_pure]
    refine (readdir_outside hu hr).mono fun r a ha => ?_
    cases r with
    | error e => exact ha
    | ok p =>
      have hlast : Frame (Aside dir) (linkLast dir p.1 current) := aside_linkLast dir p.1 current
      simp only [wp_bind]
      refine (hlast a).mono fun _ b hb => ?_
      have hwb := ha.trans hb.outside
      exact (ih (hwb.upcase ▸ hu) (hwb.repair.trans hr)).mono fun _ v hv => hwb.trans hv

/-- After an error a directory has no child and is not marked as cached. -/
theorem exfatCacheDirectory_outside (hu : w.upcase.isSome = true) (hr : w.repair = .no) :
    Wp (fun _ => True) (exfatCacheDirectory dir) w fun rc v => v.upcase = w.upcase ∧
      (rc ≠ .ok → ∃ n, v.nodes dir = some n ∧ n.child = none ∧ n.isCached = false) := by
  simp only [exfatCacheDirectory, dirFuel, wp_bind]
  rw [wp_getNode_iff trivial]
  intro n hn
  split
  · exact ⟨rfl, fun h => absurd rfl h⟩
  rename_i hc
  have huncached : ∀ m, w.nodes dir = some m → m.isCached = false := by
    intro m hm
    obtain rfl := Option.some.inj (hn.symm.trans hm)
    simpa using hc
  simp only [wp_bind, wp_getNode hn, wp_pure]
  refine (cacheLoop_outside hu hr).mono fun e a ha => ?_
  split
  · simp only [wp_bind]
    have hids : Frame (Aside dir) (children dir) := aside_children dir
    have hfree : ∀ ids, Frame (Aside dir) (freeNodes ids) := aside_freeNodes
    refine (hids a).mono fun ids b hb => (hfree ids b).mono fun _ c hc => ?_
    have hwc := ha.trans (hb.outside.trans hc.outside)
    rw [wp_modifyNode_iff trivial]
    intro m hm
    exact ⟨hwc.upcase, fun _ => ⟨_, World.setNode_self _ _ _, rfl, hwc.uncached huncached m hm⟩⟩
  · rw [wp_bind, wp_modifyNode_iff trivial]
    intro m _
    exact ⟨ha.upcase, fun h => absurd rfl h⟩

theorem Subdirectory.reader {n : Node} (h : Subdirectory w dir n) (hb : Honest w.sb)
    (hr : w.repair = .no) : Reader dir w 0 (dirData w.sb w.dev n) where
  node := by
    refine ⟨n, heldClusters w.sb w.dev n, h.node, h.isDir, heldClusters_held _ _ _,
      Or.inr ⟨clusterSize_pos w.sb, h.fptr⟩, ?_, rfl⟩
    exact h.size.trans (Nat.mul_le_mul_right _ h.count.le)
  honest := hb
  loaded := h.loaded
  repair := hr
  bound := h.bound

/-- What caching a directory does to the memory of the volume. -/
theorem exfatCacheDirectory_marks {n : Node} (h : Subdirectory w dir n) (hb : Honest w.sb)
    (hr : w.repair = .no) :
    Wp (fun _ => True) (exfatCacheDirectory dir) w fun _ v =>
      (n.isCached = true → marksOf v = marksOf w) ∧
      (n.isCached = false → ∃ done left, Passed w.sb w.dev done (marksOf w) (marksOf v) ∧
        metOf w.sb (dirData w.sb w.dev n) = done ++ left ∧ (Env.Quiet → left = [])) := by
  simp only [exfatCacheDirectory, dirFuel, wp_bind, wp_getNode h.node]
  split
  · rename_i hc
    exact ⟨fun _ => rfl, fun hf => by simp [hf] at hc⟩
  rename_i hc
  have hnot : n.isCached = false := by simpa using hc
  simp only [wp_bind, wp_getNode h.node, wp_pure, hnot, Bool.false_eq_true, false_imp_iff, true_and,
    true_imp_iff]
  refine (cacheLoop_marks (h.reader hb hr) (by simp)).mono ?_
  rintro e a hpass
  split
  · simp only [wp_bind]
    have hids : Frame (Aside dir) (children dir) := aside_children dir
    have hfree : ∀ ids, Frame (Aside dir) (freeNodes ids) := aside_freeNodes
    refine (hids a).mono fun ids b hb => (hfree ids b).mono fun _ c hc => ?_
    rw [wp_modifyNode_iff trivial]
    intro m _
    rwa [← marksOf_aside hb, ← marksOf_aside hc] at hpass
  · rw [wp_bind, wp_modifyNode_iff trivial]
    intro m _
    exact hpass

section
variable {sb : SuperBlock} {dev : Store} {es : List (List UInt8)} {V X : Marks}

theorem Passed.start (h : Passed sb dev es V X) : X.cmap.startCluster =
    (es.filterMap bitmapStart).getLast?.getD V.cmap.startCluster := by
  refine h.latest (fun V => V.cmap.startCluster) bitmapStart fun entry V U hm => ?_
  by_cases ht : entryType entry 0 = exfatEntryBitmap
  · obtain ⟨chunk, -, hc⟩ := hm.cmap ht
    rw [hc, bitmapStart, if_pos ht]
    rfl
  · rw [hm.other ht, bitmapStart, if_neg ht]
    rfl

theorem Passed.chunk (hq : Env.Quiet) (h : Passed sb dev es V X) : X.cmap.chunk =
    (es.filterMap (bitmapChunk sb dev)).getLast?.getD V.cmap.chunk := by
  refine h.latest (fun V => V.cmap.chunk) (bitmapChunk sb dev) fun entry V U hm => ?_
  by_cases ht : entryType entry 0 = exfatEntryBitmap
  · obtain ⟨chunk, hchunk, hc⟩ := hm.cmap ht
    rw [hc, hchunk hq]
    cases hfit : bitmapFits sb entry with
    | true =>
      rw [bitmapChunk, if_pos ⟨ht, hfit⟩]
      simp only [markedCmap, hfit, if_true, Option.getD_some]
    | false =>
      rw [bitmapChunk, if_neg fun hx => Bool.false_ne_true (hfit.symm.trans hx.2)]
      simp only [markedCmap, hfit, Bool.false_eq_true, if_false, Option.getD_none]
  · rw [hm.other ht, bitmapChunk, if_neg fun hx => ht hx.1]
    rfl

theorem Passed.label (h : Passed sb dev es V X) (i : Nat) : X.label i =
    (es.filterMap fun e => (labelWrites e)[i]?).getLast?.getD (V.label i) :=
  h.latest (fun V => V.label i) (fun e => (labelWrites e)[i]?) fun _ _ _ hm => hm.label i

/-- What no entry changes is the same after all of them. -/
theorem Passed.same {α : Type} (h : Passed sb dev es V X) (g : Marks → α) {a : α}
    (hf : ∀ entry ∈ es, ∀ V U, Marked sb dev entry V U → g V = a → g U = a) (ha : g V = a) :
    g X = a := by
  induction h with
  | nil V => exact ha
  | cons head rest ih =>
    exact ih (fun e he => hf e (List.mem_cons_of_mem _ he))
      (hf _ List.mem_cons_self _ _ head ha)

/-- The size of the bitmap is that of the volume, whatever entries are met. -/
theorem Passed.sizes (h : Passed sb dev es V X) (hs : V.cmap.size = sb.clusterCount)
    (hc : V.cmap.chunkSize = sb.clusterCount) :
    X.cmap.size = V.cmap.size ∧ X.cmap.chunkSize = V.cmap.chunkSize ∧ X.cmap.dirty = V.cmap.dirty := by
  have hsame := h.same (fun U => (U.cmap.size, U.cmap.chunkSize, U.cmap.dirty))
    (a := (sb.clusterCount, sb.clusterCount, V.cmap.dirty)) (fun entry _ W U hm hW => ?_) (by rw [hs, hc])
  · rw [hs, hc]
    simpa using hsame
  · by_cases ht : entryType entry 0 = exfatEntryBitmap
    · obtain ⟨chunk, -, hU⟩ := hm.cmap ht
      simp only [Prod.mk.injEq] at hW
      rw [hU]
      simp only [markedCmap, hW.1, hW.2.1, hW.2.2, ite_self]
    · rw [hm.other ht]
      exact hW

omit [Env] in
theorem Cmap.eq_iff {a b : Cmap} : a = b ↔ a.startCluster = b.startCluster ∧ a.size = b.size ∧
    a.chunk = b.chunk ∧ a.chunkSize = b.chunkSize ∧ a.dirty = b.dirty := by
  cases a
  cases b
  simp only [Cmap.mk.injEq]

/-- Entries leave the memory of the volume as it was exactly if the last ones restore it. -/
theorem Passed.restores_iff (hq : Env.Quiet) (h : Passed w.sb w.dev es (marksOf w) X)
    (hs : w.cmap.size = w.sb.clusterCount) (hc : w.cmap.chunkSize = w.sb.clusterCount) :
    (X.cmap = w.cmap ∧ ∀ i, X.label i = w.labelBuffer.getD i 0) ↔ Restores w es := by
  obtain ⟨h1, h2, h3⟩ := h.sizes hs hc
  have hlabel : ∀ i, X.label i = w.labelBuffer.getD i 0 ↔
      ∀ b ∈ (es.filterMap fun e => (labelWrites e)[i]?).getLast?, b = w.labelBuffer.getD i 0 := by
    intro i
    rw [h.label i]
    exact getD_eq_self
  have hstart : X.cmap.startCluster = w.cmap.startCluster ↔
      ∀ c ∈ (es.filterMap bitmapStart).getLast?, c = w.cmap.startCluster := by
    rw [h.start]
    exact getD_eq_self
  have hchunk : X.cmap.chunk = w.cmap.chunk ↔
      ∀ f ∈ (es.filterMap (bitmapChunk w.sb w.dev)).getLast?, f = w.cmap.chunk := by
    rw [h.chunk hq]
    exact getD_eq_self
  constructor
  · rintro ⟨hx, hl⟩
    exact ⟨hstart.mp (by rw [hx]), hchunk.mp (by rw [hx]), fun i => (hlabel i).mp (hl i)⟩
  · rintro ⟨r1, r2, r3⟩
    exact ⟨Cmap.eq_iff.mpr ⟨hstart.mpr r1, h1, hchunk.mpr r2, h2, h3⟩, fun i => (hlabel i).mpr (r3 i)⟩

theorem Passed.harmless (h : Passed w.sb w.dev es (marksOf w) X)
    (hes : ∀ entry ∈ es, Harmless w entry) :
    X.cmap = w.cmap ∧ ∀ i, X.label i = w.labelBuffer.getD i 0 := by
  have hsame := h.same (fun U => (U.cmap, U.label)) (a := (w.cmap, (marksOf w).label))
    (fun entry he W U hm hW => ?_) rfl
  · rw [Prod.mk.injEq] at hsame
    exact ⟨hsame.1, fun i => congrFun hsame.2 i⟩
  · rw [Prod.mk.injEq] at hW ⊢
    obtain ⟨hb, hl⟩ := hes entry he
    refine ⟨(hm.other hb).trans hW.1, funext fun i => ?_⟩
    rw [hm.label i, hW.2]
    exact getD_eq_self.mpr (hl i)

end

/-- Caching a directory leaves the bitmap, the upper case table and the label alone exactly if the
last entries that the reader meets for them say what the volume has in memory; if a request may fail,
at least if no entry says anything else. After an error the directory is empty and not cached. -/
theorem cache_subdirectory_aside {n : Node} {rc : Rc} (hd : Subdirectory w dir n)
    (hr : w.repair = .no) (h : exfatCacheDirectory dir w = .ok (rc, v)) :
    (Env.Quiet → (Untouched w v ↔
      n.isCached = true ∨ Restores w (metOf w.sb (dirData w.sb w.dev n)))) ∧
    (Honest w.sb → (∀ entry ∈ metOf w.sb (dirData w.sb w.dev n), Harmless w entry) →
      Untouched w v) ∧
    (rc ≠ .ok → ∃ m, v.nodes dir = some m ∧ m.child = none ∧ m.isCached = false) := by
  obtain ⟨hup, herr⟩ := (exfatCacheDirectory_outside hd.loaded hr).run h
  have hmarks : ∀ {X : Marks}, marksOf v = X →
      (Untouched w v ↔ X.cmap = w.cmap ∧ ∀ i, X.label i = w.labelBuffer.getD i 0) := by
    rintro _ rfl
    exact ⟨fun hu => ⟨hu.cmap, hu.label⟩, fun hu => ⟨hu.1, hup, hu.2⟩⟩
  refine ⟨fun hq => ?_, fun hb hes => ?_, herr⟩
  · obtain ⟨hcached, hread⟩ := (exfatCacheDirectory_marks hd (Env.Quiet.honest hq _) hr).run h
    cases hc : n.isCached with
    | true =>
      rw [hmarks (hcached hc)]
      exact ⟨fun _ => Or.inl rfl, fun _ => ⟨rfl, fun _ => rfl⟩⟩
    | false =>
      obtain ⟨done, left, hpass, hmet, hleft⟩ := hread hc
      rw [hleft hq, List.append_nil] at hmet
      rw [hmet, hmarks rfl, hpass.restores_iff hq hd.bitmap hd.chunk]
      simp
  · obtain ⟨hcached, hread⟩ := (exfatCacheDirectory_marks hd hb hr).run h
    cases hc : n.isCached with
    | true =>
      rw [hmarks (hcached hc)]
      exact ⟨rfl, fun _ => rfl⟩
    | false =>
      obtain ⟨done, left, hpass, hmet, -⟩ := hread hc
      rw [hmarks rfl]
      refine hpass.harmless fun entry he => hes entry ?_
      rw [hmet]
      exact List.mem_append_left _ he

end

/-- A directory at the start of the clusters heap. -/
def subNode (size : Nat) : Node :=
  { attrib := exfatAttribDir, startCluster := 2, fptrCluster := 2, size := size, parent := some 0 }

/-- A mounted volume with such a subdirectory and a bitmap that is not flushed. -/
def subVolume (dev : Store) (size : Nat) : World where
  dev := dev
  sb := smallSb
  upcase := some id
  cmap := { startCluster := 9, size := 8, chunk := some fun i => decide (i < 2), chunkSize := 8
            dirty := true }
  label := [0x41]
  nodes := fun i =>
    if i = 0 then some { attrib := exfatAttribDir, isCached := true, child := some 1 }
    else if i = 1 then some (subNode size) else none
  fresh := 2

theorem subVolume_subdirectory (dev : Store) : Subdirectory (subVolume dev 512) 1 (subNode 512) where
  node := rfl
  bound := Nat.one_lt_two
  isDir := rfl
  size := show 512 ≤ smallSb.clusterCount * smallSb.clusterSize by decide
  fptr _ := rfl
  count := show smallSb.clusterCount < 2 ^ 32 by decide
  loaded := rfl
  bitmap := rfl
  chunk := rfl

/-- A label entry of 16 characters. -/
def overlongLabel : Store := Store.write (fun _ => 0) 1024 [0x83, 16]

/-- It is refused, and nothing is touched. -/
theorem cache_subdirectory_aside_overlongLabel :
    ∃ v, @exfatCacheDirectory calmEnv 1 (subVolume overlongLabel 512) = .ok (.err .eio, v) ∧
      Untouched (subVolume overlongLabel 512) v ∧ ∃ m, v.nodes 1 = some m ∧ m.child = none := by
  let _ := calmEnv
  obtain ⟨r, v, hrun, hr⟩ := returns_of_check (m := exfatCacheDirectory 1)
    (s := subVolume overlongLabel 512) (p := fun r _ => decide (r = .err .eio)) (by decide +kernel)
  obtain rfl := of_decide_eq_true hr
  have hmet : metOf smallSb (dirData smallSb overlongLabel (subNode 512)) =
      [[0x83, 16] ++ List.replicate 30 0] := by decide +kernel
  obtain ⟨hiff, -, herr⟩ := cache_subdirectory_aside (subVolume_subdirectory overlongLabel) rfl hrun
  have hwrites : labelWrites ([0x83, 16] ++ List.replicate 30 0) = [] := by decide +kernel
  have hharmless : Harmless (subVolume overlongLabel 512) ([0x83, 16] ++ List.replicate 30 0) :=
    ⟨by decide, fun i => by rw [hwrites]; simp⟩
  have hrestores : Restores (subVolume overlongLabel 512) [[0x83, 16] ++ List.replicate 30 0] :=
    .of_harmless (List.forall_mem_singleton.mpr hharmless)
  obtain ⟨m, hm, hchild, -⟩ := herr (by decide)
  exact ⟨v, hrun, (hiff calmEnv_quiet).mpr (Or.inr (hmet ▸ hrestores)), m, hm, hchild⟩

/-- A bitmap entry that names cluster 3, and a label entry. -/
def strayEntries : Store :=
  (Store.write (fun _ => 0) 1024 ([0x81] ++ List.replicate 19 0 ++ toLe 4 3 ++ toLe 8 64)).write 1056
    [0x83, 1, 0x58, 0]

/-- In a subdirectory they replace the bitmap and the label of the volume. -/
theorem cache_subdirectory_replaces :
    Subdirectory (subVolume strayEntries 512) 1 (subNode 512) ∧
    ∃ v, @exfatCacheDirectory calmEnv 1 (subVolume strayEntries 512) = .ok (.ok, v) ∧
      v.cmap.startCluster ≠ (subVolume strayEntries 512).cmap.startCluster ∧
      v.label ≠ (subVolume strayEntries 512).label := by
  let _ := calmEnv
  obtain ⟨r, v, hrun, hr⟩ := returns_of_check (m := exfatCacheDirectory 1)
    (s := subVolume strayEntries 512)
    (p := fun r v => decide (r = .ok ∧ v.cmap.startCluster = 3 ∧ v.label = [0x58])) (by decide +kernel)
  obtain ⟨rfl, h1, h2⟩ := of_decide_eq_true hr
  exact ⟨subVolume_subdirectory _, v, hrun, by rw [h1]; decide, by rw [h2]; decide⟩

end Proofs

end Exfat
