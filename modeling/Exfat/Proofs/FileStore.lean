import Exfat.Proofs.FileBytes

namespace Exfat
open Lib

/-! The files of a volume as byte arrays over its free clusters, in any interleaving of reads, writes
and truncations. -/

/-- A call that an open file gets. -/
inductive FileCall where
  | pread (id : NodeId) (size offset : Nat)
  | pwrite (id : NodeId) (buffer : List UInt8) (offset : Nat)
  | truncate (id : NodeId) (size : Nat)

namespace FileCall

def node : FileCall → NodeId
  | pread id _ _ | pwrite id _ _ | truncate id _ => id

/-- The size that the call asks for, beside the one the file has. -/
def reach : FileCall → Nat
  | pread _ _ _ => 0
  | pwrite _ buffer offset => offset + buffer.length
  | truncate _ size => size

/-- The bytes read, or the error. -/
def run [Env] : FileCall → M (Except Errno (List UInt8))
  | pread id size offset => exfatGenericPread id size offset
  | pwrite id buffer offset => do
    match ← exfatGenericPwrite id buffer offset with
    | .ok => pure (.ok [])
    | .err e => pure (.error e)
  | truncate id size => do
    match ← exfatTruncate id size true with
    | .ok => pure (.ok [])
    | .err e => pure (.error e)

/-- The answer to a call that changes a file. -/
def answer (fits : Bool) : Except Errno (List UInt8) := if fits then .ok [] else .error .enospc

/-- What the call means for byte arrays over free clusters. -/
def meaning (need : Nat → Nat) (s : ByteStore NodeId) :
    FileCall → Except Errno (List UInt8) × ByteStore NodeId
  | pread id size offset => (.ok (((s.file id).drop offset).take size), s)
  | pwrite id buffer offset =>
    (answer (s.write need id offset buffer).1, (s.write need id offset buffer).2)
  | truncate id size => (answer (s.resize need id size).1, (s.resize need id size).2)

/-- The call asks a file of one cluster for more while only the cluster before it is free. -/
def Cornered (w : World) (call : FileCall) : Prop :=
  1 < divRoundUp call.reach w.sb.clusterSize ∧ ∃ n bits c, w.nodes call.node = some n ∧
    w.cmap.chunk = some bits ∧ divRoundUp n.size w.sb.clusterSize = 1 ∧ n.isContiguous = true ∧
    2 ≤ c ∧ n.startCluster = c + 1 ∧ Proofs.freeSet bits w.sb.clusterCount = {c - 2}

/-- The call is about an open file, counts its clusters in 32 bits and is not cornered. -/
structure Sound (w : World) (S : Finset NodeId) (call : FileCall) : Prop where
  node : call.node ∈ S
  wide : divRoundUp call.reach w.sb.clusterSize < 2 ^ 32
  free : ¬call.Cornered w

/-- Several calls, one after the other. -/
def runAll [Env] : List FileCall → M (List (Except Errno (List UInt8)))
  | [] => pure []
  | call :: calls => do
    let r ← call.run
    let rs ← runAll calls
    pure (r :: rs)

def meaningAll (need : Nat → Nat) (s : ByteStore NodeId) :
    List FileCall → List (Except Errno (List UInt8)) × ByteStore NodeId
  | [] => ([], s)
  | call :: calls =>
    let (r, s) := call.meaning need s
    let (rs, s) := meaningAll need s calls
    (r :: rs, s)

/-- Every call of the run is sound when it starts. -/
def SoundRun [Env] (S : Finset NodeId) : List FileCall → World → Prop
  | [], _ => True
  | call :: calls, w => call.Sound w S ∧ ∀ r v, call.run w = .ok (r, v) → SoundRun S calls v

/-- Every call is about an open file, and none asks for a second cluster while one is left. -/
def Roomy (need : Nat → Nat) (S : Finset NodeId) : ByteStore NodeId → List FileCall → Prop
  | _, [] => True
  | s, call :: calls => call.node ∈ S ∧ need call.reach < 2 ^ 32 ∧
    (need call.reach ≤ 1 ∨ s.free ≠ 1) ∧ Roomy need S (call.meaning need s).2 calls

instance (need : Nat → Nat) (S : Finset NodeId) :
    (s : ByteStore NodeId) → (calls : List FileCall) → Decidable (Roomy need S s calls)
  | _, [] => isTrue trivial
  | s, call :: calls =>
    have := instDecidableRoomy need S (call.meaning need s).2 calls
    inferInstanceAs (Decidable (call.node ∈ S ∧ need call.reach < 2 ^ 32 ∧
      (need call.reach ≤ 1 ∨ s.free ≠ 1) ∧ Roomy need S (call.meaning need s).2 calls))

end FileCall

namespace Proofs

variable {E : Halt → Prop} {w u v : World} {n m : Node} {L K A : List Nat} {id : NodeId}
  {bits bits' bits'' : Nat → Bool} {bs : List UInt8} {size off c k : Nat}
/-- The bytes of the files of a volume, each with clusters of its own, and the clusters left. -/
structure Stores (w : World) (bits : Nat → Bool) (S : Finset NodeId) (own : NodeId → List Nat)
    (s : ByteStore NodeId) : Prop where
  geometry : Geometry w.sb
  mapped : Mapped w bits
  last : w.sb.clusterCount + 2 < 2 ^ 32
  owns : ∀ i ∈ S, ∃ n, Owns w bits i n (own i) (s.file i)
  disjoint : ∀ i ∈ S, ∀ j ∈ S, i ≠ j → ∀ c ∈ own i, c ∉ own j
  free : s.free = (freeSet bits w.sb.clusterCount).card

/-- What belongs to a node is foreign to another one. -/
theorem Stores.foreign {S : Finset NodeId} {own : NodeId → List Nat} {s : ByteStore NodeId}
    {j : NodeId} (h : Stores w bits S own s) (hid : id ∈ S) (hj : j ∈ S) (hne : j ≠ id)
    (hc : c ∈ own j) : Foreign w bits (own id) c := by
  obtain ⟨n, ho⟩ := h.owns j hj
  exact ⟨ho.chained.valid c hc, ho.allocated c hc, h.disjoint j hj id hid hne c hc⟩

theorem Owns.moved (h : Owns w bits id n L bs) {j : NodeId} {M : List Nat}
    (hm : Moved w v bits bits' j M K) (hne : id ≠ j) (hf : ∀ c ∈ L, Foreign w bits M c) :
    Owns v bits' id n L bs where
  node := (hm.others id hne).trans h.node
  referenced := h.referenced
  chained := by
    rw [hm.sb]
    refine h.chained.congr (fun c hc => ?_) rfl h.chained.fptr
    simp only [Exfat.link, hm.fat c (hf c (List.mem_of_mem_dropLast hc))]
  allocated := fun c hc => ((hf c hc).moved hm).used
  empty := h.empty
  length := by
    rw [hm.sb]
    exact h.length
  bytes := by
    rw [← h.bytes, fileBytes, fileBytes, hm.sb]
    refine fileData_congr fun i hi => ?_
    have hcover := le_divRoundUp_mul n.size (clusterSize_pos w.sb)
    rw [← h.length] at hcover
    obtain ⟨c, hk, hcm⟩ := exists_cluster (show 0 + i < L.length * w.sb.clusterSize by omega)
    rw [filePos_eq hk]
    exact hm.data c (hf c hcm) _ (Nat.mod_lt _ (clusterSize_pos _))

/-- A node got another chain and other bytes; the volume shows them beside the other files. -/
theorem Stores.moved {S : Finset NodeId} {own : NodeId → List Nat} {s : ByteStore NodeId}
    (h : Stores w bits S own s) (hid : id ∈ S) (hm : Moved w v bits bits' id (own id) K)
    (ho : Owns v bits' id m K bs)
    (hfree : (freeSet bits' w.sb.clusterCount).card + K.length =
      (freeSet bits w.sb.clusterCount).card + (own id).length) :
    Stores v bits' S (Function.update own id K) (s.put (divRoundUp · w.sb.clusterSize) id bs) where
  geometry := hm.sb ▸ h.geometry
  mapped := hm.mapped
  last := hm.sb ▸ h.last
  owns := by
    intro j hj
    by_cases hne : j = id
    · subst hne
      simp only [Function.update_self, ByteStore.put]
      exact ⟨m, ho⟩
    · obtain ⟨n, hn⟩ := h.owns j hj
      simp only [Function.update_of_ne hne, ByteStore.put]
      exact ⟨n, hn.moved hm hne fun c hc => h.foreign hid hj hne hc⟩
  disjoint := by
    have hkey : ∀ j ∈ S, j ≠ id → ∀ c ∈ own j, c ∉ K := fun j hj hne c hc =>
      ((h.foreign hid hj hne hc).moved hm).apart
    intro i hi j hj hij c hc
    by_cases hii : i = id
    · subst hii
      rw [Function.update_of_ne (Ne.symm hij)]
      rw [Function.update_self] at hc
      exact fun hcj => hkey j hj (Ne.symm hij) c hcj hc
    · rw [Function.update_of_ne hii] at hc
      by_cases hjj : j = id
      · subst hjj
        rw [Function.update_self]
        exact hkey i hi hii c hc
      · rw [Function.update_of_ne hjj]
        exact h.disjoint i hi j hj hij c hc
  free := by
    obtain ⟨n, hn⟩ := h.owns id hid
    have h1 := hn.length
    have h2 := ho.length
    rw [← hn.bytes_length] at h1
    rw [← ho.bytes_length, hm.sb] at h2
    simp only [ByteStore.put, h.free, hm.sb]
    omega

/-- A sound call does not start from a trap. -/
theorem sound_not_trapped {S : Finset NodeId} {call : FileCall} {r : Nat}
    (h : call.Sound w S) (hm : Mapped w bits) (ho : Owns w bits call.node n L bs)
    (hr : r = call.reach ∨ r = max n.size call.reach)
    (hlt : L.length < divRoundUp r w.sb.clusterSize) : ¬Trapped bits w.sb.clusterCount n L := by
  rintro ⟨hb, c, h2, hL, hfree⟩
  have hwalk := ho.chained.walk
  have hlen := ho.length
  rw [hL] at hwalk
  rw [hL, List.length_singleton] at hlen hlt
  refine h.free ⟨?_, n, bits, c, ho.node, hm.chunk, hlen.symm, hb, h2, hwalk.1.symm, hfree⟩
  rcases hr with rfl | rfl
  · exact hlt
  · rcases Nat.le_total n.size call.reach with hle | hle
    · rwa [Nat.max_eq_right hle] at hlt
    · rw [Nat.max_eq_left hle] at hlt
      omega

/-- Nodes that are not open stay, and so do the clusters in use that belong to no open file. -/
structure Beside (w v : World) (bits bits' : Nat → Bool) (S : Finset NodeId)
    (own own' : NodeId → List Nat) : Prop where
  sb : v.sb = w.sb
  nodes : ∀ j, j ∉ S → v.nodes j = w.nodes j
  clusters : ∀ c, w.sb.clusterInvalid c = false → bits (c - 2) = true → (∀ i ∈ S, c ∉ own i) →
    bits' (c - 2) = true ∧ (∀ i ∈ S, c ∉ own' i) ∧ fat w.sb v.dev c = fat w.sb w.dev c ∧
      ∀ o < w.sb.clusterSize, v.dev (c2oRaw w.sb c + o) = w.dev (c2oRaw w.sb c + o)

theorem Beside.refl (w : World) (bits : Nat → Bool) (S : Finset NodeId)
    (own : NodeId → List Nat) : Beside w w bits bits S own own where
  sb := rfl
  nodes := fun _ _ => rfl
  clusters := fun _ _ hb ho => ⟨hb, ho, rfl, fun _ _ => rfl⟩

theorem Beside.trans {S : Finset NodeId} {o1 o2 o3 : NodeId → List Nat}
    (h : Beside w v bits bits' S o1 o2) (h' : Beside v u bits' bits'' S o2 o3) :
    Beside w u bits bits'' S o1 o3 where
  sb := h'.sb.trans h.sb
  nodes := fun j hj => (h'.nodes j hj).trans (h.nodes j hj)
  clusters := by
    intro c hv hb ho
    obtain ⟨hb1, ho1, hf1, hd1⟩ := h.clusters c hv hb ho
    obtain ⟨hb2, ho2, hf2, hd2⟩ := h'.clusters c (by rw [h.sb]; exact hv) hb1 ho1
    rw [h.sb] at hf2 hd2
    exact ⟨hb2, ho2, hf2.trans hf1, fun o hlt => (hd2 o hlt).trans (hd1 o hlt)⟩

theorem Moved.beside {S : Finset NodeId} {own : NodeId → List Nat}
    (h : Moved w v bits bits' id (own id) K) (hid : id ∈ S) :
    Beside w v bits bits' S own (Function.update own id K) where
  sb := h.sb
  nodes := fun j hj => h.others j fun he => hj (he ▸ hid)
  clusters := by
    intro c hv hb ho
    have hf : Foreign w bits (own id) c := ⟨hv, hb, ho id hid⟩
    have hf' := hf.moved h
    refine ⟨hf'.used, fun i hi => ?_, h.fat c hf, h.data c hf⟩
    by_cases hne : i = id
    · subst hne
      rw [Function.update_self]
      exact hf'.apart
    · rw [Function.update_of_ne hne]
      exact ho i hi

theorem total_meaning {S : Finset NodeId} {need : Nat → Nat} {s : ByteStore NodeId}
    {call : FileCall} (hc : call.node ∈ S) :
    (call.meaning need s).2.total need S = s.total need S := by
  cases call with
  | pread id size offset => rfl
  | pwrite id buffer offset => exact ByteStore.total_write hc offset buffer
  | truncate id size => exact ByteStore.total_resize hc size

section
variable [Env]

/-- One call does to the volume what it means for the files. -/
theorem fileCall_refines (hq : Env.Quiet) {S : Finset NodeId} {own : NodeId → List Nat}
    {s : ByteStore NodeId} {call : FileCall} (hw : Stores w bits S own s)
    (hc : call.Sound w S) :
    Wp E call.run w fun r v => r = (call.meaning (divRoundUp · w.sb.clusterSize) s).1 ∧
      ∃ bits' own', Stores v bits' S own' (call.meaning (divRoundUp · w.sb.clusterSize) s).2 ∧
        Beside w v bits bits' S own own' := by
  obtain ⟨n, ho⟩ := hw.owns call.node hc.node
  have hiff : ∀ size, s.Room (divRoundUp · w.sb.clusterSize) call.node size ↔
      divRoundUp size w.sb.clusterSize ≤
        (own call.node).length + (freeSet bits w.sb.clusterCount).card := by
    intro size
    rw [ByteStore.Room, ho.bytes_length, ← ho.length, hw.free]
  have hstore : ∀ v bits' m K bs', Moved w v bits bits' call.node (own call.node) K →
      Owns v bits' call.node m K bs' →
      (freeSet bits' w.sb.clusterCount).card + K.length =
        (freeSet bits w.sb.clusterCount).card + (own call.node).length →
      ∃ bits' own', Stores v bits' S own'
        (s.put (divRoundUp · w.sb.clusterSize) call.node bs') ∧ Beside w v bits bits' S own own' :=
    fun v bits' m K bs' hmv hown hcard =>
      ⟨bits', _, hw.moved hc.node hmv hown hcard, hmv.beside hc.node⟩
  -- nothing happened to the bytes
  have hstay : s.put (divRoundUp · w.sb.clusterSize) call.node (s.file call.node) = s := by
    ext1
    · simp [ByteStore.put]
    · simp [ByteStore.put]
  cases call with
  | pread id size offset =>
    have hread := exfatGenericPread_reads (E := fun _ => True) hq hw.geometry.count ho.node
      ho.chained (by rw [ho.length]; exact le_divRoundUp_mul n.size (clusterSize_pos _)) size offset
    refine ((exfatGenericPread_keeps hq hw.geometry hw.mapped ho size offset).both hread).mono ?_
    rintro r v ⟨⟨m, hmv, hown⟩, rfl, -⟩
    refine ⟨by rw [ho.bytes]; rfl, ?_⟩
    have := hstore v bits m _ _ hmv hown rfl
    rwa [hstay] at this
  | pwrite id buffer offset =>
    simp only [FileCall.run, wp_bind]
    refine (exfatGenericPwrite_refines hq hw.geometry hw.mapped hw.last ho hc.wide
      (sound_not_trapped hc hw.mapped ho (Or.inr rfl))).mono ?_
    rintro rc v ⟨bits', m, K, bs', hmv, hown, hcard, hroom, hfull⟩
    have := hstore v bits' m K bs' hmv hown hcard
    simp only [FileCall.meaning, FileCall.node] at *
    by_cases hr : s.Room (divRoundUp · w.sb.clusterSize) id
        (max (s.file id).length (offset + buffer.length))
    · rw [ByteStore.write_room hr]
      rw [ho.bytes_length] at hr
      obtain ⟨rfl, rfl⟩ := hroom ((hiff _).mp hr)
      exact ⟨rfl, this⟩
    · have hr' := hr
      rw [ho.bytes_length] at hr'
      obtain ⟨rfl, hbs⟩ := hfull (Nat.lt_of_not_le fun h => hr' ((hiff _).mpr h))
      by_cases hgap : (s.file id).length < offset ∧
          s.Room (divRoundUp · w.sb.clusterSize) id offset
      · rw [ByteStore.write_gap hr hgap]
        rw [ho.bytes_length] at hgap
        obtain rfl := hbs.trans (if_pos ⟨hgap.1, (hiff _).mp hgap.2⟩)
        exact ⟨rfl, this⟩
      · rw [ByteStore.write_full hr hgap]
        rw [ho.bytes_length] at hgap
        rw [hbs.trans (if_neg fun h => hgap ⟨h.1, (hiff _).mpr h.2⟩), hstay] at this
        exact ⟨rfl, this⟩
  | truncate id size =>
    simp only [FileCall.run, wp_bind]
    refine (exfatTruncate_refines hq hw.geometry hw.mapped hw.last ho hc.wide
      (sound_not_trapped hc hw.mapped ho (Or.inl rfl))).mono ?_
    rintro rc v ⟨bits', m, K, bs', hmv, hown, hcard, hroom, hfull⟩
    have := hstore v bits' m K bs' hmv hown hcard
    simp only [FileCall.meaning, FileCall.node] at *
    by_cases hr : s.Room (divRoundUp · w.sb.clusterSize) id size
    · rw [ByteStore.resize_room hr]
      obtain ⟨rfl, rfl⟩ := hroom ((hiff _).mp hr)
      exact ⟨rfl, this⟩
    · rw [ByteStore.resize_full hr]
      obtain ⟨rfl, rfl⟩ := hfull (Nat.lt_of_not_le fun h => hr ((hiff _).mpr h))
      exact ⟨rfl, hstay ▸ this⟩

/-- Any interleaving of reads, writes and truncations of the open files of a volume gives the answers,
the bytes and the number of free clusters that it means for byte arrays. Every file keeps clusters of
its own, none is lost, and nothing else on the volume changes. -/
theorem fileCalls_refine (hq : Env.Quiet) {S : Finset NodeId} {own : NodeId → List Nat}
    {s : ByteStore NodeId} (hw : Stores w bits S own s) (calls : List FileCall)
    (hsound : FileCall.SoundRun S calls w) :
    ∃ v bits' own',
      FileCall.runAll calls w =
        .ok ((FileCall.meaningAll (divRoundUp · w.sb.clusterSize) s calls).1, v) ∧
      Stores v bits' S own' (FileCall.meaningAll (divRoundUp · w.sb.clusterSize) s calls).2 ∧
      (FileCall.meaningAll (divRoundUp · w.sb.clusterSize) s calls).2.total
        (divRoundUp · w.sb.clusterSize) S = s.total (divRoundUp · w.sb.clusterSize) S ∧
      Beside w v bits bits' S own own' := by
  induction calls generalizing w bits own s with
  | nil => exact ⟨w, bits, own, rfl, hw, rfl, .refl w bits S own⟩
  | cons call calls ih =>
    obtain ⟨hc, hrest⟩ := hsound
    obtain ⟨r, u, hrun, rfl, bits1, own1, hu, hbeside1⟩ := (fileCall_refines hq hw hc).returns
    obtain ⟨v, bits2, own2, hrun2, hv, htotal, hbeside2⟩ := ih hu (hrest _ u hrun)
    rw [hbeside1.sb] at hrun2 hv htotal
    refine ⟨v, bits2, own2, ?_, hv, htotal.trans (total_meaning hc.node), hbeside1.trans hbeside2⟩
    simp only [FileCall.runAll]
    rw [bind_of_ok hrun, bind_of_ok hrun2]
    rfl

/-- What the calls mean tells that they are sound. -/
theorem soundRun_of_roomy (hq : Env.Quiet) {S : Finset NodeId} {own : NodeId → List Nat}
    {s : ByteStore NodeId} (hw : Stores w bits S own s) {calls : List FileCall}
    (h : FileCall.Roomy (divRoundUp · w.sb.clusterSize) S s calls) :
    FileCall.SoundRun S calls w := by
  induction calls generalizing w bits own s with
  | nil => trivial
  | cons call calls ih =>
    obtain ⟨hnode, hwide, hroom, hrest⟩ := h
    have hc : call.Sound w S := by
      refine ⟨hnode, hwide, ?_⟩
      rintro ⟨hreach, n, bits', c, -, hchunk, -, -, -, -, hfree⟩
      obtain rfl := Option.some.inj (hw.mapped.chunk.symm.trans hchunk)
      have hone := hw.free
      rw [hfree, Finset.card_singleton] at hone
      rcases hroom with hle | hne
      · exact absurd hle (Nat.not_le.mpr hreach)
      · exact hne hone
    refine ⟨hc, fun r v hrun => ?_⟩
    obtain ⟨-, bits', own', hv, hbeside⟩ :=
      (fileCall_refines (E := fun _ => False) hq hw hc).run hrun
    refine ih hv ?_
    rw [hbeside.sb]
    exact hrest

end

theorem emptyFile_stores : Stores emptyFile (fun _ => false) {1} (fun _ => [])
    { file := fun _ => [], free := 8 } where
  geometry := emptyFile_consistent.geometry
  mapped := emptyFile_consistent.mapped
  last := emptyFile_consistent.last
  owns := by
    intro i hi
    obtain rfl := Finset.mem_singleton.mp hi
    exact ⟨{ references := 1 }, ⟨rfl, by decide, ⟨trivial, by simp, by simp, fun h => absurd rfl h⟩,
      by simp, fun _ => ⟨rfl, rfl, rfl⟩⟩, by decide +kernel, rfl⟩
  disjoint := by simp
  free := by decide +kernel

/-- A write behind the end, a read over the gap, a cut, and a write for which there is no space. -/
theorem fileCalls_refine_emptyFile : ∃ v bits' own',
    @FileCall.runAll calmEnv [.pwrite 1 [1, 2, 3] 5, .pread 1 4 4, .truncate 1 6,
        .pwrite 1 [7] 5000] emptyFile =
      .ok ([.ok [], .ok [0, 1, 2, 3], .ok [], .error .enospc], v) ∧
    Stores v bits' {1} own' (FileCall.meaningAll (divRoundUp · 512)
      { file := fun _ => [], free := 8 } [.pwrite 1 [1, 2, 3] 5, .pread 1 4 4, .truncate 1 6,
        .pwrite 1 [7] 5000]).2 := by
  obtain ⟨v, bits', own', hrun, hv, -, -⟩ := @fileCalls_refine emptyFile (fun _ => false) calmEnv
    calmEnv_quiet {1} (fun _ => []) { file := fun _ => [], free := 8 } emptyFile_stores
    [.pwrite 1 [1, 2, 3] 5, .pread 1 4 4, .truncate 1 6, .pwrite 1 [7] 5000]
    (@soundRun_of_roomy _ _ calmEnv calmEnv_quiet _ _ _ emptyFile_stores _ (by decide +kernel))
  exact ⟨v, bits', own', hrun, hv⟩

end Proofs

end Exfat
