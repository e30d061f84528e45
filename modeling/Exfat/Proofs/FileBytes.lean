import Exfat.Proofs.Reshape

namespace Exfat
open Lib

/-! Reads, writes and truncations of a node that owns its clusters, as operations on its bytes. -/

/-- The end of `exfat_generic_pwrite`, once the file is long enough. -/
def pwriteData [Env] (id : NodeId) (buffer : List UInt8) (offset : Nat) : M Rc :=
  if buffer.isEmpty then pure .ok
  else do
    let clusterSize := (← get).sb.clusterSize
    let cluster ← exfatAdvanceCluster id (offset / clusterSize % 2 ^ 32)
    if (← get).sb.clusterInvalid cluster then do
      exfatError "invalid cluster 0x%x while writing"
      pure (.err .eio)
    else do
      let node ← getNode id
      let rc ← pwriteLoop node.isContiguous buffer.length cluster (offset % clusterSize) buffer
      if rc ≠ .ok then pure rc
      else if node.isDir then pure .ok
      else do
        exfatUpdateMtime id
        pure .ok

namespace Proofs

variable {E : Halt → Prop} {w : World} {n : Node} {L : List Nat} {id : NodeId}
  {bits : Nat → Bool} {bs : List UInt8} {size off : Nat}

section
variable [Env]

/-- What `exfat_truncate` erases of a chain that covers the new size. -/
theorem eraseNew_zeroes (hq : Env.Quiet) (hg : Geometry w.sb) (hm : Mapped w bits)
    (ho : Owner w bits id n L) (start stop : Nat) (erase : Bool)
    (hcover : stop ≤ L.length * w.sb.clusterSize) :
    Wp E (eraseNew id erase start stop) w fun rc v => rc = .ok ∧ ∃ k c,
      v.nodes id = some (n.seek k c) ∧ (k = n.fptrIndex ∧ c = n.fptrCluster ∨ L[k]? = some c) ∧
      Moved w v bits bits id L L ∧
      (∀ p, p < c2oRaw w.sb exfatFirstDataCluster → v.dev p = w.dev p) ∧
      (∀ o, o < start → o < stop → v.dev (filePos w.sb L o) = w.dev (filePos w.sb L o)) ∧
      (erase = true → ∀ o, start ≤ o → o < stop → v.dev (filePos w.sb L o) = 0) := by
  by_cases hgrow : erase = true ∧ start < stop
  · obtain ⟨rfl, hlt⟩ := hgrow
    rw [eraseNew, if_pos rfl]
    refine (eraseRange_spec hq hg.count ho.node ho.chained (hg.linksApart ho.chained.valid) hlt
      hcover).mono ?_
    rintro _ _ ⟨dev, len, k, c, hcov, hins, hwr, hk, rfl, t, rfl⟩
    refine ⟨rfl, k, c, World.setNode_self _ _ _, Or.inr hk, ?_, ?_, ?_, ?_⟩
    · exact hwr.moved hg hm ho.chained (by rwa [List.length_replicate]) rfl rfl rfl
        fun j hj => World.setNode_ne _ _ hj
    · exact fun p hp => hwr.before_heap hp
    · intro o h1 h2
      exact hwr.same (fun x hx => ho.chained.ge hx) ho.chained.nodup
        (by rwa [List.length_replicate]) (by omega) (Or.inl h1)
    · intro _ o h1 h2
      have := hwr.inside (o - start) (by rw [List.length_replicate]; omega)
      rw [show start + (o - start) = o by omega] at this
      refine this.trans ?_
      simp [List.getD_eq_getElem?_getD, show o - start < len by omega]
  · have hnone : Wp E (eraseNew id erase start stop) w (Ret .ok w) := by
      by_cases he : erase = true
      · exact eraseNew_shrunk (Nat.le_of_not_lt fun h => hgrow ⟨he, h⟩)
      · rw [eraseNew, if_neg he]
        exact Ret.intro _ _
    refine after_ret hnone fun t => ⟨rfl, n.fptrIndex, n.fptrCluster, ?_, Or.inl ⟨rfl, rfl⟩,
      ?_, fun _ _ => rfl, fun _ _ _ => rfl, fun he o h1 h2 => ?_⟩
    · exact ho.node
    · exact ⟨rfl, hm.congr rfl rfl, fun _ _ => rfl, fun _ h _ => h, fun _ h hn => absurd h hn,
        fun _ _ => rfl, fun _ _ _ _ => rfl⟩
    · exact absurd ⟨he, by omega⟩ hgrow

/-- `exfat_truncate` to a size for which there is room. -/
theorem exfatTruncate_resizes (hq : Env.Quiet) (hg : Geometry w.sb) (hm : Mapped w bits)
    (hend : w.sb.clusterCount + 2 < 2 ^ 32) (ho : Owns w bits id n L bs)
    (hwide : divRoundUp size w.sb.clusterSize < 2 ^ 32)
    (hle : divRoundUp size w.sb.clusterSize ≤
      L.length + (freeSet bits w.sb.clusterCount).card)
    (hsafe : L.length < divRoundUp size w.sb.clusterSize →
      ¬Trapped bits w.sb.clusterCount n L) (erase : Bool) :
    Wp E (exfatTruncate id size erase) w fun rc v => rc = .ok ∧ ∃ bits' m K ts,
      Moved w v bits bits' id L K ∧ Owns v bits' id m K (bs.take size ++ ts) ∧
      ts.length = size - n.size ∧ (erase = true → ts = List.replicate (size - n.size) 0) ∧
      (freeSet bits' w.sb.clusterCount).card + K.length =
        (freeSet bits w.sb.clusterCount).card + L.length ∧
      (n.size ≤ size → Trapped bits' w.sb.clusterCount m K →
        Trapped bits w.sb.clusterCount n L) := by
  have hcs := clusterSize_pos w.sb
  have hlen := ho.chained.length_le
  have h1 : bytes2clusters w.sb n.size = L.length := by
    rw [bytes2clusters_eq hg.cluster (by rw [← ho.length]; omega), ho.length]
  have h2 := bytes2clusters_eq hg.cluster hwide
  simp only [exfatTruncate, wp_bind, wp_get, wp_getNode ho.node, ho.referenced, false_and, if_false]
  split
  · rename_i hsame
    refine ⟨rfl, bits, n, L, [], .refl hm, ?_, by simp [hsame], by simp [hsame], rfl, fun _ h => h⟩
    rw [List.append_nil, ← hsame, List.take_of_length_le (by rw [ho.bytes_length])]
    exact ho
  · rename_i hne
    simp only [h1, h2, wp_bind]
    refine (resizeChain_reshapes hq hg hm hend ho.toOwner hle hsafe).mono ?_
    rintro _ u ⟨rfl, bits', m, K, hK, hres, htrap⟩
    have hsb := hres.moved.sb
    have hgu : Geometry u.sb := hsb ▸ hg
    have hcover : size ≤ K.length * w.sb.clusterSize := by
      rw [hK]
      exact le_divRoundUp_mul size hcs
    have hLcover : n.size ≤ L.length * w.sb.clusterSize := by
      rw [ho.length]
      exact le_divRoundUp_mul n.size hcs
    have hlow : n.size ≤ size → L.length ≤ divRoundUp size w.sb.clusterSize := by
      intro h
      rw [ho.length]
      exact divRoundUp_mono h
    simp only [ne_eq, not_true_eq_false, if_false, wp_bind]
    -- the new data, before size and times are set
    refine (eraseNew_zeroes hq hgu hres.moved.mapped hres.owner n.size size erase
      (by rw [hsb]; exact hcover)).mono ?_
    rintro _ v ⟨rfl, k, c, hnode, hptr, hmv, hbefore, hold, hzero⟩
    rw [hsb] at hold hzero
    simp only [not_true_eq_false, if_false, wp_bind, exfatUpdateMtime, wp_timeNow]
    rw [wp_modifyNode (n := m.seek k c) (by simpa using hnode)]
    simp only [wp_modifyNode_setNode, wp_pure, true_and]
    generalize hm' : ({ m.seek k c with mtime := _, isDirty := true, size := size } : Node) = m'
    have hsize : m'.size = size := by rw [← hm']
    generalize hz : World.setNode _ id m' = z
    have hzdev : z.dev = v.dev := by rw [← hz]; rfl
    have hzsb : z.sb = w.sb := by
      rw [← hz]
      exact hmv.sb.trans hsb
    have hzsb' : z.sb = u.sb := hzsb.trans hsb.symm
    have hznode : z.nodes id = some m' := by
      rw [← hz]
      exact World.setNode_self _ _ _
    have hmoved : Moved w z bits bits' id L K := by
      refine hres.moved.trans (hmv.trans ?_)
      rw [← hz]
      exact ⟨rfl, hmv.mapped.congr rfl rfl, fun j hj => World.setNode_ne _ _ hj, fun _ h _ => h,
        fun _ h hn => absurd h hn, fun _ _ => rfl, fun _ _ _ _ => rfl⟩
    have howner : Owner z bits' id m' K := by
      refine hres.owner.written hgu (fun p hp => ?_) hzsb' hznode ?_ ?_ ?_ ?_
      · rw [hzdev]
        exact hbefore p hp
      all_goals subst hm'
      · rfl
      · rfl
      · rfl
      · exact hptr
    have hbytes := fileBytes_resized (w := w) (v := z) (n := n) (L := L) (K := K) hsize
      fun o h1 h2 => by
        rw [hzdev, hzsb, hold o h1 h2, hres.heap _ (filePos_ge _ _ _),
          hres.filePos_eq (by omega) (by omega)]
    have hzl : (fileBytes z m' K).length = size := by rw [fileBytes, fileData_length, hsize]
    refine ⟨bits', m', K, (fileBytes z m' K).drop n.size, hmoved, ⟨howner, ?_, ?_⟩, ?_, ?_,
      hres.free, ?_⟩
    · rw [hzsb, hsize, hK]
    · rwa [ho.bytes] at hbytes
    · rw [List.length_drop, hzl]
    · intro he
      refine eq_of_getD (by simp [hzl]) fun i hi => ?_
      rw [List.length_drop, hzl] at hi
      rw [List.getD_eq_getElem?_getD, List.getElem?_drop, ← List.getD_eq_getElem?_getD,
        fileBytes_getD (by omega), hzdev, hzsb, hzero he _ (by omega) (by omega)]
      simp [List.getD_eq_getElem?_getD, hi]
    · intro hle' htr
      refine htrap (hlow hle') ?_
      obtain ⟨hb, hrest⟩ := htr
      refine ⟨?_, hrest⟩
      subst hm'
      exact hb

/-- `exfat_truncate` to a size for which there is no room. -/
theorem exfatTruncate_full (hq : Env.Quiet) (hg : Geometry w.sb) (hm : Mapped w bits)
    (hend : w.sb.clusterCount + 2 < 2 ^ 32) (ho : Owns w bits id n L bs)
    (hwide : divRoundUp size w.sb.clusterSize < 2 ^ 32)
    (hgt : L.length + (freeSet bits w.sb.clusterCount).card <
      divRoundUp size w.sb.clusterSize)
    (hsafe : ¬Trapped bits w.sb.clusterCount n L) (erase : Bool) :
    Wp E (exfatTruncate id size erase) w fun rc v => rc = .err .enospc ∧ ∃ m,
      Moved w v bits bits id L L ∧ Owns v bits id m L bs := by
  have hlen := ho.chained.length_le
  have h1 : bytes2clusters w.sb n.size = L.length := by
    rw [bytes2clusters_eq hg.cluster (by rw [← ho.length]; omega), ho.length]
  have hne : ¬n.size = size := by
    rintro rfl
    rw [← ho.length] at hgt
    omega
  simp only [exfatTruncate, wp_bind, wp_get, wp_getNode ho.node, ho.referenced, false_and,
    if_false, if_neg hne, h1, bytes2clusters_eq hg.cluster hwide, resizeChain,
    if_pos (show L.length < divRoundUp size w.sb.clusterSize by omega)]
  refine (growFile_spec hq hm hend ho.node ho.chained ho.allocated ho.empty (by omega)
    hsafe).mono fun rc v hv => ?_
  obtain ⟨rfl, m, hgr⟩ := hv.2 (by omega)
  have hres := hgr.reshaped hg ho.toOwner
  rw [List.append_nil] at hres
  refine ⟨rfl, m, hres.moved, hres.owner, ?_, ?_⟩
  · rw [hres.size_eq, hres.moved.sb]
    exact ho.length
  · rw [fileBytes_heap hres.moved.sb hres.size_eq hres.heap]
    exact ho.bytes

theorem exfatGenericPwrite_eq (id : NodeId) (buffer : List UInt8) (offset : Nat) :
    exfatGenericPwrite id buffer offset = (do
      let rc ← extendTo id (← getNode id).size offset true
      if rc ≠ .ok then pure rc
      else do
        let rc ← extendTo id (← getNode id).size ((offset + buffer.length) % 2 ^ 64) false
        if rc ≠ .ok then pure rc
        else pwriteData id buffer offset) := rfl

theorem pwriteData_writes (hq : Env.Quiet) (hg : Geometry w.sb) (hm : Mapped w bits)
    (ho : Owns w bits id n L bs) {buf : List UInt8} (hb : off + buf.length ≤ n.size) :
    Wp E (pwriteData id buf off) w fun rc v => rc = .ok ∧ ∃ m,
      Moved w v bits bits id L L ∧ Owns v bits id m L (overwrite bs off buf) := by
  have hcs := clusterSize_pos w.sb
  have hge : ∀ x ∈ L, 2 ≤ x := fun x hx => ho.chained.ge hx
  have hLcover : n.size ≤ L.length * w.sb.clusterSize := by
    rw [ho.length]
    exact le_divRoundUp_mul n.size hcs
  rw [pwriteData]
  split
  · rename_i hnil
    rw [List.isEmpty_iff] at hnil
    subst hnil
    refine ⟨rfl, n, .refl hm, ?_⟩
    have hsame : overwrite bs off [] = bs := by
      rw [overwrite_nil, Nat.max_eq_left (by rw [ho.bytes_length]; simpa using hb),
        resized_of_le (Nat.le_refl _), List.take_length]
    rw [hsame]
    exact ho
  · rename_i hbuf
    rw [List.isEmpty_iff] at hbuf
    have hpos := List.length_pos_iff.mpr hbuf
    have hoff : off < L.length * w.sb.clusterSize := by omega
    have hmod := Nat.div_add_mod' off w.sb.clusterSize
    obtain ⟨c, hk, hcm⟩ := exists_cluster hoff
    simp only [wp_bind, wp_get, ho.chained.index_mod_count hg.count hoff]
    refine after_ret (exfatAdvanceCluster_spec hq ho.node ho.chained hk) fun t => ?_
    simp only [World.setNode_ticked, World.setNode_sb, World.ticked_sb, ho.chained.valid c hcm,
      Bool.false_eq_true, if_false, wp_bind, wp_getNode_setNode]
    have hchain := ho.chained.advanced hk
    refine (pwriteLoop_spec (E := E) hq
      (w := (w.ticked t).setNode id (n.seek (off / w.sb.clusterSize) c)) hchain.walk
      (hg.linksApart hchain.valid) hchain.valid hchain.nodup buf.length (off / w.sb.clusterSize) c
      (off % w.sb.clusterSize) buf
      (fun _ => hk) (Nat.mod_lt off hcs) (Nat.le_refl _)
      (by simp only [World.setNode_sb, World.ticked_sb]; omega)).mono ?_
    rintro _ _ ⟨dev, hwr, rfl, t', rfl⟩
    simp only [World.setNode_sb, World.setNode_dev, World.ticked_sb, World.ticked_dev, hmod] at hwr
    have hlen : off + buf.length ≤ L.length * w.sb.clusterSize := by omega
    -- whatever happens to the times
    have hfinish : ∀ z m, z.dev = dev → z.sb = w.sb → z.cmap = w.cmap →
        (∀ j, j ≠ id → z.nodes j = w.nodes j) → z.nodes id = some m →
        (∃ t d, m = { n.seek (off / w.sb.clusterSize) c with mtime := t, isDirty := d }) →
        ∃ m, Moved w z bits bits id L L ∧ Owns z bits id m L (overwrite bs off buf) := by
      rintro z m hzd hzs hzc hzo hzn ⟨t, d, hm'⟩
      have hsize : m.size = n.size := by rw [hm']; rfl
      refine ⟨m, hwr.moved hg hm ho.chained hlen hzd hzs hzc hzo, ?_, ?_, ?_⟩
      · refine ho.toOwner.written hg (fun p hp => ?_) hzs hzn ?_ ?_ ?_ ?_
        · rw [hzd]
          exact hwr.before_heap hp
        all_goals subst hm'
        · rfl
        · rfl
        · rfl
        · exact Or.inr hk
      · rw [hzs, hsize]
        exact ho.length
      · refine eq_of_getD ?_ fun i hi => ?_
        · rw [overwrite_length, ho.bytes_length, fileBytes, fileData_length, hsize]
          exact (Nat.max_eq_left hb).symm
        · rw [fileBytes, fileData_length] at hi
          have hin : i < n.size := hsize ▸ hi
          rw [fileBytes_getD hi, hzd, hzs, overwrite_getD]
          split
          · have := hwr.inside (i - off) (by omega)
            rwa [show off + (i - off) = i by omega] at this
          · rw [hwr.same hge ho.chained.nodup hlen (by omega) (by omega), ← ho.bytes,
              fileBytes_getD hin]
    simp only [ne_eq, not_true_eq_false, if_false]
    split
    · exact ⟨rfl, hfinish _ _ rfl rfl rfl (fun j hj => World.setNode_ne _ _ hj)
        (World.setNode_self _ _ _) ⟨_, _, rfl⟩⟩
    · simp only [wp_bind, exfatUpdateMtime, wp_timeNow]
      rw [wp_modifyNode (n := n.seek (off / w.sb.clusterSize) c) (by simp)]
      refine ⟨rfl, hfinish _ _ rfl rfl rfl (fun j hj => ?_) (World.setNode_self _ _ _)
        ⟨_, _, rfl⟩⟩
      rw [World.setNode_ne _ _ hj]
      exact World.setNode_ne _ _ hj

/-- The part of `exfat_generic_pwrite` that extends the file, with room for it. -/
theorem extendTo_resizes (hq : Env.Quiet) (hg : Geometry w.sb) (hm : Mapped w bits)
    (hend : w.sb.clusterCount + 2 < 2 ^ 32) (ho : Owns w bits id n L bs) {stop : Nat}
    (hwide : divRoundUp stop w.sb.clusterSize < 2 ^ 32)
    (hle : divRoundUp (max n.size stop) w.sb.clusterSize ≤
      L.length + (freeSet bits w.sb.clusterCount).card)
    (hsafe : L.length < divRoundUp (max n.size stop) w.sb.clusterSize →
      ¬Trapped bits w.sb.clusterCount n L) (erase : Bool) :
    Wp E (extendTo id n.size stop erase) w fun rc v => rc = .ok ∧ ∃ bits' m K ts,
      Moved w v bits bits' id L K ∧ Owns v bits' id m K (bs ++ ts) ∧
      ts.length = stop - n.size ∧ (erase = true → ts = List.replicate (stop - n.size) 0) ∧
      (freeSet bits' w.sb.clusterCount).card + K.length =
        (freeSet bits w.sb.clusterCount).card + L.length ∧
      (Trapped bits' w.sb.clusterCount m K → Trapped bits w.sb.clusterCount n L) := by
  rw [extendTo]
  split
  · rename_i hlt
    rw [Nat.max_eq_right (Nat.le_of_lt hlt)] at hle hsafe
    refine (exfatTruncate_resizes hq hg hm hend ho hwide hle hsafe erase).mono ?_
    rintro rc v ⟨rfl, bits', m, K, ts, hmv, hown, hts, hz, hcard, htrap⟩
    rw [List.take_of_length_le (by rw [ho.bytes_length]; omega)] at hown
    exact ⟨rfl, bits', m, K, ts, hmv, hown, hts, hz, hcard, htrap (by omega)⟩
  · rename_i hge
    have h0 : stop - n.size = 0 := by omega
    refine ⟨rfl, bits, n, L, [], .refl hm, ?_, by simp [h0], by simp [h0], rfl, fun h => h⟩
    rw [List.append_nil]
    exact ho

/-- `exfat_truncate` with erasing cuts or zero-fills the bytes of a node, or fails for lack of space
and changes nothing. -/
theorem exfatTruncate_refines (hq : Env.Quiet) (hg : Geometry w.sb) (hm : Mapped w bits)
    (hend : w.sb.clusterCount + 2 < 2 ^ 32) (ho : Owns w bits id n L bs)
    (hwide : divRoundUp size w.sb.clusterSize < 2 ^ 32)
    (hsafe : L.length < divRoundUp size w.sb.clusterSize →
      ¬Trapped bits w.sb.clusterCount n L) :
    Wp E (exfatTruncate id size true) w fun rc v => ∃ bits' m K bs',
      Moved w v bits bits' id L K ∧ Owns v bits' id m K bs' ∧
      (freeSet bits' w.sb.clusterCount).card + K.length =
        (freeSet bits w.sb.clusterCount).card + L.length ∧
      (divRoundUp size w.sb.clusterSize ≤ L.length + (freeSet bits w.sb.clusterCount).card →
        rc = .ok ∧ bs' = resized bs size) ∧
      (L.length + (freeSet bits w.sb.clusterCount).card < divRoundUp size w.sb.clusterSize →
        rc = .err .enospc ∧ bs' = bs) := by
  by_cases hle : divRoundUp size w.sb.clusterSize ≤
      L.length + (freeSet bits w.sb.clusterCount).card
  · refine (exfatTruncate_resizes hq hg hm hend ho hwide hle hsafe true).mono ?_
    rintro rc v ⟨rfl, bits', m, K, ts, hmv, hown, -, hz, hcard, -⟩
    refine ⟨bits', m, K, _, hmv, hown, hcard, fun _ => ⟨rfl, ?_⟩, fun h => absurd h (by omega)⟩
    rw [hz rfl, resized, ho.bytes_length]
  · refine (exfatTruncate_full hq hg hm hend ho hwide (by omega) (hsafe (by omega)) true).mono ?_
    rintro rc v ⟨rfl, m, hmv, hown⟩
    exact ⟨bits, m, L, bs, hmv, hown, rfl, fun h => absurd h hle, fun _ => ⟨rfl, rfl⟩⟩

/-- `exfat_generic_pwrite` writes at an offset of the bytes of a node, or fails for lack of space;
then at most the gap before the offset stays. -/
theorem exfatGenericPwrite_refines (hq : Env.Quiet) (hg : Geometry w.sb) (hm : Mapped w bits)
    (hend : w.sb.clusterCount + 2 < 2 ^ 32) (ho : Owns w bits id n L bs) {buf : List UInt8}
    (hwide : divRoundUp (off + buf.length) w.sb.clusterSize < 2 ^ 32)
    (hsafe : L.length < divRoundUp (max n.size (off + buf.length)) w.sb.clusterSize →
      ¬Trapped bits w.sb.clusterCount n L) :
    Wp E (exfatGenericPwrite id buf off) w fun rc v => ∃ bits' m K bs',
      Moved w v bits bits' id L K ∧ Owns v bits' id m K bs' ∧
      (freeSet bits' w.sb.clusterCount).card + K.length =
        (freeSet bits w.sb.clusterCount).card + L.length ∧
      (divRoundUp (max n.size (off + buf.length)) w.sb.clusterSize ≤
          L.length + (freeSet bits w.sb.clusterCount).card →
        rc = .ok ∧ bs' = overwrite bs off buf) ∧
      (L.length + (freeSet bits w.sb.clusterCount).card <
          divRoundUp (max n.size (off + buf.length)) w.sb.clusterSize →
        rc = .err .enospc ∧ bs' = if n.size < off ∧ divRoundUp off w.sb.clusterSize ≤
          L.length + (freeSet bits w.sb.clusterCount).card then resized bs off else bs) := by
  have hcs := clusterSize_pos w.sb
  have hmono : ∀ {a b : Nat}, a ≤ b →
      divRoundUp a w.sb.clusterSize ≤ divRoundUp b w.sb.clusterSize := fun h => divRoundUp_mono h
  have hoffw := hmono (show off ≤ off + buf.length by omega)
  have hgapw := hmono (show max n.size off ≤ max n.size (off + buf.length) by omega)
  have h64 : (off + buf.length) % 2 ^ 64 = off + buf.length := by
    have hs : w.sb.clusterSize ≤ 2 ^ 25 := by
      simp only [SuperBlock.clusterSize, SuperBlock.sectorSize, ← Nat.pow_add]
      exact Nat.pow_le_pow_right (by omega) hg.cluster
    have hle := le_divRoundUp_mul (off + buf.length) hcs
    have hmul := Nat.mul_le_mul (Nat.le_of_lt hwide) hs
    exact Nat.mod_eq_of_lt (by omega)
  rw [exfatGenericPwrite_eq]
  simp only [wp_bind, wp_getNode ho.node, h64]
  by_cases hgap : divRoundUp (max n.size off) w.sb.clusterSize ≤
      L.length + (freeSet bits w.sb.clusterCount).card
  · refine (extendTo_resizes hq hg hm hend ho (by omega) hgap (fun h => hsafe (by omega)) true).mono
      ?_
    rintro _ u ⟨rfl, bits1, m1, K1, ts1, hmv1, ho1, hts1, hz1, hcard1, htrap1⟩
    have hsb := hmv1.sb
    have hlen1 := ho1.bytes_length
    rw [List.length_append, ho.bytes_length, hts1] at hlen1
    have hmax : max m1.size (off + buf.length) = max n.size (off + buf.length) := by omega
    have hK1 : K1.length = divRoundUp (max n.size off) w.sb.clusterSize := by
      rw [ho1.length, hsb]
      congr 1
      omega
    have hsafe1 : K1.length < divRoundUp (max m1.size (off + buf.length)) u.sb.clusterSize →
        ¬Trapped bits1 u.sb.clusterCount m1 K1 := by
      intro h ht
      rw [hsb] at h ht
      rw [hmax] at h
      have hold := hmono (show n.size ≤ max n.size off by omega)
      rw [← ho.length] at hold
      exact hsafe (by omega) (htrap1 ht)
    simp only [ne_eq, not_true_eq_false, if_false, wp_bind, wp_getNode ho1.node]
    by_cases hroom : divRoundUp (max n.size (off + buf.length)) w.sb.clusterSize ≤
        L.length + (freeSet bits w.sb.clusterCount).card
    · refine (extendTo_resizes hq (hsb ▸ hg) hmv1.mapped (hsb ▸ hend) ho1 (by rw [hsb]; exact hwide)
        (by rw [hsb, hmax]; omega) hsafe1 false).mono ?_
      rintro _ z ⟨rfl, bits2, m2, K2, ts2, hmv2, ho2, hts2, -, hcard2, -⟩
      have hlen2 := ho2.bytes_length
      rw [List.length_append, ho1.bytes_length, hts2] at hlen2
      simp only [not_true_eq_false, if_false]
      refine (pwriteData_writes hq (hmv2.sb ▸ hsb ▸ hg) hmv2.mapped ho2 (by omega)).mono ?_
      rintro rc v ⟨rfl, m3, hmv3, ho3⟩
      refine ⟨bits2, m3, K2, _, hmv1.trans (hmv2.trans hmv3), ho3, ?_, fun _ => ⟨rfl, ?_⟩,
        fun h => absurd h (by omega)⟩
      · rw [hsb] at hcard2
        omega
      · rw [List.append_assoc]
        refine overwrite_append ?_ fun i h1 h2 => ?_
        · rw [List.length_append, ho.bytes_length, hts1, hts2]
          omega
        · rw [ho.bytes_length] at h1
          rw [hz1 rfl, List.getD_append_right _ _ _ _ (by rw [ho.bytes_length]; exact h1),
            List.getD_append _ _ _ _ (by rw [List.length_replicate, ho.bytes_length]; omega),
            List.getD_eq_getElem?_getD, List.getElem?_replicate]
          split <;> rfl
    · have hmore : off + buf.length > m1.size := by
        by_contra hle
        have := hmono (show max n.size (off + buf.length) ≤ max n.size off by omega)
        omega
      rw [Nat.max_eq_right (Nat.le_of_lt hmore)] at hmax
      rw [extendTo, if_pos hmore]
      refine (exfatTruncate_full hq (hsb ▸ hg) hmv1.mapped (hsb ▸ hend) ho1 (by rw [hsb]; exact hwide)
        (by rw [hsb, hmax]; omega) (hsafe1 (by
          rw [hsb, Nat.max_eq_right (Nat.le_of_lt hmore), hmax]; omega)) false).mono ?_
      rintro _ v ⟨rfl, m2, hmv2, ho2⟩
      simp only [reduceCtorEq, not_false_eq_true, if_true, wp_pure]
      refine ⟨bits1, m2, K1, _, hmv1.trans hmv2, ho2, hcard1, fun h => absurd h hroom,
        fun _ => ⟨trivial, ?_⟩⟩
      split
      · rename_i hin
        rw [hz1 rfl, resized_of_ge (by rw [ho.bytes_length]; omega), ho.bytes_length]
      · rename_i hin
        have hnone : ts1 = [] := List.eq_nil_of_length_eq_zero (by
          rw [hts1]
          by_contra hne
          rw [Nat.max_eq_right (by omega)] at hgap
          exact hin ⟨by omega, hgap⟩)
        rw [hnone, List.append_nil]
  · have hlt : n.size < off := by
      by_contra hge
      rw [Nat.max_eq_left (by omega), ← ho.length] at hgap
      omega
    rw [Nat.max_eq_right (Nat.le_of_lt hlt)] at hgap hgapw
    have hold := hmono (Nat.le_of_lt hlt)
    rw [← ho.length] at hold
    rw [extendTo, if_pos hlt]
    refine (exfatTruncate_full hq hg hm hend ho (by omega) (by omega) (hsafe (by omega)) true).mono
      ?_
    rintro _ v ⟨rfl, m, hmv, hown⟩
    simp only [ne_eq, reduceCtorEq, not_false_eq_true, if_true, wp_pure]
    refine ⟨bits, m, L, bs, hmv, hown, rfl, fun h => absurd h (by omega), fun _ => ⟨trivial, ?_⟩⟩
    rw [if_neg fun h => hgap h.2]

/-- Reading moves the cached pointer and sets the access time. -/
theorem exfatGenericPread_keeps (hq : Env.Quiet) (hg : Geometry w.sb) (hm : Mapped w bits)
    (ho : Owns w bits id n L bs) (size off : Nat) :
    Wp E (exfatGenericPread id size off) w fun _ v => ∃ m,
      Moved w v bits bits id L L ∧ Owns v bits id m L bs := by
  have hLcover : n.size ≤ L.length * w.sb.clusterSize := by
    rw [ho.length]
    exact le_divRoundUp_mul n.size (clusterSize_pos _)
  simp only [exfatGenericPread, wp_bind, wp_getNode ho.node]
  split
  · exact ⟨n, .refl hm, ho⟩
  split
  · exact ⟨n, .refl hm, ho⟩
  · have hoff : off < L.length * w.sb.clusterSize := by omega
    obtain ⟨c, hk, hcm⟩ := exists_cluster hoff
    have hmod := Nat.div_add_mod' off w.sb.clusterSize
    simp only [wp_bind, wp_get, ho.chained.index_mod_count hg.count hoff]
    refine after_ret (exfatAdvanceCluster_spec hq ho.node ho.chained hk) fun t => ?_
    simp only [World.setNode_ticked, World.setNode_sb, World.ticked_sb, ho.chained.valid c hcm,
      Bool.false_eq_true, if_false, wp_bind]
    refine after_ret (preadLoop_spec hq
      (w := (w.ticked t).setNode id (n.seek (off / w.sb.clusterSize) c))
      ho.chained.walk ho.chained.valid _ (off / w.sb.clusterSize) c (off % w.sb.clusterSize) _ []
      (fun _ => hk) (Nat.mod_lt _ (clusterSize_pos w.sb)) (Nat.le_refl _)
      (by simp only [World.setNode_sb, World.ticked_sb]; omega)) fun t => ?_
    have hfinish : ∀ z m, z.dev = w.dev → z.sb = w.sb → z.cmap = w.cmap →
        (∀ j, j ≠ id → z.nodes j = w.nodes j) → z.nodes id = some m →
        (∃ t d, m = { n.seek (off / w.sb.clusterSize) c with atime := t, isDirty := d }) →
        ∃ m, Moved w z bits bits id L L ∧ Owns z bits id m L bs := by
      rintro z m hzd hzs hzc hzo hzn ⟨t, d, hm'⟩
      have hsize : m.size = n.size := by rw [hm']; rfl
      have hnil : Wrote w.sb w.dev L 0 [] w.dev := .nil _ _ _ _
      refine ⟨m, hnil.moved hg hm ho.chained (by simp) hzd hzs hzc hzo, ?_, ?_, ?_⟩
      · refine ho.toOwner.written hg (fun p _ => by rw [hzd]) hzs hzn ?_ ?_ ?_ ?_
        all_goals subst hm'
        · rfl
        · rfl
        · rfl
        · exact Or.inr hk
      · rw [hzs, hsize]
        exact ho.length
      · rw [fileBytes_heap hzs hsize fun p _ => by rw [hzd]]
        exact ho.bytes
    simp only [wp_bind, wp_get]
    split
    · simp only [exfatUpdateAtime, wp_bind, wp_timeNow]
      rw [wp_modifyNode (n := n.seek (off / w.sb.clusterSize) c) (by simp)]
      refine hfinish _ _ rfl rfl rfl (fun j hj => ?_) (World.setNode_self _ _ _) ⟨_, _, rfl⟩
      rw [World.setNode_ne _ _ hj]
      exact World.setNode_ne _ _ hj
    · exact hfinish _ _ rfl rfl rfl (fun j hj => World.setNode_ne _ _ hj)
        (World.setNode_self _ _ _) ⟨_, _, rfl⟩

end

end Proofs

end Exfat
