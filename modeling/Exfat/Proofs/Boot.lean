import Exfat.Model.Mount
import Exfat.Proofs.Chain

namespace Exfat
open Lib

/-! The boot checksum: what mounting and unmounting write into the super block is skipped by it. -/

/-- The checksum over `n` sectors from sector `i` on. -/
def vbrSum (dev : Store) (sectorSize : Nat) : Nat → Nat → Nat → Nat
  | 0, _, sum => sum
  | n + 1, i, sum =>
    vbrSum dev sectorSize n (i + 1)
      (exfatVbrAddChecksum (dev.read (i * sectorSize) sectorSize) sum)

/-- The checksum of the boot region. -/
def bootSum (dev : Store) (sectorSize : Nat) : Nat :=
  vbrSum dev sectorSize 10 1 (exfatVbrStartChecksum (dev.read 0 sectorSize))

/-- Every word of the checksum sector holds the checksum of the boot region. -/
def BootOk (dev : Store) (sectorSize : Nat) : Prop :=
  ∀ i < sectorSize / 4, leAt (dev.read (11 * sectorSize) sectorSize) (4 * i) 4 =
    bootSum dev sectorSize

/-- A super block with other values in the two fields that mounting changes. -/
def SuperBlock.rewrite (sb : SuperBlock) (state percent : Nat) : SuperBlock :=
  { sb with volumeState := state, allocatedPercent := percent }

namespace Proofs

variable {E : Halt → Prop} {w v : World} {bs : List UInt8}

theorem toLe_leAt (off n : Nat) (h : off + n ≤ bs.length) :
    toLe n (leAt bs off n) = (bs.drop off).take n := by
  have hl : ((bs.drop off).take n).length = n := by
    rw [List.length_take, List.length_drop]
    omega
  have hv := toLe_leNat ((bs.drop off).take n)
  rwa [hl] at hv

theorem rewrite_self (sb : SuperBlock) : sb.rewrite sb.volumeState sb.allocatedPercent = sb := rfl

/-- Two neighbouring parts of a record. -/
theorem slice_add (bs : List UInt8) (a b c : Nat) :
    (bs.drop a).take b ++ (bs.drop (a + b)).take c = (bs.drop a).take (b + c) := by
  rw [List.take_add, List.drop_drop]

theorem take_slice {l : List UInt8} {a : Nat} (h : l = bs.take a) (b : Nat) :
    l ++ (bs.drop a).take b = bs.take (a + b) := by
  rw [h, List.take_add]

/-- A super block is written back as it was read, except for the two fields. -/
theorem toBytes_ofBytes (hl : bs.length = 512) (state percent : Nat) :
    ((SuperBlock.ofBytes bs).rewrite state percent).toBytes =
      bs.take 0x6a ++ toLe 2 state ++ (bs.drop 0x6c).take 4 ++ toLe 1 percent ++ bs.drop 0x71 := by
  have hf : ∀ off n, off + n ≤ 512 → toLe n (leAt bs off n) = (bs.drop off).take n :=
    fun off n h => toLe_leAt off n (by omega)
  have hA := take_slice (take_slice (take_slice (take_slice (take_slice (take_slice (take_slice
    (take_slice (take_slice (take_slice (take_slice (take_slice
    (show bs.take 3 = bs.take 3 from rfl) 8) 53) 8) 8) 4) 4) 4) 4) 4) 4) 1) 1
  have hB := (congrArg (fun l => (bs.drop 0x6c).take 1 ++ ((bs.drop 0x6d).take 1 ++ l))
    (slice_add bs 0x6e 1 1)).trans ((congrArg (fun l => (bs.drop 0x6c).take 1 ++ l)
      (slice_add bs 0x6d 1 2)).trans (slice_add bs 0x6c 1 3))
  have hC : (bs.drop 0x71).take 397 ++ (bs.drop 0x1fe).take 2 = bs.drop 0x71 :=
    (slice_add bs 0x71 397 2).trans (List.take_of_length_le (by rw [List.length_drop]; omega))
  unfold SuperBlock.toBytes
  simp only [SuperBlock.rewrite, SuperBlock.ofBytes]
  rw [hf 64 8 (by decide), hf 72 8 (by decide), hf 80 4 (by decide), hf 84 4 (by decide),
    hf 88 4 (by decide), hf 92 4 (by decide), hf 96 4 (by decide), hf 100 4 (by decide),
    hf 104 1 (by decide), hf 105 1 (by decide), hf 108 1 (by decide), hf 109 1 (by decide),
    hf 110 1 (by decide), hf 111 1 (by decide), hf 510 2 (by decide)]
  refine Eq.trans ?_ (congrArg₂ (fun b c => bs.take 0x6a ++ toLe 2 state ++ b ++ toLe 1 percent ++ c)
    hB hC)
  refine Eq.trans ?_ (congrArg (fun a => a ++ toLe 2 state ++ _ ++ toLe 1 percent ++ _) hA)
  simp only [List.append_assoc]

/-- A byte outside the two fields. -/
def Fixed (i : Nat) : Prop := i ≠ 0x6a ∧ i ≠ 0x6b ∧ i ≠ 0x70

theorem toBytes_getD (hl : bs.length = 512) (state percent : Nat) {i : Nat} (hi : Fixed i) :
    ((SuperBlock.ofBytes bs).rewrite state percent).toBytes.getD i 0 = bs.getD i 0 := by
  have h1 : (setAt bs 0x6a (toLe 2 state)).length = 512 := by
    rw [setAt_length (by rw [toLe_length]; omega), hl]
  have hset : ((SuperBlock.ofBytes bs).rewrite state percent).toBytes =
      setAt (setAt bs 0x6a (toLe 2 state)) 0x70 (toLe 1 percent) := by
    have hA : (bs.take 0x6a ++ toLe 2 state).length = 0x6c := by
      rw [List.length_append, List.length_take, toLe_length]
      omega
    have ht : (bs.take 0x6a ++ toLe 2 state ++ bs.drop 0x6c).take 0x70 =
        bs.take 0x6a ++ toLe 2 state ++ (bs.drop 0x6c).take 4 := by
      rw [List.take_append, List.take_of_length_le (by omega), hA]
    have hd : (bs.take 0x6a ++ toLe 2 state ++ bs.drop 0x6c).drop 0x71 = bs.drop 0x71 := by
      rw [List.drop_append, List.drop_eq_nil_of_le (by omega), hA, List.nil_append, List.drop_drop]
    rw [toBytes_ofBytes hl, setAt, setAt, toLe_length, toLe_length, ht, hd]
  obtain ⟨h6a, h6b, h70⟩ := hi
  rw [hset, setAt_getD (by rw [toLe_length]; omega), toLe_length, if_neg (by omega),
    setAt_getD (by rw [toLe_length]; omega), toLe_length, if_neg (by omega)]

theorem toBytes_length (hl : bs.length = 512) (state percent : Nat) :
    ((SuperBlock.ofBytes bs).rewrite state percent).toBytes.length = 512 := by
  rw [toBytes_ofBytes hl]
  simp only [List.length_append, List.length_take, List.length_drop, toLe_length]
  omega

/-- Sums over sectors depend only on these sectors. -/
theorem vbrSum_congr {d e : Store} {ss : Nat} (n i sum : Nat)
    (h : ∀ o, i * ss ≤ o → o < (i + n) * ss → d o = e o) :
    vbrSum d ss n i sum = vbrSum e ss n i sum := by
  induction n generalizing i sum with
  | zero => rfl
  | succ n ih =>
    have hr : d.read (i * ss) ss = e.read (i * ss) ss := by
      refine Store.read_congr fun o h1 h2 => h o h1 (h2.trans_le ?_)
      rw [← Nat.succ_mul]
      exact Nat.mul_le_mul_right _ (by omega)
    rw [vbrSum, vbrSum, hr]
    refine ih _ _ fun o h1 h2 => h o (le_trans (Nat.mul_le_mul_right _ (by omega)) h1) ?_
    rwa [Nat.add_right_comm, Nat.add_assoc] at h2

/-- Two devices agree on the first twelve sectors outside the two fields. -/
def BootKept (d e : Store) (ss : Nat) : Prop := ∀ o < 12 * ss, Fixed o → e o = d o

/-- The first sector enters the checksum without the two fields. -/
theorem exfatVbrStartChecksum_read (d : Store) {ss : Nat} (hs : 512 ≤ ss) :
    exfatVbrStartChecksum (d.read 0 ss) =
      (d.read 0 0x6a ++ d.read 0x6c 4 ++ d.read 0x71 (ss - 0x71)).foldl vbrChecksumByte 0 := by
  have hdrop : ∀ k ≤ ss, (d.read 0 ss).drop k = d.read k (ss - k) := by
    intro k hk
    have hr := d.read_append 0 k (ss - k)
    rw [Nat.add_sub_of_le hk, Nat.zero_add] at hr
    rw [hr]
    exact List.drop_left' (Store.read_length _ _ _)
  have htake : ∀ o k n, k ≤ n → (d.read o n).take k = d.read o k := by
    intro o k n hk
    have hr := d.read_append o k (n - k)
    rw [Nat.add_sub_of_le hk] at hr
    rw [hr]
    exact List.take_left' (Store.read_length _ _ _)
  rw [exfatVbrStartChecksum, hdrop 0x6c (by omega), hdrop 0x71 (by omega),
    htake 0 0x6a ss (by omega), htake 0x6c 4 (ss - 0x6c) (by omega)]

theorem BootKept.ok {d e : Store} {ss : Nat} (hs : 512 ≤ ss) (h : BootKept d e ss)
    (hok : BootOk d ss) : BootOk e ss := by
  have hfix : ∀ {o k}, o + k ≤ 12 * ss → (∀ i, o ≤ i → i < o + k → Fixed i) →
      e.read o k = d.read o k :=
    fun hk hf => Store.read_congr fun i h1 h2 => h i (by omega) (hf i h1 h2)
  have hstart : exfatVbrStartChecksum (e.read 0 ss) = exfatVbrStartChecksum (d.read 0 ss) := by
    rw [exfatVbrStartChecksum_read e hs, exfatVbrStartChecksum_read d hs,
      hfix (by omega) fun i h1 h2 => ⟨by omega, by omega, by omega⟩,
      hfix (by omega) fun i h1 h2 => ⟨by omega, by omega, by omega⟩,
      hfix (by omega) fun i h1 h2 => ⟨by omega, by omega, by omega⟩]
  have hsum : bootSum e ss = bootSum d ss := by
    rw [bootSum, bootSum, hstart]
    exact vbrSum_congr 10 1 _ fun o h1 h2 => h o (by omega) ⟨by omega, by omega, by omega⟩
  intro i hi
  rw [hsum, hfix (by omega) fun i h1 h2 => ⟨by omega, by omega, by omega⟩]
  exact hok i hi

section
variable [Env]

theorem vbrSumLoop_spec (hq : Env.Quiet) (ss n i sum : Nat) :
    Wp E (vbrSumLoop ss n i sum) w (Ret (some (vbrSum w.dev ss n i sum)) w) := by
  induction n generalizing w i sum with
  | zero => exact .intro _ _
  | succ n ih =>
    simp only [vbrSumLoop, wp_bind]
    refine after_ret (exfatPread_spec hq _ _) fun t => ?_
    dsimp only
    exact after_ret (ih _ _) fun t' => ⟨rfl, t', rfl⟩

/-- The last loop of `verify_vbr_checksum` passes without an error when every word is right. -/
theorem vbrCheckLoop_spec {sum : Nat} {sector : List UInt8} {n i : Nat}
    (h : ∀ j, i ≤ j → j < i + n → leAt sector (4 * j) 4 = sum) :
    Wp E (vbrCheckLoop sum n i sector) w (Ret true w) := by
  induction n generalizing i with
  | zero => exact .intro _ _
  | succ n ih =>
    unfold vbrCheckLoop
    rw [if_neg (not_not.mpr (h i le_rfl (by omega)))]
    exact ih fun j h1 h2 => h j (by omega) (by omega)

theorem verifyVbrChecksum_spec (hq : Env.Quiet) (h : BootOk w.dev w.sb.sectorSize) :
    Wp E verifyVbrChecksum w (Ret true w) := by
  simp only [verifyVbrChecksum, wp_bind, wp_get]
  refine after_ret (exfatPread_spec hq _ _) fun t => ?_
  simp only [wp_bind]
  refine after_ret (vbrSumLoop_spec hq _ _ _ _) fun t' => ?_
  simp only [wp_bind]
  refine after_ret (exfatPread_spec hq _ _) fun t'' => ?_
  refine after_ret (vbrCheckLoop_spec fun j _ hj => ?_) fun s => ⟨rfl, s, rfl⟩
  exact h j (by omega)

/-- A word that is wrong is reported. -/
theorem vbrCheckLoop_errors {sum : Nat} {sector : List UInt8} {n i : Nat} :
    Wp (fun _ => True) (vbrCheckLoop sum n i sector) w fun b v => w.errors ≤ v.errors ∧
      (b = true → v.errors = w.errors →
        ∀ j, i ≤ j → j < i + n → leAt sector (4 * j) 4 = sum) := by
  induction n generalizing w i sector with
  | zero => exact ⟨le_rfl, fun _ _ j h1 h2 => by omega⟩
  | succ n ih =>
    unfold vbrCheckLoop
    split
    · simp only [wp_bind, wp_exfatError]
      have hask : Wp (fun _ => True) exfatAskToFix (w.erred (w.errors + 1)) fun _ v =>
          v.errors = w.errors + 1 := by
        simp only [exfatAskToFix, wp_bind, wp_get]
        cases (w.erred (w.errors + 1)).repair <;> rfl
      apply hask.mono
      intro b v hv
      split
      · have hfix : Wp (fun _ => True) (exfatFixInvalidVbrChecksum sum) v fun _ u =>
            v.errors ≤ u.errors := by
          simp only [exfatFixInvalidVbrChecksum, exfatPwrite, wp_bind, wp_get, wp_nextTick]
          split
          · simp only [wp_pure, Bool.false_eq_true, if_false, wp_bind, wp_exfatError]
            exact Nat.le_succ _
          · simp only [wp_bind, wp_modify, wp_pure, if_true]
            exact le_rfl
        simp only [wp_bind]
        apply hfix.mono
        intro r u hu
        cases r with
        | none => exact ⟨by omega, fun h => by cases h⟩
        | some sector' =>
          apply ih.mono
          rintro b x ⟨hx, -⟩
          exact ⟨by omega, fun _ he => by omega⟩
      · exact ⟨by omega, fun h => by cases h⟩
    · rename_i hw
      apply ih.mono
      rintro b v ⟨hv, hr⟩
      refine ⟨hv, fun hb he j h1 h2 => ?_⟩
      by_cases hj : j = i
      · subst hj
        exact not_not.mp hw
      · exact hr hb he j (by omega) (by omega)

/-- The boot region passes without an error only if it carries its checksum. -/
theorem bootOk_of_verify (hq : Env.Quiet) {u : World} (h : verifyVbrChecksum w = .ok (true, u))
    (he : u.errors = w.errors) : BootOk w.dev w.sb.sectorSize := by
  have hspec : Wp (fun _ => True) verifyVbrChecksum w fun b v =>
      b = true → v.errors = w.errors → BootOk w.dev w.sb.sectorSize := by
    simp only [verifyVbrChecksum, wp_bind, wp_get]
    refine after_ret (exfatPread_spec hq _ _) fun t => ?_
    simp only [wp_bind]
    refine after_ret (vbrSumLoop_spec hq _ _ _ _) fun t' => ?_
    simp only [wp_bind]
    refine after_ret (exfatPread_spec hq _ _) fun t'' => ?_
    apply vbrCheckLoop_errors.mono
    rintro b v ⟨-, hr⟩ hb hv i hi
    exact hr hb hv i (Nat.zero_le _) (by omega)
  exact hspec.run h rfl he

/-- One step in the life of a mounted volume, as far as the boot region is concerned: the super
block is read and marked as mounted, it is written with other values in the two fields, it is
finalized, or something is written after the first twelve sectors. -/
inductive BootStep : World → World → Prop where
  | mount {w x v : World} {b : Bool} (hd : x.dev = w.dev)
      (hs : x.sb = SuperBlock.ofBytes (w.dev.read 0 512)) (h : prepareSuperBlock x = .ok (b, v)) :
      BootStep w v
  | commit {w v : World} {b : Bool} (state percent : Nat)
      (h : commitSuperBlock { w with sb := w.sb.rewrite state percent } = .ok (b, v)) : BootStep w v
  | unmount {w v : World} (h : finalizeSuperBlock w = .ok ((), v)) : BootStep w v
  | other {w v : World} (hs : v.sb = w.sb) (h : ∀ o < 12 * w.sb.sectorSize, v.dev o = w.dev o) :
      BootStep w v

/-- Any number of steps. -/
inductive BootRun : World → World → Prop where
  | nil (w : World) : BootRun w w
  | cons {w v u : World} (h : BootStep w v) (rest : BootRun v u) : BootRun w u

/-- The super block in memory is that of a device, up to the two fields. -/
def SbKept (d : Store) (sb : SuperBlock) : Prop :=
  ∃ bs state percent, bs.length = 512 ∧ (∀ i < 512, Fixed i → bs.getD i 0 = d i) ∧
    sb = (SuperBlock.ofBytes bs).rewrite state percent

omit [Env] in
theorem SbKept.sectorBits {d : Store} {sb : SuperBlock} (h : SbKept d sb) :
    sb.sectorBits = (d 0x6c).toNat := by
  obtain ⟨bs, state, percent, hl, hb, rfl⟩ := h
  show leAt bs 0x6c 1 = _
  rw [leAt_one (by omega), hb 0x6c (by omega) ⟨by decide, by decide, by decide⟩]

omit [Env] in
theorem SbKept.rewrite {d : Store} {sb : SuperBlock} (h : SbKept d sb) (state percent : Nat) :
    SbKept d (sb.rewrite state percent) := by
  obtain ⟨bs, s, p, hl, hb, rfl⟩ := h
  exact ⟨bs, state, percent, hl, hb, rfl⟩

/-- What every step keeps, relative to the device there was at first. -/
structure BootInv (d : Store) (w : World) : Prop where
  dev : BootKept d w.dev w.sb.sectorSize
  sb : SbKept d w.sb

theorem commitSuperBlock_inv {d : Store} (h : BootInv d w) :
    Wp (fun _ => True) commitSuperBlock w fun _ v => BootInv d v := by
  have hfsync : ∀ x, BootInv d x → Wp (fun _ => True) exfatFsync x fun _ v => BootInv d v := by
    intro x hx
    simp only [exfatFsync, wp_bind, wp_nextTick]
    split
    · exact ⟨hx.dev, hx.sb⟩
    · exact ⟨hx.dev, hx.sb⟩
  simp only [commitSuperBlock, wp_bind, wp_get]
  apply (exfatPwrite_cases _ _).mono
  rintro _ _ ⟨t, ⟨rfl, rfl⟩ | ⟨rfl, rfl⟩⟩
  · exact ⟨h.dev, h.sb⟩
  · have hdev : BootKept d (w.dev.write 0 w.sb.toBytes) w.sb.sectorSize := by
      obtain ⟨bs, state, percent, hl, hb, hsb⟩ := h.sb
      intro o ho hf
      have hlen : w.sb.toBytes.length = 512 := by
        rw [hsb]
        exact toBytes_length hl _ _
      have hget : w.sb.toBytes.getD o 0 = bs.getD o 0 := by
        rw [hsb]
        exact toBytes_getD hl _ _ hf
      by_cases h5 : o < 512
      · rw [Store.write_in _ (Nat.zero_le o) (by omega), Nat.sub_zero, hget, hb o h5 hf]
      · rw [Store.write_out _ (by omega)]
        exact h.dev o ho hf
    have hx : BootInv d ((w.ticked t).withDev (w.dev.write 0 w.sb.toBytes)) := by
      constructor
      · rw [World.withDev_dev, World.withDev_sb, World.ticked_sb]
        exact hdev
      · rw [World.withDev_sb, World.ticked_sb]
        exact h.sb
    simp only [wp_bind, if_true]
    exact (hfsync _ hx).mono fun _ _ hv => hv

/-- A step keeps the boot region up to the two fields. -/
theorem BootStep.inv {d : Store} (hs : BootStep w v) (h : BootInv d w)
    (h9 : 512 ≤ w.sb.sectorSize) : BootInv d v := by
  cases hs with
  | @mount x b _ hd hsb hp =>
    have hread : ∀ i < 512, Fixed i → (w.dev.read 0 512).getD i 0 = d i := by
      intro i hi hf
      rw [Store.read_getD _ hi, Nat.zero_add]
      exact h.dev i (by omega) hf
    have hkept : SbKept d x.sb :=
      ⟨w.dev.read 0 512, _, _, Store.read_length _ _ _, hread, hsb.trans (rewrite_self _).symm⟩
    have hss : x.sb.sectorSize = w.sb.sectorSize := by
      rw [SuperBlock.sectorSize, SuperBlock.sectorSize, hkept.sectorBits, h.sb.sectorBits]
    have hx : BootInv d x := ⟨by rw [hd, hss]; exact h.dev, hkept⟩
    have hspec : Wp (fun _ => True) prepareSuperBlock x fun _ v => BootInv d v := by
      simp only [prepareSuperBlock, wp_bind, wp_get]
      split
      · exact hx
      · simp only [wp_bind, wp_set]
        exact commitSuperBlock_inv ⟨hx.dev, hx.sb.rewrite _ x.sb.allocatedPercent⟩
    exact hspec.run hp
  | commit state percent hc =>
    have hx : BootInv d { w with sb := w.sb.rewrite state percent } :=
      ⟨h.dev, h.sb.rewrite state percent⟩
    exact (commitSuperBlock_inv hx).run hc
  | unmount hf =>
    have hset : ∀ percent, Wp (fun _ => True) commitSuperBlock
        { w with sb := w.sb.rewrite (w.sb.volumeState &&& (2 ^ 16 - 1 - exfatStateMounted)) percent }
        fun _ v => BootInv d v := fun percent =>
      commitSuperBlock_inv ⟨h.dev, h.sb.rewrite _ percent⟩
    have hspec : Wp (fun _ => True) finalizeSuperBlock w fun _ v => BootInv d v := by
      simp only [finalizeSuperBlock, wp_bind, wp_get]
      split
      · exact h
      · split
        · simp only [wp_bind, wp_pure, wp_set]
          exact (hset _).mono fun _ _ hv => hv
        · simp only [exfatCountFreeClusters, getChunk, wp_bind, wp_get]
          cases w.cmap.chunk with
          | none => trivial
          | some chunk =>
            simp only [wp_pure, wp_set]
            exact (hset _).mono fun _ _ hv => hv
    exact hspec.run hf
  | other hsb ho =>
    refine ⟨?_, by rw [hsb]; exact h.sb⟩
    rw [hsb]
    intro o hlt hf
    rw [ho o hlt]
    exact h.dev o hlt hf

theorem BootRun.inv {d : Store} (hr : BootRun w v) (h : BootInv d w)
    (h9 : 512 ≤ w.sb.sectorSize) : BootInv d v := by
  induction hr with
  | nil w => exact h
  | @cons w x v hs _ ih =>
    have hx := hs.inv h h9
    refine ih hx ?_
    rw [SuperBlock.sectorSize, hx.sb.sectorBits, ← h.sb.sectorBits]
    exact h9

/-- A boot region that passes `verify_vbr_checksum` passes it after any number of mounts and unmounts,
without a repair. -/
theorem verify_after_cycles (hq : Env.Quiet) {u : World} (h9 : 9 ≤ w.sb.sectorBits)
    (hsb : w.sb = SuperBlock.ofBytes (w.dev.read 0 512))
    (hpass : verifyVbrChecksum w = .ok (true, u)) (he : u.errors = w.errors) (hr : BootRun w v) :
    ∃ t, verifyVbrChecksum v = .ok (true, v.ticked t) := by
  have h512 : 512 ≤ w.sb.sectorSize := Nat.pow_le_pow_right (n := 2) (by decide) h9
  have hinv : BootInv w.dev w := by
    refine ⟨fun _ _ _ => rfl, ⟨w.dev.read 0 512, _, _, Store.read_length _ _ _, fun i hi _ => ?_,
      hsb.trans (rewrite_self _).symm⟩⟩
    rw [Store.read_getD _ hi, Nat.zero_add]
  have hv := hr.inv hinv h512
  have hss : v.sb.sectorSize = w.sb.sectorSize := by
    rw [SuperBlock.sectorSize, SuperBlock.sectorSize, hv.sb.sectorBits, hinv.sb.sectorBits]
  have hok : BootOk v.dev v.sb.sectorSize := by
    have hk := hv.dev
    rw [hss] at hk ⊢
    exact hk.ok h512 (bootOk_of_verify hq hpass he)
  obtain ⟨b, x, hrun, rfl, t, rfl⟩ := (verifyVbrChecksum_spec hq hok).returns
  exact ⟨t, hrun⟩

end

/-- A boot region of zeros with sectors of 512 bytes, and its checksum. -/
def zeroBoot : World :=
  let dev : Store := fun i =>
    if i = 0x6c then 9 else if 11 * 512 ≤ i ∧ i % 4 = 1 then 64 else if 11 * 512 ≤ i ∧ i % 4 = 2 then 2
    else 0
  { dev := dev, sb := SuperBlock.ofBytes (dev.read 0 512) }

/-- The boot region of zeros passes, is mounted, and passes again. -/
theorem verify_after_cycles_zeroBoot : ∃ v t, @BootRun calmEnv zeroBoot v ∧
    @prepareSuperBlock calmEnv zeroBoot = .ok (true, v) ∧
    @verifyVbrChecksum calmEnv v = .ok (true, v.ticked t) := by
  let _ := calmEnv
  have hpass : ∃ b u, verifyVbrChecksum zeroBoot = .ok (b, u) ∧
      (b && u.errors == zeroBoot.errors) = true :=
    returns_of_check (p := fun b (u : World) => b && u.errors == zeroBoot.errors) (by decide +kernel)
  have hmount : ∃ b v, prepareSuperBlock zeroBoot = .ok (b, v) ∧ b = true :=
    returns_of_check (p := fun b _ => b) (by decide +kernel)
  obtain ⟨b, u, hv, hc⟩ := hpass
  rw [Bool.and_eq_true, beq_iff_eq] at hc
  obtain ⟨_, v, hm, rfl⟩ := hmount
  obtain ⟨rfl, he⟩ := hc
  have hsb : zeroBoot.sb = SuperBlock.ofBytes (zeroBoot.dev.read 0 512) := by dsimp only [zeroBoot]
  have hrun : BootRun zeroBoot v := .cons (.mount rfl hsb hm) (.nil v)
  obtain ⟨t, ht⟩ := verify_after_cycles calmEnv_quiet (by decide +kernel) hsb hv he hrun
  exact ⟨v, t, hrun, hm, ht⟩

end Proofs

end Exfat
