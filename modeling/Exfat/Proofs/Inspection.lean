import Exfat.Proofs.ReadOnly

namespace Exfat
open Lib

/-! Runs of the programs that only read: `dumpexfat`, `exfatlabel` without a label, `exfatfsck -n`
and a read-only FUSE session. -/

/-- The calls that read: those of the library and the handlers of FUSE. -/
inductive ReadCall where
  | lookup (path : List UInt8)
  | put (id : NodeId)
  | opendir (dir : NodeId)
  | readdir (it : Iterator)
  | closedir (dir : NodeId)
  | pread (id : NodeId) (size offset : Nat)
  | flushNode (id : NodeId)
  | flushNodes
  | flush
  | countFree
  | getattr (access : Access) (path : List UInt8)
  | list (access : Access) (path : List UInt8)
  | release (id : NodeId)
  | fsync
  | statfs

/-- A call, whatever it returns. -/
def ReadCall.run [Env] : ReadCall → M Unit
  | .lookup path => do let _ ← exfatLookup path
  | .put id => exfatPutNode id
  | .opendir dir => do let _ ← exfatOpendir dir
  | .readdir it => do let _ ← exfatReaddir it
  | .closedir dir => exfatClosedir dir
  | .pread id size offset => do let _ ← exfatGenericPread id size offset
  | .flushNode id => do let _ ← exfatFlushNode id
  | .flushNodes => do let _ ← exfatFlushNodes
  | .flush => do let _ ← exfatFlush
  | .countFree => do let _ ← exfatCountFreeClusters
  | .getattr access path => do let _ ← fuseExfatGetattr access path
  | .list access path => do let _ ← fuseExfatReaddir access path
  | .release id => fuseExfatRelease id
  | .fsync => do let _ ← fuseExfatFsync
  | .statfs => do let _ ← fuseExfatStatfs

/-- A mount, calls in any order with any arguments, and the unmount. -/
def session [Env] (options : List UInt8) (calls : List ReadCall) : M Unit := do
  if (← exfatMount options) ≠ .ok then pure ()
  else do
    calls.forM ReadCall.run
    exfatUnmount

/-- A run of a program that is not meant to write. -/
inductive Inspection where
  | session (options : List UInt8) (calls : List ReadCall)
  | dump (fuel : Nat) (sbOnly usedSectors : Bool) (filePath : Option (List UInt8))
  | label
  | check (fuel : Nat) (isatty : Bool) (flags : List FsckFlag)

def Inspection.run [Env] : Inspection → M Unit
  | .session options calls => Exfat.session options calls
  | .dump fuel sbOnly usedSectors filePath => do
    let _ ← dumpexfat fuel sbOnly usedSectors filePath
  | .label => do let _ ← exfatlabel none
  | .check fuel isatty flags => do let _ ← exfatfsck fuel isatty flags

/-- The options open the device for reading only. -/
def OpensReadOnly [Env] (options : List UInt8) : Prop :=
  matchOption options (bytesOf "ro") = true ∨
    matchOption options (bytesOf "ro_fallback") = true ∧ Env.opensRw = false

/-- The options ask for no repair. -/
def RepairsNothing (options : List UInt8) : Prop :=
  getIntOption options (bytesOf "repair") 10 0 ≠ 1 ∧
    getIntOption options (bytesOf "repair") 10 0 ≠ 2

/-- The options of a session are read-only and without repairs; a check has `-n` as its last flag. -/
def Inspection.ReadsOnly [Env] : Inspection → Prop
  | .session options _ => OpensReadOnly options ∧ RepairsNothing options
  | .check _ _ flags => flags.getLast? = some .n
  | .dump .. | .label => True

namespace Proofs

variable {d : Store} {w : World}

theorem inert_treeDetach (id : NodeId) : Inert (treeDetach id) := by
  refine inert_bind (inert_getNode id) fun n => inert_bind ?_ fun _ => inert_bind ?_ fun _ =>
    inert_modifyNode id fun _ => rfl
  · unfold skipForward
    split
    · exact inert_modifyNode _ fun _ => rfl
    · exact inert_bind (inert_deref _) fun _ => inert_modifyNode _ fun _ => rfl
  · unfold skipBackward
    split
    · exact inert_modifyNode _ fun _ => rfl
    · exact inert_pure _

theorem inert_putAll (fuel : Nat) (id : NodeId) : Inert (putAll id fuel) := by
  induction fuel with
  | zero => exact inert_fuel
  | succ fuel ih =>
    exact inert_bind (inert_getNode id) fun _ => inert_ite
      (fun _ => inert_bind (inert_exfatPutNode id) fun _ => ih) fun _ => inert_pure _

theorem inert_resetTree (fuel : Nat) :
    (∀ id, Inert (resetCache fuel id)) ∧ ∀ id, Inert (resetLoop fuel id) := by
  induction fuel with
  | zero => exact ⟨fun _ => inert_fuel, fun _ => inert_fuel⟩
  | succ fuel ih =>
    refine ⟨fun id => inert_bind (ih.2 id) fun _ => inert_bind (inert_modifyNode id fun _ => rfl)
      fun _ => ?_, fun id => inert_bind (inert_getNode id) fun n => ?_⟩
    · intro d w h
      rw [wp_bind, wp_getNode_iff (by simp [DirtyHalt])]
      intro n hn
      -- the node is clean, so it is let go
      have hput : Inert (do
          if id ≠ (← get).root ∧ n.isDirty then do
            let _ ← exfatGetName n.name
            exfatBug "node '%s' is dirty"
          else putAll id (n.references.toNat + 1)) := by
        simp only [h.clean id n hn, Bool.false_eq_true, and_false, if_false]
        exact inert_bind inert_get fun _ => inert_putAll _ id
      exact inert_ite (fun _ => inert_bind (inert_exfatGetName _) fun _ => hput) (fun _ => hput) d w h
    · cases n.child with
      | none => exact inert_pure _
      | some p =>
        exact inert_bind (ih.1 p) fun _ => inert_bind (inert_treeDetach p) fun _ =>
          inert_bind (inert_freeNode p) fun _ => ih.2 id

theorem inert_exfatResetCache : Inert exfatResetCache :=
  inert_bind inert_get fun _ => (inert_resetTree _).1 _

theorem inert_countFree : Inert exfatCountFreeClusters :=
  inert_bind inert_getChunk fun _ => inert_bind inert_get fun _ => inert_pure _

theorem inert_stat (access : Access) (id : NodeId) : Inert (exfatStat access id) :=
  inert_bind inert_get fun _ => inert_bind (inert_getNode id) fun _ => inert_pure _

theorem inert_fillLoop (access : Access) (fuel : Nat) (it : Iterator) :
    Inert (fillLoop access fuel it) := by
  induction fuel generalizing it with
  | zero => exact inert_fuel
  | succ fuel ih =>
    refine inert_bind (inert_exfatReaddir it) fun r => ?_
    obtain ⟨next, it⟩ := r
    cases next with
    | none => exact inert_pure _
    | some node =>
      exact inert_bind (inert_getNode node) fun _ => inert_bind (inert_exfatGetName _) fun _ =>
        inert_bind (inert_stat access node) fun _ => inert_bind (inert_exfatPutNode node) fun _ =>
          inert_bind (ih it) fun _ => inert_pure _

theorem inert_findUsedSectors (a b : Nat) : Inert (exfatFindUsedSectors a b) := by
  unfold exfatFindUsedSectors
  refine inert_bind inert_get fun w => inert_bind inert_getChunk fun chunk => ?_
  dsimp only
  cases findUsedClusters w.sb chunk
    (if a = 0 ∧ b = 0 then exfatFirstDataCluster - 1 else s2c w.sb b) with
  | none => exact inert_pure _
  | some range =>
    exact inert_ite (fun _ => inert_bind (inert_c2s _) fun _ => inert_bind (inert_c2s _) fun _ =>
      inert_pure _) fun _ => inert_bind (inert_pure _) fun _ => inert_bind (inert_c2s _) fun _ =>
        inert_pure _

theorem inert_dumpSectors (fuel a b : Nat) : Inert (dumpSectors fuel a b) := by
  induction fuel generalizing a b with
  | zero => exact inert_fuel
  | succ fuel ih =>
    refine inert_bind (inert_findUsedSectors a b) fun r => ?_
    cases r with
    | none => exact inert_pure _
    | some range => exact inert_bind (ih _ _) fun _ => inert_pure _

section
variable [Env]

theorem inert_exfatFree : Inert exfatFree := by
  refine inert_bind inert_nextTick fun _ => ?_
  have hfree : Inert (modify fun w : World =>
      { w with
        upcase := none
        cmap := { w.cmap with chunk := none }
        nodes := fun j => if j = w.root then none else w.nodes j }) := by
    intro d w h
    refine h.same rfl rfl rfl rfl fun i n hi hn => ⟨n, ?_, hn⟩
    dsimp only at hi
    split at hi
    · cases hi
    · exact hi
  exact inert_ite (fun _ => inert_bind (inert_error _) fun _ => hfree) fun _ => hfree

theorem inert_mountFail (s : String) (e : Errno) : Inert (mountFail s e) :=
  inert_bind (inert_error s) fun _ => inert_bind inert_exfatFree fun _ => inert_pure _

theorem inert_rootdirLoop (k c : Nat) : Inert (rootdirLoop k c) := by
  induction k generalizing c with
  | zero => exact inert_fail _
  | succ k ih =>
    exact inert_bind inert_get fun _ => inert_ite (fun _ => inert_fail _) fun _ =>
      inert_bind (inert_nextCluster _ _) fun _ => inert_ite (fun _ => inert_pure _) fun _ =>
        inert_bind (ih _) fun _ => inert_pure _

theorem inert_rootdirSize : Inert rootdirSize := by
  refine inert_bind inert_get fun _ => inert_bind (inert_rootdirLoop _ _) fun r => ?_
  cases r with
  | none => exact inert_pure _
  | some k => exact inert_pure _

theorem inert_vbrSumLoop (size k i sum : Nat) : Inert (vbrSumLoop size k i sum) := by
  induction k generalizing i sum with
  | zero => exact inert_pure _
  | succ k ih =>
    refine inert_bind (inert_pread _ _) fun r => ?_
    cases r with
    | none => exact inert_fail _
    | some sector => exact ih _ _

/-- A wrong boot checksum is reported and not repaired. -/
theorem inert_vbrCheckLoop (sum k i : Nat) (sector : List UInt8) :
    Inert (vbrCheckLoop sum k i sector) := by
  induction k generalizing i sector with
  | zero => exact inert_pure _
  | succ k ih =>
    exact inert_ite (fun _ => inert_bind (inert_error _) fun _ => inert_ask (inert_pure _))
      fun _ => ih _ _

theorem inert_verifyVbrChecksum : Inert verifyVbrChecksum := by
  refine inert_bind inert_get fun _ => inert_bind (inert_pread _ _) fun r => ?_
  cases r with
  | none => exact inert_fail _
  | some sector =>
    refine inert_bind (inert_vbrSumLoop _ _ _ _) fun r => ?_
    cases r with
    | none => exact inert_pure _
    | some sum =>
      refine inert_bind (inert_pread _ _) fun r => ?_
      cases r with
      | none => exact inert_fail _
      | some sector => exact inert_vbrCheckLoop _ _ _ _

theorem inert_prepareSuperBlock : Inert prepareSuperBlock := by
  intro d w h
  simp only [prepareSuperBlock, wp_bind, wp_get, h.ro, ne_eq, not_false_eq_true, if_true, wp_pure]
  exact h

theorem inert_mountFinish (rc : Rc) : Inert (mountFinish rc) :=
  inert_ite (fun _ => inert_pure _) fun _ => inert_bind inert_get fun _ =>
    inert_ite (fun _ => inert_fail _) fun _ => inert_bind inert_get fun _ =>
      inert_ite (fun _ => inert_fail _) fun _ => inert_prepareSuperBlock

theorem inert_mountRoot : Inert mountRoot :=
  inert_bind inert_get fun _ => inert_bind (inert_exfatGetNode _) fun _ =>
    inert_bind (inert_cacheDirectory _) fun _ => inert_bind (inert_mountFinish _) fun _ =>
      inert_ite (fun _ => inert_pure _) fun _ => inert_bind (inert_exfatPutNode _) fun _ =>
        inert_bind inert_exfatResetCache fun _ => inert_bind inert_exfatFree fun _ => inert_pure _

theorem inert_mountTree : Inert mountTree := by
  refine inert_bind inert_mallocOk fun _ => inert_ite (fun _ => inert_mountFail _ _) fun _ => ?_
  intro d w h
  simp only [wp_bind, wp_get, wp_set]
  have hroot : Idle d (w.setNode w.fresh
      { attrib := exfatAttribDir, startCluster := w.sb.rootdirCluster,
        fptrCluster := w.sb.rootdirCluster, name := padName [] }) := h.setNode rfl
  have hrest : ∀ root : NodeId, Inert (do
      let size ← rootdirSize
      modifyNode root fun n => { n with size := size }
      if size = 0 then do
        exfatFree
        pure (.err .eio)
      else mountRoot) := fun root =>
    inert_bind inert_rootdirSize fun _ => inert_bind (inert_modifyNode root fun _ => rfl) fun _ =>
      inert_ite (fun _ => inert_bind inert_exfatFree fun _ => inert_pure _) fun _ => inert_mountRoot
  have hrun := hrest w.fresh d _
    (hroot.same (v := { w.setNode w.fresh _ with root := w.fresh, fresh := w.fresh + 1 })
      rfl rfl rfl rfl fun _ n hi hn => ⟨n, hi, hn⟩)
  simpa only [wp_bind] using hrun

theorem inert_mountChecks : Inert mountChecks :=
  inert_bind inert_get fun _ => inert_ite (fun _ => inert_mountFail _ _) fun _ =>
    inert_ite (fun _ => inert_mountFail _ _) fun _ => inert_ite (fun _ => inert_mountFail _ _)
      fun _ => inert_bind inert_mallocOk fun _ => inert_ite (fun _ => inert_mountFail _ _) fun _ =>
        inert_bind inert_verifyVbrChecksum fun _ => inert_ite
          (fun _ => inert_bind inert_exfatFree fun _ => inert_pure _) fun _ =>
            inert_ite (fun _ => inert_mountFail _ _) fun _ => inert_ite
              (fun _ => inert_mountFail _ _) fun _ => inert_ite (fun _ => inert_mountFail _ _)
                fun _ => inert_mountTree

/-- A device that may only be read is opened for reading, or not at all. -/
theorem exfatOpen_readOnly {mode : Mode} (hm : mode = .ro ∨ mode = .any ∧ Env.opensRw = false)
    {E : Halt → Prop} {Q : Option Mode → World → Prop} (hnone : Q none (w.erred (w.errors + 1)))
    (hro : Q (some .ro) w) : Wp E (exfatOpen mode) w Q := by
  rcases hm with rfl | ⟨rfl, hrw⟩
  · simp only [exfatOpen]
    cases Env.opensRo with
    | true => exact hro
    | false => exact hnone
  · simp only [exfatOpen, hrw, Bool.false_eq_true, if_false]
    cases Env.opensRo with
    | true => exact hro
    | false => exact hnone

/-- A mount that may only read leaves an idle volume behind, or fails with the device as it was. -/
theorem mount_idle {options : List UInt8} (ho : OpensReadOnly options) (hr : RepairsNothing options)
    (hn : ∀ i n, w.nodes i = some n → n.isDirty = false) :
    Wp (fun e => ¬DirtyHalt e) (exfatMount options) w fun rc v =>
      v.dev = w.dev ∧ (rc = .ok → Idle w.dev v) := by
  have hmode : (if matchOption options (bytesOf "ro") then Mode.ro
      else if matchOption options (bytesOf "ro_fallback") then .any else .rw) = .ro ∨
      (if matchOption options (bytesOf "ro") then Mode.ro
      else if matchOption options (bytesOf "ro_fallback") then .any else .rw) = .any ∧
        Env.opensRw = false := by
    by_cases h : matchOption options (bytesOf "ro") = true
    · exact .inl (if_pos h)
    · obtain ⟨hf, hrw⟩ := ho.resolve_left h
      refine .inr ⟨?_, hrw⟩
      rw [if_neg h, if_pos hf]
  simp only [exfatMount, wp_bind, wp_modify, parseOptions, if_neg hr.1, if_neg hr.2]
  refine exfatOpen_readOnly hmode ⟨rfl, fun h => by cases h⟩ ?_
  simp only [if_true]
  rw [wp_bind, wp_modify]
  refine Wp.mono (inert_bind inert_mallocOk (fun _ => inert_ite (fun _ => inert_mountFail _ _)
    fun _ => inert_bind (inert_pread _ _) fun r => ?_) w.dev _ ?_) fun rc v hv =>
      ⟨hv.dev, fun _ => hv⟩
  · cases r with
    | none => exact inert_mountFail _ _
    | some bs =>
      exact inert_bind (inert_modify fun _ => ⟨rfl, rfl, rfl, rfl, rfl⟩) fun _ => inert_mountChecks
  refine ⟨rfl, ?_, rfl, rfl, hn⟩
  change (if _ then (-1 : Int) else 1) ≠ 0
  by_cases h : (if matchOption options (bytesOf "ro") then Mode.ro
    else if matchOption options (bytesOf "ro_fallback") then .any else .rw) = .any
  · rw [if_pos h]
    decide
  · rw [if_neg h]
    decide

/-- The end of a read-only mount writes no super block. -/
theorem inert_finalizeSuperBlock : Inert finalizeSuperBlock := by
  intro d w h
  simp only [finalizeSuperBlock, wp_bind, wp_get, h.ro, ne_eq, not_false_eq_true, if_true, wp_pure]
  exact h

theorem inert_unmount : Inert exfatUnmount :=
  inert_bind inert_exfatFlushNodes fun _ => inert_bind inert_flush fun _ =>
    inert_bind inert_get fun _ => inert_bind (inert_exfatPutNode _) fun _ =>
      inert_bind inert_exfatResetCache fun _ => inert_bind inert_finalizeSuperBlock fun _ =>
        inert_exfatFree

theorem inert_fuseReaddir (access : Access) (path : List UInt8) :
    Inert (fuseExfatReaddir access path) := by
  refine inert_bind (inert_lookup path) fun r => ?_
  cases r with
  | error e => exact inert_pure _
  | ok parent =>
    exact inert_bind (inert_getNode parent) fun _ => inert_ite
      (fun _ => inert_bind (inert_exfatPutNode parent) fun _ => inert_fail _) fun _ =>
        inert_bind (inert_opendir parent) fun _ => inert_ite
          (fun _ => inert_bind (inert_exfatPutNode parent) fun _ => inert_fail _) fun _ =>
            inert_bind inert_get fun _ => inert_bind (inert_fillLoop _ _ _) fun _ =>
              inert_bind (inert_exfatPutNode parent) fun _ =>
                inert_bind (inert_exfatPutNode parent) fun _ => inert_pure _

theorem inert_fuseGetattr (access : Access) (path : List UInt8) :
    Inert (fuseExfatGetattr access path) := by
  refine inert_bind (inert_lookup path) fun r => ?_
  cases r with
  | error e => exact inert_pure _
  | ok node =>
    exact inert_bind (inert_stat access node) fun _ => inert_bind (inert_exfatPutNode node) fun _ =>
      inert_pure _

theorem inert_fsync : Inert exfatFsync :=
  inert_bind inert_nextTick fun _ => inert_ite (fun _ => inert_fail _) fun _ => inert_pure _

theorem inert_fuseFsync : Inert fuseExfatFsync :=
  inert_bind inert_exfatFlushNodes fun _ => inert_ite (fun _ => inert_pure _) fun _ =>
    inert_bind inert_flush fun _ => inert_ite (fun _ => inert_pure _) fun _ => inert_fsync

theorem inert_readCall (c : ReadCall) : Inert c.run := by
  cases c with
  | lookup path => exact inert_bind (inert_lookup path) fun _ => inert_pure _
  | put id => exact inert_exfatPutNode id
  | opendir dir => exact inert_bind (inert_opendir dir) fun _ => inert_pure _
  | readdir it => exact inert_bind (inert_exfatReaddir it) fun _ => inert_pure _
  | closedir dir => exact inert_exfatPutNode dir
  | pread id size off => exact inert_bind (inert_genericPread id size off) fun _ => inert_pure _
  | flushNode id => exact inert_bind (inert_flushNode id) fun _ => inert_pure _
  | flushNodes => exact inert_bind inert_exfatFlushNodes fun _ => inert_pure _
  | flush => exact inert_bind inert_flush fun _ => inert_pure _
  | countFree => exact inert_bind inert_countFree fun _ => inert_pure _
  | getattr access path => exact inert_bind (inert_fuseGetattr access path) fun _ => inert_pure _
  | list access path => exact inert_bind (inert_fuseReaddir access path) fun _ => inert_pure _
  | release id => exact inert_bind (inert_flushNode id) fun _ => inert_exfatPutNode id
  | fsync => exact inert_bind inert_fuseFsync fun _ => inert_pure _
  | statfs =>
    exact inert_bind (inert_bind inert_get fun _ => inert_bind inert_countFree fun _ =>
      inert_pure _) fun _ => inert_pure _

theorem inert_nodeckLoop (id : NodeId) (b : Bool) (k c : Nat) (ok : Bool) :
    Inert (nodeckLoop id b k c ok) := by
  induction k generalizing c ok with
  | zero => exact inert_pure _
  | succ k ih =>
    refine inert_bind inert_get fun _ => inert_ite (fun _ => inert_bind (inert_getNode id) fun _ =>
      inert_bind (inert_exfatGetName _) fun _ => inert_fail _) fun _ =>
        inert_bind inert_getChunk fun _ => inert_ite (fun _ => inert_bind (inert_getNode id) fun _ =>
          inert_bind (inert_exfatGetName _) fun _ => inert_bind (inert_error _) fun _ =>
            inert_bind (inert_nextCluster _ _) fun _ => ih _ _)
          fun _ => inert_bind (inert_nextCluster _ _) fun _ => ih _ _

theorem inert_nodeck (id : NodeId) : Inert (nodeck id) :=
  inert_bind (inert_getNode id) fun _ => inert_bind inert_get fun _ => inert_nodeckLoop _ _ _ _ _

theorem inert_dirckTree (fuel : Nat) :
    (∀ path, Inert (dirck fuel path)) ∧ ∀ path ids, Inert (dirckLoop fuel path ids) := by
  induction fuel with
  | zero =>
    refine ⟨fun _ => inert_fuel, fun _ ids => ?_⟩
    cases ids with
    | nil => exact inert_pure _
    | cons node rest => exact inert_fuel
  | succ fuel ih =>
    refine ⟨fun path => inert_bind (inert_lookup path) fun r => ?_, fun path ids => ?_⟩
    · cases r with
      | error e => exact inert_bug (by simp) (by simp)
      | ok parent =>
        exact inert_bind (inert_getNode parent) fun _ => inert_ite
          (fun _ => inert_bug (by simp) (by simp)) fun _ => inert_bind (inert_nodeck parent) fun _ =>
            inert_ite (fun _ => inert_exfatPutNode parent) fun _ => inert_bind inert_mallocOk fun _ =>
              inert_ite (fun _ => inert_bind (inert_exfatPutNode parent) fun _ => inert_error _)
                fun _ => inert_bind (inert_opendir parent) fun _ => inert_ite
                  (fun _ => inert_exfatPutNode parent) fun _ => inert_bind (inert_children parent)
                    fun _ => inert_bind (ih.2 _ _) fun _ => inert_bind (inert_exfatPutNode parent)
                      fun _ => inert_bind (inert_flushNode parent) fun _ =>
                        inert_exfatPutNode parent
    · cases ids with
      | nil => exact inert_pure _
      | cons node rest =>
        have hnext : Inert (do
            let _ ← exfatFlushNode node
            exfatPutNode node
            dirckLoop fuel path rest) :=
          inert_bind (inert_flushNode node) fun _ => inert_bind (inert_exfatPutNode node) fun _ =>
            ih.2 _ _
        exact inert_bind (inert_exfatGetNode node) fun _ => inert_bind (inert_getNode node) fun _ =>
          inert_bind (inert_exfatGetName _) fun _ => inert_bind (inert_getNode node) fun _ =>
            inert_ite (fun _ => inert_bind (ih.1 _) fun _ => hnext)
              fun _ => inert_bind (inert_nodeck node) fun _ => hnext

theorem inert_fragmentsLoop (b : Bool) (fuel c start size r : Nat) :
    Inert (fragmentsLoop b fuel c start size r) := by
  induction fuel generalizing c start size r with
  | zero => exact inert_pure _
  | succ fuel ih =>
    refine inert_ite (fun _ => inert_pure _) fun _ => inert_bind inert_get fun _ => inert_ite
      (fun _ => inert_fail _) fun _ => inert_bind (inert_nextCluster _ _) fun _ => inert_ite
        (fun _ => inert_bind (inert_c2o _) fun _ => inert_bind (ih _ _ _ _) fun _ => inert_pure _)
        fun _ => ih _ _ _ _

theorem inert_printFragments (id : NodeId) : Inert (printFragments id) :=
  inert_bind (inert_getNode id) fun _ => inert_fragmentsLoop _ _ _ _ _ _

/-- A program that mounts read-only and leaves an idle volume idle. -/
theorem mounted_keeps {α : Type} {options : List UInt8} (ho : OpensReadOnly options)
    (hr : RepairsNothing options) (hn : ∀ i n, w.nodes i = some n → n.isDirty = false) {m : M α}
    (hm : Inert m) (a : α) : Wp (fun e => ¬DirtyHalt e)
      (do if (← exfatMount options) ≠ .ok then pure a else m) w fun _ v => v.dev = w.dev := by
  rw [wp_bind]
  refine (mount_idle ho hr hn).mono ?_
  rintro rc v ⟨hdev, hidle⟩
  split
  · exact hdev
  · rename_i hrc
    exact (hm w.dev v (hidle (not_not.mp hrc))).mono fun _ _ hv => hv.dev

omit [Env] in
theorem fsckOptions_last {flags : List FsckFlag} (h : flags.getLast? = some .n) (isatty : Bool) :
    fsckOptions isatty flags = bytesOf "repair=0,ro" := by
  obtain ⟨init, rfl⟩ := List.getLast?_eq_some_iff.mp h
  rw [fsckOptions, List.foldl_append]
  rfl

theorem ro_readsOnly : OpensReadOnly (bytesOf "ro") ∧ RepairsNothing (bytesOf "ro") :=
  ⟨.inl (by decide +kernel), by decide +kernel, by decide +kernel⟩

theorem check_readsOnly :
    OpensReadOnly (bytesOf "repair=0,ro") ∧ RepairsNothing (bytesOf "repair=0,ro") :=
  ⟨.inl (by decide +kernel), by decide +kernel, by decide +kernel⟩

/-- `dump_sb` mounts nothing and reads one sector. -/
theorem dumpSb_keeps : Wp (fun e => ¬DirtyHalt e) dumpSb w fun _ v => v.dev = w.dev := by
  have herror : ∀ s, Keep (fun e => ¬DirtyHalt e) (fun v => v.dev = w.dev) (exfatError s) :=
    fun _ _ h => h
  have hclose : Keep (fun e => ¬DirtyHalt e) (fun v => v.dev = w.dev) exfatClose :=
    keep_bind (fun _ h => h) fun _ => keep_ite (fun _ => keep_bind (herror _) fun _ => keep_pure _)
      fun _ => keep_pure _
  have hread : Keep (fun e => ¬DirtyHalt e) (fun v => v.dev = w.dev) (exfatPread 512 0) :=
    keep_bind (fun _ h => h) fun _ => keep_ite (fun _ => keep_pure _) fun _ =>
      keep_bind keep_get fun _ => keep_pure _
  rw [dumpSb, wp_bind]
  refine exfatOpen_readOnly (.inl rfl) rfl ?_
  refine keep_bind hread (fun r => ?_) w rfl
  cases r with
  | none => exact keep_bind hclose fun _ => keep_bind (herror _) fun _ => keep_pure _
  | some bs =>
    exact keep_ite (fun _ => keep_bind hclose fun _ => keep_bind (herror _) fun _ => keep_pure _)
      fun _ => keep_bind hclose fun _ => keep_pure _

theorem dumpFull_keeps (hn : ∀ i n, w.nodes i = some n → n.isDirty = false) (fuel : Nat)
    (used : Bool) : Wp (fun e => ¬DirtyHalt e) (dumpFull fuel used) w fun _ v => v.dev = w.dev :=
  mounted_keeps ro_readsOnly.1 ro_readsOnly.2 hn (inert_bind inert_countFree fun _ =>
    inert_bind inert_get fun _ => inert_ite (fun _ => inert_bind (inert_dumpSectors _ _ _) fun _ =>
      inert_bind inert_unmount fun _ => inert_pure _) fun _ => inert_bind inert_unmount fun _ =>
        inert_pure _) _

theorem dumpFile_keeps (hn : ∀ i n, w.nodes i = some n → n.isDirty = false) (path : List UInt8) :
    Wp (fun e => ¬DirtyHalt e) (dumpFileFragments path) w fun _ v => v.dev = w.dev := by
  refine mounted_keeps ro_readsOnly.1 ro_readsOnly.2 hn (inert_bind (inert_lookup path)
    fun r => ?_) _
  cases r with
  | error e => exact inert_bind inert_unmount fun _ => inert_fail _
  | ok node =>
    exact inert_bind (inert_printFragments node) fun _ => inert_bind (inert_exfatPutNode node)
      fun _ => inert_bind inert_unmount fun _ => inert_pure _

theorem label_keeps (hn : ∀ i n, w.nodes i = some n → n.isDirty = false) :
    Wp (fun e => ¬DirtyHalt e) (exfatlabel none) w fun _ v => v.dev = w.dev :=
  mounted_keeps ro_readsOnly.1 ro_readsOnly.2 hn (inert_bind inert_get fun _ =>
    inert_bind inert_unmount fun _ => inert_pure _) _

theorem fsck_keeps (hn : ∀ i n, w.nodes i = some n → n.isDirty = false) (fuel : Nat) :
    Wp (fun e => ¬DirtyHalt e) (fsck fuel (bytesOf "repair=0,ro")) w fun _ v => v.dev = w.dev :=
  mounted_keeps check_readsOnly.1 check_readsOnly.2 hn (inert_bind inert_countFree fun _ =>
    inert_bind ((inert_dirckTree fuel).1 _) fun _ => inert_bind inert_unmount fun _ =>
      inert_pure _) _

/-- The programs that only read leave the device as it was, whatever is on it and whatever requests
fail, and never come upon a dirty node. -/
theorem inspection_keeps_device (r : Inspection) (hr : r.ReadsOnly)
    (hn : ∀ i n, w.nodes i = some n → n.isDirty = false) :
    Wp (fun e => ¬DirtyHalt e) r.run w fun _ v => v.dev = w.dev := by
  cases r with
  | session options calls =>
    exact mounted_keeps hr.1 hr.2 hn
      (fun d => keep_bind (keep_forM (fun c => inert_readCall c d) calls) fun _ => inert_unmount d) _
  | dump fuel sbOnly used filePath =>
    rw [Inspection.run, wp_bind]
    cases filePath with
    | some path =>
      rw [dumpexfat, wp_bind]
      exact dumpFile_keeps hn path
    | none =>
      cases sbOnly with
      | true => exact dumpSb_keeps
      | false => exact dumpFull_keeps hn fuel used
  | label =>
    rw [Inspection.run, wp_bind]
    exact label_keeps hn
  | check fuel isatty flags =>
    rw [Inspection.run, wp_bind, exfatfsck, fsckOptions_last hr, wp_bind]
    exact fsck_keeps hn fuel

end

theorem inspection_keeps_device_check : ¬∃ v, @Inspection.run calmEnv (.check 5 true [.y, .n])
    { dev := fun _ => 0 } = .ok ((), v) ∧ v.dev ≠ fun _ => 0 := by
  rintro ⟨v, hv, hdev⟩
  -- the run itself is not to be evaluated
  generalize hr : Inspection.check 5 true [.y, .n] = r at hv
  have hreads : @Inspection.ReadsOnly calmEnv r := by
    subst hr
    rfl
  have hclean : ∀ i n, ({ dev := fun _ => 0 } : World).nodes i = some n → n.isDirty = false := by
    intro i n h
    cases h
  exact hdev ((@inspection_keeps_device _ calmEnv r hreads hclean).run hv)

end Proofs

end Exfat
