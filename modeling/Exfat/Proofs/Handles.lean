import Exfat.Model.Tools
import Exfat.Proofs.References

namespace Exfat
open Lib

/-! FUSE sessions: the references of a node are its open handles. -/

/-- The handlers that change the state; a handle is the node in `fi->fh`. -/
inductive FuseCall where
  | getattr (access : Access) (path : List UInt8)
  | truncate (path : List UInt8) (size : Nat)
  | readdir (access : Access) (path : List UInt8)
  | opening (path : List UInt8)
  | create (path : List UInt8)
  | release (node : NodeId)
  | flush (node : NodeId)
  | fsync
  | read (node : NodeId) (size offset : Nat)
  | write (node : NodeId) (buffer : List UInt8) (offset : Nat)
  | unlink (path : List UInt8)
  | rmdir (path : List UInt8)
  | mknod (path : List UInt8)
  | mkdir (path : List UInt8)
  | rename (oldPath newPath : List UInt8)
  | utimens (path : List UInt8) (atime mtime : Int)
  | statfs

/-- The handle a call opened. -/
def opens : Except Errno NodeId → Option NodeId
  | .error _ => none
  | .ok node => some node

/-- A call, and the handle it leaves open. -/
def FuseCall.run [Env] : FuseCall → M (Option NodeId)
  | .getattr access path => do
    let _ ← fuseExfatGetattr access path
    pure none
  | .truncate path size => do
    let _ ← fuseExfatTruncate path size
    pure none
  | .readdir access path => do
    let _ ← fuseExfatReaddir access path
    pure none
  | .opening path => do
    let rc ← fuseExfatOpen path
    pure (opens rc)
  | .create path => do
    let rc ← fuseExfatCreate path
    pure (opens rc)
  | .release node => do
    fuseExfatRelease node
    pure none
  | .flush node => do
    let _ ← fuseExfatFlush node
    pure none
  | .fsync => do
    let _ ← fuseExfatFsync
    pure none
  | .read node size offset => do
    let _ ← fuseExfatRead node size offset
    pure none
  | .write node buffer offset => do
    let _ ← fuseExfatWrite node buffer offset
    pure none
  | .unlink path => do
    let _ ← fuseExfatUnlink path
    pure none
  | .rmdir path => do
    let _ ← fuseExfatRmdir path
    pure none
  | .mknod path => do
    let _ ← fuseExfatMknod path
    pure none
  | .mkdir path => do
    let _ ← fuseExfatMkdir path
    pure none
  | .rename oldPath newPath => do
    let _ ← fuseExfatRename oldPath newPath
    pure none
  | .utimens path atime mtime => do
    let _ ← fuseExfatUtimens path atime mtime
    pure none
  | .statfs => do
    let _ ← fuseExfatStatfs
    pure none

/-- The handle a call gives back. -/
def FuseCall.closes : FuseCall → Option NodeId
  | .release node => some node
  | _ => none

/-- The open handles after a call. -/
def FuseCall.after (c : FuseCall) (handle : Option NodeId) (opened : List NodeId) : List NodeId :=
  handle.toList ++ c.closes.elim opened opened.erase

/-- Sessions of calls that return, with the handles that are open: only an open handle is released,
and once. -/
inductive FuseRun [Env] (w : World) : World → List NodeId → Prop where
  | start : FuseRun w w []
  | call {v u : World} {opened : List NodeId} {handle : Option NodeId} (c : FuseCall) :
    FuseRun w v opened → (∀ node, c.closes = some node → node ∈ opened) →
    c.run v = .ok (handle, u) → FuseRun w u (c.after handle opened)

/-- How often each node is open. -/
def handles (opened : List NodeId) (i : NodeId) : Int := opened.count i

namespace Proofs

variable {w v u : World} {opened : List NodeId} {e : NodeId → Int} {C : List NodeId}

theorem handles_nonneg (opened : List NodeId) : 0 ≤ handles opened := fun _ =>
  Int.natCast_nonneg _

theorem handles_cons (i : NodeId) : handles (i :: opened) = handles opened + hold i := by
  funext j
  simp only [handles, Pi.add_apply, hold, List.count_cons]
  by_cases h : j = i
  · subst h
    simp
  · have hij : ¬i = j := fun hc => h hc.symm
    simp [h, hij]

theorem handles_erase {i : NodeId} (h : i ∈ opened) :
    handles opened = handles (opened.erase i) + hold i := by
  rw [← handles_cons]
  funext j
  exact congrArg Int.ofNat ((List.perm_cons_erase h).count_eq j)

/-- The handles after a call, counted. -/
theorem handles_after (c : FuseCall) (handle : Option NodeId)
    (hc : ∀ node, c.closes = some node → node ∈ opened) :
    handles (c.after handle opened) = handles opened - holdOpt c.closes + holdOpt handle := by
  have hclosed : handles (c.closes.elim opened opened.erase) = handles opened - holdOpt c.closes := by
    cases hn : c.closes with
    | none => exact (sub_zero _).symm
    | some node =>
      rw [handles_erase (hc node hn), holdOpt, add_sub_cancel_right]
      rfl
  cases handle with
  | none =>
    rw [FuseCall.after, Option.toList_none, List.nil_append, hclosed, holdOpt, add_zero]
  | some i =>
    rw [FuseCall.after, Option.toList_some, List.singleton_append, handles_cons, hclosed, holdOpt]

/-- What a call closes is open. -/
theorem closes_le (hw : 0 ≤ refs w) {c : FuseCall}
    (hc : ∀ node, c.closes = some node → node ∈ opened) (hv : refs v = refs w + handles opened) :
    holdOpt c.closes ≤ refs v := by
  rw [hv]
  refine le_trans ?_ (le_add_of_nonneg_left hw)
  cases hn : c.closes with
  | none => exact handles_nonneg opened
  | some node =>
    rw [handles_erase (hc node hn)]
    exact le_add_of_nonneg_left (handles_nonneg _)

section
variable [Env]

theorem steady_flushTree (fuel : Nat) :
    (∀ id, Safe (· ≠ belowZero) Steady (flushNodes fuel id)) ∧
      ∀ ids, Safe (· ≠ belowZero) Steady (flushList fuel ids) := by
  induction fuel with
  | zero =>
    refine ⟨fun _ => steady_of still_fuel, fun ids => ?_⟩
    cases ids with
    | nil => exact steady_pure _
    | cons p ps => exact steady_of still_fuel
  | succ fuel ih =>
    refine ⟨fun id => steady_bind (steady_of (still_children id)) fun _ => steady_bind (ih.2 _)
      fun _ => safe_ite (steady_pure _) (steady_flushNode id), fun ids => ?_⟩
    cases ids with
    | nil => exact steady_pure _
    | cons p ps =>
      exact steady_bind (ih.1 p) fun _ => safe_ite (steady_pure _) (ih.2 ps)

theorem steady_fuseFsync : Safe (· ≠ belowZero) Steady fuseExfatFsync := by
  have hsync : Safe (· ≠ belowZero) Still exfatFsync :=
    still_bind still_nextTick fun _ => still_ite
      (still_bind (still_error _) fun _ => still_pure _) (still_pure _)
  have hnodes : Safe (· ≠ belowZero) Steady exfatFlushNodes :=
    steady_bind (steady_of still_get) fun _ => (steady_flushTree _).1 _
  exact steady_bind hnodes fun _ => safe_ite (steady_pure _) (steady_bind (steady_of still_flush)
    fun _ => safe_ite (steady_pure _) (steady_of hsync))

omit [Env] in
theorem still_stat (access : Access) (id : NodeId) : Safe (· ≠ belowZero) Still (exfatStat access id) :=
  still_bind still_get fun _ => still_bind (still_getNode id) fun _ => still_pure _

omit [Env] in
/-- The loop of `fuse_exfat_readdir` puts back every node it is given. -/
theorem balance_fillLoop (he : 0 ≤ e) (access : Access) (fuel : Nat) (it : Iterator) :
    Balance [] e (fillLoop access fuel it) fun _ => e := by
  induction fuel generalizing it with
  | zero => exact balance_still still_fuel
  | succ fuel ih =>
    refine balance_bind (balance_readdir it) fun r => ?_
    obtain ⟨next, it⟩ := r
    cases next with
    | none => exact balance_pure _ (add_zero e)
    | some node =>
      exact balance_bind (balance_still (still_getNode node)) fun _ =>
        balance_bind (balance_still (still_exfatGetName _)) fun _ =>
          balance_bind (balance_still (still_stat access node)) fun _ =>
            balance_bind (balance_put he node rfl) fun _ => balance_bind (ih it) fun _ =>
              balance_pure _ rfl

/-- A handler that looks its path up, works on the node without changing references, and puts it. -/
theorem balance_lookedUp {α : Type} (he : 0 ≤ e) (path : List UInt8) {f : Except Errno NodeId → M α}
    (herror : ∀ x, ∃ a, f (.error x) = pure a)
    (hok : ∀ node, Balance [] (e + hold node) (f (.ok node)) fun _ => e) :
    Balance [] e (exfatLookup path >>= f) fun _ => e := by
  refine balance_bind (balance_lookup he path) fun r => ?_
  cases r with
  | error x =>
    obtain ⟨a, ha⟩ := herror x
    rw [ha]
    exact balance_pure _ (add_zero e)
  | ok node => exact hok node

theorem balance_getattr (he : 0 ≤ e) (access : Access) (path : List UInt8) :
    Balance [] e (fuseExfatGetattr access path) fun _ => e :=
  balance_lookedUp he path (fun _ => ⟨_, rfl⟩) fun node =>
    balance_bind (balance_still (still_stat access node)) fun _ => balance_return he node rfl _ rfl

theorem balance_truncate (he : 0 ≤ e) (path : List UInt8) (size : Nat) :
    Balance [] e (fuseExfatTruncate path size) fun _ => e :=
  balance_lookedUp he path (fun _ => ⟨_, rfl⟩) fun node =>
    balance_bind (balance_steady (steady_truncate node size true)) fun _ =>
      balance_ite
        (fun _ => balance_bind (balance_steady (steady_flushNode node)) fun _ =>
          balance_return he node rfl _ rfl)
        fun _ => balance_bind (balance_steady (steady_flushNode node)) fun _ =>
          balance_return he node rfl _ rfl

theorem balance_fuseReaddir (he : 0 ≤ e) (access : Access) (path : List UInt8) :
    Balance [] e (fuseExfatReaddir access path) fun _ => e := by
  refine balance_lookedUp he path (fun _ => ⟨_, rfl⟩) fun parent => ?_
  have hp := add_hold_nonneg he parent
  refine balance_bind (balance_still (still_getNode parent)) fun _ => balance_ite
    (fun _ => balance_bind (balance_put he parent rfl) fun _ =>
      balance_bind (balance_still (still_error _)) fun _ => balance_pure _ rfl) fun _ =>
        balance_bind (balance_opendir hp parent) fun rc => ?_
  cases rc with
  | err x =>
    exact balance_bind (balance_put he parent rfl) fun _ =>
      balance_bind (balance_still (still_error _)) fun _ => balance_pure _ rfl
  | ok =>
    exact balance_bind (balance_still still_get) fun _ =>
      balance_bind (balance_fillLoop (add_hold_nonneg hp parent) _ _ _) fun _ =>
        balance_bind (balance_put hp parent rfl) fun _ => balance_return he parent rfl _ rfl

theorem balance_release (he : 0 ≤ e) (node : NodeId) :
    Balance [] (e + hold node) (fuseExfatRelease node) fun _ => e :=
  balance_bind (balance_steady (steady_flushNode node)) fun _ => balance_put he node rfl

theorem balance_remove (he : 0 ≤ e) {remove : NodeId → M Rc}
    (hr : ∀ node, Balance [] (e + hold node) (remove node) fun _ => e + hold node)
    (path : List UInt8) : Balance [] e (fuseRemove remove path) fun _ => e :=
  balance_lookedUp he path (fun _ => ⟨_, rfl⟩) fun node => balance_bind (hr node) fun _ =>
    balance_bind (balance_put he node rfl) fun _ => balance_ite (fun _ => balance_pure _ rfl)
      fun _ => balance_cleanupNode node

theorem balance_fuseUnlink (he : 0 ≤ e) (path : List UInt8) :
    Balance [] e (fuseExfatUnlink path) fun _ => e :=
  balance_remove he (fun node => balance_unlink (add_hold_nonneg he node) node) path

theorem balance_fuseRmdir (he : 0 ≤ e) (path : List UInt8) :
    Balance [] e (fuseExfatRmdir path) fun _ => e :=
  balance_remove he (fun node => balance_rmdir (add_hold_nonneg he node) node) path

theorem balance_utimens (he : 0 ≤ e) (path : List UInt8) (atime mtime : Int) :
    Balance [] e (fuseExfatUtimens path atime mtime) fun _ => e :=
  balance_lookedUp he path (fun _ => ⟨_, rfl⟩) fun node =>
    balance_bind (balance_modifyNode node fun _ => ⟨rfl, rfl, rfl, rfl⟩) fun _ =>
      balance_bind (balance_steady (steady_flushNode node)) fun _ => balance_return he node rfl _ rfl

theorem balance_opening (he : 0 ≤ e) (path : List UInt8) :
    Balance [] e (do let rc ← exfatLookup path; pure (opens rc)) fun r => e + holdOpt r := by
  refine balance_bind (balance_lookup he path) fun r => ?_
  cases r with
  | error x => exact balance_pure _ rfl
  | ok node => exact balance_pure _ rfl

theorem balance_fuseCreate (he : 0 ≤ e) (path : List UInt8) :
    Balance [] e (do let rc ← fuseExfatCreate path; pure (opens rc)) fun r => e + holdOpt r := by
  have hmade : Balance [] e (fuseExfatCreate path) fun r => e + given r := by
    refine balance_bind (balance_create he path _) fun rc => ?_
    cases rc with
    | err x => exact balance_pure _ (add_zero e).symm
    | ok => exact balance_lookup he path
  refine balance_bind hmade fun r => ?_
  cases r with
  | error x => exact balance_pure _ rfl
  | ok node => exact balance_pure _ rfl

/-- A handler takes the handle it releases and leaves the handle it opens. -/
theorem balance_fuseCall (c : FuseCall) : Balance [] (holdOpt c.closes) c.run holdOpt := by
  have hnone : ∀ {α : Type} {m : M α}, Balance [] 0 m (fun _ => 0) →
      Balance [] 0 (do let _ ← m; pure none) holdOpt := fun hm =>
    balance_bind hm fun _ => balance_pure _ rfl
  have hgiven : ∀ {m : M (Option NodeId)}, Balance [] 0 m (fun r => 0 + holdOpt r) →
      Balance [] 0 m holdOpt := by
    intro m hm
    simpa only [zero_add] using hm
  cases c with
  | getattr access path => exact hnone (balance_getattr le_rfl access path)
  | truncate path size => exact hnone (balance_truncate le_rfl path size)
  | readdir access path => exact hnone (balance_fuseReaddir le_rfl access path)
  | opening path => exact hgiven (balance_opening le_rfl path)
  | create path => exact hgiven (balance_fuseCreate le_rfl path)
  | release node =>
    have hrelease := balance_release (e := 0) le_rfl node
    rw [zero_add] at hrelease
    exact balance_bind hrelease fun _ => balance_pure _ rfl
  | flush node => exact hnone (balance_steady (steady_flushNode node))
  | fsync => exact hnone (balance_steady steady_fuseFsync)
  | read node size offset => exact hnone (balance_still (still_genericPread node size offset))
  | write node buffer offset => exact hnone (balance_steady (steady_genericPwrite node buffer offset))
  | unlink path => exact hnone (balance_fuseUnlink le_rfl path)
  | rmdir path => exact hnone (balance_fuseRmdir le_rfl path)
  | mknod path => exact hnone (balance_create le_rfl path _)
  | mkdir path => exact hnone (balance_mkdir le_rfl path)
  | rename oldPath newPath => exact hnone (balance_rename le_rfl oldPath newPath)
  | utimens path atime mtime => exact hnone (balance_utimens le_rfl path atime mtime)
  | statfs =>
    exact hnone (balance_still (still_bind still_get fun _ => still_bind
      (still_bind still_getChunk fun _ => still_bind still_get fun _ => still_pure _) fun _ =>
        still_pure _))

theorem fuseCall_counts (h : Mounted w) (c : FuseCall) (hc : holdOpt c.closes ≤ refs w) :
    Wp (· ≠ belowZero) c.run w fun handle v =>
      Mounted v ∧ refs v = refs w - holdOpt c.closes + holdOpt handle :=
  (balance_fuseCall c w ⟨h, fun _ hd => by cases hd⟩ hc).mono fun _ _ ht => ⟨ht.1.1, ht.2⟩

theorem fuseRun_counts (h : Mounted w) (hw : 0 ≤ refs w) (hv : FuseRun w v opened) :
    Mounted v ∧ refs v = refs w + handles opened := by
  induction hv with
  | start =>
    refine ⟨h, ?_⟩
    funext i
    simp [handles]
  | call c _ hc hrun ih =>
    obtain ⟨hm, hrefs⟩ := ih
    obtain ⟨hu, hcounts⟩ := (fuseCall_counts hm c (closes_le hw hc hrefs)).run hrun
    refine ⟨hu, ?_⟩
    rw [hcounts, hrefs, handles_after c _ hc]
    abel

/-- `exfat_cleanup_node` returns only on a node without references. -/
theorem cleanup_unreferenced (node : NodeId) :
    Wp (fun _ => True) (exfatCleanupNode node) w fun _ _ => refs w node = 0 := by
  simp only [exfatCleanupNode, wp_bind]
  rw [wp_getNode_iff trivial]
  intro n hn
  split
  · trivial
  · rename_i hzero
    refine wp_const ?_
    rw [refs_eq hn]
    exact not_not.mp hzero

/-- A handler that removes a node and reports success met a node without references. -/
theorem remove_unreferenced (h : Mounted v) (hv : 0 ≤ refs v) {remove : NodeId → M Rc}
    (hr : ∀ node, Balance [] (hold node) (remove node) fun _ => hold node) {path : List UInt8}
    (hrun : fuseRemove remove path v = .ok (.ok, u)) :
    ∃ node t, exfatLookup path v = .ok (.ok node, t) ∧ refs v node = 0 := by
  obtain ⟨found, t, hfound, hrest⟩ := bind_returns hrun
  have hstart : Sound [] v := ⟨h, fun _ hd => by cases hd⟩
  obtain ⟨ht, hcounts⟩ := (balance_lookup (e := 0) le_rfl path v hstart hv).run hfound
  cases found with
  | error x =>
    cases hrest
  | ok node =>
    have hone : refs t = refs v + hold node := by
      rw [hcounts, sub_zero]
      exact congrArg (refs v + ·) (zero_add _)
    obtain ⟨rc, t', hremove, hrest⟩ := bind_returns hrest
    obtain ⟨ht', hcounts'⟩ := (hr node t ht (hone ▸ le_add_of_nonneg_left hv)).run hremove
    obtain ⟨_, t'', hput, hrest⟩ := bind_returns hrest
    have hback : refs t' = refs v + hold node := by
      rw [hcounts', sub_add_cancel, hone]
    obtain ⟨-, hcounts''⟩ := (balance_put (d := 0) le_rfl node (zero_add (hold node)).symm t' ht'
      (hback ▸ le_add_of_nonneg_left hv)).run hput
    have hlast : refs t'' = refs v := by
      rw [hcounts'', hback, add_sub_cancel_right, add_zero]
    refine ⟨node, t, hfound, ?_⟩
    by_cases hrc : rc = .ok
    · rw [if_neg (not_not.mpr hrc)] at hrest
      rw [← hlast]
      exact (cleanup_unreferenced node).run hrest
    · rw [if_pos hrc] at hrest
      cases hrest
      exact absurd rfl hrc

/-- In every session, and after every call of it, the references of a node are those it had at the
start and its open handles; no call counts below zero; and a node that `unlink` or `rmdir` removed
was not open. -/
theorem session_references (h : Mounted w) (hw : 0 ≤ refs w) (hv : FuseRun w v opened) :
    refs v = refs w + handles opened ∧
    (∀ c : FuseCall, (∀ node, c.closes = some node → node ∈ opened) → c.run v ≠ .error belowZero) ∧
    ∀ path u, fuseExfatUnlink path v = .ok (.ok, u) ∨ fuseExfatRmdir path v = .ok (.ok, u) →
      ∃ node t, exfatLookup path v = .ok (.ok node, t) ∧ node ∉ opened ∧ refs w node = 0 := by
  obtain ⟨hm, hrefs⟩ := fuseRun_counts h hw hv
  have hnonneg : 0 ≤ refs v := by
    rw [hrefs]
    exact add_nonneg hw (handles_nonneg opened)
  refine ⟨hrefs, fun c hc hrun => ?_, fun path u hrun => ?_⟩
  · exact (wp_error hrun).mp (fuseCall_counts hm c (closes_le hw hc hrefs)) rfl
  · have hremoved : ∃ node t, exfatLookup path v = .ok (.ok node, t) ∧ refs v node = 0 := by
      rcases hrun with hrun | hrun
      · exact remove_unreferenced hm hnonneg (fun i => balance_unlink (hold_nonneg i) i) hrun
      · exact remove_unreferenced hm hnonneg (fun i => balance_rmdir (hold_nonneg i) i) hrun
    obtain ⟨node, t, hfound, hzero⟩ := hremoved
    refine ⟨node, t, hfound, ?_⟩
    rw [hrefs, Pi.add_apply, handles] at hzero
    have hbase : 0 ≤ refs w node := hw node
    exact ⟨List.count_eq_zero.mp (by omega), by omega⟩

end

theorem session_references_opened : ∃ v, @FuseRun calmEnv (family (fun _ => 0) id letterDir) v [0] ∧
    refs v = refs (family (fun _ => 0) id letterDir) + handles [0] := by
  have hrun : @FuseCall.run calmEnv (.opening []) (family (fun _ => 0) id letterDir) =
      .ok (some 0, (family (fun _ => 0) id letterDir).setNode 0
        { parentNode with references := 1 }) := rfl
  have hbase : 0 ≤ refs (family (fun _ => 0) id letterDir) := by
    intro i
    rcases i with _ | _ | i
    · exact le_rfl
    · exact le_rfl
    · exact le_rfl
  have hopen := @FuseRun.call calmEnv _ _ _ _ _ (.opening [])
    (@FuseRun.start calmEnv _) (fun _ h => by cases h) hrun
  exact ⟨_, hopen, (@session_references _ _ _ calmEnv (family_tree _ _ _).mounted hbase hopen).1⟩

end Proofs

end Exfat
