import Exfat.Model.Dir

namespace Exfat
open Lib

/-! Rules for the primitive calls: nodes, the device and the clock. -/

namespace World

@[simp] theorem setNode_self (w : World) (i : NodeId) (n : Node) :
    (w.setNode i n).nodes i = some n := by simp [setNode]

theorem setNode_ne (w : World) {i j : NodeId} (n : Node) (h : j ≠ i) :
    (w.setNode i n).nodes j = w.nodes j := by simp [setNode, h]

theorem setNode_nodes (w : World) (i j : NodeId) (n : Node) :
    (w.setNode i n).nodes j = if j = i then some n else w.nodes j := rfl

@[simp] theorem setNode_dev (w : World) (i : NodeId) (n : Node) : (w.setNode i n).dev = w.dev := rfl
@[simp] theorem setNode_sb (w : World) (i : NodeId) (n : Node) : (w.setNode i n).sb = w.sb := rfl
@[simp] theorem setNode_cmap (w : World) (i : NodeId) (n : Node) :
    (w.setNode i n).cmap = w.cmap := rfl
@[simp] theorem setNode_root (w : World) (i : NodeId) (n : Node) :
    (w.setNode i n).root = w.root := rfl
@[simp] theorem setNode_fresh (w : World) (i : NodeId) (n : Node) :
    (w.setNode i n).fresh = w.fresh := rfl
@[simp] theorem setNode_ro (w : World) (i : NodeId) (n : Node) : (w.setNode i n).ro = w.ro := rfl
@[simp] theorem setNode_upcase (w : World) (i : NodeId) (n : Node) :
    (w.setNode i n).upcase = w.upcase := rfl

@[simp] theorem setNode_setNode (w : World) (i : NodeId) (m n : Node) :
    (w.setNode i m).setNode i n = w.setNode i n := by
  simp only [setNode, mk.injEq, true_and, and_true]
  funext j
  by_cases h : j = i <;> simp [h]

/-- Writing a node back changes nothing. -/
theorem setNode_eq (w : World) {i : NodeId} {n : Node} (h : w.nodes i = some n) :
    w.setNode i n = w := by
  simp only [setNode]
  congr
  funext j
  by_cases hj : j = i <;> simp [hj, h]

/-- The world after some more requests. -/
def ticked (w : World) (t : Nat) : World := { w with tick := t }

/-- The world with another error count. -/
def erred (w : World) (e : Nat) : World := { w with errors := e }

def withDev (w : World) (d : Store) : World := { w with dev := d }

def withCmap (w : World) (m : Cmap) : World := { w with cmap := m }

section
variable (w : World) (t e : Nat) (d : Store) (m : Cmap) (i : NodeId) (n : Node)

@[simp] theorem ticked_dev : (w.ticked t).dev = w.dev := rfl
@[simp] theorem ticked_sb : (w.ticked t).sb = w.sb := rfl
@[simp] theorem ticked_upcase : (w.ticked t).upcase = w.upcase := rfl
@[simp] theorem ticked_root : (w.ticked t).root = w.root := rfl
@[simp] theorem ticked_cmap : (w.ticked t).cmap = w.cmap := rfl
@[simp] theorem ticked_ro : (w.ticked t).ro = w.ro := rfl
@[simp] theorem ticked_nodes : (w.ticked t).nodes = w.nodes := rfl
@[simp] theorem ticked_fresh : (w.ticked t).fresh = w.fresh := rfl
@[simp] theorem ticked_errors : (w.ticked t).errors = w.errors := rfl
@[simp] theorem ticked_ticked (t' : Nat) : (w.ticked t).ticked t' = w.ticked t' := rfl

@[simp] theorem erred_dev : (w.erred e).dev = w.dev := rfl
@[simp] theorem erred_sb : (w.erred e).sb = w.sb := rfl
@[simp] theorem erred_upcase : (w.erred e).upcase = w.upcase := rfl
@[simp] theorem erred_root : (w.erred e).root = w.root := rfl
@[simp] theorem erred_cmap : (w.erred e).cmap = w.cmap := rfl
@[simp] theorem erred_ro : (w.erred e).ro = w.ro := rfl
@[simp] theorem erred_nodes : (w.erred e).nodes = w.nodes := rfl
@[simp] theorem erred_fresh : (w.erred e).fresh = w.fresh := rfl
@[simp] theorem erred_errors : (w.erred e).errors = e := rfl
@[simp] theorem erred_erred (e' : Nat) : (w.erred e).erred e' = w.erred e' := rfl
@[simp] theorem erred_ticked : (w.erred e).ticked t = (w.ticked t).erred e := rfl

@[simp] theorem withDev_dev : (w.withDev d).dev = d := rfl
@[simp] theorem withDev_sb : (w.withDev d).sb = w.sb := rfl
@[simp] theorem withDev_upcase : (w.withDev d).upcase = w.upcase := rfl
@[simp] theorem withDev_root : (w.withDev d).root = w.root := rfl
@[simp] theorem withDev_cmap : (w.withDev d).cmap = w.cmap := rfl
@[simp] theorem withDev_ro : (w.withDev d).ro = w.ro := rfl
@[simp] theorem withDev_nodes : (w.withDev d).nodes = w.nodes := rfl
@[simp] theorem withDev_fresh : (w.withDev d).fresh = w.fresh := rfl
@[simp] theorem withDev_errors : (w.withDev d).errors = w.errors := rfl
@[simp] theorem withDev_withDev (d' : Store) : (w.withDev d).withDev d' = w.withDev d' := rfl
@[simp] theorem withDev_ticked : (w.withDev d).ticked t = (w.ticked t).withDev d := rfl
@[simp] theorem withDev_erred : (w.withDev d).erred e = (w.erred e).withDev d := rfl
theorem withDev_self : w.withDev w.dev = w := rfl

@[simp] theorem withCmap_dev : (w.withCmap m).dev = w.dev := rfl
@[simp] theorem withCmap_sb : (w.withCmap m).sb = w.sb := rfl
@[simp] theorem withCmap_upcase : (w.withCmap m).upcase = w.upcase := rfl
@[simp] theorem withCmap_root : (w.withCmap m).root = w.root := rfl
@[simp] theorem withCmap_cmap : (w.withCmap m).cmap = m := rfl
@[simp] theorem withCmap_ro : (w.withCmap m).ro = w.ro := rfl
@[simp] theorem withCmap_nodes : (w.withCmap m).nodes = w.nodes := rfl
@[simp] theorem withCmap_fresh : (w.withCmap m).fresh = w.fresh := rfl
@[simp] theorem withCmap_errors : (w.withCmap m).errors = w.errors := rfl
@[simp] theorem withCmap_withCmap (m' : Cmap) : (w.withCmap m).withCmap m' = w.withCmap m' := rfl
@[simp] theorem withCmap_ticked : (w.withCmap m).ticked t = (w.ticked t).withCmap m := rfl
@[simp] theorem withCmap_erred : (w.withCmap m).erred e = (w.erred e).withCmap m := rfl
@[simp] theorem withCmap_withDev : (w.withCmap m).withDev d = (w.withDev d).withCmap m := rfl

@[simp] theorem setNode_errors : (w.setNode i n).errors = w.errors := rfl
@[simp] theorem setNode_ticked : (w.setNode i n).ticked t = (w.ticked t).setNode i n := rfl
@[simp] theorem setNode_erred : (w.setNode i n).erred e = (w.erred e).setNode i n := rfl
@[simp] theorem setNode_withDev : (w.setNode i n).withDev d = (w.withDev d).setNode i n := rfl
@[simp] theorem setNode_withCmap : (w.setNode i n).withCmap m = (w.withCmap m).setNode i n := rfl

end

end World

namespace Proofs

theorem le_divRoundUp_mul (x : Nat) {d : Nat} (hd : 0 < d) : x ≤ divRoundUp x d * d := by
  have h := Nat.div_add_mod (x + d - 1) d
  have hm := Nat.mod_lt (x + d - 1) hd
  rw [divRoundUp, Nat.mul_comm]
  omega

theorem le_roundUp (x : Nat) {d : Nat} (hd : 0 < d) : x ≤ roundUp x d := le_divRoundUp_mul x hd

@[simp] theorem chunkBytes_length (bits : Nat → Bool) (k : Nat) :
    (chunkBytes bits k).length = k := by simp [chunkBytes]

theorem divRoundUp_mono {a b d : Nat} (h : a ≤ b) : divRoundUp a d ≤ divRoundUp b d :=
  Nat.div_le_div_right (by omega)

theorem divRoundUp_pos {a d : Nat} (hd : 0 < d) : 0 < divRoundUp a d ↔ 0 < a := by
  simp only [divRoundUp, Nat.div_pos_iff]
  omega

theorem divRoundUp_le {x q k : Nat} (hk : 0 < k) (h : x ≤ q * k) : divRoundUp x k ≤ q := by
  have hlt : x + k - 1 < (q + 1) * k := by
    rw [Nat.succ_mul]
    omega
  exact Nat.le_of_lt_succ ((Nat.div_lt_iff_lt_mul hk).mpr hlt)

variable {E : Halt → Prop} {w : World} {α : Type}

/-- The postcondition "returns this value in this world", up to the number of requests made. -/
def Ret (a : α) (w : World) : α → World → Prop := fun b v => b = a ∧ ∃ t, v = w.ticked t

theorem Ret.intro (a : α) (w : World) : Ret a w a w := ⟨rfl, w.tick, rfl⟩

/-- A call with a known result continues from it. -/
theorem after_ret {m : M α} {a : α} {v : World} {Q : α → World → Prop} (h : Wp E m w (Ret a v))
    (hq : ∀ t, Q a (v.ticked t)) : Wp E m w Q := by
  apply h.mono
  rintro _ _ ⟨rfl, t, rfl⟩
  exact hq t

theorem wp_getNode {i : NodeId} {n : Node} {Q : Node → World → Prop} (h : w.nodes i = some n) :
    Wp E (getNode i) w Q ↔ Q n w := by
  simp only [getNode, wp_bind, wp_get, h, wp_pure]

/-- A node is read or the access faults. -/
theorem wp_getNode_iff {i : NodeId} {Q : Node → World → Prop} (hf : E .fault) :
    Wp E (getNode i) w Q ↔ ∀ n, w.nodes i = some n → Q n w := by
  cases h : w.nodes i with
  | none => simp [getNode, h, hf]
  | some n => simp [wp_getNode h]

@[simp] theorem wp_getNode_setNode {i : NodeId} {n : Node} {Q : Node → World → Prop} :
    Wp E (getNode i) (w.setNode i n) Q ↔ Q n (w.setNode i n) := wp_getNode (by simp)

theorem wp_modifyNode {i : NodeId} {n : Node} {f : Node → Node} {Q : Unit → World → Prop}
    (h : w.nodes i = some n) : Wp E (modifyNode i f) w Q ↔ Q () (w.setNode i (f n)) := by
  simp only [modifyNode, wp_bind, wp_getNode h, wp_modify]

@[simp] theorem wp_modifyNode_setNode {i : NodeId} {n : Node} {f : Node → Node}
    {Q : Unit → World → Prop} :
    Wp E (modifyNode i f) (w.setNode i n) Q ↔ Q () (w.setNode i (f n)) := by
  rw [wp_modifyNode (World.setNode_self w i n), World.setNode_setNode]

theorem wp_modifyNode_iff {i : NodeId} {f : Node → Node} {Q : Unit → World → Prop}
    (hf : E .fault) :
    Wp E (modifyNode i f) w Q ↔ ∀ n, w.nodes i = some n → Q () (w.setNode i (f n)) := by
  simp only [modifyNode, wp_bind, wp_getNode_iff hf, wp_modify]

@[simp] theorem wp_freeNode {i : NodeId} {Q : Unit → World → Prop} :
    Wp E (freeNode i) w Q ↔
      Q () { w with nodes := fun j => if j = i then none else w.nodes j } := Iff.rfl

@[simp] theorem wp_exfatError {s : String} {Q : Unit → World → Prop} :
    Wp E (exfatError s) w Q ↔ Q () (w.erred (w.errors + 1)) := Iff.rfl

@[simp] theorem wp_exfatWarn {s : String} {Q : Unit → World → Prop} :
    Wp E (exfatWarn s) w Q ↔ Q () w := Iff.rfl

@[simp] theorem wp_exfatBug {s : String} {Q : α → World → Prop} :
    Wp E (exfatBug s : M α) w Q ↔ E (.bug s) := Iff.rfl

theorem wp_getChunk {bits : Nat → Bool} {Q : (Nat → Bool) → World → Prop}
    (h : w.cmap.chunk = some bits) : Wp E getChunk w Q ↔ Q bits w := by
  simp only [getChunk, wp_bind, wp_get, h, wp_pure]

@[simp] theorem wp_setChunk {bits : Nat → Bool} {b : Bool} {Q : Unit → World → Prop} :
    Wp E (setChunk bits b) w Q ↔
      Q () (w.withCmap { w.cmap with chunk := some bits, dirty := b }) := Iff.rfl

@[simp] theorem wp_nextTick {Q : Nat → World → Prop} :
    Wp E nextTick w Q ↔ Q w.tick (w.ticked (w.tick + 1)) := Iff.rfl

section
variable [Env]

@[simp] theorem wp_timeNow {Q : Int → World → Prop} :
    Wp E timeNow w Q ↔ Q (Env.now w.tick) (w.ticked (w.tick + 1)) := by
  simp [timeNow]

theorem wp_mallocOk (hq : Env.Quiet) {Q : Bool → World → Prop} :
    Wp E mallocOk w Q ↔ Q true (w.ticked (w.tick + 1)) := by
  simp [mallocOk, hq.malloc]

theorem exfatPread_spec (hq : Env.Quiet) (n off : Nat) :
    Wp E (exfatPread n off) w (Ret (some (w.dev.read off n)) w) := by
  simp only [exfatPread, wp_bind, wp_nextTick, hq.io, Bool.false_eq_true, if_false, wp_get,
    wp_pure]
  exact ⟨rfl, _, rfl⟩

/-- A write to the device happens or fails as a whole. -/
theorem exfatPwrite_cases (bs : List UInt8) (off : Nat) :
    Wp E (exfatPwrite bs off) w fun b v => ∃ t,
      b = false ∧ v = w.ticked t ∨ b = true ∧ v = (w.ticked t).withDev (w.dev.write off bs) := by
  simp only [exfatPwrite, wp_bind, wp_nextTick]
  split
  · exact ⟨_, Or.inl ⟨rfl, rfl⟩⟩
  · exact ⟨_, Or.inr ⟨rfl, rfl⟩⟩

theorem exfatPwrite_spec (hq : Env.Quiet) (bs : List UInt8) (off : Nat) :
    Wp E (exfatPwrite bs off) w (Ret true (w.withDev (w.dev.write off bs))) := by
  simp only [exfatPwrite, wp_bind, wp_nextTick, hq.io, Bool.false_eq_true, if_false, wp_modify,
    wp_pure]
  exact ⟨rfl, _, rfl⟩

end

/-- A world outside in which nothing fails. -/
@[reducible] def calmEnv : Env where
  ioFails _ := false
  mallocFails _ := false
  now t := 1000000000 + t
  timezone := 0
  devSize := 2 ^ 20
  opensRw := true
  opensRo := true

theorem calmEnv_quiet : @Env.Quiet calmEnv := @Env.Quiet.mk calmEnv (fun _ => rfl) fun _ => rfl

/-- A volume of eight clusters of one sector each: the FAT in sector 1, the clusters from sector 2
on. -/
def smallSb : SuperBlock :=
  { (default : SuperBlock) with
    fatSectorStart := 1, fatSectorCount := 1, clusterSectorStart := 2, clusterCount := 8
    rootdirCluster := 4, sectorBits := 9, spcBits := 0 }

end Proofs

end Exfat
