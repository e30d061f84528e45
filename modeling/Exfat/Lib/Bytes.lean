import Exfat.Lib.Prog

namespace Exfat.Lib

/-- A byte-addressed store without a bound. -/
abbrev Store := Nat → UInt8

namespace Store

def read (d : Store) (off n : Nat) : List UInt8 := (List.range n).map (fun i => d (off + i))

def write (d : Store) (off : Nat) (bs : List UInt8) : Store :=
  fun i => if off ≤ i ∧ i < off + bs.length then bs.getD (i - off) 0 else d i

@[simp] theorem read_length (d : Store) (off n : Nat) : (d.read off n).length = n := by
  simp [read]

theorem read_getD (d : Store) {off n i : Nat} (hi : i < n) : (d.read off n).getD i 0 = d (off + i) := by
  simp [read, hi]

theorem write_in (d : Store) {off i : Nat} {bs : List UInt8} (hl : off ≤ i)
    (hr : i < off + bs.length) : d.write off bs i = bs.getD (i - off) 0 := by
  simp [write, hl, hr]

theorem write_out (d : Store) {off i : Nat} {bs : List UInt8}
    (h : i < off ∨ off + bs.length ≤ i) : d.write off bs i = d i := by
  have hn : ¬(off ≤ i ∧ i < off + bs.length) := by omega
  simp [write, hn]

/-- Reads depend only on the bytes of their range. -/
theorem read_congr {d e : Store} {off n : Nat} (h : ∀ i, off ≤ i → i < off + n → d i = e i) :
    d.read off n = e.read off n := by
  apply List.map_congr_left
  intro i hi
  exact h _ (Nat.le_add_right _ _) (by have := List.mem_range.mp hi; omega)

theorem read_write_out (d : Store) {off n p : Nat} {bs : List UInt8}
    (h : off + n ≤ p ∨ p + bs.length ≤ off) : (d.write p bs).read off n = d.read off n :=
  read_congr fun _ hl hr => d.write_out (by omega)

theorem read_write_self (d : Store) (off : Nat) (bs : List UInt8) :
    (d.write off bs).read off bs.length = bs := by
  apply List.ext_getElem (by simp)
  intro i h1 h2
  simp only [read, List.getElem_map, List.getElem_range]
  rw [write_in d (Nat.le_add_right _ _) (by omega)]
  simp [h2]

theorem read_append (d : Store) (off m n : Nat) :
    d.read off (m + n) = d.read off m ++ d.read (off + m) n := by
  simp [read, List.range_add, List.map_map, Function.comp_def, Nat.add_assoc]

/-- A read inside a range that was written. -/
theorem read_write_in (d : Store) {off k n : Nat} {bs : List UInt8} (h : k + n ≤ bs.length) :
    (d.write off bs).read (off + k) n = (bs.drop k).take n := by
  apply List.ext_getElem (by simp; omega)
  intro i h1 h2
  have hi : i < n := by simpa using h1
  simp only [read, List.getElem_map, List.getElem_range, List.getElem_take, List.getElem_drop]
  rw [write_in d (by omega) (by omega), List.getD_eq_getElem _ _ (by omega)]
  congr 1
  omega

end Store

/-- Little-endian value of a byte string. -/
def leNat : List UInt8 → Nat
  | [] => 0
  | b :: bs => b.toNat + 256 * leNat bs

/-- The `n` low bytes of a value, little-endian. -/
def toLe : Nat → Nat → List UInt8
  | 0, _ => []
  | n + 1, v => UInt8.ofNat (v % 256) :: toLe n (v / 256)

@[simp] theorem toLe_length (n v : Nat) : (toLe n v).length = n := by
  induction n generalizing v with
  | zero => rfl
  | succ n ih => simp [toLe, ih]

theorem leNat_lt (bs : List UInt8) : leNat bs < 256 ^ bs.length := by
  induction bs with
  | nil => simp [leNat]
  | cons b bs ih =>
    have hb := b.toNat_lt
    simp only [leNat, List.length_cons, Nat.pow_succ]
    omega

theorem leNat_toLe (n v : Nat) : leNat (toLe n v) = v % 256 ^ n := by
  induction n generalizing v with
  | zero => simp [toLe, leNat, Nat.mod_one]
  | succ n ih =>
    have hb : (UInt8.ofNat (v % 256)).toNat = v % 256 := by simp
    rw [toLe, leNat, ih, hb, Nat.pow_succ, Nat.mul_comm (256 ^ n) 256, Nat.mod_mul]

theorem toLe_leNat (bs : List UInt8) : toLe bs.length (leNat bs) = bs := by
  induction bs with
  | nil => rfl
  | cons b bs ih =>
    have hb := b.toNat_lt
    have hm : (b.toNat + 256 * leNat bs) % 256 = b.toNat := by omega
    have hd : (b.toNat + 256 * leNat bs) / 256 = leNat bs := by omega
    simp only [List.length_cons, toLe, leNat, hm, hd, ih]
    simp

theorem flatMap_toLe_length (k : Nat) (l : List Nat) : (l.flatMap (toLe k)).length = k * l.length := by
  induction l with
  | nil => simp
  | cons a as ih => simp [ih, Nat.mul_succ, Nat.add_comm]

/-- One number of a sequence of numbers. -/
theorem flatMap_toLe_slice (k : Nat) {l : List Nat} {c : Nat} (hc : c < l.length) :
    ((l.flatMap (toLe k)).drop (c * k)).take k = toLe k (l.getD c 0) := by
  induction l generalizing c with
  | nil => exact absurd hc (Nat.not_lt_zero _)
  | cons a l ih =>
    rw [List.flatMap_cons]
    cases c with
    | zero =>
      rw [Nat.zero_mul, List.drop_zero, List.take_left' (toLe_length k a)]
      rfl
    | succ c =>
      rw [Nat.succ_mul, Nat.add_comm, ← List.drop_drop, List.drop_left' (toLe_length k a)]
      exact ih (Nat.lt_of_succ_lt_succ hc)

/-- One part of a sequence of parts of one length. -/
theorem flatten_slice {n : Nat} {S : List (List UInt8)} (hS : ∀ s ∈ S, s.length = n) {k : Nat}
    (hk : k < S.length) : (S.flatten.drop (k * n)).take n = S[k] := by
  induction S generalizing k with
  | nil => exact absurd hk (Nat.not_lt_zero _)
  | cons s S ih =>
    have hs : s.length = n := hS s (by simp)
    rw [List.flatten_cons]
    cases k with
    | zero => rw [Nat.zero_mul, List.drop_zero, List.take_left' hs, List.getElem_cons_zero]
    | succ k =>
      rw [Nat.succ_mul, Nat.add_comm, ← List.drop_drop, List.drop_left' hs, List.getElem_cons_succ]
      exact ih (fun t ht => hS t (by simp [ht])) (by simpa using hk)

theorem flatten_length {n : Nat} {S : List (List UInt8)} (hS : ∀ s ∈ S, s.length = n) :
    S.flatten.length = S.length * n := by
  rw [List.length_flatten, List.map_congr_left hS, List.map_const', List.sum_replicate, smul_eq_mul]

/-- The value of `n` bytes at an offset of a record. -/
def leAt (bs : List UInt8) (off n : Nat) : Nat := leNat ((bs.drop off).take n)

/-- A part of a record that is put together from parts. -/
theorem slice_part {S : List (List UInt8)} {k off : Nat} {s : List UInt8} (hk : S[k]? = some s)
    (ho : ((S.take k).map List.length).sum = off) : (S.flatten.drop off).take s.length = s := by
  induction S generalizing k off with
  | nil => cases hk
  | cons a S ih =>
    rw [List.flatten_cons]
    cases k with
    | zero =>
      obtain rfl : a = s := Option.some.inj hk
      rw [← ho]
      exact List.take_left
    | succ k =>
      rw [← ho, List.take_succ_cons, List.map_cons, List.sum_cons, ← List.drop_drop, List.drop_left]
      exact ih hk rfl

/-- A number among such parts. -/
theorem leAt_part {S : List (List UInt8)} {k off n v : Nat} (hk : S[k]? = some (toLe n v))
    (ho : ((S.take k).map List.length).sum = off) : leAt S.flatten off n = v % 256 ^ n := by
  have hs := slice_part hk ho
  rw [toLe_length] at hs
  rw [leAt, hs, leNat_toLe]

/-- A record with the bytes from an offset on replaced. -/
def setAt (bs : List UInt8) (off : Nat) (xs : List UInt8) : List UInt8 :=
  bs.take off ++ xs ++ bs.drop (off + xs.length)

theorem setAt_length {bs xs : List UInt8} {off : Nat} (h : off + xs.length ≤ bs.length) :
    (setAt bs off xs).length = bs.length := by
  simp only [setAt, List.length_append, List.length_take, List.length_drop]
  omega

theorem setAt_getD {bs xs : List UInt8} {off : Nat} (h : off + xs.length ≤ bs.length) (i : Nat) :
    (setAt bs off xs).getD i 0 =
      if off ≤ i ∧ i < off + xs.length then xs.getD (i - off) 0 else bs.getD i 0 := by
  have ht : (bs.take off).length = off := by rw [List.length_take]; omega
  simp only [setAt, List.append_assoc, List.getD_eq_getElem?_getD]
  by_cases h1 : i < off
  · rw [if_neg (by omega), List.getElem?_append_left (by omega), List.getElem?_take_of_lt h1]
  · rw [List.getElem?_append_right (by omega), ht]
    by_cases h2 : i < off + xs.length
    · rw [if_pos ⟨by omega, h2⟩, List.getElem?_append_left (by omega)]
    · rw [if_neg (by omega), List.getElem?_append_right (by omega), List.getElem?_drop]
      congr 2
      omega

/-- A byte array after a write at an offset; a gap before the offset is filled with zeros. -/
def overwrite (bs : List UInt8) (off : Nat) (xs : List UInt8) : List UInt8 :=
  (bs ++ List.replicate (off - bs.length) 0).take off ++ xs ++ bs.drop (off + xs.length)

theorem overwrite_length (bs xs : List UInt8) (off : Nat) :
    (overwrite bs off xs).length = max bs.length (off + xs.length) := by
  simp only [overwrite, List.length_append, List.length_take, List.length_replicate,
    List.length_drop]
  omega

theorem overwrite_getD (bs xs : List UInt8) (off i : Nat) :
    (overwrite bs off xs).getD i 0 =
      if off ≤ i ∧ i < off + xs.length then xs.getD (i - off) 0 else bs.getD i 0 := by
  have ht : ((bs ++ List.replicate (off - bs.length) 0).take off).length = off := by
    simp only [List.length_take, List.length_append, List.length_replicate]
    omega
  simp only [overwrite, List.append_assoc, List.getD_eq_getElem?_getD]
  by_cases h1 : i < off
  · rw [if_neg (by omega), List.getElem?_append_left (by omega), List.getElem?_take_of_lt h1]
    by_cases hb : i < bs.length
    · rw [List.getElem?_append_left hb]
    · rw [List.getElem?_append_right (by omega), List.getElem?_eq_none (Nat.le_of_not_lt hb)]
      simp [show i - bs.length < off - bs.length by omega]
  · rw [List.getElem?_append_right (by omega), ht]
    by_cases h2 : i < off + xs.length
    · rw [if_pos ⟨by omega, h2⟩, List.getElem?_append_left (by omega)]
    · rw [if_neg (by omega), List.getElem?_append_right (by omega), List.getElem?_drop]
      congr 2
      omega

/-- Byte strings are equal when all their bytes are. -/
theorem eq_of_getD {as bs : List UInt8} (hl : as.length = bs.length)
    (h : ∀ i < as.length, as.getD i 0 = bs.getD i 0) : as = bs := by
  apply List.ext_getElem hl
  intro i h1 h2
  have := h i h1
  rwa [List.getD_eq_getElem _ _ h1, List.getD_eq_getElem _ _ h2] at this

/-- A value depends only on its bytes. -/
theorem leAt_congr {as bs : List UInt8} {off n : Nat} (hl : as.length = bs.length)
    (h : ∀ i, off ≤ i → i < off + n → as.getD i 0 = bs.getD i 0) : leAt as off n = leAt bs off n := by
  simp only [leAt]
  congr 1
  apply List.ext_getElem (by simp [hl])
  intro i h1 h2
  simp only [List.length_take, List.length_drop] at h1 h2
  have := h (off + i) (by omega) (by omega)
  simp only [List.getElem_take, List.getElem_drop]
  rwa [List.getD_eq_getElem _ _ (by omega), List.getD_eq_getElem _ _ (by omega)] at this

theorem leAt_lt (bs : List UInt8) (off n : Nat) : leAt bs off n < 256 ^ n :=
  (leNat_lt _).trans_le (Nat.pow_le_pow_right (by decide) (List.length_take_le n _))

theorem leAt_drop (bs : List UInt8) (k off n : Nat) :
    leAt (bs.drop k) off n = leAt bs (k + off) n := by
  simp only [leAt, List.drop_drop]

/-- A value written into a record is read back. -/
theorem leAt_setAt_self {bs : List UInt8} {off n v : Nat} (h : off + n ≤ bs.length) :
    leAt (setAt bs off (toLe n v)) off n = v % 256 ^ n := by
  have ht : (bs.take off).length = off := by rw [List.length_take]; omega
  have hd : ((setAt bs off (toLe n v)).drop off).take n = toLe n v := by
    rw [setAt, List.append_assoc, List.drop_left' ht, List.take_left' (toLe_length n v)]
  rw [leAt, hd, leNat_toLe]

/-- A value in the first of two parts of a record. -/
theorem leAt_append_left {as bs : List UInt8} {off n : Nat} (h : off + n ≤ as.length) :
    leAt (as ++ bs) off n = leAt as off n := by
  simp only [leAt]
  rw [List.drop_append_of_le_length (by omega), List.take_append_of_le_length (by
    rw [List.length_drop]
    omega)]

/-- A value behind a field. -/
theorem leAt_toLe_right {k v off n : Nat} {bs : List UInt8} (h : k ≤ off) :
    leAt (toLe k v ++ bs) off n = leAt bs (off - k) n := by
  have hk : off = (toLe k v).length + (off - k) := by
    rw [toLe_length]
    omega
  simp only [leAt]
  rw [hk, ← List.drop_drop, List.drop_left, ← hk]

/-- The value of a field. -/
theorem leAt_toLe_self (n v : Nat) (bs : List UInt8) : leAt (toLe n v ++ bs) 0 n = v % 256 ^ n := by
  rw [leAt, List.drop_zero, List.take_left' (toLe_length n v), leNat_toLe]

theorem leAt_toLe (n v : Nat) : leAt (toLe n v) 0 n = v % 256 ^ n := by
  rw [← List.append_nil (toLe n v), leAt_toLe_self]

/-- The value of one byte. -/
theorem leAt_one {bs : List UInt8} {off : Nat} (h : off < bs.length) :
    leAt bs off 1 = (bs.getD off 0).toNat := by
  rw [leAt, List.drop_eq_getElem_cons h, List.getD_eq_getElem _ _ h, List.take_succ_cons,
    List.take_zero, leNat, leNat]
  omega

/-- A list of byte strings written into a record one after the other. -/
def edit (bs : List UInt8) (es : List (Nat × List UInt8)) : List UInt8 :=
  es.foldl (fun b e => setAt b e.1 e.2) bs

variable {bs : List UInt8} {es : List (Nat × List UInt8)}

theorem edit_length (h : ∀ e ∈ es, e.1 + e.2.length ≤ bs.length) :
    (edit bs es).length = bs.length := by
  induction es generalizing bs with
  | nil => rfl
  | cons e es ih =>
    have he := setAt_length (h e (by simp))
    rw [← he]
    exact ih fun x hx => he ▸ h x (by simp [hx])

theorem edit_getD (h : ∀ e ∈ es, e.1 + e.2.length ≤ bs.length) {i : Nat}
    (hi : ∀ e ∈ es, i < e.1 ∨ e.1 + e.2.length ≤ i) : (edit bs es).getD i 0 = bs.getD i 0 := by
  induction es generalizing bs with
  | nil => rfl
  | cons e es ih =>
    have he := setAt_length (h e (by simp))
    have hrest : (edit (setAt bs e.1 e.2) es).getD i 0 = (setAt bs e.1 e.2).getD i 0 :=
      ih (fun x hx => he ▸ h x (by simp [hx])) fun x hx => hi x (by simp [hx])
    have hout := hi e (by simp)
    rw [setAt_getD (h e (by simp)), if_neg (by omega)] at hrest
    exact hrest

/-- Edits elsewhere keep a value. -/
theorem leAt_edit (h : ∀ e ∈ es, e.1 + e.2.length ≤ bs.length) {off n : Nat}
    (ho : ∀ e ∈ es, off + n ≤ e.1 ∨ e.1 + e.2.length ≤ off) : leAt (edit bs es) off n = leAt bs off n :=
  leAt_congr (edit_length h) fun i hl hr => edit_getD h fun e he => by
    have := ho e he
    omega

/-- The last value written at an offset is read back. -/
theorem leAt_edit_hit (as : List (Nat × List UInt8)) {off n v : Nat}
    (h : ∀ e ∈ as ++ (off, toLe n v) :: es, e.1 + e.2.length ≤ bs.length)
    (ho : ∀ e ∈ es, off + n ≤ e.1 ∨ e.1 + e.2.length ≤ off) :
    leAt (edit bs (as ++ (off, toLe n v) :: es)) off n = v % 256 ^ n := by
  have hal : (edit bs as).length = bs.length := edit_length fun e he => h e (by simp [he])
  have hv := h (off, toLe n v) (by simp)
  simp only [toLe_length] at hv
  have hsl : (setAt (edit bs as) off (toLe n v)).length = bs.length := by
    rw [setAt_length (by rw [toLe_length]; omega), hal]
  have hsplit : edit bs (as ++ (off, toLe n v) :: es) =
      edit (setAt (edit bs as) off (toLe n v)) es := by simp [edit]
  rw [hsplit, leAt_edit (fun e he => hsl ▸ h e (by simp [he])) ho, leAt_setAt_self (by omega)]

end Exfat.Lib
