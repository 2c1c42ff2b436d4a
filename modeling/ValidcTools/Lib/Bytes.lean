import Mathlib

/-! Numbers as little-endian bytes, and stores of bytes into a buffer. -/
namespace Bytes

/-- The `w` little-endian bytes of `n`; what does not fit is dropped. -/
def ofNat : ℕ → ℕ → List UInt8
  | 0, _ => []
  | w + 1, n => UInt8.ofNat (n % 256) :: ofNat w (n / 256)

/-- The number with the given little-endian bytes. -/
def toNat : List UInt8 → ℕ
  | [] => 0
  | b :: l => b.toNat + 256 * toNat l

@[simp] theorem length_ofNat (w n : ℕ) : (ofNat w n).length = w := by
  induction w generalizing n with
  | zero => rfl
  | succ w ih => rw [ofNat, List.length_cons, ih]

theorem toNat_ofNat (w n : ℕ) : toNat (ofNat w n) = n % 256 ^ w := by
  induction w generalizing n with
  | zero => rw [ofNat, toNat, pow_zero, Nat.mod_one]
  | succ w ih =>
    have hb : (UInt8.ofNat (n % 256)).toNat = n % 256 := by
      rw [UInt8.toNat_ofNat', Nat.mod_mod_of_dvd _ dvd_rfl]
    rw [ofNat, toNat, ih, hb, pow_succ', Nat.mod_mul]

theorem toNat_lt (l : List UInt8) : toNat l < 256 ^ l.length := by
  induction l with
  | nil => exact Nat.one_pos
  | cons b l ih =>
    have hb := b.toNat_lt
    calc toNat (b :: l) < 256 + 256 * toNat l := Nat.add_lt_add_right hb _
      _ = 256 * (toNat l + 1) := by ring
      _ ≤ 256 * 256 ^ l.length := Nat.mul_le_mul_left _ ih
      _ = 256 ^ (b :: l).length := by rw [List.length_cons, pow_succ']

/-- As many bytes with the same number are the same bytes. -/
theorem toNat_injective {l l' : List UInt8} (hlen : l.length = l'.length) (h : toNat l = toNat l') : l = l' := by
  induction l generalizing l' with
  | nil => exact (List.length_eq_zero_iff.mp hlen.symm).symm
  | cons b l ih =>
    cases l' with
    | nil => exact absurd hlen (by simp)
    | cons b' l' =>
      have hb := b.toNat_lt
      have hb' := b'.toNat_lt
      simp only [toNat] at h
      have hhead : b = b' := UInt8.toNat_inj.mp (by omega)
      have htail : l = l' := ih (Nat.succ.inj hlen) (by omega)
      rw [hhead, htail]

theorem toNat_append (l l' : List UInt8) : toNat (l ++ l') = toNat l + 256 ^ l.length * toNat l' := by
  induction l with
  | nil => rw [List.nil_append, toNat, List.length_nil, pow_zero, Nat.one_mul, Nat.zero_add]
  | cons b l ih =>
    rw [List.cons_append, toNat, toNat, ih, List.length_cons, pow_succ']
    ring

/-- `memcpy(l + a, bs, ..)`: `none` is a store outside the buffer. -/
def put? (l : List UInt8) (a : ℕ) (bs : List UInt8) : Option (List UInt8) :=
  if a + bs.length ≤ l.length then some (l.take a ++ (bs ++ l.drop (a + bs.length))) else none

/-- The next store behind those already made -/
theorem put?_append {l : List UInt8} {bs : List UInt8} (h : bs.length ≤ l.length) (pre : List UInt8) :
    put? (pre ++ l) pre.length bs = some (pre ++ (bs ++ l.drop bs.length)) := by
  rw [put?, if_pos (by rw [List.length_append]; omega), List.take_left, List.drop_append]
  simp

theorem put?_eq_none_iff {l : List UInt8} {a : ℕ} {bs : List UInt8} : put? l a bs = none ↔ l.length < a + bs.length := by
  unfold put?
  split_ifs with h
  · simp only [false_iff]
    omega
  · simp only [true_iff]
    omega

theorem length_of_put? {l l' : List UInt8} {a : ℕ} {bs : List UInt8} (h : put? l a bs = some l') : l'.length = l.length := by
  unfold put? at h
  split_ifs at h with hle
  rw [← Option.some.inj h]
  simp only [List.length_append, List.length_take, List.length_drop]
  omega

/-- Stores made one after the other -/
def stores : List (ℕ × List UInt8) → List UInt8 → Option (List UInt8)
  | [], l => some l
  | (a, bs) :: rest, l => (put? l a bs).bind (stores rest)

theorem stores_append (ops ops' : List (ℕ × List UInt8)) (l : List UInt8) :
    stores (ops ++ ops') l = (stores ops l).bind (stores ops') := by
  induction ops generalizing l with
  | nil => rfl
  | cons op ops ih =>
    rw [List.cons_append, stores, stores, Option.bind_assoc]
    exact congrArg _ (funext ih)

/-- Each part stored where the one before it ends, the first at `a` -/
def layout : ℕ → List (List UInt8) → List (ℕ × List UInt8)
  | _, [] => []
  | a, bs :: rest => (a, bs) :: layout (a + bs.length) rest

theorem stores_layout (parts : List (List UInt8)) (pre l : List UInt8) :
    stores (layout pre.length parts) (pre ++ l) =
      if parts.flatten.length ≤ l.length then some (pre ++ (parts.flatten ++ l.drop parts.flatten.length)) else none := by
  induction parts generalizing pre l with
  | nil => simp [layout, stores]
  | cons bs rest ih =>
    rw [layout, stores, List.flatten_cons, List.length_append]
    by_cases hbs : bs.length ≤ l.length
    · have hrest := ih (pre ++ bs) (l.drop bs.length)
      rw [List.length_append, List.append_assoc, List.length_drop, List.drop_drop] at hrest
      rw [put?_append hbs, Option.bind_some, hrest]
      by_cases hle : bs.length + rest.flatten.length ≤ l.length
      · rw [if_pos hle, if_pos (by omega), List.append_assoc, List.append_assoc]
      · rw [if_neg hle, if_neg (by omega)]
    · have hput : put? (pre ++ l) pre.length bs = none := put?_eq_none_iff.mpr (by rw [List.length_append]; omega)
      rw [hput, if_neg (by omega)]
      rfl

/-- Parts that lie in a buffer from its start -/
theorem stores_layout_zero (parts : List (List UInt8)) {l : List UInt8} (h : parts.flatten.length ≤ l.length) :
    stores (layout 0 parts) l = some (parts.flatten ++ l.drop parts.flatten.length) :=
  (stores_layout parts [] l).trans (if_pos h)

/-- Parts that fill a buffer -/
theorem stores_layout_full (parts : List (List UInt8)) {l : List UInt8} (h : parts.flatten.length = l.length) :
    stores (layout 0 parts) l = some parts.flatten := by
  rw [stores_layout_zero parts h.le, h, List.drop_length, List.append_nil]

/-- One store outside the buffer is enough. -/
theorem stores_eq_none {ops : List (ℕ × List UInt8)} {a : ℕ} {bs l : List UInt8} (hmem : (a, bs) ∈ ops)
    (h : l.length < a + bs.length) : stores ops l = none := by
  induction ops generalizing l with
  | nil => cases hmem
  | cons op ops ih =>
    rw [stores]
    cases hmem with
    | head =>
      rw [put?_eq_none_iff.mpr h]
      rfl
    | tail _ hmem =>
      cases hput : put? l op.1 op.2 with
      | none => rfl
      | some l' => exact ih hmem (by rwa [length_of_put? hput])

theorem length_of_stores {ops : List (ℕ × List UInt8)} {l l' : List UInt8} (h : stores ops l = some l') :
    l'.length = l.length := by
  induction ops generalizing l with
  | nil => rw [Option.some.inj h]
  | cons op ops ih =>
    obtain ⟨l₁, hput, hrest⟩ := Option.bind_eq_some_iff.mp h
    exact (ih hrest).trans (length_of_put? hput)

/-- The number in the `w` bytes from `a` on -/
def numAt (l : List UInt8) (a w : ℕ) : ℕ := toNat ((l.drop a).take w)

@[simp] theorem numAt_cons_succ (b : UInt8) (l : List UInt8) (a w : ℕ) : numAt (b :: l) (a + 1) w = numAt l a w := rfl

theorem drop_ofNat_append {v a : ℕ} (h : v ≤ a) (n : ℕ) (l : List UInt8) : (ofNat v n ++ l).drop a = l.drop (a - v) := by
  rw [List.drop_append, List.drop_eq_nil_of_le (by rwa [length_ofNat]), List.nil_append, length_ofNat]

/-- A number behind another -/
theorem numAt_ofNat_append {v a : ℕ} (h : v ≤ a) (n w : ℕ) (l : List UInt8) :
    numAt (ofNat v n ++ l) a w = numAt l (a - v) w := by
  rw [numAt, drop_ofNat_append h, numAt]

theorem numAt_ofNat (w n : ℕ) (l : List UInt8) : numAt (ofNat w n ++ l) 0 w = n % 256 ^ w := by
  have htake : (ofNat w n ++ l).take (ofNat w n).length = ofNat w n := List.take_left
  rw [length_ofNat] at htake
  rw [numAt, List.drop_zero, htake, toNat_ofNat]

end Bytes
