import ValidcTools.Lib.Bytes

/-! Byte-addressed memory as a function, with stores of bytes and little-endian loads. -/
namespace Memory

open Bytes

variable {mem : ℕ → UInt8} {a b n k : ℕ} {bs : List UInt8}

/-- `memcpy` of these bytes to `a` -/
def store (mem : ℕ → UInt8) (a : ℕ) (bs : List UInt8) : ℕ → UInt8 := fun k =>
  if a ≤ k ∧ k < a + bs.length then bs.getD (k - a) 0 else mem k

/-- `memset(a, 0, n)` -/
def clear (mem : ℕ → UInt8) (a n : ℕ) : ℕ → UInt8 := fun k => if a ≤ k ∧ k < a + n then 0 else mem k

/-- The `n` bytes from `a` on -/
def bytesAt (mem : ℕ → UInt8) (a n : ℕ) : List UInt8 := (List.range n).map fun k => mem (a + k)

/-- The number in the `w` bytes from `a` on -/
def load (mem : ℕ → UInt8) (a w : ℕ) : ℕ := toNat (bytesAt mem a w)

@[simp] theorem length_bytesAt : (bytesAt mem a n).length = n := by
  rw [bytesAt, List.length_map, List.length_range]

theorem store_of_outside (h : k < a ∨ a + bs.length ≤ k) : store mem a bs k = mem k := if_neg (by omega)

theorem store_of_inside (hk : k < bs.length) : store mem a bs (a + k) = bs[k] := by
  unfold store
  rw [if_pos (by omega), Nat.add_sub_cancel_left, List.getD_eq_getElem _ _ hk]

theorem clear_of_outside (h : k < a ∨ a + n ≤ k) : clear mem a n k = mem k := if_neg (by omega)

theorem bytesAt_congr {mem' : ℕ → UInt8} (h : ∀ k < n, mem' (a + k) = mem (a + k)) : bytesAt mem' a n = bytesAt mem a n :=
  List.map_congr_left fun k hk => h k (List.mem_range.mp hk)

theorem bytesAt_store_of_outside (h : b + n ≤ a ∨ a + bs.length ≤ b) : bytesAt (store mem a bs) b n = bytesAt mem b n :=
  bytesAt_congr fun k hk => store_of_outside (by omega)

theorem bytesAt_store (mem : ℕ → UInt8) (a : ℕ) (bs : List UInt8) : bytesAt (store mem a bs) a bs.length = bs := by
  refine List.ext_getElem (length_bytesAt ..) fun k hk _ => ?_
  rw [length_bytesAt] at hk
  simp only [bytesAt, List.getElem_map, List.getElem_range]
  exact store_of_inside hk

theorem load_store_of_outside {w : ℕ} (h : b + w ≤ a ∨ a + bs.length ≤ b) : load (store mem a bs) b w = load mem b w := by
  rw [load, bytesAt_store_of_outside h, load]

theorem load_store_ofNat (mem : ℕ → UInt8) (a w v : ℕ) : load (store mem a (ofNat w v)) a w = v % 256 ^ w := by
  have h := bytesAt_store mem a (ofNat w v)
  rw [length_ofNat] at h
  rw [load, h, toNat_ofNat]

/-- A number in what has been stored -/
theorem load_store_numAt {w : ℕ} (h : k + w ≤ bs.length) : load (store mem a bs) (a + k) w = numAt bs k w := by
  refine congrArg toNat (List.ext_getElem ?_ fun j hj _ => ?_)
  · rw [length_bytesAt, List.length_take, List.length_drop]
    omega
  · rw [length_bytesAt] at hj
    simp only [bytesAt, List.getElem_map, List.getElem_range, List.getElem_take, List.getElem_drop, Nat.add_assoc]
    exact store_of_inside (by omega)

theorem load_congr {mem' : ℕ → UInt8} {w : ℕ} (h : ∀ k < w, mem' (a + k) = mem (a + k)) : load mem' a w = load mem a w :=
  congrArg toNat (bytesAt_congr h)

theorem load_lt (mem : ℕ → UInt8) (a w : ℕ) : load mem a w < 256 ^ w := by
  have h := toNat_lt (bytesAt mem a w)
  rwa [length_bytesAt] at h

end Memory
