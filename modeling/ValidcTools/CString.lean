import Mathlib

/-! Bytes, NUL-terminated strings, and the character classes of the "C" locale. -/
namespace ValidcTools

abbrev Byte := UInt8

instance : Coe Char Byte := ⟨Char.toUInt8⟩

/-- A fact about every byte is one about two hexadecimal digits. -/
theorem forall_byte {P : Byte → Prop} (h : ∀ hi < 16, ∀ lo < 16, P (.ofNat (16 * hi + lo))) (b : Byte) : P b := by
  have hhi : b.toNat / 16 < 16 := Nat.div_lt_of_lt_mul b.toNat_lt
  have hb := h (b.toNat / 16) hhi (b.toNat % 16) (Nat.mod_lt _ (by decide))
  rwa [Nat.div_add_mod, UInt8.ofNat_toNat] at hb

/-- A C string: its bytes up to, but not including, the terminating NUL. -/
@[ext] structure CString where
  bytes : List Byte
  nulFree : (0 : Byte) ∉ bytes
deriving DecidableEq

namespace CString

/-- What a C function sees of a buffer: everything before the first NUL. -/
def ofBytes (l : List Byte) : CString where
  bytes := l.takeWhile (· ≠ 0)
  nulFree h := by simpa using List.mem_takeWhile_imp h

def lit (s : String) : CString := ofBytes (s.toList.map Char.toUInt8)

/-- `strlen` -/
def length (s : CString) : ℕ := s.bytes.length

/-- `s[i]` for an index known to be in range; the terminating NUL is at `s.length`. -/
def get (s : CString) (i : ℕ) : Byte := s.bytes.getD i 0

/-- `s[i]` for any index: `none` is an access outside the string and its NUL. -/
def read? (s : CString) (i : ℤ) : Option Byte :=
  if 0 ≤ i ∧ i ≤ s.length then some (s.get i.toNat) else none

/-- The bytes of `s` from `i` up to, but not including, `j`. -/
def slice (s : CString) (i j : ℕ) : List Byte := (s.bytes.take j).drop i

theorem ofBytes_bytes_of_nulFree {l : List Byte} (h : (0 : Byte) ∉ l) : (ofBytes l).bytes = l := by
  unfold ofBytes
  refine List.takeWhile_eq_self_iff.mpr fun b hb => ?_
  simpa using ne_of_mem_of_not_mem hb h

/-- A string with its terminator, whatever lies behind it -/
theorem ofBytes_append_zero (s : CString) (r : List Byte) : ofBytes (s.bytes ++ 0 :: r) = s := by
  ext1
  have htake : (s.bytes ++ 0 :: r).takeWhile (· ≠ 0) = s.bytes := by
    rw [List.takeWhile_append_of_pos fun b hb => by simpa using ne_of_mem_of_not_mem hb s.nulFree]
    simp
  exact htake

/-- The string of a buffer ends at a NUL of the buffer, or at its end. -/
theorem getD_length_ofBytes (l : List Byte) : l.getD (ofBytes l).length 0 = 0 := by
  unfold length ofBytes
  induction l with
  | nil => rfl
  | cons b l ih =>
    by_cases hb : b = 0
    · simp [hb]
    · simpa [hb] using ih

theorem get_of_lt {s : CString} {i : ℕ} (h : i < s.length) : s.get i = s.bytes.get ⟨i, h⟩ :=
  List.getD_eq_getElem _ _ h

theorem get_ne_zero {s : CString} {i : ℕ} (h : i < s.length) : s.get i ≠ 0 := by
  rw [get_of_lt h]
  exact fun h0 => s.nulFree (h0 ▸ List.getElem_mem h)

@[simp] theorem get_length (s : CString) : s.get s.length = 0 :=
  List.getD_eq_default _ _ le_rfl

theorem get_eq_zero_iff {s : CString} {i : ℕ} (h : i ≤ s.length) : s.get i = 0 ↔ i = s.length := by
  refine ⟨fun h0 => ?_, fun hi => hi ▸ s.get_length⟩
  by_contra hne
  exact get_ne_zero (by omega) h0

theorem read?_natCast {s : CString} {i : ℕ} (h : i ≤ s.length) : s.read? i = some (s.get i) := by
  simp [read?, h]

theorem slice_of_ge {s : CString} {i j : ℕ} (h : j ≤ i) : s.slice i j = [] :=
  List.drop_eq_nil_of_le ((List.length_take_le j s.bytes).trans h)

theorem length_slice {s : CString} {i j : ℕ} (h : j ≤ s.length) : (s.slice i j).length = j - i := by
  simp only [slice, List.length_drop, List.length_take]
  have : min j s.bytes.length = j := min_eq_left h
  omega

/-- The head of a slice is the character there, and its tail is the slice one further. -/
theorem slice_cons {s : CString} {i j : ℕ} (hij : i < j) (hj : j ≤ s.length) :
    s.slice i j = s.get i :: s.slice (i + 1) j := by
  have hi : i < s.length := by omega
  have ht : i < (s.bytes.take j).length := by
    rw [List.length_take]; exact lt_min hij hi
  unfold slice
  rw [List.drop_eq_getElem_cons ht, List.getElem_take, get_of_lt hi]
  rfl

@[simp] theorem slice_zero_length (s : CString) : s.slice 0 s.length = s.bytes := by
  simp [slice, length]

theorem slice_add_of_eq_append {s : CString} {i j : ℕ} {a b : List Byte}
    (h : s.slice i j = a ++ b) : s.slice (i + a.length) j = b := by
  unfold slice at h ⊢
  rw [← List.drop_drop, h, List.drop_left]

theorem slice_left_of_eq_append {s : CString} {i j : ℕ} {a b : List Byte}
    (hij : i + a.length ≤ j) (h : s.slice i j = a ++ b) : s.slice i (i + a.length) = a := by
  have ht : s.bytes.take (i + a.length) = (s.bytes.take j).take (i + a.length) := by
    rw [List.take_take, min_eq_left hij]
  unfold slice at h ⊢
  rw [ht, List.drop_take, h, Nat.add_sub_cancel_left, List.take_left]

theorem read?_eq_none_iff (s : CString) (i : ℤ) : s.read? i = none ↔ ¬ (0 ≤ i ∧ i ≤ s.length) := by
  unfold read?
  split_ifs with h <;> simp [h]

end CString

/-- `isdigit` -/
def isDigit (b : Byte) : Bool := decide ('0' ≤ b ∧ b ≤ '9')

/-- `isspace` -/
def isSpace (b : Byte) : Bool := decide (b = ' ' ∨ (9 ≤ b ∧ b ≤ 13))

/-- `isalnum` -/
def isAlnum (b : Byte) : Bool :=
  isDigit b || decide (('a' ≤ b ∧ b ≤ 'z') ∨ ('A' ≤ b ∧ b ≤ 'Z'))

/-- `tolower` -/
def toLower (b : Byte) : Byte := if 'A' ≤ b ∧ b ≤ 'Z' then b + 32 else b

/-- The value of a string of decimal digits. -/
def decimal (ds : List Byte) : ℕ := ds.foldl (fun n d => 10 * n + (d - '0').toNat) 0

end ValidcTools
