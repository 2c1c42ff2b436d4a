import Mathlib

/-! Loops over the cells of an array that a program indexes with integers: each access is checked,
and `none` is an access outside the array. -/
namespace Cells

variable {α : Type}

/-- `a[i]` -/
def get? (a : List α) (i : ℤ) : Option α := if 0 ≤ i then a[i.toNat]? else none

/-- `a[i] = x` -/
def set? (a : List α) (i : ℤ) (x : α) : Option (List α) :=
  if 0 ≤ i ∧ i < a.length then some (a.set i.toNat x) else none

/-- `n` times `a[dst i] = a[src i]`, where `i` moves by `step`. -/
def assign (dst src : ℤ → ℤ) (step : ℤ) : ℕ → ℤ → List α → Option (List α)
  | 0, _, a => some a
  | n + 1, i, a =>
    (get? a (src i)).bind fun x => (set? a (dst i) x).bind fun a => assign dst src step n (i + step) a

/-- `a[i], a[i + 1], ..` become the given values. -/
def setAll (a : List α) (i : ℤ) : List α → Option (List α)
  | [] => some a
  | x :: xs => (set? a i x).bind fun a => setAll a (i + 1) xs

/-- `n` values from `a[i]` on. -/
def getAll (a : List α) : ℕ → ℤ → Option (List α)
  | 0, _ => some []
  | n + 1, i => (get? a i).bind fun x => (getAll a n (i + 1)).map (x :: ·)

@[simp] theorem get?_natCast (a : List α) (i : ℕ) : get? a i = a[i]? := by
  simp [get?]

theorem set?_natCast {a : List α} {i : ℕ} (h : i < a.length) (x : α) :
    set? a i x = some (a.set i x) := by
  simp [set?, h]

theorem get?_eq_none_iff {a : List α} {i : ℤ} : get? a i = none ↔ i < 0 ∨ (a.length : ℤ) ≤ i := by
  unfold get?
  split_ifs with h
  · rw [List.getElem?_eq_none_iff]
    omega
  · simp only [true_iff]
    omega

theorem set?_eq_none_iff {a : List α} {i : ℤ} {x : α} :
    set? a i x = none ↔ i < 0 ∨ (a.length : ℤ) ≤ i := by
  unfold set?
  split_ifs with h
  · simp only [false_iff]
    omega
  · simp only [true_iff]
    omega

theorem length_of_set? {a a' : List α} {i : ℤ} {x : α} (h : set? a i x = some a') :
    a'.length = a.length := by
  unfold set? at h
  split_ifs at h
  rw [← Option.some.inj h, List.length_set]

theorem length_of_assign {dst src : ℤ → ℤ} {step : ℤ} {n : ℕ} {i : ℤ} {a a' : List α}
    (h : assign dst src step n i a = some a') : a'.length = a.length := by
  induction n generalizing i a with
  | zero => rw [← Option.some.inj h]
  | succ n ih =>
    unfold assign at h
    obtain ⟨x, -, h⟩ := Option.bind_eq_some_iff.mp h
    obtain ⟨a1, hset, h⟩ := Option.bind_eq_some_iff.mp h
    rw [ih h, length_of_set? hset]

/-- A block of `n` cells moves down by `k`. -/
theorem assign_down {a : List α} (dst src : ℤ → ℤ) {k : ℕ} (hdst : ∀ i, dst i = i)
    (hsrc : ∀ i, src i = i + k) (n : ℕ) {s : ℕ} (h : s + n + k ≤ a.length) :
    ∃ a', assign dst src 1 n s a = some a' ∧ a'.length = a.length ∧
      ∀ j, a'[j]? = if s ≤ j ∧ j < s + n then a[j + k]? else a[j]? := by
  induction n generalizing s a with
  | zero =>
    refine ⟨a, rfl, rfl, fun j => ?_⟩
    rw [if_neg (by omega)]
  | succ n ih =>
    have hs : s < a.length := by omega
    have hsk : s + k < a.length := by omega
    have hread : get? a (src s) = some a[s + k] := by
      rw [hsrc, ← Nat.cast_add, get?_natCast, List.getElem?_eq_getElem hsk]
    have hwrite : set? a (dst s) a[s + k] = some (a.set s a[s + k]) := by
      rw [hdst, set?_natCast hs]
    obtain ⟨a', ha', hlen, hget⟩ := ih (a := a.set s a[s + k]) (s := s + 1)
      (by rw [List.length_set]; omega)
    refine ⟨a', ?_, by rw [hlen, List.length_set], fun j => ?_⟩
    · unfold assign
      rw [hread, Option.bind_some, hwrite, Option.bind_some, ← ha']
      push_cast
      rfl
    · rw [hget]
      by_cases hj : s + 1 ≤ j ∧ j < s + 1 + n
      · rw [if_pos hj, if_pos (by omega), List.getElem?_set_ne (by omega)]
      · rw [if_neg hj]
        by_cases hjs : j = s
        · subst hjs
          rw [if_pos (by omega), List.getElem?_set_self hs, List.getElem?_eq_getElem hsk]
        · rw [if_neg (by omega), List.getElem?_set_ne (fun h => hjs h.symm)]

/-- A block of `n` cells moves up by `k`, from its end. -/
theorem assign_up {a : List α} (dst src : ℤ → ℤ) {k : ℕ} {c : ℤ} (lo : ℕ) (hdst : ∀ i, dst i = i + c + k)
    (hsrc : ∀ i, src i = i + c) (n : ℕ) {i : ℤ} (hi : i + c = lo + n - 1)
    (h : lo + n + k ≤ a.length) :
    ∃ a', assign dst src (-1) n i a = some a' ∧ a'.length = a.length ∧
      ∀ j, a'[j]? = if lo + k ≤ j ∧ j < lo + k + n then a[j - k]? else a[j]? := by
  induction n generalizing i a with
  | zero =>
    refine ⟨a, rfl, rfl, fun j => ?_⟩
    rw [if_neg (by omega)]
  | succ n ih =>
    have hr : lo + n < a.length := by omega
    have hw : lo + n + k < a.length := by omega
    have hread : get? a (src i) = some a[lo + n] := by
      rw [hsrc, hi, show (lo : ℤ) + (n + 1 : ℕ) - 1 = (lo + n : ℕ) by push_cast; ring, get?_natCast,
        List.getElem?_eq_getElem hr]
    have hwrite : set? a (dst i) a[lo + n] = some (a.set (lo + n + k) a[lo + n]) := by
      rw [hdst, hi, show (lo : ℤ) + (n + 1 : ℕ) - 1 + k = (lo + n + k : ℕ) by push_cast; ring,
        set?_natCast hw]
    obtain ⟨a', ha', hlen, hget⟩ := ih (a := a.set (lo + n + k) a[lo + n]) (i := i + -1)
      (by push_cast at hi ⊢; omega) (by rw [List.length_set]; omega)
    refine ⟨a', ?_, by rw [hlen, List.length_set], fun j => ?_⟩
    · unfold assign
      rw [hread, Option.bind_some, hwrite, Option.bind_some, ha']
    · rw [hget]
      by_cases hj : lo + k ≤ j ∧ j < lo + k + n
      · rw [if_pos hj, if_pos (by omega)]
        by_cases hk : k = 0
        · subst hk
          rw [List.getElem?_set_ne (by omega)]
        · rw [List.getElem?_set_ne (by omega)]
      · rw [if_neg hj]
        by_cases hjs : j = lo + n + k
        · subst hjs
          rw [if_pos (by omega), List.getElem?_set_self hw, ← List.getElem?_eq_getElem hr]
          congr 1
          omega
        · rw [if_neg (by omega), List.getElem?_set_ne (fun h => hjs h.symm)]

theorem setAll_eq {a : List α} {i : ℕ} (xs : List α) (h : i + xs.length ≤ a.length) :
    ∃ a', setAll a i xs = some a' ∧ a'.length = a.length ∧
      ∀ j, a'[j]? = if i ≤ j ∧ j < i + xs.length then xs[j - i]? else a[j]? := by
  induction xs generalizing a i with
  | nil =>
    refine ⟨a, rfl, rfl, fun j => ?_⟩
    rw [if_neg (by simp)]
  | cons x xs ih =>
    rw [List.length_cons] at h
    obtain ⟨a', ha', hlen, hget⟩ := ih (a := a.set i x) (i := i + 1) (by rw [List.length_set]; omega)
    refine ⟨a', ?_, by rw [hlen, List.length_set], fun j => ?_⟩
    · unfold setAll
      rw [set?_natCast (by omega), Option.bind_some, ← ha']
      push_cast
      rfl
    · rw [hget, List.length_cons]
      by_cases hj : i + 1 ≤ j ∧ j < i + 1 + xs.length
      · rw [if_pos hj, if_pos (by omega), show j - i = (j - (i + 1)) + 1 by omega,
          List.getElem?_cons_succ]
      · rw [if_neg hj]
        by_cases hji : j = i
        · subst hji
          rw [if_pos (by omega), List.getElem?_set_self (by omega)]
          simp
        · rw [if_neg (by omega), List.getElem?_set_ne (fun h => hji h.symm)]

theorem length_of_setAll {a a' : List α} {i : ℤ} {xs : List α} (h : setAll a i xs = some a') : a'.length = a.length := by
  induction xs generalizing i a with
  | nil => rw [← Option.some.inj h]
  | cons x xs ih =>
    unfold setAll at h
    obtain ⟨a1, hset, h⟩ := Option.bind_eq_some_iff.mp h
    rw [ih h, length_of_set? hset]

theorem set?_append (pre post : List α) (x y : α) :
    set? (pre ++ x :: post) pre.length y = some (pre ++ y :: post) := by
  rw [set?_natCast (by simp), List.set_append_right pre.length y le_rfl, Nat.sub_self, List.set_cons_zero]

/-- As many cells in the middle become the given values. -/
theorem setAll_append (pre post : List α) {old xs : List α} (h : old.length = xs.length) :
    setAll (pre ++ old ++ post) pre.length xs = some (pre ++ xs ++ post) := by
  induction xs generalizing pre old with
  | nil =>
    obtain rfl := List.length_eq_zero_iff.mp h
    rfl
  | cons x xs ih =>
    cases old with
    | nil => cases h
    | cons y old =>
      have hrec := ih (pre ++ [x]) (Nat.succ.inj h)
      rw [List.length_append] at hrec
      push_cast at hrec
      unfold setAll
      rw [List.append_assoc, List.cons_append, set?_append, Option.bind_some]
      simpa using hrec

theorem getAll_eq {a : List α} (n : ℕ) {i : ℕ} (h : i + n ≤ a.length) :
    getAll a n i = some ((a.drop i).take n) := by
  induction n generalizing i with
  | zero => simp [getAll]
  | succ n ih =>
    have hi : i < a.length := by omega
    have hrec := ih (i := i + 1) (by omega)
    push_cast at hrec
    unfold getAll
    rw [get?_natCast, List.getElem?_eq_getElem hi, Option.bind_some, hrec, Option.map_some,
      List.drop_eq_getElem_cons hi, List.take_succ_cons]

/-- Insert `x` at `pos`: one more cell, a shift up, one assignment. -/
def insert? (a : List α) (pos : ℤ) (x : α) : Option (List α) :=
  -- The new cell holds anything; it is written before it is read.
  (assign (fun i => i) (fun i => i - 1) (-1) (a.length - pos).toNat a.length (a ++ [x])).bind
    fun a => set? a pos x

theorem insert?_eq {a : List α} {pos : ℕ} (h : pos ≤ a.length) (x : α) :
    insert? a pos x = some (a.take pos ++ x :: a.drop pos) := by
  obtain ⟨a', ha', hlen, hget⟩ := assign_up (a := a ++ [x]) (fun i => i) (fun i => i - 1) (k := 1)
    (c := -1) pos (fun i => by simp) (fun i => by ring) ((a.length : ℤ) - pos).toNat
    (i := a.length) (by omega) (by simp; omega)
  have hpos : pos < a'.length := by rw [hlen, List.length_append]; simp; omega
  unfold insert?
  rw [ha', Option.bind_some, set?_natCast hpos]
  congr 1
  refine List.ext_getElem? fun j => ?_
  have htake : (a.take pos).length = pos := List.length_take_of_le h
  rcases lt_trichotomy j pos with hj | rfl | hj
  · rw [List.getElem?_set_ne (by omega), hget, if_neg (by omega),
      List.getElem?_append_left (by omega), List.getElem?_append_left (by omega),
      List.getElem?_take_of_lt hj]
  · rw [List.getElem?_set_self hpos, List.getElem?_append_right (by omega), htake, Nat.sub_self]
    rfl
  · have hright : (a.take pos ++ x :: a.drop pos)[j]? = a[j - 1]? := by
      rw [List.getElem?_append_right (by omega), htake, show j - pos = (j - pos - 1) + 1 by omega,
        List.getElem?_cons_succ, List.getElem?_drop]
      congr 1
      omega
    rw [List.getElem?_set_ne (by omega), hget, hright]
    by_cases hend : j < pos + 1 + ((a.length : ℤ) - pos).toNat
    · rw [if_pos ⟨by omega, hend⟩, List.getElem?_append_left (by omega)]
    · rw [if_neg (by omega), List.getElem?_eq_none (by simp; omega),
        List.getElem?_eq_none (by omega)]

theorem insert?_eq_none {a : List α} {pos : ℤ} (h : (a.length : ℤ) < pos) (x : α) :
    insert? a pos x = none := by
  unfold insert?
  rw [Int.toNat_eq_zero.mpr (by omega), assign, Option.bind_some, set?_eq_none_iff]
  right
  rw [List.length_append]
  simp
  omega

/-- Insert the given values one after the other, each behind the one before. -/
def insertAll? (a : List α) (pos : ℤ) : List α → Option (List α)
  | [] => some a
  | x :: xs => (insert? a pos x).bind fun a => insertAll? a (pos + 1) xs

theorem insertAll?_eq {a : List α} {pos : ℕ} (h : pos ≤ a.length) (xs : List α) :
    insertAll? a pos xs = some (a.take pos ++ xs ++ a.drop pos) := by
  induction xs generalizing a pos with
  | nil => simp [insertAll?]
  | cons x xs ih =>
    have htake : (a.take pos).length = pos := List.length_take_of_le h
    have hrec := @ih (a.take pos ++ x :: a.drop pos) (pos + 1)
      (by rw [List.length_append, List.length_cons, htake]; omega)
    rw [List.append_cons, List.take_left' (by simp [htake]), List.drop_left' (by simp [htake])] at hrec
    push_cast at hrec
    unfold insertAll?
    rw [insert?_eq h, Option.bind_some, List.append_cons, hrec]
    simp

theorem insertAll?_eq_none {a : List α} {pos : ℤ} (h : (a.length : ℤ) < pos) (x : α) (xs : List α) :
    insertAll? a pos (x :: xs) = none := by
  unfold insertAll?
  rw [insert?_eq_none h, Option.bind_none]

/-- Remove `k` cells from `start` on: a shift down, and the array is cut. -/
def remove? (a : List α) (start k : ℤ) : Option (List α) :=
  (assign (fun i => i) (fun i => i + k) 1 (a.length - k - start).toNat start a).map fun a' =>
    a'.take (a.length - k).toNat

theorem remove?_eq {a : List α} {start k : ℕ} (h : start + k ≤ a.length) :
    remove? a start k = some (a.take start ++ a.drop (start + k)) := by
  obtain ⟨a', ha', hlen, hget⟩ := assign_down (a := a) (fun i => i) (fun i => i + k) (k := k)
    (s := start) (fun _ => rfl) (fun _ => rfl) ((a.length : ℤ) - k - start).toNat (by omega)
  unfold remove?
  rw [ha', Option.map_some]
  congr 1
  have htake : (a.take start).length = start := List.length_take_of_le (by omega)
  refine List.ext_getElem? fun j => ?_
  rw [List.getElem?_take]
  rcases lt_or_ge j start with hj | hj
  · rw [if_pos (by omega), hget, if_neg (by omega), List.getElem?_append_left (by omega),
      List.getElem?_take_of_lt hj]
  · rw [List.getElem?_append_right (by omega), htake, List.getElem?_drop]
    split_ifs with hlt
    · rw [hget, if_pos (by omega)]
      congr 1
      omega
    · rw [List.getElem?_eq_none (by omega)]

/-- A loop that reaches a cell it cannot write ends there. -/
theorem assign_eq_none {dst src : ℤ → ℤ} {step : ℤ} {n : ℕ} {i : ℤ} {a : List α} {m : ℕ} (hm : m < n)
    (hbad : dst (i + m * step) < 0 ∨ (a.length : ℤ) ≤ dst (i + m * step)) :
    assign dst src step n i a = none := by
  induction n generalizing i a m with
  | zero => omega
  | succ n ih =>
    unfold assign
    cases hx : get? a (src i) with
    | none => rfl
    | some x =>
      rw [Option.bind_some]
      cases m with
      | zero =>
        rw [set?_eq_none_iff.mpr (by simpa using hbad), Option.bind_none]
      | succ m =>
        cases hset : set? a (dst i) x with
        | none => rfl
        | some a' =>
          rw [Option.bind_some]
          refine ih (m := m) (by omega) ?_
          rw [length_of_set? hset, show i + step + m * step = i + (m + 1 : ℕ) * step by push_cast; ring]
          exact hbad

/-- A negative count makes the shift write past the end. -/
theorem remove?_eq_none {a : List α} {start : ℕ} {k : ℤ} (hk : k < 0) (hs : start ≤ a.length) :
    remove? a start k = none := by
  unfold remove?
  rw [assign_eq_none (m := a.length - start) (by omega) (by omega), Option.map_none]

end Cells
