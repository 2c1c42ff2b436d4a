import Mathlib

/-! Input that is taken in blocks of a fixed size: a buffer that is emptied whenever it is full leads to the state
that the blocks of the whole input lead to, and an input that ends with its own length collides with another one only
where a step does. -/
namespace Blocks

variable {α β σ : Type}

/-- The whole blocks of a list -/
def whole (n : ℕ) (l : List α) : List (List α) := (List.range (l.length / n)).map fun i => (l.drop (n * i)).take n

/-- What is behind the whole blocks -/
def rest (n : ℕ) (l : List α) : List α := l.drop (n * (l.length / n))

/-- A buffer that is not full, and the state after the blocks before it -/
structure Buffer (α σ : Type) where
  pending : List α
  state : σ

/-- One more element; a full buffer is taken as a block. -/
def Buffer.push (n : ℕ) (f : σ → List α → σ) (b : Buffer α σ) (a : α) : Buffer α σ :=
  if (b.pending ++ [a]).length = n then ⟨[], f b.state (b.pending ++ [a])⟩ else { b with pending := b.pending ++ [a] }

theorem length_rest {n : ℕ} (l : List α) : (rest n l).length = l.length % n := by
  rw [rest, List.length_drop, Nat.mod_eq_sub_mul_div]

theorem length_of_mem_whole {n : ℕ} {l b : List α} (h : b ∈ whole n l) : b.length = n := by
  obtain ⟨i, hi, rfl⟩ := List.mem_map.mp h
  have hle : n * (i + 1) ≤ l.length :=
    (Nat.mul_le_mul_left n (List.mem_range.mp hi)).trans (Nat.mul_div_le l.length n)
  rw [List.length_take, List.length_drop]
  rw [Nat.mul_add, Nat.mul_one] at hle
  omega

theorem whole_of_short {n : ℕ} {l : List α} (h : l.length < n) : whole n l = [] := by
  rw [whole, Nat.div_eq_of_lt h]
  rfl

theorem rest_of_short {n : ℕ} {l : List α} (h : l.length < n) : rest n l = l := by
  rw [rest, Nat.div_eq_of_lt h, Nat.mul_zero, List.drop_zero]

/-- The first block and those behind it -/
theorem whole_append_block {n : ℕ} (hn : 0 < n) {b : List α} (hb : b.length = n) (l : List α) :
    whole n (b ++ l) = b :: whole n l := by
  subst hb
  have hlength : (b ++ l).length / b.length = l.length / b.length + 1 := by
    rw [List.length_append, Nat.add_div_left _ hn]
  rw [whole, hlength, List.range_succ_eq_map, List.map_cons, List.map_map]
  congr 1
  · rw [Nat.mul_zero, List.drop_zero, List.take_left]
  · refine List.map_congr_left fun i _ => ?_
    rw [Function.comp_apply, Nat.succ_eq_add_one, Nat.mul_add, Nat.mul_one, Nat.add_comm, ← List.drop_drop, List.drop_left]

theorem rest_append_block {n : ℕ} (hn : 0 < n) {b : List α} (hb : b.length = n) (l : List α) :
    rest n (b ++ l) = rest n l := by
  subst hb
  rw [rest, List.length_append, Nat.add_div_left _ hn, Nat.mul_add, Nat.mul_one, Nat.add_comm, ← List.drop_drop,
    List.drop_left, rest]

theorem whole_block {n : ℕ} (hn : 0 < n) {b : List α} (hb : b.length = n) : whole n b = [b] := by
  have happend := whole_append_block hn hb ([] : List α)
  rwa [List.append_nil, whole_of_short (show ([] : List α).length < n from hn)] at happend

/-- Induction from the front, block by block -/
theorem block_induction {n : ℕ} (hn : 0 < n) {P : List α → Prop} (short : ∀ l, l.length < n → P l)
    (step : ∀ b l, b.length = n → P l → P (b ++ l)) (l : List α) : P l := by
  induction hlength : l.length using Nat.strong_induction_on generalizing l with
  | _ k ih =>
    by_cases hshort : l.length < n
    · exact short l hshort
    · rw [← List.take_append_drop n l]
      refine step _ _ (by rw [List.length_take]; omega) (ih (l.drop n).length ?_ _ rfl)
      rw [List.length_drop]
      omega

theorem flatten_whole_append_rest {n : ℕ} (hn : 0 < n) (l : List α) : (whole n l).flatten ++ rest n l = l := by
  induction l using block_induction hn with
  | short l h => rw [whole_of_short h, rest_of_short h, List.flatten_nil, List.nil_append]
  | step b l hb ih => rw [whole_append_block hn hb, rest_append_block hn hb, List.flatten_cons, List.append_assoc, ih]

theorem whole_append {n : ℕ} (hn : 0 < n) (l l' : List α) : whole n (l ++ l') = whole n l ++ whole n (rest n l ++ l') := by
  induction l using block_induction hn with
  | short l h => rw [whole_of_short h, rest_of_short h, List.nil_append]
  | step b l hb ih =>
    rw [List.append_assoc, whole_append_block hn hb, ih, whole_append_block hn hb, rest_append_block hn hb,
      List.cons_append]

theorem rest_append {n : ℕ} (hn : 0 < n) (l l' : List α) : rest n (l ++ l') = rest n (rest n l ++ l') := by
  induction l using block_induction hn with
  | short l h => rw [rest_of_short h]
  | step b l hb ih => rw [List.append_assoc, rest_append_block hn hb, ih, rest_append_block hn hb]

/-- Elements pushed one after another give the state of the blocks, and what is left stays in the buffer. -/
theorem foldl_push {n : ℕ} (hn : 0 < n) (f : σ → List α → σ) (l : List α) {b : Buffer α σ} (hb : b.pending.length < n) :
    l.foldl (Buffer.push n f) b = ⟨rest n (b.pending ++ l), (whole n (b.pending ++ l)).foldl f b.state⟩ := by
  induction l generalizing b with
  | nil =>
    rw [List.append_nil, whole_of_short hb, rest_of_short hb]
    rfl
  | cons a l ih =>
    have happend : b.pending ++ a :: l = b.pending ++ [a] ++ l := by rw [List.append_assoc, List.singleton_append]
    rw [List.foldl_cons, happend]
    by_cases hfull : (b.pending ++ [a]).length = n
    · have hpush : b.push n f a = ⟨[], f b.state (b.pending ++ [a])⟩ := if_pos hfull
      rw [hpush, ih (show ([] : List α).length < n from hn), whole_append_block hn hfull, rest_append_block hn hfull]
      rfl
    · have hpush : b.push n f a = { b with pending := b.pending ++ [a] } := if_neg hfull
      have hlength : (b.pending ++ [a]).length = b.pending.length + 1 := by simp
      rw [hpush, ih (show (b.pending ++ [a]).length < n by omega)]

/-! ## Collisions -/

/-- Two different arguments with one result -/
def Collides (f : σ → β → σ) : Prop := ∃ s b s' b', (s, b) ≠ (s', b') ∧ f s b = f s' b'

theorem collides_of_ne {f : σ → β → σ} {s s' : σ} {b b' : β} (h : f s b = f s' b') (hne : s = s' → b ≠ b') :
    Collides f :=
  ⟨s, b, s', b', fun heq => hne (Prod.ext_iff.mp heq).1 (Prod.ext_iff.mp heq).2, h⟩

/-- As many blocks that lead from one state to one state are the same, or a step collides. -/
theorem collides_of_foldl {f : σ → β → σ} {xs ys : List β} (hlength : xs.length = ys.length) {s s' : σ}
    (h : xs.foldl f s = ys.foldl f s') : (s = s' ∧ xs = ys) ∨ Collides f := by
  induction xs generalizing ys s s' with
  | nil =>
    obtain rfl := List.eq_nil_of_length_eq_zero hlength.symm
    exact .inl ⟨h, rfl⟩
  | cons x xs ih =>
    cases ys with
    | nil => cases hlength
    | cons y ys =>
      rcases ih (Nat.succ.inj hlength) h with ⟨hstep, rfl⟩ | hcollides
      · by_cases hsame : s = s' ∧ x = y
        · obtain ⟨rfl, rfl⟩ := hsame
          exact .inl ⟨rfl, rfl⟩
        · exact .inr (collides_of_ne hstep fun hs hx => hsame ⟨hs, hx⟩)
      · exact .inr hcollides

/-- Rows of blocks whose last blocks differ where their numbers do: they are the same, or a step collides. -/
theorem eq_or_collides {f : σ → β → σ} {xs ys : List β} {x y : β} {s : σ} (hlast : x = y → xs.length = ys.length)
    (h : (xs ++ [x]).foldl f s = (ys ++ [y]).foldl f s) : xs ++ [x] = ys ++ [y] ∨ Collides f := by
  by_cases hxy : x = y
  · have hlength : (xs ++ [x]).length = (ys ++ [y]).length := by
      rw [List.length_append, List.length_append, hlast hxy]
      rfl
    exact (collides_of_foldl hlength h).imp And.right id
  · rw [List.foldl_append, List.foldl_append] at h
    exact .inr (collides_of_ne h fun _ => hxy)

end Blocks
