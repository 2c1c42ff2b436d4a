import Mathlib

/-! A linear feedback shift register that takes a row of bits: a table for several bits at once gives the same states,
and no two rows that differ in a burst as long as the register lead to one state. -/
namespace ShiftRegister

variable {w : ℕ} (g : BitVec w)

/-- One step: the lowest bit goes out, and where it is set the taps are inverted. -/
def shift (c : BitVec w) : BitVec w := if c.getLsbD 0 then c >>> 1 ^^^ g else c >>> 1

/-- A bit in the lowest place -/
def bit (w : ℕ) (b : Bool) : BitVec w := if b then 1#w else 0#w

/-- The state after these bits -/
def feed (c : BitVec w) (bits : List Bool) : BitVec w := bits.foldl (fun c b => shift g (c ^^^ bit w b)) c

/-- Bits from the lowest place on -/
def word (w : ℕ) : List Bool → BitVec w
  | [] => 0#w
  | b :: bits => bit w b ^^^ word w bits <<< 1

variable {g}

theorem shift_of_odd {c : BitVec w} (h : c.getLsbD 0 = true) : shift g c = c >>> 1 ^^^ g := if_pos h

theorem shift_of_even {c : BitVec w} (h : c.getLsbD 0 = false) : shift g c = c >>> 1 := if_neg (by simp [h])

theorem shift_zero : shift g 0#w = 0#w := by
  rw [shift_of_even (by simp)]
  simp

theorem shift_xor (a b : BitVec w) : shift g (a ^^^ b) = shift g a ^^^ shift g b := by
  have hlow : (a ^^^ b).getLsbD 0 = (a.getLsbD 0 ^^ b.getLsbD 0) := BitVec.getLsbD_xor
  cases ha : a.getLsbD 0 <;> cases hb : b.getLsbD 0 <;> rw [ha, hb] at hlow
  · rw [shift_of_even hlow, shift_of_even ha, shift_of_even hb, BitVec.ushiftRight_xor_distrib]
  · rw [shift_of_odd hlow, shift_of_even ha, shift_of_odd hb, BitVec.ushiftRight_xor_distrib, BitVec.xor_assoc]
  · rw [shift_of_odd hlow, shift_of_odd ha, shift_of_even hb, BitVec.ushiftRight_xor_distrib, BitVec.xor_assoc,
      BitVec.xor_assoc, BitVec.xor_comm g]
  · rw [shift_of_even hlow, shift_of_odd ha, shift_of_odd hb, BitVec.ushiftRight_xor_distrib, BitVec.xor_comm (b >>> 1),
      BitVec.xor_assoc, ← BitVec.xor_assoc g, BitVec.xor_self, BitVec.zero_xor]

/-- Where the highest tap is set, the bit that went out can be read off it. -/
theorem shift_eq_zero (hg : g.msb = true) {c : BitVec w} (h : shift g c = 0#w) : c = 0#w := by
  have hw : 0 < w := by
    by_contra hw
    obtain rfl : w = 0 := by omega
    rw [show g = 0#0 from BitVec.of_length_zero] at hg
    cases hg
  cases hlow : c.getLsbD 0 with
  | true =>
    rw [shift_of_odd hlow] at h
    have hmsb := congrArg BitVec.msb h
    rw [BitVec.msb_xor, hg, BitVec.msb_ushiftRight] at hmsb
    simp at hmsb
  | false =>
    rw [shift_of_even hlow] at h
    refine BitVec.eq_of_getLsbD_eq fun i hi => ?_
    cases i with
    | zero => rw [hlow, BitVec.getLsbD_zero]
    | succ i =>
      have hbit := congrArg (fun c : BitVec w => c.getLsbD i) h
      simpa [Nat.add_comm] using hbit

theorem shift_injective (hg : g.msb = true) : Function.Injective (shift g) := by
  intro a b h
  have hxor : shift g (a ^^^ b) = 0#w := by rw [shift_xor, h, BitVec.xor_self]
  exact BitVec.xor_eq_zero_iff.mp (shift_eq_zero hg hxor)

theorem iterate_shift_xor (n : ℕ) (a b : BitVec w) : (shift g)^[n] (a ^^^ b) = (shift g)^[n] a ^^^ (shift g)^[n] b := by
  induction n generalizing a b with
  | zero => rfl
  | succ n ih => rw [Function.iterate_succ_apply, Function.iterate_succ_apply, Function.iterate_succ_apply, shift_xor, ih]

/-- Low bits that are clear go out without a trace. -/
theorem iterate_shift_of_clear {n : ℕ} {c : BitVec w} (h : ∀ i < n, c.getLsbD i = false) : (shift g)^[n] c = c >>> n := by
  induction n generalizing c with
  | zero => simp
  | succ n ih =>
    rw [Function.iterate_succ_apply, shift_of_even (h 0 (by omega)), ih fun i hi => ?_, ← BitVec.shiftRight_add,
      Nat.add_comm]
    rw [BitVec.getLsbD_ushiftRight, Nat.add_comm]
    exact h (i + 1) (by omega)

/-- The table: what `n` steps make of the `n` lowest bits, and the other bits moved down -/
theorem iterate_shift_table {n : ℕ} (x m : BitVec w) (hm : ∀ i, m.getLsbD i = (decide (i < n) && decide (i < w))) :
    (shift g)^[n] x = (shift g)^[n] (x &&& m) ^^^ x >>> n := by
  have hsplit : x = (x &&& m) ^^^ (x &&& ~~~m) := by
    ext i
    simp only [BitVec.getElem_xor, BitVec.getElem_and, BitVec.getElem_not]
    generalize x[i] = a, m[i] = b
    cases a <;> cases b <;> rfl
  have hhigh : (shift g)^[n] (x &&& ~~~m) = x >>> n := by
    rw [iterate_shift_of_clear fun i hi => ?_]
    · refine BitVec.eq_of_getLsbD_eq fun i hi => ?_
      simp only [BitVec.getLsbD_ushiftRight, BitVec.getLsbD_and, BitVec.getLsbD_not, hm]
      by_cases hlt : n + i < w
      · simp [hlt]
      · simp [hlt, BitVec.getLsbD_of_ge x (n + i) (by omega)]
    · simp only [BitVec.getLsbD_and, BitVec.getLsbD_not, hm, hi]
      by_cases hlt : i < w <;> simp [hlt]
  conv_lhs => rw [hsplit]
  rw [iterate_shift_xor, hhigh]

/-! ## Rows of bits -/

theorem feed_append (c : BitVec w) (bits bits' : List Bool) : feed g c (bits ++ bits') = feed g (feed g c bits) bits' :=
  List.foldl_append

theorem feed_injective (hg : g.msb = true) (bits : List Bool) : Function.Injective fun c => feed g c bits := by
  induction bits with
  | nil => exact fun a b h => h
  | cons b bits ih => exact fun a c h => (BitVec.xor_left_inj _).mp (shift_injective hg (ih h))

theorem getLsbD_bit (hw : 0 < w) (b : Bool) (i : ℕ) : (bit w b).getLsbD i = (b && decide (i = 0)) := by
  cases b
  · simp [bit]
  · simp [bit, BitVec.getLsbD_one, hw]

/-- The places of a word are its bits. -/
theorem getLsbD_word {bits : List Bool} (hw : bits.length ≤ w) (i : ℕ) : (word w bits).getLsbD i = bits.getD i false := by
  induction bits generalizing i with
  | nil => simp [word]
  | cons b bits ih =>
    have hpos : 0 < w := lt_of_lt_of_le (Nat.succ_pos _) hw
    have hbits : bits.length ≤ w := le_trans (Nat.le_succ _) hw
    rw [word, BitVec.getLsbD_xor, getLsbD_bit hpos, BitVec.getLsbD_shiftLeft, ih hbits]
    cases i with
    | zero => simp
    | succ i =>
      simp only [List.getD_cons_succ, Nat.add_sub_cancel, Nat.succ_ne_zero, decide_false, Bool.and_false, Bool.false_xor]
      by_cases hi : i < bits.length
      · have hlt : i + 1 < w := lt_of_lt_of_le (Nat.succ_lt_succ hi) hw
        simp [hlt]
      · rw [List.getD_eq_default _ _ (by omega), Bool.and_false]

theorem word_injective {bits bits' : List Bool} (hw : bits.length ≤ w) (hlength : bits.length = bits'.length)
    (h : word w bits = word w bits') : bits = bits' := by
  refine List.ext_getElem hlength fun i hi hi' => ?_
  have hbit := congrArg (fun c : BitVec w => c.getLsbD i) h
  simp only [getLsbD_word hw, getLsbD_word (hlength ▸ hw)] at hbit
  rwa [List.getD_eq_getElem _ _ hi, List.getD_eq_getElem _ _ hi'] at hbit

/-- As many bits as the register has places can be put into it at once. -/
theorem feed_eq_iterate {bits : List Bool} (hw : bits.length ≤ w) (c : BitVec w) :
    feed g c bits = (shift g)^[bits.length] (c ^^^ word w bits) := by
  induction bits generalizing c with
  | nil => simp [feed, word]
  | cons b bits ih =>
    have hbits : bits.length ≤ w := le_trans (Nat.le_succ _) hw
    have hup : shift g (word w bits <<< 1) = word w bits := by
      rw [shift_of_even (by simp)]
      refine BitVec.eq_of_getLsbD_eq fun i hi => ?_
      rw [BitVec.getLsbD_ushiftRight, BitVec.getLsbD_shiftLeft, getLsbD_word hbits, getLsbD_word hbits,
        Nat.add_sub_cancel_left]
      by_cases hlt : 1 + i < w
      · simp [hlt, show ¬1 + i < 1 by omega]
      · rw [List.getD_eq_default _ _ (by rw [List.length_cons] at hw; omega), Bool.and_false]
    have hstep : feed g c (b :: bits) = feed g (shift g (c ^^^ bit w b)) bits := rfl
    rw [hstep, ih hbits, List.length_cons, Function.iterate_succ_apply, word, ← BitVec.xor_assoc, shift_xor (c ^^^ bit w b),
      hup]

/-- No burst of at most as many bits as the register has places goes unseen, whatever stands before and behind it. -/
theorem feed_burst (hg : g.msb = true) {pre bits bits' post : List Bool} (hw : bits.length ≤ w)
    (hlength : bits.length = bits'.length) {c : BitVec w}
    (h : feed g c (pre ++ (bits ++ post)) = feed g c (pre ++ (bits' ++ post))) : bits = bits' := by
  rw [feed_append, feed_append, feed_append, feed_append] at h
  have hburst := feed_injective hg post h
  have hw' : bits'.length ≤ w := hlength ▸ hw
  rw [feed_eq_iterate hw, feed_eq_iterate hw', hlength] at hburst
  exact word_injective hw hlength ((BitVec.xor_right_inj _).mp ((shift_injective hg).iterate _ hburst))

end ShiftRegister
