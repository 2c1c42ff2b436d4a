import ValidcTools.Chgenc.RoundTrip
import ValidcTools.Lib.PrefixCode

/-! What `checkenc` takes for UTF-8, beside the sequences of RFC 3629 and what `chgenc` reads. -/
namespace ValidcTools.Checkenc

open ValidcTools.Chgenc PrefixCode Computability

/-- `is_valid_utf8` -/
def isValidUtf8 : List Byte → Bool
  | [] => true
  | c :: s =>
    if c < 0x80 then isValidUtf8 s
    else if c &&& 0xE0 = 0xC0 then
      if c < 0xC2 then false
      else
        match s with
        | c1 :: s => if isContinuation c1 = false then false else isValidUtf8 s
        | _ => false
    else if c &&& 0xF0 = 0xE0 then
      match s with
      | c1 :: c2 :: s =>
        if isContinuation c1 = false ∨ isContinuation c2 = false then false
        else if c = 0xE0 ∧ c1 &&& 0xE0 ≠ 0xA0 then false
        else if c = 0xED ∧ c1 &&& 0xE0 = 0xA0 then false
        else isValidUtf8 s
      | _ => false
    else if c &&& 0xF8 = 0xF0 then
      if c > 0xF4 then false
      else
        match s with
        | c1 :: c2 :: c3 :: s =>
          if isContinuation c1 = false ∨ isContinuation c2 = false ∨ isContinuation c3 = false then false
          else if c = 0xF0 ∧ c1 &&& 0xF0 ≠ 0x90 then false
          else if c = 0xF4 ∧ c1 &&& 0xF0 = 0xB0 then false
          else isValidUtf8 s
        | _ => false
    else false

/-! ## The sequences -/

def IsTail (b : Byte) : Prop := 0x80 ≤ b ∧ b ≤ 0xBF

/-- The sequences of RFC 3629, one constructor for each row of its table. -/
inductive WellFormed : List Byte → Prop
  | one {a : Byte} : a ≤ 0x7F → WellFormed [a]
  | two {a b : Byte} : 0xC2 ≤ a → a ≤ 0xDF → IsTail b → WellFormed [a, b]
  | e0 {b c : Byte} : 0xA0 ≤ b → b ≤ 0xBF → IsTail c → WellFormed [0xE0, b, c]
  | e1ToEc {a b c : Byte} : 0xE1 ≤ a → a ≤ 0xEC → IsTail b → IsTail c → WellFormed [a, b, c]
  | ed {b c : Byte} : 0x80 ≤ b → b ≤ 0x9F → IsTail c → WellFormed [0xED, b, c]
  | eeToEf {a b c : Byte} : 0xEE ≤ a → a ≤ 0xEF → IsTail b → IsTail c → WellFormed [a, b, c]
  | f0 {b c d : Byte} : 0x90 ≤ b → b ≤ 0xBF → IsTail c → IsTail d → WellFormed [0xF0, b, c, d]
  | f1ToF3 {a b c d : Byte} : 0xF1 ≤ a → a ≤ 0xF3 → IsTail b → IsTail c → IsTail d → WellFormed [a, b, c, d]
  | f4 {b c d : Byte} : 0x80 ≤ b → b ≤ 0x8F → IsTail c → IsTail d → WellFormed [0xF4, b, c, d]

/-- From U+20000 to U+3FFFF. -/
inductive Refused : List Byte → Prop
  | mk {b c d : Byte} : 0xA0 ≤ b → b ≤ 0xBF → IsTail c → IsTail d → Refused [0xF0, b, c, d]

/-- From 110000 to 12FFFF, above U+10FFFF. -/
inductive Beyond : List Byte → Prop
  | mk {b c d : Byte} : 0x90 ≤ b → b ≤ 0xAF → IsTail c → IsTail d → Beyond [0xF4, b, c, d]

def wellFormed : Language Byte := {w | WellFormed w}

/-- What `is_valid_utf8` takes for a sequence. -/
def accepted : Language Byte := {w | (WellFormed w ∧ ¬Refused w) ∨ Beyond w}

def sequences : Language Byte := {w | WellFormed w ∨ Beyond w}

/-- What a first byte says about the length of its sequence. -/
def width (c : Byte) : ℕ :=
  if c < 0x80 then 1 else if c &&& 0xE0 = 0xC0 then 2 else if c &&& 0xF0 = 0xE0 then 3
  else if c &&& 0xF8 = 0xF0 then 4 else 1

/-! ## Bytes -/

theorem lead_two : ∀ c : Byte, c &&& 0xE0 = 0xC0 ↔ 0xC0 ≤ c ∧ c ≤ 0xDF := forall_byte (by decide)

theorem lead_three : ∀ c : Byte, c &&& 0xF0 = 0xE0 ↔ 0xE0 ≤ c ∧ c ≤ 0xEF := forall_byte (by decide)

theorem lead_four : ∀ c : Byte, c &&& 0xF8 = 0xF0 ↔ 0xF0 ≤ c ∧ c ≤ 0xF7 := forall_byte (by decide)

theorem isContinuation_iff : ∀ b : Byte, isContinuation b = true ↔ IsTail b := by
  unfold IsTail
  exact forall_byte (by decide)

theorem and_e0_eq_a0 : ∀ b : Byte, b &&& 0xE0 = 0xA0 ↔ 0xA0 ≤ b ∧ b ≤ 0xBF := forall_byte (by decide)

theorem and_f0_eq_90 : ∀ b : Byte, b &&& 0xF0 = 0x90 ↔ 0x90 ≤ b ∧ b ≤ 0x9F := forall_byte (by decide)

theorem and_f0_eq_b0 : ∀ b : Byte, b &&& 0xF0 = 0xB0 ↔ 0xB0 ≤ b ∧ b ≤ 0xBF := forall_byte (by decide)

theorem low_bits : ∀ b : Byte, (b &&& 0x1F).toNat = b.toNat % 32 ∧ (b &&& 0x0F).toNat = b.toNat % 16 ∧
    (b &&& 0x07).toNat = b.toNat % 8 ∧ (b &&& 0x3F).toNat = b.toNat % 64 :=
  forall_byte (by decide)

/-! ## Sequences by their length -/

theorem wellFormed_one_iff (a : Byte) : WellFormed [a] ↔ a < 0x80 := by
  constructor
  · intro h
    cases h with
    | one ha => grind
  · intro h
    exact .one (by grind)

theorem wellFormed_two_iff (a b : Byte) : WellFormed [a, b] ↔ (0xC2 ≤ a ∧ a ≤ 0xDF) ∧ IsTail b := by
  constructor
  · intro h
    cases h with
    | two hlo hhi hb => exact ⟨⟨hlo, hhi⟩, hb⟩
  · rintro ⟨⟨hlo, hhi⟩, hb⟩
    exact .two hlo hhi hb

theorem wellFormed_three_iff (a b c : Byte) :
    WellFormed [a, b, c] ↔ (0xE0 ≤ a ∧ a ≤ 0xEF) ∧ (IsTail b ∧ IsTail c) ∧
      (a = 0xE0 → 0xA0 ≤ b) ∧ (a = 0xED → b ≤ 0x9F) := by
  constructor
  · intro h
    cases h with
    | e0 hlo hhi hc => unfold IsTail at *; grind
    | e1ToEc hlo hhi hb hc => unfold IsTail at *; grind
    | ed hlo hhi hc => unfold IsTail at *; grind
    | eeToEf hlo hhi hb hc => unfold IsTail at *; grind
  · rintro ⟨ha, ⟨hb, hc⟩, he0, hed⟩
    by_cases h0 : a = 0xE0
    · subst h0
      exact .e0 (he0 rfl) hb.2 hc
    by_cases hd : a = 0xED
    · subst hd
      exact .ed hb.1 (hed rfl) hc
    by_cases hlow : a ≤ 0xEC
    · exact .e1ToEc (by grind) hlow hb hc
    · exact .eeToEf (by grind) ha.2 hb hc

theorem wellFormed_four_iff (a b c d : Byte) :
    WellFormed [a, b, c, d] ↔ (0xF0 ≤ a ∧ a ≤ 0xF4) ∧ (IsTail b ∧ IsTail c ∧ IsTail d) ∧
      (a = 0xF0 → 0x90 ≤ b) ∧ (a = 0xF4 → b ≤ 0x8F) := by
  constructor
  · intro h
    cases h with
    | f0 hlo hhi hc hd => unfold IsTail at *; grind
    | f1ToF3 hlo hhi hb hc hd => unfold IsTail at *; grind
    | f4 hlo hhi hc hd => unfold IsTail at *; grind
  · rintro ⟨ha, ⟨hb, hc, hd⟩, hf0, hf4⟩
    by_cases h0 : a = 0xF0
    · subst h0
      exact .f0 (hf0 rfl) hb.2 hc hd
    by_cases h4 : a = 0xF4
    · subst h4
      exact .f4 hb.1 (hf4 rfl) hc hd
    · exact .f1ToF3 (by grind) (by grind) hb hc hd

theorem refused_iff (a b c d : Byte) :
    Refused [a, b, c, d] ↔ a = 0xF0 ∧ (0xA0 ≤ b ∧ b ≤ 0xBF) ∧ IsTail c ∧ IsTail d := by
  constructor
  · intro h
    cases h with
    | mk hlo hhi hc hd => exact ⟨rfl, ⟨hlo, hhi⟩, hc, hd⟩
  · rintro ⟨rfl, hb, hc, hd⟩
    exact .mk hb.1 hb.2 hc hd

theorem beyond_iff (a b c d : Byte) :
    Beyond [a, b, c, d] ↔ a = 0xF4 ∧ (0x90 ≤ b ∧ b ≤ 0xAF) ∧ IsTail c ∧ IsTail d := by
  constructor
  · intro h
    cases h with
    | mk hlo hhi hc hd => exact ⟨rfl, ⟨hlo, hhi⟩, hc, hd⟩
  · rintro ⟨rfl, hb, hc, hd⟩
    exact .mk hb.1 hb.2 hc hd

theorem mem_accepted_four_iff (a b c d : Byte) :
    [a, b, c, d] ∈ accepted ↔ (0xF0 ≤ a ∧ a ≤ 0xF4) ∧ (IsTail b ∧ IsTail c ∧ IsTail d) ∧
      (a = 0xF0 → b &&& 0xF0 = 0x90) ∧ (a = 0xF4 → b &&& 0xF0 ≠ 0xB0) := by
  have hmem : [a, b, c, d] ∈ accepted ↔
      (WellFormed [a, b, c, d] ∧ ¬Refused [a, b, c, d]) ∨ Beyond [a, b, c, d] := Iff.rfl
  rw [hmem, wellFormed_four_iff, refused_iff, beyond_iff, Ne, and_f0_eq_90, and_f0_eq_b0]
  by_cases h0 : a = 0xF0
  · subst h0
    have hne : ¬(0xF0 : Byte) = 0xF4 := by decide
    simp only [hne, false_and, or_false, true_and, IsTail, false_implies, true_implies, and_true]
    grind
  by_cases h4 : a = 0xF4
  · subst h4
    simp only [h0, false_and, not_false_eq_true, true_and, IsTail, false_implies, true_implies, and_true]
    grind
  · simp only [h0, h4, false_and, not_false_eq_true, and_true, or_false, false_implies]

theorem width_of_wellFormed {w : List Byte} (h : WellFormed w ∨ Beyond w) :
    ∃ a v, w = a :: v ∧ w.length = width a := by
  unfold width
  simp only [lead_two, lead_three, lead_four]
  rcases h with h | h
  · cases h <;> refine ⟨_, _, rfl, ?_⟩ <;> simp only [List.length_cons, List.length_nil] <;> grind
  · cases h with
    | mk hlo hhi hc hd => exact ⟨_, _, rfl, rfl⟩

theorem byHead_sequences : ByHead width sequences := fun _ hw => width_of_wellFormed hw

theorem accepted_le : accepted ≤ sequences := fun _ hw => Or.imp_left And.left hw

theorem wellFormed_le : wellFormed ≤ sequences := fun _ hw => Or.inl hw

theorem byHead_accepted : ByHead width accepted := byHead_sequences.mono accepted_le

theorem byHead_wellFormed : ByHead width wellFormed := byHead_sequences.mono wellFormed_le

theorem width_one {c : Byte} (h : c < 0x80) : width c = 1 := if_pos h

theorem width_two {c : Byte} (h0 : ¬c < 0x80) (h1 : c &&& 0xE0 = 0xC0) : width c = 2 :=
  (if_neg h0).trans (if_pos h1)

theorem width_three {c : Byte} (h0 : ¬c < 0x80) (h1 : ¬c &&& 0xE0 = 0xC0) (h2 : c &&& 0xF0 = 0xE0) : width c = 3 :=
  (if_neg h0).trans ((if_neg h1).trans (if_pos h2))

theorem width_four {c : Byte} (h0 : ¬c < 0x80) (h1 : ¬c &&& 0xE0 = 0xC0) (h2 : ¬c &&& 0xF0 = 0xE0)
    (h3 : c &&& 0xF8 = 0xF0) : width c = 4 :=
  (if_neg h0).trans ((if_neg h1).trans ((if_neg h2).trans (if_pos h3)))

section

variable {A : Language Byte} (hA : ByHead width A) {c : Byte}

include hA

theorem one_mem_kstar_iff (hc : width c = 1) (s : List Byte) : c :: s ∈ A∗ ↔ [c] ∈ A ∧ s ∈ A∗ := by
  rw [hA.cons_mem_kstar_iff, hc]
  rfl

theorem two_mem_kstar_iff (hc : width c = 2) (c1 : Byte) (s : List Byte) :
    c :: c1 :: s ∈ A∗ ↔ [c, c1] ∈ A ∧ s ∈ A∗ := by
  rw [hA.cons_mem_kstar_iff, hc]
  rfl

theorem three_mem_kstar_iff (hc : width c = 3) (c1 c2 : Byte) (s : List Byte) :
    c :: c1 :: c2 :: s ∈ A∗ ↔ [c, c1, c2] ∈ A ∧ s ∈ A∗ := by
  rw [hA.cons_mem_kstar_iff, hc]
  rfl

theorem four_mem_kstar_iff (hc : width c = 4) (c1 c2 c3 : Byte) (s : List Byte) :
    c :: c1 :: c2 :: c3 :: s ∈ A∗ ↔ [c, c1, c2, c3] ∈ A ∧ s ∈ A∗ := by
  rw [hA.cons_mem_kstar_iff, hc]
  rfl

end

theorem mem_accepted_of_not_four {w : List Byte} (h : w.length ≠ 4) : w ∈ accepted ↔ WellFormed w := by
  have hmem : w ∈ accepted ↔ (WellFormed w ∧ ¬Refused w) ∨ Beyond w := Iff.rfl
  have hrefused : ¬Refused w := by
    intro hw
    cases hw
    exact h rfl
  have hbeyond : ¬Beyond w := by
    intro hw
    cases hw
    exact h rfl
  rw [hmem]
  simp only [hrefused, hbeyond, not_false_eq_true, and_true, or_false]

theorem notMem_of_no_lead {A : Language Byte} (hA : A ≤ sequences) {c : Byte}
    (h0 : ¬c < 0x80) (h1 : ¬c &&& 0xE0 = 0xC0) (h2 : ¬c &&& 0xF0 = 0xE0) (h3 : ¬c &&& 0xF8 = 0xF0) : [c] ∉ A := by
  intro hmem
  cases hA hmem with
  | inl h => exact h0 ((wellFormed_one_iff c).mp h)
  | inr h => cases h

/-- The tests of the second byte of three bytes are those of the table. -/
theorem three_tests_iff {c c1 : Byte} (h1 : IsTail c1) :
    (¬(c = 0xE0 ∧ c1 &&& 0xE0 ≠ 0xA0) ∧ ¬(c = 0xED ∧ c1 &&& 0xE0 = 0xA0)) ↔
      (c = 0xE0 → 0xA0 ≤ c1) ∧ (c = 0xED → c1 ≤ 0x9F) := by
  unfold IsTail at h1
  rw [Ne, and_e0_eq_a0]
  grind

theorem isValidUtf8_iff (s : List Byte) : isValidUtf8 s = true ↔ s ∈ accepted∗ := by
  induction s using decodeUtf8.induct with
  | case1 => exact iff_of_true rfl (Language.nil_mem_kstar accepted)
  | case2 c s h0 ih =>
    rw [one_mem_kstar_iff byHead_accepted (width_one h0), mem_accepted_of_not_four (by simp),
      wellFormed_one_iff, ← ih]
    conv_lhs => unfold isValidUtf8
    rw [if_pos h0]
    simp only [h0, true_and]
  | case3 c h0 h1 c1 s ih =>
    rw [two_mem_kstar_iff byHead_accepted (width_two h0 h1), mem_accepted_of_not_four (by simp),
      wellFormed_two_iff, ← isContinuation_iff, ← ih]
    conv_lhs => unfold isValidUtf8
    rw [if_neg h0, if_pos h1]
    rw [lead_two] at h1
    grind
  | case4 c s h0 h1 hshort =>
    cases s with
    | cons c1 s => exact (hshort c1 s rfl).elim
    | nil =>
      refine iff_of_false ?_ (byHead_accepted.not_mem_kstar_of_short (by simp [width_two h0 h1]))
      simp [isValidUtf8, h0, h1]
  | case5 c h0 h1 h2 c1 c2 s ih =>
    rw [three_mem_kstar_iff byHead_accepted (width_three h0 h1 h2), mem_accepted_of_not_four (by simp),
      wellFormed_three_iff, ← isContinuation_iff, ← isContinuation_iff, ← ih]
    conv_lhs => unfold isValidUtf8
    rw [if_neg h0, if_neg h1, if_pos h2]
    rw [lead_three] at h2
    by_cases htail : isContinuation c1 = true ∧ isContinuation c2 = true
    · have htests := three_tests_iff (c := c) ((isContinuation_iff c1).mp htail.1)
      rw [← htests]
      grind
    · grind
  | case6 c s h0 h1 h2 hshort =>
    have hwidth := width_three h0 h1 h2
    cases s with
    | nil =>
      refine iff_of_false ?_ (byHead_accepted.not_mem_kstar_of_short (by simp [hwidth]))
      simp [isValidUtf8, h0, h1, h2]
    | cons c1 s =>
      cases s with
      | cons c2 s => exact (hshort c1 c2 s rfl).elim
      | nil =>
        refine iff_of_false ?_ (byHead_accepted.not_mem_kstar_of_short (by simp [hwidth]))
        simp [isValidUtf8, h0, h1, h2]
  | case7 c h0 h1 h2 h3 c1 c2 c3 s ih =>
    rw [four_mem_kstar_iff byHead_accepted (width_four h0 h1 h2 h3), mem_accepted_four_iff,
      ← isContinuation_iff, ← isContinuation_iff, ← isContinuation_iff, ← ih]
    conv_lhs => unfold isValidUtf8
    rw [if_neg h0, if_neg h1, if_neg h2, if_pos h3]
    rw [lead_four] at h3
    grind
  | case8 c s h0 h1 h2 h3 hshort =>
    have hwidth := width_four h0 h1 h2 h3
    cases s with
    | nil =>
      refine iff_of_false ?_ (byHead_accepted.not_mem_kstar_of_short (by simp [hwidth]))
      simp [isValidUtf8, h0, h1, h2, h3]
    | cons c1 s =>
      cases s with
      | nil =>
        refine iff_of_false ?_ (byHead_accepted.not_mem_kstar_of_short (by simp [hwidth]))
        simp [isValidUtf8, h0, h1, h2, h3]
      | cons c2 s =>
        cases s with
        | cons c3 s => exact (hshort c1 c2 c3 s rfl).elim
        | nil =>
          refine iff_of_false ?_ (byHead_accepted.not_mem_kstar_of_short (by simp [hwidth]))
          simp [isValidUtf8, h0, h1, h2, h3]
  | case9 c s h0 h1 h2 h3 ih =>
    have hone : width c = 1 := (if_neg h0).trans ((if_neg h1).trans ((if_neg h2).trans (if_neg h3)))
    rw [one_mem_kstar_iff byHead_accepted hone]
    refine iff_of_false ?_ fun h => notMem_of_no_lead accepted_le h0 h1 h2 h3 h.1
    unfold isValidUtf8
    rw [if_neg h0, if_neg h1, if_neg h2, if_neg h3]
    exact Bool.false_ne_true

/-! ## The decoder -/

theorem ite_none_ne_none_iff {p : Prop} [Decidable p] (cp : ℕ) :
    (if p then (none : Pushed) else some cp) ≠ none ↔ ¬p := by
  split_ifs with h <;> simp [h]

theorem three_range {x y z : ℕ} (hx : x < 16) (hy : y < 64) (hz : z < 64) :
    ¬((x * 2 ^ 6 + y) * 2 ^ 6 + z < 0x800 ∨
      (0xD800 ≤ (x * 2 ^ 6 + y) * 2 ^ 6 + z ∧ (x * 2 ^ 6 + y) * 2 ^ 6 + z ≤ 0xDFFF)) ↔
      (x = 0 → 0x20 ≤ y) ∧ (x = 13 → y < 0x20) := by
  generalize hcp : (x * 2 ^ 6 + y) * 2 ^ 6 + z = cp
  constructor
  · intro h
    constructor
    · intro h0
      omega
    · intro h13
      omega
  · rintro ⟨h0, h13⟩ (hlow | hsurrogate)
    · omega
    · have hx13 : x = 13 := by omega
      have hy := h13 hx13
      omega

theorem four_range {x y z t : ℕ} (hy : y < 64) (hz : z < 64) (ht : t < 64) :
    ¬(((x * 2 ^ 6 + y) * 2 ^ 6 + z) * 2 ^ 6 + t < 0x10000 ∨
      ((x * 2 ^ 6 + y) * 2 ^ 6 + z) * 2 ^ 6 + t > 0x10FFFF) ↔
      x ≤ 4 ∧ (x = 0 → 0x10 ≤ y) ∧ (x = 4 → y < 0x10) := by
  generalize hcp : ((x * 2 ^ 6 + y) * 2 ^ 6 + z) * 2 ^ 6 + t = cp
  constructor
  · intro h
    refine ⟨by omega, fun h0 => by omega, fun h4 => by omega⟩
  · rintro ⟨hx, h0, h4⟩ (hlow | hhigh)
    · have hx0 : x = 0 := by omega
      have hy0 := h0 hx0
      omega
    · have hx4 : x = 4 := by omega
      have hy4 := h4 hx4
      omega

theorem twoBytes_ne_none_iff {c : Byte} (h1 : c &&& 0xE0 = 0xC0) (c1 : Byte) :
    twoBytes c c1 ≠ none ↔ WellFormed [c, c1] := by
  rw [wellFormed_two_iff, ← isContinuation_iff]
  have hlead : 0xC0 ≤ c.toNat ∧ c.toNat ≤ 0xDF := by
    rw [lead_two, UInt8.le_iff_toNat_le, UInt8.le_iff_toNat_le] at h1
    exact h1
  unfold twoBytes
  by_cases htail : isContinuation c1 = true
  · have hvalue : (c &&& 0x1F).toNat <<< 6 ||| (c1 &&& 0x3F).toNat = c.toNat % 32 * 2 ^ 6 + c1.toNat % 64 := by
      rw [(low_bits c).1, (low_bits c1).2.2.2, shiftLeft_or _ (mod_64_lt _)]
    simp only [htail, hvalue, Bool.true_eq_false, if_false, ite_none_ne_none_iff, and_true]
    rw [UInt8.le_iff_toNat_le, UInt8.le_iff_toNat_le]
    change _ ↔ 0xC2 ≤ c.toNat ∧ c.toNat ≤ 0xDF
    omega
  · rw [if_pos (Bool.eq_false_of_not_eq_true htail)]
    exact iff_of_false (fun h => h rfl) fun h => htail h.2

theorem threeBytes_ne_none_iff {c : Byte} (h2 : c &&& 0xF0 = 0xE0) (c1 c2 : Byte) :
    threeBytes c c1 c2 ≠ none ↔ WellFormed [c, c1, c2] := by
  rw [wellFormed_three_iff, ← isContinuation_iff, ← isContinuation_iff]
  have hlead : 0xE0 ≤ c.toNat ∧ c.toNat ≤ 0xEF := by
    rw [lead_three, UInt8.le_iff_toNat_le, UInt8.le_iff_toNat_le] at h2
    exact h2
  unfold threeBytes
  by_cases htail : isContinuation c1 = true ∧ isContinuation c2 = true
  · have hc1 : 0x80 ≤ c1.toNat ∧ c1.toNat ≤ 0xBF := by
      have h := (isContinuation_iff c1).mp htail.1
      unfold IsTail at h
      rw [UInt8.le_iff_toNat_le, UInt8.le_iff_toNat_le] at h
      exact h
    have hvalue : (c &&& 0x0F).toNat <<< 12 ||| (c1 &&& 0x3F).toNat <<< 6 ||| (c2 &&& 0x3F).toNat =
        (c.toNat % 16 * 2 ^ 6 + c1.toNat % 64) * 2 ^ 6 + c2.toNat % 64 := by
      rw [(low_bits c).2.1, (low_bits c1).2.2.2, (low_bits c2).2.2.2, three_fields _ (mod_64_lt _) (mod_64_lt _)]
    simp only [htail, hvalue, Bool.true_eq_false, or_self, if_false, ite_none_ne_none_iff, and_true]
    rw [three_range (Nat.mod_lt _ (by decide)) (mod_64_lt _) (mod_64_lt _), UInt8.le_iff_toNat_le,
      UInt8.le_iff_toNat_le, UInt8.le_iff_toNat_le, UInt8.le_iff_toNat_le, ← UInt8.toNat_inj, ← UInt8.toNat_inj]
    change _ ↔ (0xE0 ≤ c.toNat ∧ c.toNat ≤ 0xEF) ∧ True ∧ (c.toNat = 0xE0 → 0xA0 ≤ c1.toNat) ∧
      (c.toNat = 0xED → c1.toNat ≤ 0x9F)
    have he0 : c.toNat % 16 = 0 ↔ c.toNat = 0xE0 := by omega
    have hed : c.toNat % 16 = 13 ↔ c.toNat = 0xED := by omega
    have hhigh : 0x20 ≤ c1.toNat % 64 ↔ 0xA0 ≤ c1.toNat := by omega
    have hlow : c1.toNat % 64 < 0x20 ↔ c1.toNat ≤ 0x9F := by omega
    rw [he0, hed, hhigh, hlow]
    simp only [hlead, and_self, true_and]
  · have hno : isContinuation c1 = false ∨ isContinuation c2 = false := by
      grind
    rw [if_pos hno]
    exact iff_of_false (fun h => h rfl) fun h => htail h.2.1

theorem fourBytes_ne_none_iff {c : Byte} (h3 : c &&& 0xF8 = 0xF0) (c1 c2 c3 : Byte) :
    fourBytes c c1 c2 c3 ≠ none ↔ WellFormed [c, c1, c2, c3] := by
  rw [wellFormed_four_iff, ← isContinuation_iff, ← isContinuation_iff, ← isContinuation_iff]
  have hlead : 0xF0 ≤ c.toNat ∧ c.toNat ≤ 0xF7 := by
    rw [lead_four, UInt8.le_iff_toNat_le, UInt8.le_iff_toNat_le] at h3
    exact h3
  unfold fourBytes
  by_cases htail : isContinuation c1 = true ∧ isContinuation c2 = true ∧ isContinuation c3 = true
  · have hc1 : 0x80 ≤ c1.toNat ∧ c1.toNat ≤ 0xBF := by
      have h := (isContinuation_iff c1).mp htail.1
      unfold IsTail at h
      rw [UInt8.le_iff_toNat_le, UInt8.le_iff_toNat_le] at h
      exact h
    have hvalue : (c &&& 0x07).toNat <<< 18 ||| (c1 &&& 0x3F).toNat <<< 12 ||| (c2 &&& 0x3F).toNat <<< 6 |||
        (c3 &&& 0x3F).toNat =
          ((c.toNat % 8 * 2 ^ 6 + c1.toNat % 64) * 2 ^ 6 + c2.toNat % 64) * 2 ^ 6 + c3.toNat % 64 := by
      rw [(low_bits c).2.2.1, (low_bits c1).2.2.2, (low_bits c2).2.2.2, (low_bits c3).2.2.2,
        four_fields _ (mod_64_lt _) (mod_64_lt _) (mod_64_lt _)]
    simp only [htail, hvalue, Bool.true_eq_false, or_self, if_false, ite_none_ne_none_iff, and_true]
    rw [four_range (mod_64_lt _) (mod_64_lt _) (mod_64_lt _), UInt8.le_iff_toNat_le,
      UInt8.le_iff_toNat_le, UInt8.le_iff_toNat_le, UInt8.le_iff_toNat_le, ← UInt8.toNat_inj, ← UInt8.toNat_inj]
    change _ ↔ (0xF0 ≤ c.toNat ∧ c.toNat ≤ 0xF4) ∧ True ∧ (c.toNat = 0xF0 → 0x90 ≤ c1.toNat) ∧
      (c.toNat = 0xF4 → c1.toNat ≤ 0x8F)
    have hmax : c.toNat % 8 ≤ 4 ↔ c.toNat ≤ 0xF4 := by omega
    have hf0 : c.toNat % 8 = 0 ↔ c.toNat = 0xF0 := by omega
    have hf4 : c.toNat % 8 = 4 ↔ c.toNat = 0xF4 := by omega
    have hhigh : 0x10 ≤ c1.toNat % 64 ↔ 0x90 ≤ c1.toNat := by omega
    have hlow : c1.toNat % 64 < 0x10 ↔ c1.toNat ≤ 0x8F := by omega
    rw [hmax, hf0, hf4, hhigh, hlow]
    simp only [hlead.1, true_and]
  · have hno : isContinuation c1 = false ∨ isContinuation c2 = false ∨ isContinuation c3 = false := by
      grind
    rw [if_pos hno]
    exact iff_of_false (fun h => h rfl) fun h => htail h.2.1

theorem decodeUtf8_iff (s : List Byte) : none ∉ decodeUtf8 s ↔ s ∈ wellFormed∗ := by
  fun_induction decodeUtf8 s with
  | case1 => exact iff_of_true List.not_mem_nil (Language.nil_mem_kstar wellFormed)
  | case2 c s h0 ih =>
    rw [one_mem_kstar_iff byHead_wellFormed (width_one h0), ← ih, List.mem_cons, not_or]
    exact and_congr_left fun _ => iff_of_true (Option.some_ne_none _).symm ((wellFormed_one_iff c).mpr h0)
  | case3 c h0 h1 c1 s ih =>
    rw [two_mem_kstar_iff byHead_wellFormed (width_two h0 h1), ← ih, List.mem_cons, not_or]
    exact and_congr_left fun _ => ne_comm.trans (twoBytes_ne_none_iff h1 c1)
  | case4 c s h0 h1 hshort =>
    cases s with
    | cons c1 s => exact (hshort c1 s rfl).elim
    | nil =>
      exact iff_of_false (by simp) (byHead_wellFormed.not_mem_kstar_of_short (by simp [width_two h0 h1]))
  | case5 c h0 h1 h2 c1 c2 s ih =>
    rw [three_mem_kstar_iff byHead_wellFormed (width_three h0 h1 h2), ← ih, List.mem_cons, not_or]
    exact and_congr_left fun _ => ne_comm.trans (threeBytes_ne_none_iff h2 c1 c2)
  | case6 c s h0 h1 h2 hshort =>
    have hwidth := width_three h0 h1 h2
    refine iff_of_false (by simp) (byHead_wellFormed.not_mem_kstar_of_short ?_)
    cases s with
    | nil => simp [hwidth]
    | cons c1 s =>
      cases s with
      | nil => simp [hwidth]
      | cons c2 s => exact (hshort c1 c2 s rfl).elim
  | case7 c h0 h1 h2 h3 c1 c2 c3 s ih =>
    rw [four_mem_kstar_iff byHead_wellFormed (width_four h0 h1 h2 h3), ← ih, List.mem_cons, not_or]
    exact and_congr_left fun _ => ne_comm.trans (fourBytes_ne_none_iff h3 c1 c2 c3)
  | case8 c s h0 h1 h2 h3 hshort =>
    have hwidth := width_four h0 h1 h2 h3
    refine iff_of_false (by simp) (byHead_wellFormed.not_mem_kstar_of_short ?_)
    cases s with
    | nil => simp [hwidth]
    | cons c1 s =>
      cases s with
      | nil => simp [hwidth]
      | cons c2 s =>
        cases s with
        | nil => simp [hwidth]
        | cons c3 s => exact (hshort c1 c2 c3 s rfl).elim
  | case9 c s h0 h1 h2 h3 ih =>
    have hone : width c = 1 := (if_neg h0).trans ((if_neg h1).trans ((if_neg h2).trans (if_neg h3)))
    rw [one_mem_kstar_iff byHead_wellFormed hone]
    exact iff_of_false (by simp) fun h => notMem_of_no_lead wellFormed_le h0 h1 h2 h3 h.1

/-! ## What is accepted -/

/-- `chgenc` reads the bytes as UTF-8 and pushes no U+FFFD of its own. -/
def DecodesCleanly (s : List Byte) : Prop :=
  none ∉ Encoding.utf8.decodeLoop (if Encoding.utf8.mark <+: s then s.drop Encoding.utf8.mark.length else s)

theorem decodesCleanly_iff (s : List Byte) : DecodesCleanly s ↔ s ∈ wellFormed∗ := by
  rw [← decodeUtf8_iff]
  unfold DecodesCleanly
  split_ifs with h
  · obtain ⟨rest, rfl⟩ := h
    have hmark : decodeUtf8 (Encoding.utf8.mark ++ rest) = some 0xFEFF :: decodeUtf8 rest := by
      rw [Encoding.mark_eq]
      exact Encoding.utf8.decodeLoop_encodeOne ⟨by decide, by decide⟩ rest
    rw [hmark, List.drop_left, List.mem_cons, not_or]
    exact (and_iff_right (Option.some_ne_none _).symm).symm
  · exact Iff.rfl

/-- The bytes are accepted when they are UTF-8, which is when `chgenc` reads them without a
substitution. -/
def AcceptedExactly (s : List Byte) : Prop :=
  (isValidUtf8 s = true ↔ s ∈ wellFormed∗) ∧ (isValidUtf8 s = true ↔ DecodesCleanly s)

theorem not_wellFormed_of_beyond {w : List Byte} (h : Beyond w) : ¬WellFormed w := by
  cases h with
  | @mk b c d hlo hhi hc hd =>
    rw [wellFormed_four_iff]
    grind

theorem not_refused_of_beyond {w : List Byte} (h : Beyond w) : ¬Refused w := by
  cases h with
  | @mk b c d hlo hhi hc hd =>
    rw [refused_iff]
    exact fun h => absurd h.1 (by decide)

theorem mem_accepted_iff {w : List Byte} (h : WellFormed w ∨ Beyond w) : w ∈ accepted ↔ ¬Refused w := by
  have hmem : w ∈ accepted ↔ (WellFormed w ∧ ¬Refused w) ∨ Beyond w := Iff.rfl
  rw [hmem]
  cases h with
  | inl h => exact ⟨fun hw => hw.elim And.right not_refused_of_beyond, fun hw => Or.inl ⟨h, hw⟩⟩
  | inr h => exact iff_of_true (Or.inr h) (not_refused_of_beyond h)

theorem mem_wellFormed_iff {w : List Byte} (h : WellFormed w ∨ Beyond w) : w ∈ wellFormed ↔ ¬Beyond w :=
  ⟨fun hw hbeyond => not_wellFormed_of_beyond hbeyond hw, fun hw => h.resolve_right hw⟩

/-- The bytes are accepted exactly when they are no row of well-formed sequences and sequences above
U+10FFFF, or such a row in which either both kinds on which the tests err occur or none does. -/
theorem acceptedExactly_iff (s : List Byte) :
    AcceptedExactly s ↔ ∀ L : List (List Byte), L.flatten = s → (∀ w ∈ L, WellFormed w ∨ Beyond w) →
      ((∃ w ∈ L, Refused w) ↔ ∃ w ∈ L, Beyond w) := by
  have hiff : AcceptedExactly s ↔ (s ∈ accepted∗ ↔ s ∈ wellFormed∗) := by
    unfold AcceptedExactly
    rw [decodesCleanly_iff, and_self, isValidUtf8_iff]
  rw [hiff, kstar_iff_kstar_iff byHead_sequences.uniquelyDecodable accepted_le wellFormed_le]
  have hunion (w : List Byte) : w ∈ accepted ∨ w ∈ wellFormed ↔ WellFormed w ∨ Beyond w :=
    ⟨fun h => h.elim (Or.imp_left And.left) Or.inl, fun h => h.elim Or.inr fun h => Or.inl (Or.inr h)⟩
  refine forall_congr' fun L => forall_congr' fun _ => ?_
  simp only [hunion]
  refine forall_congr' fun hL => ?_
  have haccepted : (∀ w ∈ L, w ∈ accepted) ↔ ¬∃ w ∈ L, Refused w := by
    push Not
    exact forall₂_congr fun w hw => mem_accepted_iff (hL w hw)
  have hwellFormed : (∀ w ∈ L, w ∈ wellFormed) ↔ ¬∃ w ∈ L, Beyond w := by
    push Not
    exact forall₂_congr fun w hw => mem_wellFormed_iff (hL w hw)
  rw [haccepted, hwellFormed, not_iff_not]

/-- U+20000 is refused. -/
theorem not_acceptedExactly : ¬AcceptedExactly [0xF0, 0xA0, 0x80, 0x80] := by
  rintro ⟨h, -⟩
  have hvalid : isValidUtf8 [0xF0, 0xA0, 0x80, 0x80] = true := by
    refine h.mpr (Language.join_mem_kstar (L := [[0xF0, 0xA0, 0x80, 0x80]]) fun w hw => ?_)
    obtain rfl := List.mem_singleton.mp hw
    exact .f0 (by decide) (by decide) ⟨by decide, by decide⟩ ⟨by decide, by decide⟩
  exact absurd hvalid (by decide)

end ValidcTools.Checkenc
