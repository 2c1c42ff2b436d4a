import ValidcTools.Checkenc.Utf8
import ValidcTools.Sh23.Strings

/-! UTF-8 in the shell's strings, beside what `checkenc` takes for UTF-8. -/
namespace ValidcTools.Sh23

open ValidcTools.Checkenc PrefixCode Computability

/-- `is_utf8_continuation_byte` -/
def isUtf8ContinuationByte (c : Byte) : Bool := c &&& 0xC0 = 0x80

/-- `utf8_char_size` -/
def utf8CharSize (c : Byte) : ℕ :=
  if c &&& 0x80 = 0 then 1
  else if c &&& 0xE0 = 0xC0 then 2
  else if c &&& 0xF0 = 0xE0 then 3
  else if c &&& 0xF8 = 0xF0 then 4
  else 0

/-- The loop of `string_utf8_length`, for what is left behind `i` bytes; `none` is an overflow of `i + size`. -/
def utf8LengthFrom (i count : ℕ) : List Byte → Option ℕ
  | [] => some count
  | c :: s =>
    let size := utf8CharSize c
    if size = 0 then some count
    else if intMax < i + size then none
    else if (c :: s).length < size then some count
    else utf8LengthFrom (i + size) (count + 1) ((c :: s).drop size)
termination_by s => s.length
decreasing_by simp only [List.length_drop, List.length_cons]; omega

/-- `string_utf8_length` -/
def stringUtf8Length (str : Str) : Option ℕ :=
  if str.data = none then some 0 else utf8LengthFrom 0 0 str.bytes

/-- The loop of `string_is_valid_utf8` -/
def isValidUtf8From (i : ℕ) : List Byte → Option Bool
  | [] => some true
  | c :: s =>
    let size := utf8CharSize c
    if size = 0 then some false
    else if intMax < i + size then none
    else if (c :: s).length < size then some false
    else if ((c :: s).take size).tail.all isUtf8ContinuationByte = false then some false
    else isValidUtf8From (i + size) ((c :: s).drop size)
termination_by s => s.length
decreasing_by simp only [List.length_drop, List.length_cons]; omega

/-- `string_is_valid_utf8` -/
def stringIsValidUtf8 (str : Str) : Option Bool :=
  if str.data = none then some true else isValidUtf8From 0 str.bytes

/-- The loop of `string_utf8_char_at`, which gives what it puts into the buffer before the NUL, or
`none` for -1. -/
def utf8CharAtFrom (charIndex bufferSize : ℤ) (bytePos currentChar : ℕ) : List Byte → Option (Option (List Byte))
  | [] => some none
  | c :: s =>
    -- the source makes these tests in either case
    let size := utf8CharSize c
    if size = 0 then some none
    else if intMax < bytePos + size then none
    else if (c :: s).length < size then some none
    else if (currentChar : ℤ) = charIndex then
      if (size : ℤ) > bufferSize - 1 then some none else some (some ((c :: s).take size))
    else utf8CharAtFrom charIndex bufferSize (bytePos + size) (currentChar + 1) ((c :: s).drop size)
termination_by s => s.length
decreasing_by simp only [List.length_drop, List.length_cons]; omega

/-- `string_utf8_char_at` -/
def stringUtf8CharAt (str : Str) (charIndex bufferSize : ℤ) : Option (Option (List Byte)) :=
  if bufferSize < 5 then some none else utf8CharAtFrom charIndex bufferSize 0 0 str.bytes

/-! ## Characters -/

/-- A first byte with as many bytes behind it as it asks for, which is all that the shell tests. -/
def loose : Language Byte :=
  {w | ∃ c v, w = c :: v ∧ w.length = utf8CharSize c ∧ v.all isUtf8ContinuationByte = true}

theorem byHead_loose : ByHead utf8CharSize loose := by
  rintro w ⟨c, v, rfl, hlen, -⟩
  exact ⟨c, v, rfl, hlen⟩

theorem utf8CharSize_le (c : Byte) : utf8CharSize c ≤ 4 := by
  unfold utf8CharSize
  split_ifs <;> decide

theorem take_mem_loose_iff (c : Byte) (s : List Byte) :
    (c :: s).take (utf8CharSize c) ∈ loose ↔ utf8CharSize c ≠ 0 ∧ utf8CharSize c ≤ (c :: s).length ∧
      ((c :: s).take (utf8CharSize c)).tail.all isUtf8ContinuationByte = true := by
  constructor
  · rintro ⟨a, v, heq, hlen, hall⟩
    have hpos : utf8CharSize c ≠ 0 := by
      intro h0
      rw [h0, List.take_zero] at heq
      cases heq
    obtain ⟨n, hn⟩ := Nat.exists_eq_succ_of_ne_zero hpos
    rw [hn, List.take_succ_cons] at heq
    obtain ⟨rfl, rfl⟩ := List.cons.inj heq
    rw [hn, List.take_succ_cons] at hlen ⊢
    simp only [List.length_cons, List.length_take] at hlen
    refine ⟨Nat.succ_ne_zero n, ?_, hall⟩
    rw [List.length_cons]
    omega
  · rintro ⟨hpos, hle, hall⟩
    obtain ⟨n, hn⟩ := Nat.exists_eq_succ_of_ne_zero hpos
    refine ⟨c, s.take n, ?_, List.length_take_of_le hle, ?_⟩
    · rw [hn, List.take_succ_cons]
    · rw [hn, List.take_succ_cons] at hall
      exact hall

/-- The text is read character by character. -/
theorem cons_mem_loose_iff (c : Byte) (s : List Byte) :
    c :: s ∈ loose∗ ↔ utf8CharSize c ≠ 0 ∧ utf8CharSize c ≤ (c :: s).length ∧
      ((c :: s).take (utf8CharSize c)).tail.all isUtf8ContinuationByte = true ∧
      (c :: s).drop (utf8CharSize c) ∈ loose∗ := by
  rw [byHead_loose.cons_mem_kstar_iff, take_mem_loose_iff]
  tauto

/-! ## The loops -/

theorem isValidUtf8From_eq_true_iff {i : ℕ} {s : List Byte} (h : i + s.length ≤ intMax) :
    isValidUtf8From i s = some true ↔ s ∈ loose∗ := by
  fun_induction isValidUtf8From i s with
  | case1 i => exact iff_of_true rfl (Language.nil_mem_kstar loose)
  | case2 i c s size h0 =>
    rw [cons_mem_loose_iff]
    exact iff_of_false (by simp) fun hs => hs.1 h0
  | case3 i c s size h0 hover =>
    rw [cons_mem_loose_iff]
    exact iff_of_false (by simp) fun hs => by omega
  | case4 i c s size h0 hover hshort =>
    rw [cons_mem_loose_iff]
    exact iff_of_false (by simp) fun hs => by omega
  | case5 i c s size h0 hover hshort hall =>
    rw [cons_mem_loose_iff]
    refine iff_of_false (by simp) fun hs => ?_
    rw [hs.2.2.1] at hall
    exact Bool.true_eq_false.mp hall
  | case6 i c s size h0 hover hshort hall ih =>
    rw [cons_mem_loose_iff, ih]
    · have hall' := Bool.eq_true_of_not_eq_false hall
      exact ⟨fun hs => ⟨h0, by omega, hall', hs⟩, fun hs => hs.2.2.2⟩
    · rw [List.length_drop]
      omega

/-- No sum overflows up to the first byte that begins no character. -/
def FitsFrom (i : ℕ) (s : List Byte) : Prop :=
  ∀ (L : List (List Byte)) (c : Byte) (rest : List Byte), L.flatten ++ c :: rest = s → (∀ w ∈ L, w ∈ loose) →
    i + L.flatten.length + utf8CharSize c ≤ intMax

theorem fitsFrom_nil (i : ℕ) : FitsFrom i [] := by
  intro L c rest heq
  cases (List.append_eq_nil_iff.mp heq).2

theorem fitsFrom_cons_iff (i : ℕ) (c : Byte) (s : List Byte) :
    FitsFrom i (c :: s) ↔ i + utf8CharSize c ≤ intMax ∧
      ((c :: s).take (utf8CharSize c) ∈ loose → FitsFrom (i + utf8CharSize c) ((c :: s).drop (utf8CharSize c))) := by
  constructor
  · intro h
    constructor
    · exact h [] c s rfl fun w hw => absurd hw List.not_mem_nil
    · intro hw L b rest heq hL
      have hlen := List.length_take_of_le ((take_mem_loose_iff c s).mp hw).2.1
      have hsum := h ((c :: s).take (utf8CharSize c) :: L) b rest ?_ fun u hu => ?_
      · rw [List.flatten_cons, List.length_append, hlen] at hsum
        omega
      · rw [List.flatten_cons, List.append_assoc, heq, List.take_append_drop]
      · cases hu with
        | head => exact hw
        | tail _ hu => exact hL u hu
  · rintro ⟨hc, hrest⟩ L b rest heq hL
    cases L with
    | nil =>
      obtain ⟨rfl, rfl⟩ := List.cons.inj heq
      exact hc
    | cons w L =>
      have hw := hL w List.mem_cons_self
      rw [List.flatten_cons, List.append_assoc] at heq
      obtain ⟨htake, hdrop⟩ := byHead_loose.take_append hw heq
      have hlen := List.length_take_of_le ((take_mem_loose_iff c s).mp (htake ▸ hw)).2.1
      rw [htake] at hlen hrest
      have hsum := hrest hw L b rest hdrop.symm fun u hu => hL u (List.mem_cons_of_mem w hu)
      rw [List.flatten_cons, List.length_append, hlen]
      omega

theorem isValidUtf8From_ne_none_iff {i : ℕ} {s : List Byte} (h : i + s.length ≤ intMax) :
    isValidUtf8From i s ≠ none ↔ FitsFrom i s := by
  fun_induction isValidUtf8From i s with
  | case1 i => exact iff_of_true (Option.some_ne_none _) (fitsFrom_nil i)
  | case2 i c s size h0 =>
    rw [fitsFrom_cons_iff, take_mem_loose_iff]
    refine iff_of_true (Option.some_ne_none _) ⟨?_, fun hs => (hs.1 h0).elim⟩
    rw [List.length_cons] at h
    omega
  | case3 i c s size h0 hover =>
    rw [fitsFrom_cons_iff]
    exact iff_of_false (by simp) fun hs => by omega
  | case4 i c s size h0 hover hshort =>
    rw [fitsFrom_cons_iff, take_mem_loose_iff]
    exact iff_of_true (Option.some_ne_none _) ⟨by omega, fun hs => by omega⟩
  | case5 i c s size h0 hover hshort hall =>
    rw [fitsFrom_cons_iff, take_mem_loose_iff]
    refine iff_of_true (Option.some_ne_none _) ⟨by omega, fun hs => ?_⟩
    rw [hs.2.2] at hall
    exact (Bool.true_eq_false.mp hall).elim
  | case6 i c s size h0 hover hshort hall ih =>
    rw [fitsFrom_cons_iff, take_mem_loose_iff, ih]
    · have hall' := Bool.eq_true_of_not_eq_false hall
      exact ⟨fun hs => ⟨by omega, fun _ => hs⟩, fun hs => hs.2 ⟨h0, by omega, hall'⟩⟩
    · rw [List.length_drop]
      omega

/-! ## What is told apart -/

/-- Overlong forms, surrogates, what lies above U+10FFFF, and what `checkenc` refuses. -/
inductive Misjudged : List Byte → Prop
  | overlongTwo {a b : Byte} : 0xC0 ≤ a → a ≤ 0xC1 → IsTail b → Misjudged [a, b]
  | overlongThree {b c : Byte} : 0x80 ≤ b → b ≤ 0x9F → IsTail c → Misjudged [0xE0, b, c]
  | surrogate {b c : Byte} : 0xA0 ≤ b → b ≤ 0xBF → IsTail c → Misjudged [0xED, b, c]
  | overlongFour {b c d : Byte} : 0x80 ≤ b → b ≤ 0x8F → IsTail c → IsTail d → Misjudged [0xF0, b, c, d]
  | refused {b c d : Byte} : 0xA0 ≤ b → b ≤ 0xBF → IsTail c → IsTail d → Misjudged [0xF0, b, c, d]
  | above {b c d : Byte} : 0x90 ≤ b → b ≤ 0xBF → IsTail c → IsTail d → Misjudged [0xF4, b, c, d]
  | farAbove {a b c d : Byte} : 0xF5 ≤ a → a ≤ 0xF7 → IsTail b → IsTail c → IsTail d → Misjudged [a, b, c, d]

theorem misjudged_two_iff (a b : Byte) : Misjudged [a, b] ↔ (0xC0 ≤ a ∧ a ≤ 0xC1) ∧ IsTail b := by
  constructor
  · intro h
    cases h with
    | overlongTwo hlo hhi hb => exact ⟨⟨hlo, hhi⟩, hb⟩
  · intro h
    exact .overlongTwo h.1.1 h.1.2 h.2

theorem misjudged_three_iff (a b c : Byte) :
    Misjudged [a, b, c] ↔ (IsTail b ∧ IsTail c) ∧ ((a = 0xE0 ∧ b ≤ 0x9F) ∨ (a = 0xED ∧ 0xA0 ≤ b)) := by
  constructor
  · intro h
    cases h with
    | overlongThree hlo hhi hc => unfold IsTail at *; grind
    | surrogate hlo hhi hc => unfold IsTail at *; grind
  · rintro ⟨⟨hb, hc⟩, ⟨rfl, hhi⟩ | ⟨rfl, hlo⟩⟩
    · exact .overlongThree hb.1 hhi hc
    · exact .surrogate hlo hb.2 hc

theorem misjudged_four_iff (a b c d : Byte) :
    Misjudged [a, b, c, d] ↔ (IsTail b ∧ IsTail c ∧ IsTail d) ∧
      ((a = 0xF0 ∧ (b ≤ 0x8F ∨ 0xA0 ≤ b)) ∨ (a = 0xF4 ∧ 0x90 ≤ b) ∨ (0xF5 ≤ a ∧ a ≤ 0xF7)) := by
  constructor
  · intro h
    cases h with
    | overlongFour hlo hhi hc hd => unfold IsTail at *; grind
    | refused hlo hhi hc hd => unfold IsTail at *; grind
    | above hlo hhi hc hd => unfold IsTail at *; grind
    | farAbove hlo hhi hb hc hd => exact ⟨⟨hb, hc, hd⟩, Or.inr (Or.inr ⟨hlo, hhi⟩)⟩
  · rintro ⟨⟨hb, hc, hd⟩, ⟨rfl, hhi | hlo⟩ | ⟨rfl, hlo⟩ | ⟨hlo, hhi⟩⟩
    · exact .overlongFour hb.1 hhi hc hd
    · exact .refused hlo hb.2 hc hd
    · exact .above hlo hb.2 hc hd
    · exact .farAbove hlo hhi hb hc hd

theorem isUtf8ContinuationByte_iff : ∀ b : Byte, isUtf8ContinuationByte b = true ↔ IsTail b := by
  unfold IsTail
  exact forall_byte (by decide)

theorem utf8CharSize_eq_one_iff : ∀ c : Byte, utf8CharSize c = 1 ↔ c ≤ 0x7F := forall_byte (by decide)

theorem utf8CharSize_eq_two_iff : ∀ c : Byte, utf8CharSize c = 2 ↔ 0xC0 ≤ c ∧ c ≤ 0xDF := forall_byte (by decide)

theorem utf8CharSize_eq_three_iff : ∀ c : Byte, utf8CharSize c = 3 ↔ 0xE0 ≤ c ∧ c ≤ 0xEF := forall_byte (by decide)

theorem utf8CharSize_eq_four_iff : ∀ c : Byte, utf8CharSize c = 4 ↔ 0xF0 ≤ c ∧ c ≤ 0xF7 := forall_byte (by decide)

theorem mem_loose_iff (c : Byte) (v : List Byte) :
    c :: v ∈ loose ↔ utf8CharSize c = v.length + 1 ∧ ∀ b ∈ v, IsTail b := by
  simp only [← isUtf8ContinuationByte_iff]
  rw [← List.all_eq_true]
  constructor
  · rintro ⟨a, u, heq, hlen, hall⟩
    obtain ⟨rfl, rfl⟩ := List.cons.inj heq
    exact ⟨hlen.symm, hall⟩
  · intro h
    exact ⟨c, v, rfl, h.1.symm, h.2⟩

/-- A character is one of both validators and of the table when it is none of the misjudged. -/
theorem not_misjudged_iff {w : List Byte} (hw : w ∈ loose) : ¬Misjudged w ↔ WellFormed w ∧ ¬Refused w := by
  obtain ⟨c, v, rfl, -, -⟩ := id hw
  obtain ⟨hsize, hv⟩ := (mem_loose_iff c v).mp hw
  cases v with
  | nil =>
    have hc := (utf8CharSize_eq_one_iff c).mp hsize
    refine iff_of_true ?_ ⟨.one hc, ?_⟩ <;> intro h <;> cases h
  | cons b v =>
    have hb := hv b (by simp)
    cases v with
    | nil =>
      have hc := (utf8CharSize_eq_two_iff c).mp hsize
      have hrefused : ¬Refused [c, b] := by
        intro h
        cases h
      rw [misjudged_two_iff, wellFormed_two_iff]
      grind
    | cons d v =>
      have hd := hv d (by simp)
      cases v with
      | nil =>
        have hc := (utf8CharSize_eq_three_iff c).mp hsize
        have hrefused : ¬Refused [c, b, d] := by
          intro h
          cases h
        rw [misjudged_three_iff, wellFormed_three_iff]
        unfold IsTail at *
        grind
      | cons e v =>
        have he := hv e (by simp)
        cases v with
        | nil =>
          have hc := (utf8CharSize_eq_four_iff c).mp hsize
          rw [misjudged_four_iff, wellFormed_four_iff, refused_iff]
          unfold IsTail at *
          grind
        | cons x v =>
          have hle := utf8CharSize_le c
          rw [hsize] at hle
          simp only [List.length_cons] at hle
          omega

section

variable {a b c d : Byte}

theorem three_mem_loose (ha : 0xE0 ≤ a ∧ a ≤ 0xEF) (hb : IsTail b) (hc : IsTail c) : [a, b, c] ∈ loose :=
  (mem_loose_iff _ _).mpr ⟨(utf8CharSize_eq_three_iff a).mpr ha, by simpa using ⟨hb, hc⟩⟩

theorem four_mem_loose (ha : 0xF0 ≤ a ∧ a ≤ 0xF7) (hb : IsTail b) (hc : IsTail c) (hd : IsTail d) :
    [a, b, c, d] ∈ loose :=
  (mem_loose_iff _ _).mpr ⟨(utf8CharSize_eq_four_iff a).mpr ha, by simpa using ⟨hb, hc, hd⟩⟩

end

theorem wellFormed_le_loose : wellFormed ≤ loose := by
  intro w hw
  have hw' : WellFormed w := hw
  cases hw' with
  | one ha => exact (mem_loose_iff _ _).mpr ⟨(utf8CharSize_eq_one_iff _).mpr ha, by simp⟩
  | two hlo hhi hb =>
    exact (mem_loose_iff _ _).mpr ⟨(utf8CharSize_eq_two_iff _).mpr (by grind), by simpa using hb⟩
  | e0 hlo hhi hc => exact three_mem_loose (by decide) (by unfold IsTail; grind) hc
  | e1ToEc hlo hhi hb hc => exact three_mem_loose (by grind) hb hc
  | ed hlo hhi hc => exact three_mem_loose (by decide) (by unfold IsTail; grind) hc
  | eeToEf hlo hhi hb hc => exact three_mem_loose (by grind) hb hc
  | f0 hlo hhi hc hd => exact four_mem_loose (by decide) (by unfold IsTail; grind) hc hd
  | f1ToF3 hlo hhi hb hc hd => exact four_mem_loose (by grind) hb hc hd
  | f4 hlo hhi hc hd => exact four_mem_loose (by decide) (by unfold IsTail; grind) hc hd

theorem accepted_le_loose : accepted ≤ loose := by
  rintro w (hw | hw)
  · exact wellFormed_le_loose hw.1
  · cases hw with
    | mk hlo hhi hc hd => exact four_mem_loose (by decide) (by unfold IsTail; grind) hc hd

/-- `string_is_valid_utf8` and `is_valid_utf8` accept the same, which is UTF-8. -/
def SameUtf8 (str : Str) : Prop :=
  stringIsValidUtf8 str ≠ none ∧ (stringIsValidUtf8 str = some true ↔ isValidUtf8 str.bytes = true) ∧
    (stringIsValidUtf8 str = some true ↔ str.bytes ∈ wellFormed∗)

theorem stringIsValidUtf8_eq {str : Str} (h : str.Valid) : stringIsValidUtf8 str = isValidUtf8From 0 str.bytes := by
  cases h with
  | null =>
    rw [Str.bytes_null, isValidUtf8From]
    rfl
  | text t rest _ _ => rfl

/-- The two agree exactly when no sum of the shell's loop overflows and, where the text is a row of first
bytes with the continuation bytes they ask for, none of these is misjudged. -/
theorem sameUtf8_iff {str : Str} (h : str.Valid) :
    SameUtf8 str ↔ FitsFrom 0 str.bytes ∧ ∀ L : List (List Byte), L.flatten = str.bytes → (∀ w ∈ L, w ∈ loose) →
      ∀ w ∈ L, ¬Misjudged w := by
  have hlen : 0 + str.bytes.length ≤ intMax := by
    rw [h.length_bytes, zero_add]
    exact h.length_lt.le
  unfold SameUtf8
  rw [stringIsValidUtf8_eq h, isValidUtf8From_ne_none_iff hlen, isValidUtf8From_eq_true_iff hlen, isValidUtf8_iff]
  refine and_congr_right fun _ => ?_
  constructor
  · rintro ⟨haccepted, hwellFormed⟩ L hL hwords w hw
    have hmem : str.bytes ∈ loose∗ := hL ▸ Language.join_mem_kstar hwords
    have hfirst := haccepted.mp hmem
    have hsecond := hwellFormed.mp hmem
    rw [← hL, flatten_mem_kstar_iff byHead_loose.uniquelyDecodable accepted_le_loose hwords] at hfirst
    rw [← hL, flatten_mem_kstar_iff byHead_loose.uniquelyDecodable wellFormed_le_loose hwords] at hsecond
    rw [not_misjudged_iff (hwords w hw)]
    have hwell : WellFormed w := hsecond w hw
    exact ⟨hwell, (mem_accepted_iff (Or.inl hwell)).mp (hfirst w hw)⟩
  · intro hjudged
    have hgood (hmem : str.bytes ∈ loose∗) : str.bytes ∈ accepted∗ ∧ str.bytes ∈ wellFormed∗ := by
      obtain ⟨L, hL, hwords⟩ := Language.mem_kstar.mp hmem
      have hall (w : List Byte) (hw : w ∈ L) : WellFormed w ∧ ¬Refused w :=
        (not_misjudged_iff (hwords w hw)).mp (hjudged L hL.symm hwords w hw)
      rw [hL]
      exact ⟨Language.join_mem_kstar fun w hw => Or.inl (hall w hw), Language.join_mem_kstar fun w hw => (hall w hw).1⟩
    exact ⟨⟨fun hmem => (hgood hmem).1, fun hmem => kstar_mono accepted_le_loose hmem⟩,
      fun hmem => (hgood hmem).2, fun hmem => kstar_mono wellFormed_le_loose hmem⟩

def overlongText : Str := ⟨some [0xC1, 0x81, 0], 2, 16⟩

theorem overlongText_valid : overlongText.Valid :=
  .text ⟨[0xC1, 0x81], by decide⟩ [] (by decide) (by decide)

/-- `C1 81`, an overlong `A` -/
theorem not_sameUtf8 : overlongText.Valid ∧ ¬SameUtf8 overlongText := by
  refine ⟨overlongText_valid, fun h => ?_⟩
  have hvalid : stringIsValidUtf8 overlongText = some true := by
    rw [stringIsValidUtf8_eq overlongText_valid, isValidUtf8From_eq_true_iff (by decide)]
    refine Language.join_mem_kstar (L := [[0xC1, 0x81]]) fun w hw => ?_
    obtain rfl := List.mem_singleton.mp hw
    exact (mem_loose_iff 0xC1 [0x81]).mpr ⟨by decide, by simp [IsTail]⟩
  exact absurd (h.2.1.mp hvalid) (by decide)

theorem sameUtf8_overlongText : SameUtf8 overlongText ↔ FitsFrom 0 overlongText.bytes ∧
    ∀ L : List (List Byte), L.flatten = overlongText.bytes → (∀ w ∈ L, w ∈ loose) → ∀ w ∈ L, ¬Misjudged w :=
  sameUtf8_iff overlongText_valid

/-! ## Characters by their index -/

theorem utf8LengthFrom_flatten {L : List (List Byte)} (hL : ∀ w ∈ L, w ∈ loose) {i count : ℕ}
    (h : i + L.flatten.length ≤ intMax) : utf8LengthFrom i count L.flatten = some (count + L.length) := by
  induction L generalizing i count with
  | nil => rw [List.flatten_nil, utf8LengthFrom, List.length_nil, Nat.add_zero]
  | cons w L ih =>
    obtain ⟨c, v, rfl, hlen⟩ := byHead_loose w (hL w List.mem_cons_self)
    rw [List.flatten_cons, List.length_append] at h
    rw [List.flatten_cons, List.cons_append, utf8LengthFrom, ← List.cons_append]
    simp only [← hlen]
    rw [if_neg (by simp), if_neg (by omega), if_neg (by simp), List.drop_left,
      ih (fun u hu => hL u (List.mem_cons_of_mem _ hu)) (by omega), List.length_cons]
    congr 1
    omega

/-- What is at an index counted from the character at which the loop stands -/
theorem utf8CharAtFrom_flatten {L : List (List Byte)} (hL : ∀ w ∈ L, w ∈ loose) {bytePos currentChar : ℕ}
    (h : bytePos + L.flatten.length ≤ intMax) {bufferSize : ℤ} (hbuffer : 5 ≤ bufferSize) (k : ℕ) :
    utf8CharAtFrom (currentChar + k : ℕ) bufferSize bytePos currentChar L.flatten = some L[k]? := by
  induction L generalizing bytePos currentChar k with
  | nil => rw [List.flatten_nil, utf8CharAtFrom, List.getElem?_nil]
  | cons w L ih =>
    obtain ⟨c, v, rfl, hlen⟩ := byHead_loose w (hL w List.mem_cons_self)
    have hle := utf8CharSize_le c
    rw [List.flatten_cons, List.length_append] at h
    rw [List.flatten_cons, List.cons_append, utf8CharAtFrom, ← List.cons_append]
    simp only [← hlen]
    rw [if_neg (by simp), if_neg (by omega), if_neg (by simp), List.drop_left, List.take_left]
    cases k with
    | zero => rw [if_pos (by omega), if_neg (by omega), List.getElem?_cons_zero]
    | succ k =>
      rw [if_neg (by omega), show currentChar + (k + 1) = currentChar + 1 + k by omega,
        ih (fun u hu => hL u (List.mem_cons_of_mem _ hu)) (by omega), List.getElem?_cons_succ]

/-- Nothing is at an index below the one at which the loop stands. -/
theorem utf8CharAtFrom_of_lt {L : List (List Byte)} (hL : ∀ w ∈ L, w ∈ loose) {bytePos currentChar : ℕ}
    (h : bytePos + L.flatten.length ≤ intMax) {charIndex : ℤ} (hindex : charIndex < currentChar) (bufferSize : ℤ) :
    utf8CharAtFrom charIndex bufferSize bytePos currentChar L.flatten = some none := by
  induction L generalizing bytePos currentChar with
  | nil => rw [List.flatten_nil, utf8CharAtFrom]
  | cons w L ih =>
    obtain ⟨c, v, rfl, hlen⟩ := byHead_loose w (hL w List.mem_cons_self)
    rw [List.flatten_cons, List.length_append] at h
    rw [List.flatten_cons, List.cons_append, utf8CharAtFrom, ← List.cons_append]
    simp only [← hlen]
    rw [if_neg (by simp), if_neg (by omega), if_neg (by simp), if_neg (by omega), List.drop_left]
    exact ih (fun u hu => hL u (List.mem_cons_of_mem _ hu)) (by omega) (by push_cast; omega)

/-- A valid text is a row of characters, which are counted and found by their index. -/
theorem exists_characters {str : Str} (h : str.Valid) (hutf8 : stringIsValidUtf8 str = some true) :
    ∃ L : List (List Byte), L.flatten = str.bytes ∧ stringUtf8Length str = some L.length ∧
      ∀ (charIndex bufferSize : ℤ), 5 ≤ bufferSize →
        stringUtf8CharAt str charIndex bufferSize = some (if 0 ≤ charIndex then L[charIndex.toNat]? else none) := by
  have hlen : 0 + str.bytes.length ≤ intMax := by
    rw [h.length_bytes, zero_add]
    exact h.length_lt.le
  rw [stringIsValidUtf8_eq h, isValidUtf8From_eq_true_iff hlen] at hutf8
  obtain ⟨L, hL, hwords⟩ := Language.mem_kstar.mp hutf8
  refine ⟨L, hL.symm, ?_, fun charIndex bufferSize hbuffer => ?_⟩
  · have hcount : utf8LengthFrom 0 0 L.flatten = some (0 + L.length) := utf8LengthFrom_flatten hwords (hL ▸ hlen)
    rw [← hL, Nat.zero_add] at hcount
    rw [← hcount]
    cases h with
    | null => rw [Str.bytes_null, utf8LengthFrom]; rfl
    | text t rest _ _ => rfl
  · unfold stringUtf8CharAt
    rw [if_neg (by omega), hL]
    split_ifs with hindex
    · have hat : utf8CharAtFrom (0 + charIndex.toNat : ℕ) bufferSize 0 0 L.flatten = some L[charIndex.toNat]? :=
        utf8CharAtFrom_flatten hwords (hL ▸ hlen) hbuffer charIndex.toNat
      rwa [Nat.zero_add, Int.toNat_of_nonneg hindex] at hat
    · exact utf8CharAtFrom_of_lt hwords (hL ▸ hlen) (by simpa using hindex) bufferSize

/-- The characters of a valid text are those at the indices below its length, and together they are the text. -/
theorem characters_partition {str : Str} (h : str.Valid) (hutf8 : stringIsValidUtf8 str = some true)
    {bufferSize : ℤ} (hbuffer : 5 ≤ bufferSize) :
    ∃ n, stringUtf8Length str = some n ∧
      (∀ charIndex : ℤ, (∃ w, stringUtf8CharAt str charIndex bufferSize = some (some w)) ↔
        0 ≤ charIndex ∧ charIndex < n) ∧
      (∀ charIndex : ℤ, stringUtf8CharAt str charIndex bufferSize ≠ none) ∧
      ((List.range n).map fun k : ℕ => (stringUtf8CharAt str k bufferSize).join.getD []).flatten = str.bytes := by
  obtain ⟨L, hL, hlength, hat⟩ := exists_characters h hutf8
  refine ⟨L.length, hlength, fun charIndex => ?_, fun charIndex => ?_, ?_⟩
  · rw [hat charIndex bufferSize hbuffer]
    simp only [Option.some.injEq]
    rw [← Option.isSome_iff_exists]
    split_ifs with hindex
    · rw [isSome_getElem?]
      omega
    · simpa using fun h0 => absurd h0 hindex
  · rw [hat charIndex bufferSize hbuffer]
    exact Option.some_ne_none _
  · rw [← hL]
    congr 1
    refine List.ext_getElem (by simp) fun k hk hk' => ?_
    rw [List.getElem_map, List.getElem_range, hat k bufferSize hbuffer]
    simp [hk']

/-- `$€` -/
def dollarEuro : Str := ⟨some [0x24, 0xE2, 0x82, 0xAC, 0], 4, 16⟩

theorem characters_partition_dollarEuro :
    ∃ n, stringUtf8Length dollarEuro = some n ∧
      (∀ charIndex : ℤ, (∃ w, stringUtf8CharAt dollarEuro charIndex 5 = some (some w)) ↔
        0 ≤ charIndex ∧ charIndex < n) ∧
      (∀ charIndex : ℤ, stringUtf8CharAt dollarEuro charIndex 5 ≠ none) ∧
      ((List.range n).map fun k : ℕ => (stringUtf8CharAt dollarEuro k 5).join.getD []).flatten =
        [0x24, 0xE2, 0x82, 0xAC] := by
  have hvalid : dollarEuro.Valid := .text ⟨[0x24, 0xE2, 0x82, 0xAC], by decide⟩ [] (by decide) (by decide)
  refine characters_partition hvalid ?_ (by decide)
  rw [stringIsValidUtf8_eq hvalid, isValidUtf8From_eq_true_iff (by decide)]
  refine Language.join_mem_kstar (L := [[0x24], [0xE2, 0x82, 0xAC]]) fun w hw => ?_
  rcases List.mem_cons.mp hw with rfl | hw
  · exact (mem_loose_iff 0x24 []).mpr ⟨by decide, by simp⟩
  · obtain rfl := List.mem_singleton.mp hw
    exact (mem_loose_iff 0xE2 [0x82, 0xAC]).mpr ⟨by decide, by simp [IsTail]⟩

end ValidcTools.Sh23
