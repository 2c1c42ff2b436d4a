import ValidcTools.Batch.Execution

/-! Quoted operands: their text, read back, and the closing quote. -/
namespace ValidcTools.Batch

/-! ## The quoted form -/

/-- A byte as it is written between quotes -/
def escape (c : Byte) : List Byte := if c = '"' ∨ c = '\\' then [0x5C, c] else [c]

/-- A string as it is written with quotes -/
def quoted (s : List Byte) : List Byte := 0x22 :: (s.flatMap escape ++ [0x22])

theorem unquote_backslash (c : Byte) (p : List Byte) : unquote (0x5C :: c :: p) = (c :: (unquote p).1, (unquote p).2) := by
  rw [unquote]

theorem unquote_escape (c : Byte) (p : List Byte) : unquote (escape c ++ p) = (c :: (unquote p).1, (unquote p).2) := by
  unfold escape
  split_ifs with hc
  · exact unquote_backslash c p
  · have hback : c ≠ 0x5C := fun h => hc (.inr h)
    exact unquote_other (fun h _ => hback h) (fun _ _ h _ => hback h) fun h => hc (.inl h)

theorem unquote_escaped (s rest : List Byte) : unquote (s.flatMap escape ++ 0x22 :: rest) = (s, true) := by
  induction s with
  | nil => exact unquote_quote rest
  | cons c s ih => rw [List.flatMap_cons, List.append_assoc, unquote_escape, ih]

theorem afterQuote_escaped (s rest : List Byte) : afterQuote (s.flatMap escape ++ 0x22 :: rest) = rest := by
  induction s with
  | nil =>
    rw [List.flatMap_nil, List.nil_append, afterQuote, if_pos (show (0x22 : Byte) = '"' from rfl)]
    · exact fun h => absurd h (by decide)
    · exact fun _ _ h => absurd h (by decide)
  | cons c s ih =>
    rw [List.flatMap_cons, List.append_assoc]
    unfold escape
    split_ifs with hc
    · exact ih
    · have hback : c ≠ 0x5C := fun h => hc (.inr h)
      rw [List.singleton_append, afterQuote, if_neg fun h => hc (.inl h)]
      · exact ih
      · exact fun h _ => hback h
      · exact fun _ _ h _ => hback h

/-- A string that takes all the room is read, but not the quote behind it. -/
theorem readQuoted_full (s rest : List Byte) (last : Byte) :
    (readQuoted s.length (s.flatMap escape ++ 0x22 :: rest) last).rest = 0x22 :: rest := by
  induction s generalizing last with
  | nil => rw [List.length_nil, List.flatMap_nil, List.nil_append, readQuoted]
  | cons c s ih =>
    rw [List.length_cons, List.flatMap_cons, List.append_assoc]
    unfold escape
    split_ifs with hc
    · exact ih c
    · have hback : c ≠ 0x5C := fun h => hc (.inr h)
      rw [List.singleton_append, readQuoted, if_neg fun h => hc (.inl h)]
      · exact ih c
      · exact fun h _ => hback h
      · exact fun _ _ h _ => hback h

/-! ## Reading it back -/

section Read
variable {s : List Byte} {outsz : ℕ}

theorem quoted_append (s rest : List Byte) : quoted s ++ rest = 0x22 :: (s.flatMap escape ++ 0x22 :: rest) := by
  rw [quoted, List.cons_append, List.append_assoc]
  rfl

theorem readQuoted_quoted_text (hs : s.length < outsz) (rest : List Byte) (last : Byte) :
    (readQuoted (outsz - 1) (s.flatMap escape ++ 0x22 :: rest) last).text = s := by
  rw [readQuoted_text, unquote_escaped]
  exact List.take_of_length_le (Nat.le_pred_of_lt hs)

/-- The loop comes past the closing quote just when there is a byte of room left. -/
theorem readQuoted_quoted_rest_iff (hs : s.length < outsz) (rest : List Byte) (last : Byte) :
    (readQuoted (outsz - 1) (s.flatMap escape ++ 0x22 :: rest) last).rest = rest ↔ s.length < outsz - 1 := by
  constructor
  · intro h
    by_contra hfull
    obtain hlength : outsz - 1 = s.length := by omega
    rw [hlength, readQuoted_full] at h
    exact absurd (congrArg List.length h) (Nat.succ_ne_self _)
  · intro hroom
    rw [readQuoted_rest last (by rw [unquote_escaped]; exact hroom), afterQuote_escaped]

theorem quoted_accepted (hs : s.length < outsz) (rest : List Byte) :
    ¬((readQuoted (outsz - 1) (s.flatMap escape ++ 0x22 :: rest) '"').last ≠ '"' ∧
      (readQuoted (outsz - 1) (s.flatMap escape ++ 0x22 :: rest) '"').text.length < outsz - 1) := by
  rw [readQuoted_quoted_text hs]
  rintro ⟨hlast, hroom⟩
  rw [readQuoted_last _ (by rw [unquote_escaped]; exact hroom), unquote_escaped] at hlast
  exact hlast rfl

theorem parseOneArg_quoted_iff (hs : s.length < outsz) (rest : List Byte) :
    parseOneArg (quoted s ++ rest) outsz = some (s, rest) ↔ s.length < outsz - 1 := by
  have hskip : (quoted s ++ rest).dropWhile isSpace = 0x22 :: (s.flatMap escape ++ 0x22 :: rest) := by
    rw [quoted_append, List.dropWhile_cons_of_neg (by decide)]
  rw [parseOneArg_quoted hskip, if_neg (quoted_accepted hs rest), readQuoted_quoted_text hs, Option.some_inj, Prod.mk.injEq,
    and_iff_right rfl]
  exact readQuoted_quoted_rest_iff hs rest _

theorem readValue_quoted (p : List Byte) :
    readValue (0x22 :: p) =
      if (readQuoted (MAX_VAR_VALUE - 1) p '"').last ≠ '"' ∧
          (readQuoted (MAX_VAR_VALUE - 1) p '"').text.length < MAX_VAR_VALUE - 1 then none
      else some (readQuoted (MAX_VAR_VALUE - 1) p '"').text := by
  unfold readValue
  rfl

theorem readValue_quoted_eq (hs : s.length < MAX_VAR_VALUE) (rest : List Byte) : readValue (quoted s ++ rest) = some s := by
  rw [quoted_append, readValue_quoted, if_neg (quoted_accepted hs rest), readQuoted_quoted_text hs]

end Read

/-! ## The closing quote -/

/-- The text has a closing quote, or its end is met, and not by a quote, before the room is used up. -/
def EndSeen (outsz : ℕ) (p : List Byte) : Prop :=
  (unquote p).2 = true ∨ ((unquote p).1.length < outsz - 1 ∧ (0x22 :: p).getLast? ≠ some 0x22)

/-- The test for a missing quote finds it just when the end is seen. -/
theorem closed_iff (outsz : ℕ) (p : List Byte) :
    (¬((readQuoted (outsz - 1) p '"').last ≠ '"' ∧ (readQuoted (outsz - 1) p '"').text.length < outsz - 1) →
      (unquote p).2 = true) ↔ EndSeen outsz p := by
  unfold EndSeen
  by_cases hclosed : (unquote p).2 = true
  · exact iff_of_true (fun _ => hclosed) (.inl hclosed)
  rw [or_iff_right hclosed, imp_iff_not hclosed, not_not, readQuoted_text, List.length_take]
  by_cases hroom : (unquote p).1.length < outsz - 1
  · have hlast := readQuoted_last '"' hroom
    rw [if_neg hclosed] at hlast
    rw [hlast, List.getLast?_eq_some_getLast (List.cons_ne_nil _ _), min_eq_right hroom.le, and_iff_left hroom,
      and_iff_right hroom]
    exact (not_congr Option.some_inj).symm
  · rw [min_eq_left (not_lt.mp hroom)]
    exact iff_of_false (fun h => lt_irrefl _ h.2) fun h => hroom h.1

theorem parseOneArg_closed_iff (outsz : ℕ) (p : List Byte) :
    (parseOneArg (0x22 :: p) outsz ≠ none → (unquote p).2 = true) ↔ EndSeen outsz p := by
  rw [← closed_iff, parseOneArg_quoted (List.dropWhile_cons_of_neg (by decide)), ite_ne_left_iff,
    and_iff_left (Option.some_ne_none _).symm]

theorem readValue_closed_iff (p : List Byte) :
    (readValue (0x22 :: p) ≠ none → (unquote p).2 = true) ↔ EndSeen MAX_VAR_VALUE p := by
  rw [← closed_iff, readValue_quoted, ite_ne_left_iff, and_iff_left (Option.some_ne_none _).symm]

/-- A quoted string is read back with its closing quote unless it takes all the room, and what has no closing quote is
refused unless it ends in a quote or takes all the room. -/
theorem quotedOperand_iff {s v : List Byte} {outsz : ℕ} (hs : s.length < outsz) (hv : v.length < MAX_VAR_VALUE)
    (rest p : List Byte) :
    (parseOneArg (quoted s ++ rest) outsz = some (s, rest) ↔ s.length < outsz - 1) ∧
      (readValue (quoted v ++ rest) = some v ∧
          (readQuoted (MAX_VAR_VALUE - 1) (quoted v ++ rest).tail '"').rest = rest ↔ v.length < MAX_VAR_VALUE - 1) ∧
      ((parseOneArg (0x22 :: p) outsz ≠ none → (unquote p).2 = true) ↔ EndSeen outsz p) ∧
      ((readValue (0x22 :: p) ≠ none → (unquote p).2 = true) ↔ EndSeen MAX_VAR_VALUE p) := by
  refine ⟨parseOneArg_quoted_iff hs rest, ?_, parseOneArg_closed_iff outsz p, readValue_closed_iff p⟩
  rw [readValue_quoted_eq hv, and_iff_right rfl, quoted_append]
  exact readQuoted_quoted_rest_iff hv rest _

theorem quotedOperand_iff_a : [(0x61 : Byte)].length < MAX_VAR_VALUE ∧
    (parseOneArg (quoted [0x61] ++ []) MAX_VAR_VALUE = some ([0x61], []) ↔ [(0x61 : Byte)].length < MAX_VAR_VALUE - 1) :=
  ⟨by decide, (quotedOperand_iff (s := [0x61]) (v := []) (by decide) (by decide) [] []).1⟩

/-- A lone quote is taken for a string with its closing quote, and with the last byte of room the closing quote is left. -/
theorem not_quotedOperand :
    (¬∀ p, parseOneArg (0x22 :: p) MAX_VAR_VALUE ≠ none → (unquote p).2 = true) ∧
      ¬∀ s rest, s.length < MAX_VAR_VALUE → parseOneArg (quoted s ++ rest) MAX_VAR_VALUE = some (s, rest) := by
  constructor
  · intro h
    have hseen := (parseOneArg_closed_iff MAX_VAR_VALUE []).mp (h [])
    obtain hclosed | hend := hseen
    · exact absurd hclosed (by decide)
    · exact hend.2 rfl
  · intro h
    have hlength : (List.replicate (MAX_VAR_VALUE - 1) (0x61 : Byte)).length = MAX_VAR_VALUE - 1 := List.length_replicate
    have hlt : (List.replicate (MAX_VAR_VALUE - 1) (0x61 : Byte)).length < MAX_VAR_VALUE := by
      rw [hlength]
      decide
    exact absurd hlength ((parseOneArg_quoted_iff hlt []).mp (h _ [] hlt)).ne

end ValidcTools.Batch
