import ValidcTools.Bre.Refinement

/-! The grammar of `\{n\}`, `\{n,\}` and `\{n,m\}`, and what `parse_bre_repetition` makes of numbers of any length. -/
namespace ValidcTools.Bre

/-! ## The grammar -/

/-- A number as it is written. -/
structure Number where
  digits : List Byte
  nonempty : digits ≠ []
  isDigits : ∀ d ∈ digits, isDigit d = true

def Number.value (n : Number) : ℕ := decimal n.digits

inductive Braces
  | exactly (n : Number)
  | atLeast (n : Number)
  | between (n m : Number)

namespace Braces

/-- What is written after `\{` -/
def body : Braces → List Byte
  | exactly n => n.digits ++ (['\\', '}'] : List Byte)
  | atLeast n => n.digits ++ ([',', '\\', '}'] : List Byte)
  | between n m => n.digits ++ ([','] : List Byte) ++ m.digits ++ (['\\', '}'] : List Byte)

def text (b : Braces) : List Byte := (['\\', '{'] : List Byte) ++ b.body

/-- `0 <= n <= m <= RE_DUP_MAX` -/
def Valid : Braces → Prop
  | exactly n => n.value ≤ 255
  | atLeast n => n.value ≤ 255
  | between n m => n.value ≤ m.value ∧ m.value ≤ 255

def bounds : Braces → ℤ × ℤ
  | exactly n => (n.value, n.value)
  | atLeast n => (n.value, -1)
  | between n m => (n.value, m.value)

end Braces

def opens (l : List Byte) : Prop := (['\\', '{'] : List Byte) <+: l

/-- The results of `parse_bre_repetition`, as the grammar has them -/
structure ReadsBraces (pat : CString) (pi pend : ℕ) : Prop where
  ok : ∀ rep, parseBreRepetition pat pi pend = .ok rep ↔ ∃ (b : Braces) (rest : List Byte), b.Valid ∧
    pat.slice pi pend = b.text ++ rest ∧ rep = ⟨b.bounds.1, b.bounds.2, pi + b.text.length⟩
  error : parseBreRepetition pat pi pend = .stop .error ↔ opens (pat.slice pi pend) ∧
    ¬∃ (b : Braces) (rest : List Byte), b.Valid ∧ pat.slice pi pend = b.text ++ rest
  noMatch : parseBreRepetition pat pi pend = .noMatch ↔ ¬opens (pat.slice pi pend)

/-! ## Numbers as `int` -/

/-- What `atoi` makes of a number: `strtol` saturates, the cast to `int` wraps. -/
def asInt (n : ℕ) : ℤ := ((min n (2 ^ 63 - 1) : ℕ) : ℤ).bmod (2 ^ 32)

theorem asInt_of_le {n : ℕ} (h : n ≤ 255) : asInt n = n := by
  have hmin : min n (2 ^ 63 - 1) = n := min_eq_left (by omega)
  unfold asInt
  rw [hmin]
  exact Int.bmod_eq_of_le (by omega) (by omega)

/-- The range checks, made on the numbers as `int` -/
def Braces.Passes : Braces → Prop
  | exactly n => asInt n.value ≤ 255
  | atLeast n => asInt n.value ≤ 255
  | between n m => asInt n.value ≤ 255 ∧ asInt m.value ≤ 255 ∧ asInt n.value ≤ asInt m.value

def Braces.intBounds : Braces → ℤ × ℤ
  | exactly n => (asInt n.value, asInt n.value)
  | atLeast n => (asInt n.value, -1)
  | between n m => (asInt n.value, asInt m.value)

/-- No number that is too large passes for another one. -/
def NumbersFit (l : List Byte) : Prop := ∀ (b : Braces) (rest : List Byte), l = b.text ++ rest → b.Passes → b.Valid

theorem Braces.Valid.passes {b : Braces} (h : b.Valid) : b.Passes ∧ b.intBounds = b.bounds := by
  cases b with
  | exactly n | atLeast n =>
    have hn : n.value ≤ 255 := h
    constructor
    · change asInt n.value ≤ 255
      rw [asInt_of_le hn]
      exact_mod_cast hn
    · simp only [intBounds, bounds, asInt_of_le hn]
  | between n m =>
    obtain ⟨hle, hm⟩ := h
    have hn := hle.trans hm
    constructor
    · change asInt n.value ≤ 255 ∧ asInt m.value ≤ 255 ∧ asInt n.value ≤ asInt m.value
      rw [asInt_of_le hn, asInt_of_le hm]
      exact_mod_cast (⟨hn, hm, hle⟩ : n.value ≤ 255 ∧ m.value ≤ 255 ∧ n.value ≤ m.value)
    · simp only [intBounds, bounds, asInt_of_le hn, asInt_of_le hm]

/-! ## Reading -/

namespace Number

variable (n : Number) {c : Byte} (l : List Byte)

theorem atoi_append (hc : isDigit c = false) : atoi (n.digits ++ c :: l) = asInt n.value := by
  unfold atoi
  rw [takeWhile_digits n.isDigits hc l]
  rfl

/-- The digits at the front of a text -/
def front (h : (l.takeWhile isDigit).isEmpty = false) : Number where
  digits := l.takeWhile isDigit
  nonempty := fun hnil => by
    rw [hnil] at h
    cases h
  isDigits := fun _ hd => List.mem_takeWhile_imp hd

end Number

theorem isDigit_backslash : isDigit ('\\' : Char) = false := by decide

theorem isDigit_comma : isDigit (',' : Char) = false := by decide

theorem after_eq_some_iff {p l rest : List Byte} : after p l = some rest ↔ l = p ++ rest := by
  refine ⟨after_eq, ?_⟩
  rintro rfl
  induction p with
  | nil => rfl
  | cons c p ih =>
    rw [List.cons_append, after, if_pos rfl]
    exact ih

/-- A text that has no digits in front is not one number and something after it. -/
theorem Number.ne_append_of_isEmpty {l : List Byte} (n : Number) (x : List Byte)
    (h : (l.takeWhile isDigit).isEmpty = true) : l ≠ n.digits ++ x := by
  rintro rfl
  have hne := n.nonempty
  rw [List.isEmpty_iff, List.takeWhile_append_of_pos n.isDigits, List.append_eq_nil_iff] at h
  exact hne h.1

/-- The closing `\}` is none of a number's digits. -/
theorem after_close_number (n : Number) (x : List Byte) : after ['\\', '}'] (n.digits ++ x) = none := by
  cases h : after ['\\', '}'] (n.digits ++ x) with
  | none => rfl
  | some rest =>
    refine absurd (after_eq h).symm (n.ne_append_of_isEmpty x ?_)
    rw [List.cons_append, List.takeWhile_cons, isDigit_backslash]
    rfl

/-- What is read after `\{n,` -/
theorem bracesMax_eq_ok_iff {min : ℤ} {l rest : List Byte} {q : ℤ × ℤ} :
    bracesMax min l = .ok (q, rest) ↔ (l = (['\\', '}'] : List Byte) ++ rest ∧ q = (min, -1)) ∨
      ∃ m : Number, l = m.digits ++ ((['\\', '}'] : List Byte) ++ rest) ∧ asInt m.value ≤ 255 ∧ min ≤ asInt m.value ∧
        q = (min, asInt m.value) := by
  constructor
  · intro h
    unfold bracesMax at h
    split at h
    · next hclose =>
      obtain ⟨rfl, rfl⟩ := Prod.mk.inj (Res.ok.inj h)
      exact .inl ⟨after_eq hclose, rfl⟩
    · split_ifs at h with hempty hrange
      split at h
      · next hclose =>
        obtain ⟨rfl, rfl⟩ := Prod.mk.inj (Res.ok.inj h)
        rw [not_or, not_lt, not_lt] at hrange
        refine .inr ⟨.front l (Bool.eq_false_of_not_eq_true hempty), ?_, hrange.1, hrange.2, rfl⟩
        rw [← after_eq hclose]
        exact List.takeWhile_append_dropWhile.symm
      · cases h
  · rintro (⟨rfl, rfl⟩ | ⟨m, rfl, hmax, hmin, rfl⟩)
    · unfold bracesMax
      rw [after_eq_some_iff.mpr rfl]
    · have hempty : ¬((m.digits ++ ((['\\', '}'] : List Byte) ++ rest)).takeWhile isDigit).isEmpty = true := fun h =>
        m.ne_append_of_isEmpty _ h rfl
      have hrange : ¬(asInt m.value > breDupMax ∨ min > asInt m.value) := not_or.mpr ⟨not_lt.mpr hmax, not_lt.mpr hmin⟩
      have hclose : after ['\\', '}'] ('\\' :: '}' :: rest) = some rest := after_eq_some_iff.mpr rfl
      unfold bracesMax
      rw [after_close_number, if_neg hempty]
      simp only [List.cons_append, List.nil_append]
      rw [m.atoi_append _ isDigit_backslash, if_neg hrange, dropWhile_digits m.isDigits isDigit_backslash, hclose]

theorem after_close_comma (l : List Byte) : after ['\\', '}'] (',' :: l) = none := by
  rw [after, if_neg (by decide)]

theorem braces_close (n : Number) (rest : List Byte) (hn : asInt n.value ≤ 255) :
    braces (n.digits ++ (('\\' : Char) : Byte) :: (('}' : Char) : Byte) :: rest) =
      .ok ((asInt n.value, asInt n.value), rest) := by
  have hempty : ¬((n.digits ++ (('\\' : Char) : Byte) :: (('}' : Char) : Byte) :: rest).takeWhile
      isDigit).isEmpty = true := fun h => n.ne_append_of_isEmpty _ h rfl
  have hrange : ¬asInt n.value > breDupMax := not_lt.mpr hn
  have hclose : after ['\\', '}'] ((('\\' : Char) : Byte) :: (('}' : Char) : Byte) :: rest) = some rest :=
    after_eq_some_iff.mpr rfl
  unfold braces
  rw [if_neg hempty, n.atoi_append _ isDigit_backslash, if_neg hrange, dropWhile_digits n.isDigits isDigit_backslash, hclose]

theorem braces_comma (n : Number) (l : List Byte) (hn : asInt n.value ≤ 255) :
    braces (n.digits ++ ((',' : Char) : Byte) :: l) = bracesMax (asInt n.value) l := by
  have hempty : ¬((n.digits ++ ((',' : Char) : Byte) :: l).takeWhile isDigit).isEmpty = true := fun h =>
    n.ne_append_of_isEmpty _ h rfl
  have hrange : ¬asInt n.value > breDupMax := not_lt.mpr hn
  have hcomma : after [','] (((',' : Char) : Byte) :: l) = some l := after_eq_some_iff.mpr rfl
  unfold braces
  rw [if_neg hempty, n.atoi_append _ isDigit_comma, if_neg hrange, dropWhile_digits n.isDigits isDigit_comma, after_close_comma,
    hcomma]

/-- What is read after `\{` -/
theorem braces_eq_ok_iff {l rest : List Byte} {q : ℤ × ℤ} :
    braces l = .ok (q, rest) ↔ ∃ b : Braces, l = b.body ++ rest ∧ b.Passes ∧ q = b.intBounds := by
  constructor
  · intro h
    unfold braces at h
    split_ifs at h with hempty hrange
    have hfront : l = (Number.front l (Bool.eq_false_of_not_eq_true hempty)).digits ++ l.dropWhile isDigit :=
      List.takeWhile_append_dropWhile.symm
    have hatoi : atoi l = asInt (Number.front l (Bool.eq_false_of_not_eq_true hempty)).value := rfl
    generalize Number.front l (Bool.eq_false_of_not_eq_true hempty) = n at hfront hatoi
    rw [hatoi] at h hrange
    have hn : asInt n.value ≤ 255 := not_lt.mp hrange
    split at h
    · next hclose =>
      obtain ⟨rfl, rfl⟩ := Prod.mk.inj (Res.ok.inj h)
      refine ⟨.exactly n, ?_, hn, rfl⟩
      rw [Braces.body, List.append_assoc, ← after_eq hclose]
      exact hfront
    · split at h
      · next hcomma =>
        have htail := after_eq hcomma
        rcases bracesMax_eq_ok_iff.mp h with ⟨hrest, rfl⟩ | ⟨m, hrest, hmax, hmin, rfl⟩
        · refine ⟨.atLeast n, ?_, hn, rfl⟩
          rw [Braces.body, List.append_assoc]
          rw [hrest] at htail
          exact hfront.trans (congrArg (n.digits ++ ·) htail)
        · refine ⟨.between n m, ?_, ⟨hn, hmax, hmin⟩, rfl⟩
          rw [Braces.body, List.append_assoc, List.append_assoc, List.append_assoc]
          rw [hrest] at htail
          exact hfront.trans (congrArg (n.digits ++ ·) htail)
      · cases h
  · rintro ⟨b, rfl, hpasses, rfl⟩
    cases b with
    | exactly n =>
      rw [Braces.body, List.append_assoc]
      exact braces_close n rest hpasses
    | atLeast n =>
      rw [Braces.body, List.append_assoc]
      exact (braces_comma n _ hpasses).trans (bracesMax_eq_ok_iff.mpr (.inl ⟨rfl, rfl⟩))
    | between n m =>
      obtain ⟨hn, hmax, hmin⟩ := hpasses
      rw [Braces.body, List.append_assoc, List.append_assoc, List.append_assoc]
      exact (braces_comma n _ hn).trans (bracesMax_eq_ok_iff.mpr (.inr ⟨m, rfl, hmax, hmin, rfl⟩))

theorem braces_cases (l : List Byte) : (∃ q rest, braces l = .ok (q, rest)) ∨ braces l = .stop .error := by
  unfold braces
  split_ifs
  · exact .inr rfl
  · exact .inr rfl
  · split
    · exact .inl ⟨_, _, rfl⟩
    · split
      · next x hcomma =>
        cases h : bracesMax (atoi l) x with
        | ok r => exact .inl ⟨_, _, rfl⟩
        | noMatch =>
          unfold bracesMax at h
          split at h
          · cases h
          · split_ifs at h
            split at h <;> cases h
        | stop s => exact .inr (congrArg Res.stop (bracesMax_stop h))
      · exact .inr rfl

/-! ## The results -/

theorem Number.eq_of_append {n m : Number} {c d : Byte} {x y : List Byte} (hc : isDigit c = false) (hd : isDigit d = false)
    (h : n.digits ++ c :: x = m.digits ++ d :: y) : n = m ∧ c :: x = d :: y := by
  have htake := congrArg (List.takeWhile isDigit) h
  have hdrop := congrArg (List.dropWhile isDigit) h
  rw [takeWhile_digits n.isDigits hc x, takeWhile_digits m.isDigits hd y] at htake
  rw [dropWhile_digits n.isDigits hc x, dropWhile_digits m.isDigits hd y] at hdrop
  obtain ⟨ds, hne, hds⟩ := n
  obtain ⟨ds', hne', hds'⟩ := m
  dsimp only at htake
  subst htake
  exact ⟨rfl, hdrop⟩

/-- The same text is not two quantifiers. -/
theorem Braces.eq_of_append {b b' : Braces} {x y : List Byte} (h : b.text ++ x = b'.text ++ y) : b = b' := by
  unfold text at h
  rw [List.append_assoc, List.append_assoc, List.append_cancel_left_eq] at h
  have hne : ((',' : Char) : Byte) ≠ '\\' := by decide
  cases b with
  | exactly n =>
    cases b' with
    | exactly n' =>
      simp only [body, List.append_assoc] at h
      rw [(Number.eq_of_append isDigit_backslash isDigit_backslash h).1]
    | atLeast n' =>
      simp only [body, List.append_assoc] at h
      exact absurd (List.cons.inj (Number.eq_of_append isDigit_backslash isDigit_comma h).2).1.symm hne
    | between n' m' =>
      simp only [body, List.append_assoc] at h
      exact absurd (List.cons.inj (Number.eq_of_append isDigit_backslash isDigit_comma h).2).1.symm hne
  | atLeast n =>
    cases b' with
    | exactly n' =>
      simp only [body, List.append_assoc] at h
      exact absurd (List.cons.inj (Number.eq_of_append isDigit_comma isDigit_backslash h).2).1 hne
    | atLeast n' =>
      simp only [body, List.append_assoc] at h
      rw [(Number.eq_of_append isDigit_comma isDigit_comma h).1]
    | between n' m' =>
      simp only [body, List.append_assoc] at h
      have hrest := (List.cons.inj (Number.eq_of_append isDigit_comma isDigit_comma h).2).2
      exact absurd hrest (m'.ne_append_of_isEmpty _ rfl)
  | between n m =>
    cases b' with
    | exactly n' =>
      simp only [body, List.append_assoc] at h
      exact absurd (List.cons.inj (Number.eq_of_append isDigit_comma isDigit_backslash h).2).1 hne
    | atLeast n' =>
      simp only [body, List.append_assoc] at h
      have hrest := (List.cons.inj (Number.eq_of_append isDigit_comma isDigit_comma h).2).2
      exact absurd hrest.symm (m.ne_append_of_isEmpty _ rfl)
    | between n' m' =>
      simp only [body, List.append_assoc] at h
      obtain ⟨hn, hrest⟩ := Number.eq_of_append isDigit_comma isDigit_comma h
      rw [hn, (Number.eq_of_append isDigit_backslash isDigit_backslash (List.cons.inj hrest).2).1]

section

variable {pat : CString} {pi pend : ℕ} (hpend : pend ≤ pat.length)

include hpend

theorem parseBreRepetition_eq_noMatch_iff : parseBreRepetition pat pi pend = .noMatch ↔ ¬opens (pat.slice pi pend) := by
  rw [parseBreRepetition_eq hpend, opens]
  cases hopen : after ['\\', '{'] (pat.slice pi pend) with
  | none =>
    refine iff_of_true rfl ?_
    rintro ⟨rest, hrest⟩
    rw [after_eq_some_iff.mpr hrest.symm] at hopen
    cases hopen
  | some l =>
    have hprefix : (['\\', '{'] : List Byte) <+: pat.slice pi pend := ⟨l, (after_eq hopen).symm⟩
    refine iff_of_false ?_ (not_not_intro hprefix)
    dsimp only
    rcases braces_cases l with ⟨q, rest, h⟩ | h
    · rw [h]
      intro hno
      cases hno
    · rw [h]
      intro hno
      cases hno

theorem parseBreRepetition_eq_ok_iff {rep : BreRepetition} :
    parseBreRepetition pat pi pend = .ok rep ↔ ∃ (b : Braces) (rest : List Byte), b.Passes ∧
      pat.slice pi pend = b.text ++ rest ∧ rep = ⟨b.intBounds.1, b.intBounds.2, pi + b.text.length⟩ := by
  have hnext {b : Braces} {rest : List Byte} (h : pat.slice pi pend = b.text ++ rest) :
      pend - rest.length = pi + b.text.length := by
    have hlen := CString.length_slice (i := pi) hpend
    have hpos : 0 < b.text.length := Nat.succ_pos _
    rw [h, List.length_append] at hlen
    omega
  rw [parseBreRepetition_eq hpend]
  constructor
  · intro h
    cases hopen : after ['\\', '{'] (pat.slice pi pend) with
    | none =>
      rw [hopen] at h
      cases h
    | some l =>
      rw [hopen] at h
      dsimp only at h
      rcases braces_cases l with ⟨q, rest, hread⟩ | hread
      · rw [hread] at h
        obtain ⟨b, hl, hpasses, hq⟩ := braces_eq_ok_iff.mp hread
        have hslice : pat.slice pi pend = b.text ++ rest := by
          rw [after_eq hopen, hl, Braces.text, List.append_assoc]
        refine ⟨b, rest, hpasses, hslice, ?_⟩
        rw [← hnext hslice, ← hq]
        exact (Res.ok.inj h).symm
      · rw [hread] at h
        cases h
  · rintro ⟨b, rest, hpasses, hslice, rfl⟩
    have hopen : after ['\\', '{'] (pat.slice pi pend) = some (b.body ++ rest) := by
      rw [after_eq_some_iff, hslice, Braces.text, List.append_assoc]
    rw [hopen]
    dsimp only
    rw [braces_eq_ok_iff.mpr ⟨b, rfl, hpasses, rfl⟩, ← hnext hslice]
    rfl

theorem parseBreRepetition_eq_error_iff : parseBreRepetition pat pi pend = .stop .error ↔ opens (pat.slice pi pend) ∧
    ¬∃ (b : Braces) (rest : List Byte), b.Passes ∧ pat.slice pi pend = b.text ++ rest := by
  constructor
  · intro h
    constructor
    · by_contra hno
      have hnone := (parseBreRepetition_eq_noMatch_iff hpend).mpr hno
      rw [h] at hnone
      cases hnone
    · rintro ⟨b, rest, hpasses, hslice⟩
      have hok := (parseBreRepetition_eq_ok_iff hpend).mpr ⟨b, rest, hpasses, hslice, rfl⟩
      rw [h] at hok
      cases hok
  · rintro ⟨⟨l, hl⟩, hno⟩
    rw [parseBreRepetition_eq hpend, after_eq_some_iff.mpr hl.symm]
    dsimp only
    rcases braces_cases l with ⟨q, rest, hread⟩ | hread
    · obtain ⟨b, rfl, hpasses, -⟩ := braces_eq_ok_iff.mp hread
      refine absurd ⟨b, rest, hpasses, ?_⟩ hno
      rw [← hl, Braces.text, List.append_assoc]
    · rw [hread]
      rfl

/-- The grammar is read exactly, just when no number that is too large passes for another one. -/
theorem readsBraces_iff : ReadsBraces pat pi pend ↔ NumbersFit (pat.slice pi pend) := by
  constructor
  · intro h b rest hslice hpasses
    have hok := (parseBreRepetition_eq_ok_iff hpend).mpr ⟨b, rest, hpasses, hslice, rfl⟩
    obtain ⟨b', rest', hvalid, hslice', -⟩ := (h.ok _).mp hok
    rw [Braces.eq_of_append (hslice.symm.trans hslice')]
    exact hvalid
  · intro hfit
    have hsame : (∃ (b : Braces) (rest : List Byte), b.Passes ∧ pat.slice pi pend = b.text ++ rest) ↔
        ∃ (b : Braces) (rest : List Byte), b.Valid ∧ pat.slice pi pend = b.text ++ rest := by
      constructor
      · rintro ⟨b, rest, hpasses, hslice⟩
        exact ⟨b, rest, hfit b rest hslice hpasses, hslice⟩
      · rintro ⟨b, rest, hvalid, hslice⟩
        exact ⟨b, rest, hvalid.passes.1, hslice⟩
    refine ⟨fun rep => ?_, ?_, parseBreRepetition_eq_noMatch_iff hpend⟩
    · rw [parseBreRepetition_eq_ok_iff hpend]
      constructor
      · rintro ⟨b, rest, hpasses, hslice, rfl⟩
        have hvalid := hfit b rest hslice hpasses
        exact ⟨b, rest, hvalid, hslice, by rw [hvalid.passes.2]⟩
      · rintro ⟨b, rest, hvalid, hslice, rfl⟩
        exact ⟨b, rest, hvalid.passes.1, hslice, by rw [hvalid.passes.2]⟩
    · rw [parseBreRepetition_eq_error_iff hpend, hsame]

end

theorem readsBraces_iff_5 : ReadsBraces (.lit "a\\\x7b5\\\x7dx") 1 7 := by
  have hslice : (CString.lit "a\\\x7b5\\\x7dx").slice 1 7 =
      (Braces.exactly ⟨[0x35], List.cons_ne_nil _ _, List.forall_mem_singleton.mpr (by decide)⟩).text ++ [0x78] := by
    decide
  refine (readsBraces_iff (by decide)).mpr fun b rest h _ => ?_
  rw [hslice] at h
  obtain rfl := Braces.eq_of_append h
  change decimal [0x35] ≤ 255
  decide

set_option maxRecDepth 4000 in
/-- `\{4294967296\}` is read as `\{0\}`. -/
theorem not_readsBraces : ¬ReadsBraces (.lit "\\\x7b4294967296\\\x7d") 0 14 := by
  intro h
  have hread : parseBreRepetition (.lit "\\\x7b4294967296\\\x7d") 0 14 = .ok ⟨0, 0, 14⟩ := by decide
  obtain ⟨b, rest, hvalid, hslice, -⟩ := (h.ok _).mp hread
  have hwritten : (CString.lit "\\\x7b4294967296\\\x7d").slice 0 14 =
      (Braces.exactly ⟨(CString.lit "4294967296").bytes, by decide, by decide⟩).text ++ [] := by
    decide
  rw [hwritten] at hslice
  obtain rfl := Braces.eq_of_append hslice
  exact absurd hvalid (by decide : ¬decimal (CString.lit "4294967296").bytes ≤ 255)

end ValidcTools.Bre
