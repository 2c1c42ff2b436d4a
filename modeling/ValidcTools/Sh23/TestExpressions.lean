import ValidcTools.Sh23.TestCommand

/-! The expressions of `test`, and for which of them `evaluate_expr` finds the truth value. -/
namespace ValidcTools.Sh23

/-! ## Expressions -/

inductive Comparison | eq | ne | lt | le | gt | ge
deriving DecidableEq

namespace Comparison

def word : Comparison → List Byte
  | eq => lit "-eq"
  | ne => lit "-ne"
  | lt => lit "-lt"
  | le => lit "-le"
  | gt => lit "-gt"
  | ge => lit "-ge"

def holds : Comparison → ℤ → ℤ → Bool
  | eq, m, n => decide (m = n)
  | ne, m, n => decide (m ≠ n)
  | lt, m, n => decide (m < n)
  | le, m, n => decide (m ≤ n)
  | gt, m, n => decide (m > n)
  | ge, m, n => decide (m ≥ n)

end Comparison

def signedDecimal (sign digits : List Byte) : ℤ := if sign = lit "-" then -(decimal digits : ℤ) else decimal digits

/-- A decimal integer that is a `long` -/
structure IntegerText where
  blanks : List Byte
  sign : List Byte
  digits : List Byte
  isBlank : ∀ b ∈ blanks, isSpace b = true
  isSign : sign = [] ∨ sign = lit "-" ∨ sign = lit "+"
  hasDigits : digits ≠ []
  isNumber : ∀ d ∈ digits, isDigit d = true
  isLong : -2 ^ 63 ≤ signedDecimal sign digits ∧ signedDecimal sign digits < 2 ^ 63

namespace IntegerText

def text (n : IntegerText) : List Byte := n.blanks ++ n.sign ++ n.digits

def value (n : IntegerText) : ℤ := signedDecimal n.sign n.digits

end IntegerText

section
variable (files : Files)

inductive Primary
  | same (left right : List Byte)
  | differ (left right : List Byte)
  | integers (left : IntegerText) (comparison : Comparison) (right : IntegerText)
  | nonempty (text : List Byte)
  | empty (text : List Byte)
  /-- The primaries about files -/
  | file (op arg : List Byte) (answer : Bool) (h : unaryTest files op arg = some (some answer))
  | word (text : List Byte)

inductive Connective | and | or
deriving DecidableEq

mutual

inductive Factor
  | primary (p : Primary files)
  | not (operand : Factor)
  | group (chain : Chain)

/-- Operands with `-a` and `-o` between them -/
inductive Chain
  | last (operand : Factor)
  | cons (operand : Factor) (connective : Connective) (rest : Chain)

end

end

variable {files : Files}

def Connective.word : Connective → List Byte
  | and => lit "-a"
  | or => lit "-o"

namespace Primary

def words : Primary files → List (List Byte)
  | same left right => [left, lit "=", right]
  | differ left right => [left, lit "!=", right]
  | integers left comparison right => [left.text, comparison.word, right.text]
  | nonempty text => [lit "-n", text]
  | empty text => [lit "-z", text]
  | file op arg _ _ => [op, arg]
  | word text => [text]

def value : Primary files → Bool
  | same left right => decide (left = right)
  | differ left right => decide (left ≠ right)
  | integers left comparison right => comparison.holds left.value right.value
  | nonempty text => decide (text ≠ [])
  | empty text => decide (text = [])
  | file _ _ answer _ => answer
  | word text => decide (text ≠ [])

end Primary

mutual

def Factor.words : Factor files → List (List Byte)
  | .primary p => p.words
  | .not operand => lit "!" :: operand.words
  | .group chain => lit "(" :: (chain.words ++ [lit ")"])

def Chain.words : Chain files → List (List Byte)
  | .last operand => operand.words
  | .cons operand connective rest => operand.words ++ connective.word :: rest.words

end

mutual

def Factor.value : Factor files → Bool
  | .primary p => p.value
  | .not operand => !operand.value
  | .group chain => chain.valueFrom true

/-- The truth value behind operands that `-a` connects to the chain: `-a` binds tighter than `-o`. -/
def Chain.valueFrom : Chain files → Bool → Bool
  | .last operand, left => left && operand.value
  | .cons operand .and rest, left => rest.valueFrom (left && operand.value)
  | .cons operand .or rest, left => left && operand.value || rest.valueFrom true

end

def Chain.value (chain : Chain files) : Bool := chain.valueFrom true

/-! ## Expressions that are evaluated as they are meant -/

def binaryOperators : List (List Byte) :=
  [lit "=", lit "!=", lit "-eq", lit "-ne", lit "-lt", lit "-le", lit "-gt", lit "-ge"]

/-- An expression goes on with these words. -/
def Continues (next : List (List Byte)) : Prop := next.head? = some (lit "-o") ∨ next.head? = some (lit "-a")

/-- The operand of a unary operator that is not taken for an operator, before the words `next` -/
def PlainArg (arg : List Byte) (next : List (List Byte)) : Prop :=
  arg ≠ lit "-o" ∧ arg ≠ lit "-a" ∧ (next = [] ∨ arg ∉ binaryOperators)

/-- The first word of a comparison, and a word on its own -/
def PlainFirst (word : List Byte) : Prop := word ≠ lit "!" ∧ word ≠ lit "("

def Primary.Plain (next : List (List Byte)) : Primary files → Prop
  | .same left _ => PlainFirst left
  | .differ left _ => PlainFirst left
  | .integers _ _ _ => True
  | .nonempty text => PlainArg text next
  | .empty text => PlainArg text next
  | .file _ arg _ _ => PlainArg arg next
  | .word text => PlainFirst text ∧ (next = [] ∨ Continues next)

def Chain.NoOr : Chain files → Prop
  | .last _ => True
  | .cons _ connective rest => connective = .and ∧ rest.NoOr

mutual

def Factor.Plain : Factor files → List (List Byte) → Prop
  | .primary p, next => p.Plain next
  | .not operand, next => operand.Plain next
  | .group chain, next => chain.Plain (lit ")" :: next)

/-- Before the words `next`: only the last operand is negated or in parentheses, and no `-a` is before a `-o`. -/
def Chain.Plain : Chain files → List (List Byte) → Prop
  | .last operand, next => operand.Plain next
  | .cons operand connective rest, next =>
    (∃ p, operand = .primary p ∧ p.Plain (connective.word :: (rest.words ++ next))) ∧
      (connective = .and → rest.NoOr) ∧ rest.Plain next

end

/-! ## Primaries -/

theorem strtolAll_text (n : IntegerText) : strtolAll n.text = some n.value := by
  have hnonblank : ∀ d : Byte, isDigit d = true → isSpace d = false ∧ d ≠ 0x2D ∧ d ≠ 0x2B := forall_byte (by decide)
  obtain ⟨d, ds, hdigits⟩ := List.exists_cons_of_ne_nil n.hasDigits
  obtain ⟨hspace, hminus, hplus⟩ := hnonblank d (n.isNumber d (by rw [hdigits]; exact List.mem_cons_self))
  have hall : n.digits.all isDigit = true := List.all_eq_true.mpr n.isNumber
  have htext : n.text ≠ [] := by
    intro h
    exact n.hasDigits (List.append_eq_nil_iff.mp h).2
  have hdrop : n.text.dropWhile isSpace = n.sign ++ n.digits := by
    rw [IntegerText.text, List.append_assoc, List.dropWhile_append_of_pos n.isBlank]
    rcases n.isSign with hsign | hsign | hsign <;> rw [hsign, hdigits] <;> simp [hspace, lit] <;> decide
  obtain ⟨hlow, hhigh⟩ := n.isLong
  rw [strtolAll, if_neg htext, strtolWhole, hdrop, IntegerText.value]
  rcases n.isSign with hsign | hsign | hsign
  · have hvalue : signedDecimal n.sign n.digits = decimal n.digits := if_neg (by rw [hsign]; decide)
    have hhead : n.digits.head? = some d := by rw [hdigits, List.head?_cons]
    rw [hvalue] at hlow hhigh ⊢
    simp only [hsign, List.nil_append, hhead, Option.some.injEq, hminus, hplus, or_self, if_false]
    rw [if_pos ⟨n.hasDigits, hall⟩, min_eq_left (by omega)]
  · have hvalue : signedDecimal n.sign n.digits = -decimal n.digits := if_pos hsign
    have hhead : (lit "-" ++ n.digits).head? = some 0x2D := rfl
    have htail : (lit "-" ++ n.digits).tail = n.digits := rfl
    rw [hvalue] at hlow hhigh ⊢
    simp only [hsign, hhead, htail, true_or, if_true]
    rw [if_pos ⟨n.hasDigits, hall⟩, max_eq_left (by omega)]
  · have hvalue : signedDecimal n.sign n.digits = decimal n.digits := if_neg (by rw [hsign]; decide)
    have hhead : (lit "+" ++ n.digits).head? = some 0x2B := rfl
    have htail : (lit "+" ++ n.digits).tail = n.digits := rfl
    rw [hvalue] at hlow hhigh ⊢
    simp only [hsign, hhead, htail, or_true, if_true]
    rw [if_pos ⟨n.hasDigits, hall⟩, if_neg (by decide), min_eq_left (by omega)]

theorem text_first (n : IntegerText) : PlainFirst n.text := by
  have hnot : strtolAll (lit "!") = none ∧ strtolAll (lit "(") = none := by decide
  constructor
  · intro h
    have heq := strtolAll_text n
    rw [h, hnot.1] at heq
    cases heq
  · intro h
    have heq := strtolAll_text n
    rw [h, hnot.2] at heq
    cases heq

theorem binaryTest_integers (left : IntegerText) (comparison : Comparison) (right : IntegerText) :
    binaryTest left.text comparison.word right.text = some (some (comparison.holds left.value right.value)) := by
  have hop : binaryTest left.text comparison.word right.text =
      (some comparison.holds).map fun holds =>
        (strtolAll left.text).bind fun num1 => (strtolAll right.text).map fun num2 => holds num1 num2 := by
    cases comparison <;> rfl
  rw [hop, strtolAll_text, strtolAll_text]
  rfl

theorem binaryTest_of_notMem {op : List Byte} (h : op ∉ binaryOperators) (arg1 arg2 : List Byte) :
    binaryTest arg1 op arg2 = none := by
  simp only [binaryOperators, List.mem_cons, List.not_mem_nil, or_false, not_or] at h
  obtain ⟨hsame, hdiffer, heq, hne, hlt, hle, hgt, hge⟩ := h
  rw [binaryTest, if_neg hsame, if_neg hdiffer, integerOperator, if_neg heq, if_neg hne, if_neg hlt, if_neg hle, if_neg hgt,
    if_neg hge]
  rfl

section
variable {files : Files} {name : List Byte} {args : List (List Byte)} {pos : ℕ} {next : List (List Byte)}

theorem primaryExpr_binary {left op right : List Byte} {value : Bool} (hdrop : args.drop pos = [left, op, right] ++ next)
    (hop : op ∈ binaryOperators) (hvalue : binaryTest left op right = some (some value)) :
    primaryExpr files name args pos = some (value, pos + 3) := by
  have hconnective : ∀ op ∈ binaryOperators, op ≠ lit "-o" ∧ op ≠ lit "-a" := by decide
  rw [primaryExpr, hdrop]
  simp only [List.cons_append, List.nil_append, List.head?_cons, Option.bind_some, hvalue, if_pos (hconnective op hop)]
  rfl

theorem primaryExpr_unary {op arg : List Byte} {value : Bool} (hdrop : args.drop pos = [op, arg] ++ next)
    (harg : PlainArg arg next) (hvalue : unaryTest files op arg = some (some value)) :
    primaryExpr files name args pos = some (value, pos + 2) := by
  obtain ⟨hor, hand, hbinary⟩ := harg
  have hnone : (next.head?.bind fun arg2 => binaryTest op arg arg2) = none := by
    rcases hbinary with rfl | hbinary
    · rfl
    · cases next with
      | nil => rfl
      | cons arg2 next => exact binaryTest_of_notMem hbinary op arg2
  rw [primaryExpr, hdrop]
  simp only [List.cons_append, List.nil_append, hnone, hvalue, if_pos (And.intro hor hand)]
  rfl

theorem primaryExpr_word {word : List Byte} (hdrop : args.drop pos = word :: next) (hnext : next = [] ∨ Continues next) :
    primaryExpr files name args pos = some (decide (word ≠ []), pos + 1) := by
  rw [primaryExpr, hdrop]
  cases next with
  | nil => rfl
  | cons connective next =>
    have hstop : ¬(connective ≠ lit "-o" ∧ connective ≠ lit "-a") := by
      rcases hnext with hnil | hor | hand
      · cases hnil
      · exact fun h => h.1 (Option.some.inj hor)
      · exact fun h => h.2 (Option.some.inj hand)
    simp only [if_neg hstop]

/-- A primary is evaluated where the words behind it do not make it another one. -/
theorem primaryExpr_words {p : Primary files} (hdrop : args.drop pos = p.words ++ next) (h : p.Plain next) :
    primaryExpr files name args pos = some (p.value, pos + p.words.length) := by
  cases p with
  | same left right => exact primaryExpr_binary hdrop (by decide) rfl
  | differ left right => exact primaryExpr_binary hdrop (by decide) rfl
  | integers left comparison right =>
    apply primaryExpr_binary hdrop _ (binaryTest_integers left comparison right)
    cases comparison <;> decide
  | nonempty text => exact primaryExpr_unary hdrop h rfl
  | empty text => exact primaryExpr_unary hdrop h rfl
  | file op arg answer hanswer => exact primaryExpr_unary hdrop h hanswer
  | word text => exact primaryExpr_word hdrop h.2

theorem words_first {p : Primary files} (h : p.Plain next) : ∃ word rest, p.words = word :: rest ∧ PlainFirst word := by
  cases p with
  | same left right => exact ⟨left, _, rfl, h⟩
  | differ left right => exact ⟨left, _, rfl, h⟩
  | integers left comparison right => exact ⟨left.text, _, rfl, text_first left⟩
  | nonempty text => exact ⟨lit "-n", _, rfl, by decide, by decide⟩
  | empty text => exact ⟨lit "-z", _, rfl, by decide, by decide⟩
  | file op arg answer hanswer =>
    refine ⟨op, _, rfl, fun hop => ?_, fun hop => ?_⟩
    · rw [hop] at hanswer
      cases hanswer
    · rw [hop] at hanswer
      cases hanswer
  | word text => exact ⟨text, _, rfl, h.1⟩

/-! ## Evaluation -/

theorem drop_words {words : List (List Byte)} (h : args.drop pos = words ++ next) : args.drop (pos + words.length) = next := by
  rw [← List.drop_drop, h, List.drop_left]

theorem drop_word {word : List Byte} (h : args.drop pos = word :: next) : args.drop (pos + 1) = next := by
  rw [← List.tail_drop, h, List.tail_cons]

variable {evaluate : ℕ → ℤ → Option Evaluation} {left : Bool} {status : ℤ} {fuel : ℕ}

theorem connectives_stop (hdrop : args.drop pos = next) (hnext : ¬Continues next) :
    connectives args evaluate (fuel + 1) left pos status = some ⟨left, pos, status⟩ := by
  rw [connectives, hdrop]
  cases next with
  | nil => rfl
  | cons word next =>
    have hor : word ≠ lit "-o" := fun h => hnext (Or.inl (congrArg some h))
    have hand : word ≠ lit "-a" := fun h => hnext (Or.inr (congrArg some h))
    simp only [if_neg hor, if_neg hand]

theorem connectives_or (hdrop : args.drop pos = lit "-o" :: next) (hnext : next ≠ []) :
    connectives args evaluate (fuel + 1) left pos status =
      (evaluate (pos + 1) status).map fun right => { right with result := left || right.result } := by
  rw [connectives, hdrop]
  simp only [if_true, if_neg hnext]

theorem connectives_and (hdrop : args.drop pos = lit "-a" :: next) (hnext : next ≠ []) :
    connectives args evaluate (fuel + 1) left pos status =
      (evaluate (pos + 1) status).bind fun right =>
        if left then connectives args evaluate fuel right.result right.pos right.status
        else some { right with result := false } := by
  have hne : lit "-a" ≠ lit "-o" := by decide
  rw [connectives, hdrop]
  simp only [if_neg hne, if_true, if_neg hnext]

theorem evaluateBody_primary {p : Primary files} (hdrop : args.drop pos = p.words ++ next) (h : p.Plain next) :
    evaluateBody files name args evaluate pos status =
      connectives args evaluate (args.length + 1) p.value (pos + p.words.length) status := by
  obtain ⟨word, rest, hwords, hnot, hgroup⟩ := words_first h
  rw [evaluateBody]
  have hcons : args.drop pos = word :: (rest ++ next) := by rw [hdrop, hwords, List.cons_append]
  rw [primaryExpr_words hdrop h, hcons]
  simp only [if_neg hnot, if_neg hgroup]

theorem evaluateBody_not (hdrop : args.drop pos = lit "!" :: next) (hnext : next ≠ []) :
    evaluateBody files name args evaluate pos status =
      (evaluate (pos + 1) status).map fun r => { r with result := !r.result } := by
  rw [evaluateBody, hdrop]
  simp only [if_true, if_neg hnext]

theorem evaluateBody_group (hdrop : args.drop pos = lit "(" :: next) (hnext : next ≠ []) :
    evaluateBody files name args evaluate pos status =
      (evaluate (pos + 1) status).map fun r =>
        if (args.drop r.pos).head? = some (lit ")") then { r with pos := r.pos + 1 } else ⟨false, r.pos, 2⟩ := by
  have hne : lit "(" ≠ lit "!" := by decide
  rw [evaluateBody, hdrop]
  simp only [if_neg hne, if_true, if_neg hnext]

mutual

theorem Factor.words_ne_nil : (operand : Factor files) → operand.words ≠ []
  | .primary p => by
    rw [Factor.words]
    cases p <;> exact List.cons_ne_nil _ _
  | .not operand => by
    rw [Factor.words]
    exact List.cons_ne_nil _ _
  | .group chain => by
    rw [Factor.words]
    exact List.cons_ne_nil _ _

theorem Chain.words_ne_nil : (chain : Chain files) → chain.words ≠ []
  | .last operand => by
    rw [Chain.words]
    exact operand.words_ne_nil
  | .cons operand connective rest => by
    rw [Chain.words]
    exact List.append_ne_nil_of_right_ne_nil _ (List.cons_ne_nil _ _)

end

/-- Without `-o` the chain is a conjunction. -/
theorem valueFrom_of_noOr : (chain : Chain files) → chain.NoOr → ∀ left, chain.valueFrom left = (left && chain.value)
  | .last operand, _, left => by
    rw [Chain.value, Chain.valueFrom, Chain.valueFrom, Bool.true_and]
  | .cons operand connective rest, h, left => by
    obtain ⟨rfl, hrest⟩ := h
    rw [Chain.value, Chain.valueFrom, Chain.valueFrom, valueFrom_of_noOr rest hrest, valueFrom_of_noOr rest hrest, Bool.true_and,
      Bool.and_assoc]

/-- What `evaluate_expr` makes of these words, without an error -/
def Evaluates (files : Files) (words : List (List Byte)) (value : Bool) (next : List (List Byte)) : Prop :=
  ∀ name args pos fuel status, args.drop pos = words ++ next → words.length ≤ fuel →
    evaluateExpr files name args fuel pos status = some ⟨value, pos + words.length, status⟩

/-- Words are enough fuel for the body of a call. -/
theorem evaluateExpr_body {words : List (List Byte)} (hwords : words ≠ []) (hfuel : words.length ≤ fuel) :
    ∃ depth, words.length ≤ depth + 1 ∧
      evaluateExpr files name args fuel = evaluateBody files name args (evaluateExpr files name args depth) := by
  cases fuel with
  | zero => exact absurd (List.length_eq_zero_iff.mp (Nat.le_zero.mp hfuel)) hwords
  | succ depth => exact ⟨depth, hfuel, rfl⟩

theorem evaluates_primary {p : Primary files} (hnext : ¬Continues next) (h : p.Plain next) :
    Evaluates files p.words p.value next := by
  intro name args pos fuel status hdrop hfuel
  obtain ⟨word, rest, hwords, -⟩ := words_first h
  obtain ⟨depth, -, hbody⟩ := evaluateExpr_body (hwords ▸ List.cons_ne_nil word rest) hfuel
  rw [hbody, evaluateBody_primary hdrop h]
  exact connectives_stop (drop_words hdrop) hnext

theorem evaluates_not {words : List (List Byte)} {value : Bool} (hwords : words ≠ [])
    (h : Evaluates files words value next) : Evaluates files (lit "!" :: words) (!value) next := by
  intro name args pos fuel status hdrop hfuel
  obtain ⟨depth, hdepth, hbody⟩ := evaluateExpr_body (List.cons_ne_nil _ _) hfuel
  have hrest : args.drop (pos + 1) = words ++ next := drop_word hdrop
  rw [hbody, evaluateBody_not hdrop (List.append_ne_nil_of_left_ne_nil hwords next),
    h name args _ depth status hrest (Nat.le_of_succ_le_succ hdepth)]
  simp only [Option.map_some, List.length_cons]
  congr 2
  omega

theorem evaluates_group {words : List (List Byte)} {value : Bool} (h : Evaluates files words value (lit ")" :: next)) :
    Evaluates files (lit "(" :: (words ++ [lit ")"])) value next := by
  intro name args pos fuel status hdrop hfuel
  obtain ⟨depth, hdepth, hbody⟩ := evaluateExpr_body (List.cons_ne_nil _ _) hfuel
  rw [List.cons_append, List.append_assoc, List.singleton_append] at hdrop
  have hrest := drop_word hdrop
  have hlen : words.length ≤ depth := by
    rw [List.length_cons, List.length_append] at hdepth
    omega
  rw [hbody, evaluateBody_group hdrop (by simp), h name args _ depth status hrest hlen, Option.map_some, drop_words hrest]
  simp only [List.head?_cons, if_true, List.length_cons, List.length_append, List.length_nil]
  congr 2
  omega

theorem evaluates_or {p : Primary files} {words : List (List Byte)} {value : Bool} (hwords : words ≠ [])
    (hp : p.Plain (lit "-o" :: (words ++ next))) (h : Evaluates files words value next) :
    Evaluates files (p.words ++ lit "-o" :: words) (p.value || value) next := by
  intro name args pos fuel status hdrop hfuel
  have hne := List.append_ne_nil_of_right_ne_nil p.words (List.cons_ne_nil (lit "-o") words)
  obtain ⟨depth, hdepth, hbody⟩ := evaluateExpr_body hne hfuel
  rw [List.append_assoc, List.cons_append] at hdrop
  have hconnective := drop_words hdrop
  have hrest : args.drop (pos + p.words.length + 1) = words ++ next := drop_word hconnective
  have hlen : words.length ≤ depth := by
    rw [List.length_append, List.length_cons] at hdepth
    omega
  rw [hbody, evaluateBody_primary hdrop hp, connectives_or hconnective (List.append_ne_nil_of_left_ne_nil hwords next),
    h name args _ depth status hrest hlen, Option.map_some, List.length_append, List.length_cons]
  have hpos : pos + (p.words.length + (words.length + 1)) = pos + p.words.length + 1 + words.length := by omega
  rw [hpos]

theorem evaluates_and {p : Primary files} {words : List (List Byte)} {value : Bool} (hwords : words ≠ [])
    (hnext : ¬Continues next) (hp : p.Plain (lit "-a" :: (words ++ next))) (h : Evaluates files words value next) :
    Evaluates files (p.words ++ lit "-a" :: words) (p.value && value) next := by
  intro name args pos fuel status hdrop hfuel
  have hne := List.append_ne_nil_of_right_ne_nil p.words (List.cons_ne_nil (lit "-a") words)
  obtain ⟨depth, hdepth, hbody⟩ := evaluateExpr_body hne hfuel
  rw [List.append_assoc, List.cons_append] at hdrop
  have hconnective := drop_words hdrop
  have hrest : args.drop (pos + p.words.length + 1) = words ++ next := drop_word hconnective
  have hlen : words.length ≤ depth := by
    rw [List.length_append, List.length_cons] at hdepth
    omega
  -- the loop is entered again, and stops behind the words
  obtain ⟨turns, hturns⟩ : ∃ turns, args.length = turns + 1 := by
    cases hargs : args with
    | nil =>
      rw [hargs, List.drop_nil] at hrest
      exact absurd (List.append_eq_nil_iff.mp hrest.symm).1 hwords
    | cons word args => exact ⟨args.length, rfl⟩
  rw [hbody, evaluateBody_primary hdrop hp, connectives_and hconnective (List.append_ne_nil_of_left_ne_nil hwords next),
    h name args _ depth status hrest hlen, Option.bind_some, hturns, connectives_stop (drop_words hrest) hnext,
    List.length_append, List.length_cons]
  have hpos : pos + (p.words.length + (words.length + 1)) = pos + p.words.length + 1 + words.length := by omega
  rw [hpos]
  cases p.value <;> rfl

mutual

theorem Factor.evaluates : (operand : Factor files) → (next : List (List Byte)) → ¬Continues next → operand.Plain next →
    Evaluates files operand.words operand.value next
  | .primary p, next, hnext, h => by
    rw [Factor.words, Factor.value]
    exact evaluates_primary hnext h
  | .not operand, next, hnext, h => by
    rw [Factor.words, Factor.value]
    exact evaluates_not operand.words_ne_nil (operand.evaluates next hnext h)
  | .group chain, next, _, h => by
    have hclose : ¬Continues (lit ")" :: next) := by
      rw [Continues, List.head?_cons]
      decide
    rw [Factor.words, Factor.value]
    exact evaluates_group (chain.evaluates _ hclose h)

theorem Chain.evaluates : (chain : Chain files) → (next : List (List Byte)) → ¬Continues next → chain.Plain next →
    Evaluates files chain.words chain.value next
  | .last operand, next, hnext, h => by
    rw [Chain.words, Chain.value, Chain.valueFrom, Bool.true_and]
    exact operand.evaluates next hnext h
  | .cons operand .or rest, next, hnext, h => by
    obtain ⟨⟨p, rfl, hp⟩, -, hrest⟩ := h
    rw [Chain.words, Chain.value, Chain.valueFrom, Factor.words, Factor.value, Bool.true_and]
    exact evaluates_or rest.words_ne_nil hp (rest.evaluates next hnext hrest)
  | .cons operand .and rest, next, hnext, h => by
    obtain ⟨⟨p, rfl, hp⟩, hor, hrest⟩ := h
    rw [Chain.words, Chain.value, Chain.valueFrom, Factor.words, Factor.value, Bool.true_and,
      valueFrom_of_noOr rest (hor rfl)]
    exact evaluates_and rest.words_ne_nil hnext hp (rest.evaluates next hnext hrest)

end

end

end ValidcTools.Sh23
