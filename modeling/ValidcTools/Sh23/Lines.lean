import ValidcTools.Sh23.Lexing
import ValidcTools.Sh23.Substitutions

/-! The main loop of the shell: its input line by line, and as one text. -/
namespace ValidcTools.Sh23

/-! ## The main loop -/

/-- The tokenizer that is left, whatever is returned -/
def Turn.left : Turn → Option Tokenizer
  | .next t _ | .done t | .failed t => some t
  | .overrun => none

/-- `tokenizer_process_line`, which returns 0 in any case: `none` when it reads behind the NUL -/
def processLine (t : Tokenizer) (line : List Byte) : Option Tokenizer :=
  if t.afterHeredocOp then some { t with heredocDelim := some line, afterHeredocOp := false, heredocContent := some [] }
  else
    match t.heredocDelim with
    | some delim =>
      if line = delim then
        some { t.add .word (t.heredocContent.getD []) with heredocDelim := none, heredocContent := none }
      else some (processHeredocContent t delim line)
    | none =>
      if (lit "<<").isPrefixOf line then some ({ t with afterHeredocOp := true }.add .dless (lit "<<"))
      else (processInput t line).left

/-- The tokenizer after `tokenizer_finalize`, whatever that returns -/
def finalized (t : Tokenizer) : Tokenizer :=
  match tokenizerFinalize t with
  | some t => t
  | none => (processHeredoc t []).left.getD t

/-- The loop of `main` over lines that fit its buffer: the tokens that it comes to for each time the input is complete, and
the tokenizer behind them. `tokenizer_clear` makes it as new. -/
def readLines (t : Tokenizer) : List (List Byte) → Option (List (List Token) × Tokenizer)
  | [] => some ([], t)
  | line :: lines =>
    (processLine t line).bind fun t =>
      if t.isComplete then (readLines .create lines).map fun r => ((finalized t).tokens :: r.1, r.2) else readLines t lines

/-! ## Logical lines -/

/-- What is open behind a text: the bytes that close the quotes and substitutions, from the inside out, and whether the text
ends in a backslash, in a comment or in a dollar sign that may begin a substitution -/
@[ext] structure Lexical where
  opened : List Byte
  escaped : Bool
  comment : Bool
  dollar : Bool
deriving DecidableEq

namespace Lexical

def start : Lexical := ⟨[], false, false, false⟩

def close (s : Lexical) : Lexical := { s with opened := s.opened.tail, dollar := false }

def push (s : Lexical) (closing : Byte) : Lexical := { s with opened := closing :: s.opened, dollar := false }

/-- One more byte -/
def next (s : Lexical) (c : Byte) : Lexical :=
  if s.escaped then { s with escaped := false }
  else if s.comment then { s with comment := decide (c ≠ 0x0A) }
  else if c = '\\' ∧ s.opened.head? ≠ some 0x27 then { s with escaped := true, dollar := false }
  else if s.opened.head? = some c then s.close
  else if s.opened.head? = some 0x27 ∨ s.opened.head? = some 0x22 then s
  else if c = 0x27 ∨ c = 0x22 ∨ c = 0x60 then s.push c
  else if c = 0x28 ∧ (s.dollar ∨ s.opened.head? = some 0x29) then s.push 0x29
  else if c = 0x7B ∧ s.dollar then s.push 0x7D
  else if c = '#' ∧ s.opened = [] then { s with comment := true, dollar := false }
  else { s with dollar := decide (c = 0x24) }

def after (s : Lexical) (text : List Byte) : Lexical := text.foldl next s

/-- Nothing is open but a comment, which the end of the line ends. -/
def Closed (s : Lexical) : Prop := s.opened = [] ∧ s.escaped = false

/-- No operator of a here-document is outside quotes, substitutions and comments. -/
def NoHeredoc (s : Lexical) (text : List Byte) : Prop :=
  ∀ before behind, text = before ++ lit "<<" ++ behind → ¬((s.after before).Closed ∧ (s.after before).comment = false)

end Lexical

/-- The lines as one text -/
def joinLines (lines : List (List Byte)) : List Byte := [0x0A].intercalate lines

/-- A logical line: nothing is open behind it, and something is behind each of its physical lines but the last. -/
def IsLogicalLine (lines : List (List Byte)) : Prop :=
  lines ≠ [] ∧ (Lexical.start.after (joinLines lines)).Closed ∧
    ∀ first, first ≠ [] → first <+: lines → first ≠ lines → ¬(Lexical.start.after (joinLines first)).Closed

def withoutNewlines (ts : List Token) : List Token := ts.filter fun token => decide (token.type ≠ .newline)

/-- The main loop delivers each logical line once, with the tokens of its text as one input. -/
def FeedsAlike (t : Tokenizer) : List (List (List Byte)) → Prop
  | [] => True
  | lines :: rest => ∃ delivered ts t', readLines t lines = some ([delivered], t') ∧ tokenize (joinLines lines) = some ts ∧
      withoutNewlines delivered = withoutNewlines ts ∧ FeedsAlike t' rest

/-! ## A line, and a text that begins with it -/

/-- The turn ends the loop without the end of the input. -/
def Turn.Stuck : Turn → Prop
  | .failed _ | .overrun => True
  | _ => False

/-- The turn when so much follows on the input -/
def Turn.extend (q : List Byte) : Turn → Turn
  | .next t p => .next t (p ++ q)
  | .done t => .next t q
  | turn => turn

/-- The tokenizer between lines without here-documents -/
structure Tokenizer.Normal (t : Tokenizer) : Prop where
  heredocDelim : t.heredocDelim = none
  afterHeredocOp : t.afterHeredocOp = false
  inBacktick : t.inBacktick = false

theorem absurd_of_false {b : Bool} {P : Prop} (hfalse : b = false) (h : b = true) : P :=
  absurd (hfalse.symm.trans h) Bool.false_ne_true

section
variable {t t' : Tokenizer} {c : Byte} {p q r rest : List Byte}

theorem takeAll_stuck (t : Tokenizer) (p : List Byte) : (takeAll t p).Stuck := by
  obtain h | ⟨t', h⟩ := takeAll_cases t p <;> rw [h] <;> trivial

theorem isPrefixOf_extend {w : List Byte} (hw : 0x0A ∉ w) (p r : List Byte) :
    w.isPrefixOf (p ++ 0x0A :: r) = w.isPrefixOf p := by
  induction w generalizing p with
  | nil => simp
  | cons b w ih =>
    obtain ⟨hb, hw⟩ := not_or.mp (mt List.mem_cons.mpr hw)
    cases p with
    | nil => simp [List.isPrefixOf, Ne.symm hb]
    | cons c p =>
      rw [List.cons_append, List.isPrefixOf_cons_cons, List.isPrefixOf_cons_cons, ih hw]

theorem takeWhile_extend {f : Byte → Bool} (hf : f 0x0A = false) (p r : List Byte) :
    (p ++ 0x0A :: r).takeWhile f = p.takeWhile f ∧ (p ++ 0x0A :: r).dropWhile f = p.dropWhile f ++ 0x0A :: r := by
  induction p with
  | nil => simp [hf]
  | cons c p ih =>
    obtain ⟨htake, hdrop⟩ := ih
    cases hc : f c with
    | true => simp [hc, htake, hdrop]
    | false => simp [hc]

theorem appendNext_extend : appendNext t c (p ++ q) = (appendNext t c p).extend q := by
  unfold appendNext
  split <;> rfl

theorem operators_newline (op : String × TokenType) (hop : op ∈ operators) : 0x0A ∉ lit op.1 :=
  fun h => absurd (operators_bytes op hop _ h) (by decide)

theorem processOperator_extend (t : Tokenizer) (p r : List Byte) :
    processOperator t (p ++ 0x0A :: r) = (processOperator t p).extend (0x0A :: r) := by
  unfold processOperator
  have hfind : (operators.find? fun op => (lit op.1).isPrefixOf (p ++ 0x0A :: r)) = operators.find? fun op => (lit op.1).isPrefixOf p :=
    List.find?_congr fun op hop => isPrefixOf_extend (operators_newline op hop) p r
  rw [hfind]
  cases h : operators.find? fun op => (lit op.1).isPrefixOf p with
  | none => rfl
  | some op =>
    have hbegins : lit op.1 <+: p :=
      List.isPrefixOf_iff_prefix.mp (List.find?_some (p := fun op : String × TokenType => (lit op.1).isPrefixOf p) h)
    dsimp only [Turn.extend]
    rw [List.drop_append_of_le_length hbegins.length_le]

theorem finalizeCurrent_normal (h : t.Normal) : t.finalizeCurrent.Normal := by
  unfold Tokenizer.finalizeCurrent
  split
  · exact h
  · exact ⟨h.heredocDelim, h.afterHeredocOp, h.inBacktick⟩

theorem processBlank_normal (h : t.Normal) : processBlank t c rest =
    .next (if c = 0x0A then { t.finalizeCurrent.add .newline [0x0A] with isFirstWord := true } else t.finalizeCurrent) rest := by
  rw [processBlank, if_neg]
  rw [h.afterHeredocOp]
  exact fun h => Bool.false_ne_true h.2

/-- Two turns that end alike, or are stuck alike, with more input for the second -/
def Extends (q : List Byte) (a b : Turn) : Prop := b = a.extend q ∨ a.Stuck ∧ b.Stuck

theorem processDparen_stuck (t : Tokenizer) (p : List Byte) : (processDparen t p).Stuck := by
  unfold processDparen
  split <;> exact takeAll_stuck _ _

theorem processArith_stuck (t : Tokenizer) (p : List Byte) : (processArith t p).Stuck := by
  unfold processArith
  split <;> exact takeAll_stuck _ _

theorem processParam_stuck (t : Tokenizer) (p : List Byte) : (processParam t p).Stuck := by
  unfold processParam
  split <;> exact takeAll_stuck _ _

theorem processBacktick_stuck (h : t.Normal) (p : List Byte) : (processBacktick t p).Stuck := by
  rw [processBacktick, h.inBacktick]
  exact takeAll_stuck _ _

theorem processPlain_extend (h : t.Normal) (c : Byte) (p r : List Byte) :
    Extends (0x0A :: r) (processPlain t c p) (processPlain t c (p ++ 0x0A :: r)) := by
  have hbegins {w : List Byte} (hw : 0x0A ∉ w) : w.isPrefixOf (c :: (p ++ 0x0A :: r)) = w.isPrefixOf (c :: p) :=
    isPrefixOf_extend hw (c :: p) r
  unfold processPlain
  rw [hbegins (by decide), hbegins (by decide), hbegins (by decide)]
  split_ifs with hspace hhash hdparen harith hparam htick hop htilde
  · rw [processBlank_normal h, processBlank_normal h]
    exact .inl rfl
  · refine .inl ?_
    obtain ⟨htake, hdrop⟩ := takeWhile_extend (f := fun b => decide (b ≠ 0x0A)) (by decide) (c :: p) r
    rw [List.cons_append] at htake hdrop
    unfold processComment
    rw [htake, hdrop]
    dsimp only
    split_ifs <;> rfl
  · exact .inr ⟨processDparen_stuck _ _, processDparen_stuck _ _⟩
  · exact .inr ⟨processArith_stuck _ _, processArith_stuck _ _⟩
  · exact .inr ⟨processParam_stuck _ _, processParam_stuck _ _⟩
  · exact .inr ⟨processBacktick_stuck (finalizeCurrent_normal h) _, processBacktick_stuck (finalizeCurrent_normal h) _⟩
  · exact .inl (processOperator_extend t.finalizeCurrent (c :: p) r)
  · refine .inl ?_
    obtain ⟨htake, hdrop⟩ := takeWhile_extend (f := fun c => isAlnum c || decide (c ∈ lit "_+-")) (by decide) p r
    unfold processTilde
    dsimp only
    rw [htake, hdrop]
    split_ifs <;> rfl
  · exact .inl appendNext_extend

/-- Behind a backslash at the end of the line the loop goes on with what follows. -/
theorem turn_extend (h : t.Normal) (c : Byte) (p r : List Byte) :
    Extends (0x0A :: r) (turn t c p) (turn t c (p ++ 0x0A :: r)) := by
  unfold turn
  rw [h.heredocDelim]
  dsimp only
  split_ifs with hescaped hslash hnil hnil' hnil' hquote hdquote hquoted
  · refine .inl ?_
    split <;> rfl
  · simp at hnil'
  · subst hnil
    exact .inl rfl
  · simp at hnil'
  · exact .inl rfl
  · exact .inl appendNext_extend
  · exact .inl appendNext_extend
  · exact .inl appendNext_extend
  · exact processPlain_extend h c p r

end

/-! ## The tokenizer and what is open -/

/-- The tokenizer is within quotes and escapes as the text so far leaves them, in front of the text `p`. -/
structure Tracks (t : Tokenizer) (s : Lexical) (p : List Byte) : Prop where
  normal : t.Normal
  currentToken : 0x0A ∉ t.currentToken
  escaped : s.escaped = t.escaped
  opened : s.opened = if t.inQuotes then [0x27] else if t.inDquotes then [0x22] else []
  inQuotes : t.inQuotes = true → t.inDquotes = false
  comment : s.comment = true → p = []
  dollar : s.dollar = true → s.Closed ∧ ∀ b ∈ p.head?, b ≠ 0x28 ∧ b ≠ 0x7B

/-- The bytes that begin quotes, escapes, comments and substitutions in backquotes -/
def isSpecial (c : Byte) : Bool := (lit "\\'\"`#").contains c

section
variable {t t' : Tokenizer} {s : Lexical} {c : Byte} {p w : List Byte}

theorem next_plain (hs : s.Closed) (hcomment : s.comment = false) (hc : isSpecial c = false)
    (hdollar : s.dollar = true → c ≠ 0x28 ∧ c ≠ 0x7B) : s.next c = { s with dollar := decide (c = 0x24) } := by
  obtain ⟨opened, escaped, comment, dollar⟩ := s
  obtain ⟨rfl, rfl⟩ : opened = [] ∧ escaped = false := hs
  obtain rfl : comment = false := hcomment
  have hne {b : Byte} (hb : isSpecial b = true) : c ≠ b := by
    rintro rfl
    exact Bool.false_ne_true (hc.symm.trans hb)
  have hslash : c ≠ Char.toUInt8 '\\' := hne (by decide)
  have hhash : c ≠ Char.toUInt8 '#' := hne (by decide)
  have hquote : c ≠ 0x27 := hne (by decide)
  have hdquote : c ≠ 0x22 := hne (by decide)
  have htick : c ≠ 0x60 := hne (by decide)
  cases dollar with
  | false => simp [Lexical.next, hslash, hhash, hquote, hdquote, htick]
  | true =>
    obtain ⟨hparen, hbrace⟩ := hdollar rfl
    simp [Lexical.next, hslash, hhash, hquote, hdquote, htick, hparen, hbrace]

theorem after_plain (hs : s.Closed) (hcomment : s.comment = false) (hw : ∀ b ∈ c :: w, isSpecial b = false ∧ b ≠ 0x24)
    (hdollar : s.dollar = true → c ≠ 0x28 ∧ c ≠ 0x7B) : s.after (c :: w) = { s with dollar := false } := by
  induction w generalizing s c with
  | nil =>
    obtain ⟨hc, hne⟩ := hw c List.mem_cons_self
    rw [Lexical.after, List.foldl_cons, next_plain hs hcomment hc hdollar, decide_eq_false hne]
    rfl
  | cons b w ih =>
    obtain ⟨⟨hc, hne⟩, hw⟩ := List.forall_mem_cons.mp hw
    rw [Lexical.after, List.foldl_cons, next_plain hs hcomment hc hdollar, decide_eq_false hne]
    exact ih hs hcomment hw (absurd_of_false rfl)

theorem after_comment (hcomment : s.comment = true) (hescaped : s.escaped = false) (hp : 0x0A ∉ p) : s.after p = s := by
  induction p with
  | nil => rfl
  | cons c p ih =>
    obtain ⟨hc, hp⟩ := not_or.mp (mt List.mem_cons.mpr hp)
    have hnext : s.next c = s := by
      rw [Lexical.next, if_neg (by simp [hescaped]), if_pos hcomment, decide_eq_true (Ne.symm hc), ← hcomment]
    rw [Lexical.after, List.foldl_cons, hnext]
    exact ih hp

theorem after_comment_line (hs : s.Closed) (hcomment : s.comment = false) (hc : c = Char.toUInt8 '#') (hp : 0x0A ∉ p) :
    s.after (c :: p) = { s with comment := true, dollar := false } := by
  obtain ⟨opened, escaped, comment, dollar⟩ := s
  obtain ⟨rfl, rfl⟩ : opened = [] ∧ escaped = false := hs
  obtain rfl : comment = false := hcomment
  have hnext : Lexical.next ⟨[], false, false, dollar⟩ c = ⟨[], false, true, false⟩ := by
    rw [hc]
    cases dollar <;> rfl
  rw [Lexical.after, List.foldl_cons, hnext]
  exact after_comment rfl rfl hp

/-- Outside quotes and escapes -/
structure Tokenizer.Unquoted (t : Tokenizer) : Prop where
  inQuotes : t.inQuotes = false
  inDquotes : t.inDquotes = false
  escaped : t.escaped = false

theorem finalizeCurrent_unquoted (h : t.Unquoted) : t.finalizeCurrent.Unquoted := by
  unfold Tokenizer.finalizeCurrent
  split
  · exact h
  · exact ⟨h.inQuotes, h.inDquotes, h.escaped⟩

theorem Tracks.of_unquoted (hnormal : t.Normal) (hunquoted : t.Unquoted) (hcurrent : 0x0A ∉ t.currentToken) (hs : s.Closed)
    (hcomment : s.comment = true → p = []) (hdollar : s.dollar = true → ∀ b ∈ p.head?, b ≠ 0x28 ∧ b ≠ 0x7B) : Tracks t s p where
  normal := hnormal
  currentToken := hcurrent
  escaped := hs.2.trans hunquoted.escaped.symm
  opened := by rw [hs.1, hunquoted.inQuotes, hunquoted.inDquotes]; rfl
  inQuotes := fun _ => hunquoted.inDquotes
  comment := hcomment
  dollar := fun h => ⟨hs, hdollar h⟩

theorem Tracks.closed (h : Tracks t s p) (hunquoted : t.Unquoted) : s.Closed := by
  refine ⟨?_, h.escaped.trans hunquoted.escaped⟩
  rw [h.opened, hunquoted.inQuotes, hunquoted.inDquotes]
  rfl

/-- The turn is stuck, or passes over a part of the line and is within the same quotes and escapes behind it. -/
def Follows (s : Lexical) (p : List Byte) (turn : Turn) : Prop :=
  turn.Stuck ∨ ∃ t' w p', (turn = .next t' p' ∨ turn = .done t' ∧ p' = []) ∧ p = w ++ p' ∧ Tracks t' (s.after w) p'

set_option maxRecDepth 8192 in
theorem operators_plain (op : String × TokenType) (hop : op ∈ operators) :
    ∀ c ∈ lit op.1, isSpecial c = false ∧ c ≠ 0x24 := by
  have hbytes : ∀ c ∈ ([0x26, 0x7C, 0x3B, 0x3C, 0x3E, 0x28, 0x29, 0x2D] : List Byte), isSpecial c = false ∧ c ≠ 0x24 := by
    decide
  exact fun c hc => hbytes c (operators_bytes op hop c hc)

theorem processOperator_follows (hnormal : t.Normal) (hunquoted : t.Unquoted) (hs : s.Closed) (hcomment : s.comment = false)
    (hdollar : s.dollar = true → ∀ b ∈ p.head?, b ≠ 0x28 ∧ b ≠ 0x7B) (hdoc : s.NoHeredoc p) : Follows s p (processOperator t p) := by
  unfold processOperator
  split
  · exact .inl trivial
  · next text type hfind =>
    have hmem := List.mem_of_find?_eq_some hfind
    have hbegins : lit text <+: p :=
      List.isPrefixOf_iff_prefix.mp (List.find?_some (p := fun op : String × TokenType => (lit op.1).isPrefixOf p) hfind)
    have hdocument : ¬lit "<<" <+: p := by
      rintro ⟨behind, rfl⟩
      exact hdoc [] behind rfl ⟨hs, hcomment⟩
    have htype : type ∉ [TokenType.dless, .dlessdash] := by
      refine operators_document _ hmem (fun heq => hdocument ?_) fun heq => hdocument ?_
      · exact heq ▸ hbegins
      · exact (show lit "<<" <+: lit "<<-" by decide).trans (heq ▸ hbegins)
    obtain ⟨q, rfl⟩ := hbegins
    refine .inr ⟨t.afterOperator (text, type), lit text, q, .inl ?_, rfl, ?_⟩
    · rw [List.drop_left]
      rfl
    · cases htext : lit text with
      | nil => exact absurd htext (operators_ne_nil _ hmem)
      | cons c w =>
        rw [after_plain hs hcomment (htext ▸ operators_plain _ hmem) fun h => hdollar h c (by simp [htext])]
        refine .of_unquoted ⟨hnormal.heredocDelim, decide_eq_false htype, hnormal.inBacktick⟩
          ⟨hunquoted.inQuotes, hunquoted.inDquotes, hunquoted.escaped⟩ ?_ hs (absurd_of_false hcomment) (absurd_of_false rfl)
        exact operators_newline _ hmem

theorem appendNext_follows {u : Tokenizer} (h : c < 0x80 → Tracks { u with currentToken := u.currentToken ++ [c] } (s.next c) p) :
    Follows s (c :: p) (appendNext u c p) := by
  by_cases hc : c < 0x80
  · rw [appendNext_ascii hc]
    exact .inr ⟨_, [c], p, .inl rfl, rfl, h hc⟩
  · rw [appendNext_other hc]
    exact .inl trivial

set_option maxRecDepth 8192 in
theorem plain_of {f : Byte → Bool} (hf : ∀ b ∈ lit "\\'\"`#$", f b = false) (hc : f c = true) : isSpecial c = false ∧ c ≠ 0x24 := by
  have hmem : c ∉ lit "\\'\"`#$" := fun h => Bool.false_ne_true ((hf c h).symm.trans hc)
  have hsubset : ∀ b ∈ lit "\\'\"`#", b ∈ lit "\\'\"`#$" := by decide
  constructor
  · rw [isSpecial, List.contains_eq_mem]
    exact decide_eq_false fun h => hmem (hsubset c h)
  · rintro rfl
    exact hmem (by decide)

set_option maxRecDepth 8192 in
theorem processPlain_follows (h : Tracks t s (c :: p)) (hunquoted : t.Unquoted) (hquotes : c ∉ lit "'\"\\") (hnl : 0x0A ∉ c :: p)
    (hdoc : s.NoHeredoc (c :: p)) : Follows s (c :: p) (processPlain t c p) := by
  have hs := h.closed hunquoted
  have hcomment : s.comment = false := Bool.eq_false_iff.mpr fun hcomment => List.cons_ne_nil _ _ (h.comment hcomment)
  have hnormal := finalizeCurrent_normal h.normal
  have hunquoted' := finalizeCurrent_unquoted hunquoted
  have hcurrent : 0x0A ∉ t.finalizeCurrent.currentToken := by
    rw [finalizeCurrent_currentToken]
    exact List.not_mem_nil
  have hdollar (hd : s.dollar = true) : c ≠ 0x28 ∧ c ≠ 0x7B := (h.dollar hd).2 c rfl
  have hc : c ≠ 0x0A := fun heq => hnl (by simp [heq])
  unfold processPlain
  split_ifs with hspace hhash hdparen harith hparam htick hop htilde
  · rw [processBlank_normal h.normal, if_neg hc]
    refine .inr ⟨_, [c], p, .inl rfl, rfl, ?_⟩
    rw [after_plain hs hcomment (List.forall_mem_singleton.mpr (plain_of (by decide) hspace)) hdollar]
    exact .of_unquoted hnormal hunquoted' hcurrent hs (absurd_of_false hcomment) (absurd_of_false rfl)
  · -- the comment is all that is left of the line
    have hall : ∀ b ∈ c :: p, decide (b ≠ 0x0A) = true := fun b hb => decide_eq_true fun heq => hnl (heq ▸ hb)
    unfold processComment
    rw [List.dropWhile_eq_nil_iff.mpr hall]
    dsimp only
    split_ifs
    · exact .inl trivial
    · refine .inr ⟨_, c :: p, [], .inl rfl, (List.append_nil _).symm, ?_⟩
      rw [after_comment_line hs hcomment hhash fun h => hnl (List.mem_cons_of_mem c h)]
      exact .of_unquoted ⟨hnormal.heredocDelim, hnormal.afterHeredocOp, hnormal.inBacktick⟩
        ⟨hunquoted'.inQuotes, hunquoted'.inDquotes, hunquoted'.escaped⟩ hcurrent hs (fun _ => rfl) (absurd_of_false rfl)
  · exact .inl (processDparen_stuck _ _)
  · exact .inl (processArith_stuck _ _)
  · exact .inl (processParam_stuck _ _)
  · exact .inl (processBacktick_stuck hnormal _)
  · exact processOperator_follows hnormal hunquoted' hs hcomment (fun hd => (h.dollar hd).2) hdoc
  · obtain ⟨rfl, -⟩ := htilde
    unfold processTilde
    dsimp only
    split_ifs
    · exact .inl trivial
    · refine .inr ⟨_, 0x7E :: p.takeWhile fun c => isAlnum c || decide (c ∈ lit "_+-"), _, .inl rfl, ?_, ?_⟩
      · rw [List.cons_append, List.takeWhile_append_dropWhile]
        rfl
      · rw [after_plain hs hcomment ?_ fun _ => by decide]
        · exact .of_unquoted ⟨h.normal.heredocDelim, h.normal.afterHeredocOp, h.normal.inBacktick⟩
            ⟨hunquoted.inQuotes, hunquoted.inDquotes, hunquoted.escaped⟩ h.currentToken hs
            (absurd_of_false hcomment) (absurd_of_false rfl)
        · refine List.forall_mem_cons.mpr ⟨by decide, fun b hb => ?_⟩
          exact plain_of (by decide) (List.mem_takeWhile_imp hb)
  · refine appendNext_follows fun _ => ?_
    have hplain : isSpecial c = false := by
      refine Bool.eq_false_iff.mpr fun hspecial => ?_
      have hcases : ∀ b ∈ lit "\\'\"`#", b ∈ lit "'\"\\" ∨ b = 0x60 ∨ b = Char.toUInt8 '#' := by decide
      obtain hquote | rfl | rfl := hcases c (List.contains_iff_mem.mp hspecial)
      · exact hquotes hquote
      · exact htick rfl
      · exact hhash rfl
    rw [next_plain hs hcomment hplain hdollar]
    refine .of_unquoted ⟨h.normal.heredocDelim, h.normal.afterHeredocOp, h.normal.inBacktick⟩
      ⟨hunquoted.inQuotes, hunquoted.inDquotes, hunquoted.escaped⟩ ?_ hs (absurd_of_false hcomment) fun hd b hb => ?_
    · rw [List.mem_append, List.mem_singleton]
      exact not_or.mpr ⟨h.currentToken, Ne.symm hc⟩
    · obtain rfl := of_decide_eq_true hd
      cases p with
      | nil => cases hb
      | cons d p =>
        obtain rfl : d = b := Option.some.inj hb
        constructor
        · rintro rfl
          exact hdparen rfl
        · rintro rfl
          exact hparam rfl

theorem turn_outside (h : t.heredocDelim = none) : turn t c p =
    if t.escaped then
      match t.append c with
      | none => .failed t
      | some t => .next { t with escaped := false } p
    else if c = '\\' ∧ !t.inQuotes then
      if p = [] then .done { t with escaped := true } else .next { t with escaped := true } p
    else if c = 0x27 ∧ !t.inDquotes then appendNext { t with inQuotes := !t.inQuotes } c p
    else if c = 0x22 ∧ !t.inQuotes then appendNext { t with inDquotes := !t.inDquotes } c p
    else if t.inQuotes ∨ t.inDquotes then appendNext t c p
    else processPlain t c p := by
  unfold turn
  split
  · next heq => cases h.symm.trans heq
  · rfl

theorem appendNext_quoted {u : Tokenizer} (hnormal : u.Normal) (hcurrent : 0x0A ∉ u.currentToken ++ [c]) (hescaped : u.escaped = false)
    (hquotes : u.inQuotes = true → u.inDquotes = false)
    (hnext : s.next c = ⟨if u.inQuotes then [0x27] else if u.inDquotes then [0x22] else [], false, false, false⟩) :
    Follows s (c :: p) (appendNext u c p) := by
  refine appendNext_follows fun _ => ?_
  rw [hnext]
  exact ⟨⟨hnormal.heredocDelim, hnormal.afterHeredocOp, hnormal.inBacktick⟩, hcurrent, hescaped.symm, rfl, hquotes,
    (absurd_of_false rfl), absurd_of_false rfl⟩

set_option maxRecDepth 8192 in
/-- Each turn on the line stays within the same quotes and escapes as the text. -/
theorem turn_follows (h : Tracks t s (c :: p)) (hnl : 0x0A ∉ c :: p) (hdoc : s.NoHeredoc (c :: p)) : Follows s (c :: p) (turn t c p) := by
  have hcurrent : 0x0A ∉ t.currentToken ++ [c] := by
    rw [List.mem_append, List.mem_singleton]
    exact not_or.mpr ⟨h.currentToken, fun heq => hnl (by simp [heq])⟩
  have hnormal := h.normal
  have hopened := h.opened
  have hescape := h.escaped
  have hcomment : s.comment = false := Bool.eq_false_iff.mpr fun hcomment => List.cons_ne_nil _ _ (h.comment hcomment)
  have hdollar : s.opened ≠ [] ∨ s.escaped = true → s.dollar = false := by
    refine fun hinside => Bool.eq_false_iff.mpr fun hd => ?_
    obtain ⟨hnil, hfalse⟩ := (h.dollar hd).1
    obtain hne | htrue := hinside
    · exact hne hnil
    · exact Bool.false_ne_true (hfalse.symm.trans htrue)
  rw [turn_outside hnormal.heredocDelim]
  by_cases hescaped : t.escaped = true
  · rw [if_pos hescaped]
    by_cases hc : c < 0x80
    · rw [Tokenizer.append, if_pos hc]
      refine .inr ⟨_, [c], p, .inl rfl, rfl, ?_⟩
      have hnext : s.after [c] = { s with escaped := false } := if_pos (hescape.trans hescaped)
      rw [hnext]
      exact ⟨⟨hnormal.heredocDelim, hnormal.afterHeredocOp, hnormal.inBacktick⟩, hcurrent, rfl, hopened, h.inQuotes,
        (absurd_of_false hcomment), absurd_of_false (hdollar (.inr (hescape.trans hescaped)))⟩
    · rw [Tokenizer.append, if_neg hc]
      exact .inl trivial
  rw [if_neg hescaped]
  have hescaped : t.escaped = false := Bool.eq_false_iff.mpr hescaped
  have hs : s = ⟨if t.inQuotes then [0x27] else if t.inDquotes then [0x22] else [], false, false, s.dollar⟩ := by
    rw [← hopened]
    exact Lexical.ext rfl (hescape.trans hescaped) hcomment rfl
  have htracks (hslash : c = '\\' ∧ !t.inQuotes) : Tracks { t with escaped := true } (s.after [c]) p := by
    obtain ⟨rfl, hquotes⟩ := hslash
    have hquotes : t.inQuotes = false := by simpa using hquotes
    have hnext : s.after [Char.toUInt8 '\\'] = ⟨s.opened, true, false, false⟩ := by
      rw [hopened]
      conv_lhs => rw [hs]
      rw [hquotes]
      cases t.inDquotes <;> rfl
    rw [hnext]
    exact ⟨⟨hnormal.heredocDelim, hnormal.afterHeredocOp, hnormal.inBacktick⟩, h.currentToken, rfl, hopened, h.inQuotes,
      (absurd_of_false rfl), absurd_of_false rfl⟩
  split_ifs with hslash hnil hquote hdquote hquoted
  · refine .inr ⟨_, [c], p, .inr ⟨rfl, hnil⟩, rfl, ?_⟩
    exact htracks hslash
  · refine .inr ⟨_, [c], p, .inl rfl, rfl, ?_⟩
    exact htracks hslash
  · -- a quote opens, or closes
    obtain ⟨rfl, hdquotes⟩ := hquote
    have hdquotes : t.inDquotes = false := by simpa using hdquotes
    refine appendNext_quoted ⟨hnormal.heredocDelim, hnormal.afterHeredocOp, hnormal.inBacktick⟩ hcurrent hescaped (fun _ => hdquotes) ?_
    rw [hs, hdquotes]
    cases t.inQuotes <;> cases s.dollar <;> rfl
  · obtain ⟨rfl, hquotes⟩ := hdquote
    have hquotes : t.inQuotes = false := by simpa using hquotes
    refine appendNext_quoted ⟨hnormal.heredocDelim, hnormal.afterHeredocOp, hnormal.inBacktick⟩ hcurrent hescaped
      (absurd_of_false hquotes) ?_
    rw [hs, hquotes]
    cases t.inDquotes <;> cases s.dollar <;> rfl
  · refine appendNext_quoted hnormal hcurrent hescaped h.inQuotes ?_
    have hd : s.dollar = false := hdollar (.inl ?_)
    · rw [hs, hd]
      cases hquotes : t.inQuotes with
      | true =>
        have hc : c ≠ 0x27 := fun heq => hquote ⟨heq, by simp [h.inQuotes hquotes]⟩
        simp [Lexical.next, Ne.symm hc]
      | false =>
        have hdquotes : t.inDquotes = true := by simpa [hquotes] using hquoted
        have hc : c ≠ 0x22 := fun heq => hdquote ⟨heq, by simp [hquotes]⟩
        have hc' : c ≠ Char.toUInt8 '\\' := fun heq => hslash ⟨heq, by simp [hquotes]⟩
        simp [Lexical.next, hdquotes, Ne.symm hc, hc']
    · rw [hopened]
      cases hquotes : t.inQuotes with
      | true => simp
      | false =>
        have hdquotes : t.inDquotes = true := by simpa [hquotes] using hquoted
        simp [hdquotes]
  · obtain ⟨hquotes, hdquotes⟩ : t.inQuotes = false ∧ t.inDquotes = false := by simpa using hquoted
    refine processPlain_follows h ⟨hquotes, hdquotes, hescaped⟩ ?_ hnl hdoc
    have hcases : ∀ b ∈ lit "'\"\\", b = 0x27 ∨ b = 0x22 ∨ b = Char.toUInt8 '\\' := by decide
    intro hc
    obtain rfl | rfl | rfl := hcases c hc
    · exact hquote ⟨rfl, by simp [hdquotes]⟩
    · exact hdquote ⟨rfl, by simp [hquotes]⟩
    · exact hslash ⟨rfl, by simp [hquotes]⟩

theorem after_append (s : Lexical) (w p : List Byte) : s.after (w ++ p) = (s.after w).after p := List.foldl_append

theorem Lexical.NoHeredoc.behind (h : s.NoHeredoc (w ++ p)) : (s.after w).NoHeredoc p := by
  rintro before behind rfl
  rw [← after_append]
  exact h (w ++ before) behind (by simp only [List.append_assoc])

theorem Lexical.NoHeredoc.before (h : s.NoHeredoc (w ++ p)) : s.NoHeredoc w := by
  rintro before behind rfl
  exact h before (behind ++ p) (by simp only [List.append_assoc])

theorem processInput_stuck {rest : List Byte} (h : (turn t c rest).Stuck) : (processInput t (c :: rest)).Stuck := by
  rw [processInput_cons]
  split
  · next heq =>
    rw [heq] at h
    exact h.elim
  · exact h

/-- The loop comes to the end of the line alike when more input follows, and within the quotes and escapes of the line. -/
theorem processInput_follows (h : Tracks t s p) (hnl : 0x0A ∉ p) (hdoc : s.NoHeredoc p) (r : List Byte) :
    (processInput t p).Stuck ∧ (processInput t (p ++ 0x0A :: r)).Stuck ∨
      ∃ t', processInput t p = .done t' ∧ processInput t (p ++ 0x0A :: r) = processInput t' (0x0A :: r) ∧ Tracks t' (s.after p) [] := by
  induction hlen : p.length using Nat.strong_induction_on generalizing t s p with
  | h n ih =>
    cases p with
    | nil => exact .inr ⟨t, by rw [processInput], rfl, h⟩
    | cons c rest =>
      have hextend := turn_extend h.normal c rest r
      obtain hstuck | ⟨t', w, p', hturn, hsplit, htracks⟩ := turn_follows h hnl hdoc
      · refine .inl ⟨processInput_stuck hstuck, processInput_stuck ?_⟩
        change (turn t c (rest ++ 0x0A :: r)).Stuck
        obtain heq | ⟨-, hstuck'⟩ := hextend
        · rw [heq]
          cases hturn : turn t c rest with
          | next | done =>
            rw [hturn] at hstuck
            exact hstuck.elim
          | failed | overrun => trivial
        · exact hstuck'
      · obtain hnext | ⟨hdone, rfl⟩ := hturn
        · have hlt : p'.length < n := by
            have := turn_rest hnext
            rw [← hlen, List.length_cons]
            omega
          have hextended : turn t c (rest ++ 0x0A :: r) = .next t' (p' ++ 0x0A :: r) := by
            obtain heq | ⟨hstuck, -⟩ := hextend
            · rw [heq, hnext]
              rfl
            · rw [hnext] at hstuck
              exact hstuck.elim
          have hnl' : 0x0A ∉ p' := fun hmem => hnl (hsplit ▸ List.mem_append_right w hmem)
          have hrest := ih p'.length hlt htracks hnl' (hsplit ▸ hdoc).behind rfl
          rw [List.cons_append, processInput_cons, processInput_cons, hnext, hextended, hsplit, after_append]
          exact hrest
        · have hextended : turn t c (rest ++ 0x0A :: r) = .next t' (0x0A :: r) := by
            obtain heq | ⟨hstuck, -⟩ := hextend
            · rw [heq, hdone]
              rfl
            · rw [hdone] at hstuck
              exact hstuck.elim
          refine .inr ⟨t', ?_, ?_, ?_⟩
          · rw [processInput_cons, hdone]
          · rw [List.cons_append, processInput_cons, hextended]
          · rw [hsplit, List.append_nil]
            exact htracks

end

/-! ## The next token -/

/-- From one state to the other the current token grows by bytes of the input, or tokens follow, the first of them with the text
of the current token, if it has any. -/
def Emits (input : List Byte) (t t' : Tokenizer) : Prop :=
  (t'.tokens = t.tokens ∧ (∃ w, t'.currentToken = t.currentToken ++ w ∧ (0x0A ∈ w → 0x0A ∈ input)) ∧
      t'.heredocDelim = t.heredocDelim ∧ t'.afterHeredocOp = t.afterHeredocOp) ∨
    ∃ first more, t'.tokens = t.tokens ++ first :: more ∧
      (t.currentToken ≠ [] → first.text = t.currentToken ∧ first.type ≠ .newline) ∧
      (t.currentToken = [] → (0x0A ∈ first.text ∨ first.type = .newline) → 0x0A ∈ input)

/-- What a turn leads to is so, and it goes on with a part of the input. -/
def Turn.Emits (input : List Byte) (t : Tokenizer) : Turn → Prop
  | .next t' p => Sh23.Emits input t t' ∧ p <:+ input
  | .done t' | .failed t' => Sh23.Emits input t t'
  | .overrun => True

section
variable {t t' : Tokenizer} {c : Byte} {p q rest input : List Byte}

theorem Emits.refl : Emits input t t := .inl ⟨rfl, ⟨[], (List.append_nil _).symm, fun h => absurd h List.not_mem_nil⟩, rfl, rfl⟩

theorem Emits.tokens (h : Emits input t t') : t.tokens <+: t'.tokens := by
  obtain ⟨htokens, -⟩ | ⟨first, more, htokens, -⟩ := h
  · rw [htokens]
  · exact ⟨first :: more, htokens.symm⟩

/-- A token that is added where the current token is empty -/
theorem Emits.add (hempty : t.currentToken = []) {token : Token} (htoken : 0x0A ∈ token.text ∨ token.type = .newline → 0x0A ∈ input)
    (htokens : t'.tokens = t.tokens ++ [token]) : Emits input t t' :=
  .inr ⟨token, [], htokens, fun h => absurd hempty h, fun _ => htoken⟩

theorem Emits.of_finalizeCurrent (h : Emits input t.finalizeCurrent t') : Emits input t t' := by
  by_cases hempty : t.currentToken = []
  · rwa [Tokenizer.finalizeCurrent, if_pos hempty] at h
  · obtain ⟨more, hmore⟩ := h.tokens
    rw [Tokenizer.finalizeCurrent, if_neg hempty] at hmore
    refine .inr ⟨⟨if isKeyword t.currentToken then .keyword else .word, t.currentToken⟩, more, ?_, fun _ => ⟨rfl, ?_⟩,
      fun h => absurd h hempty⟩
    · rw [← hmore, Tokenizer.add, List.append_assoc]
      rfl
    · dsimp only
      split_ifs <;> decide

theorem Turn.Emits.of_finalizeCurrent {turn : Turn} (h : turn.Emits input t.finalizeCurrent) : turn.Emits input t := by
  cases turn with
  | next => exact ⟨h.1.of_finalizeCurrent, h.2⟩
  | done | failed => exact Sh23.Emits.of_finalizeCurrent h
  | overrun => trivial

theorem appendNext_emits (t : Tokenizer) (c : Byte) (rest : List Byte) : (appendNext t c rest).Emits (c :: rest) t := by
  by_cases hc : c < 0x80
  · rw [appendNext_ascii hc]
    refine ⟨.inl ⟨rfl, ⟨[c], rfl, fun h => ?_⟩, rfl, rfl⟩, List.suffix_cons c rest⟩
    exact List.mem_singleton.mp h ▸ List.mem_cons_self
  · rw [appendNext_other hc]
    exact .refl

theorem takeAll_failed (h : takeAll t p = .failed t') : t'.tokens = t.tokens ∧
    (∃ w, t'.currentToken = t.currentToken ++ w ∧ (0x0A ∈ w → 0x0A ∈ p)) ∧ t'.heredocDelim = t.heredocDelim ∧
      t'.afterHeredocOp = t.afterHeredocOp := by
  induction p generalizing t with
  | nil => cases h
  | cons c p ih =>
    unfold takeAll Tokenizer.append at h
    by_cases hc : c < 0x80
    · rw [if_pos hc] at h
      obtain ⟨htokens, ⟨w, hw, hnl⟩, hdelim, hop⟩ := ih h
      refine ⟨htokens, ⟨c :: w, hw.trans (List.append_assoc _ _ _), fun hmem => ?_⟩, hdelim, hop⟩
      obtain rfl | hmem := List.mem_cons.mp hmem
      · exact List.mem_cons_self
      · exact List.mem_cons_of_mem c (hnl hmem)
    · rw [if_neg hc] at h
      cases h
      exact ⟨rfl, ⟨[], (List.append_nil _).symm, fun h => absurd h List.not_mem_nil⟩, rfl, rfl⟩

theorem openWith_emits {opening : List Byte} (hopening : 0x0A ∉ opening) (t : Tokenizer) (p : List Byte) :
    (openWith t opening p).Emits p t := by
  unfold openWith
  obtain hover | ⟨t', hfailed⟩ := takeAll_cases { t with currentToken := t.currentToken ++ opening } (p.drop opening.length)
  · rw [hover]
    trivial
  · rw [hfailed]
    obtain ⟨htokens, ⟨w, hw, hnl⟩, hdelim, hop⟩ := takeAll_failed hfailed
    refine .inl ⟨htokens, ⟨opening ++ w, hw.trans (List.append_assoc _ _ _), fun hmem => ?_⟩, hdelim, hop⟩
    exact List.mem_of_mem_drop (hnl ((List.mem_append.mp hmem).resolve_left hopening))

/-- Where a blank or an operator ends the token, the current token is empty already. -/
theorem processComment_emits (hempty : t.currentToken = []) (p : List Byte) : (processComment t p).Emits p t := by
  unfold processComment
  dsimp only
  split_ifs
  · exact .refl
  · refine ⟨.add hempty ?_ rfl, List.dropWhile_suffix _⟩
    rintro (hmem | hnewline)
    · exact List.takeWhile_subset _ hmem
    · cases hnewline

theorem processOperator_emits (hempty : t.currentToken = []) (p : List Byte) : (processOperator t p).Emits p t := by
  unfold processOperator
  split
  · exact .refl
  · next text type hfind =>
    have hmem := List.mem_of_find?_eq_some hfind
    refine ⟨.add hempty (fun h => ?_) rfl, List.drop_suffix _ _⟩
    obtain hnl | hnewline := h
    · exact absurd hnl (operators_newline _ hmem)
    · have hne : ∀ op ∈ operators, op.2 ≠ TokenType.newline := by decide
      exact absurd hnewline (hne _ hmem)

/-- What `process_heredoc` leaves, with more tokens behind the delimiter -/
theorem Emits.delimiter (hcurrent : t.currentToken ≠ []) (more : List Token)
    (h : t'.tokens = t.tokens ++ ⟨.heredocDelim, t.currentToken⟩ :: more) : Emits input t t' :=
  .inr ⟨⟨.heredocDelim, t.currentToken⟩, more, h, fun _ => ⟨rfl, show TokenType.heredocDelim ≠ .newline by decide⟩,
    fun h => absurd h hcurrent⟩

/-- The delimiter is a token, also when it is refused. -/
theorem processHeredoc_tokens (hcurrent : t.currentToken ≠ []) (p : List Byte) :
    (∃ t', processHeredoc t p = .failed t' ∧ t'.tokens = t.tokens ++ [⟨.heredocDelim, t.currentToken⟩]) ∨
      ∃ t' q, processHeredoc t p = .next t' q ∧ t'.tokens = t.tokens ++ [⟨.heredocDelim, t.currentToken⟩] ∧ q <:+ p := by
  unfold processHeredoc
  rw [if_neg hcurrent]
  dsimp only
  split
  · exact .inl ⟨_, rfl, rfl⟩
  · next c q hq =>
    split_ifs
    · exact .inr ⟨_, q, rfl, rfl, (List.suffix_cons c q).trans (hq ▸ List.dropWhile_suffix _)⟩
    · exact .inl ⟨_, rfl, rfl⟩

theorem processBacktick_emits (hempty : t.currentToken = []) (p : List Byte) : (processBacktick t p).Emits p t := by
  unfold processBacktick
  split_ifs
  · refine ⟨.add hempty (fun h => ?_) rfl, List.drop_suffix _ _⟩
    rw [hempty] at h
    exact absurd h (by decide)
  · exact openWith_emits (t := { t with inBacktick := true }) (by decide) p

theorem processBlank_emits (t : Tokenizer) (c : Byte) (rest : List Byte) : (processBlank t c rest).Emits (c :: rest) t := by
  unfold processBlank
  by_cases hdocument : t.currentToken ≠ [] ∧ t.afterHeredocOp = true
  · rw [if_pos hdocument]
    obtain ⟨t', hfailed, htokens⟩ | ⟨t', q, hnext, htokens, hsuffix⟩ := processHeredoc_tokens hdocument.1 (c :: rest)
    · rw [hfailed]
      exact .delimiter hdocument.1 [] htokens
    · rw [hnext]
      cases q with
      | nil => trivial
      | cons d q =>
        refine ⟨?_, (List.suffix_cons d q).trans hsuffix⟩
        split_ifs
        · refine .delimiter hdocument.1 [⟨.newline, [0x0A]⟩] ?_
          rw [Tokenizer.add, htokens, List.append_assoc]
          rfl
        · exact .delimiter hdocument.1 [] htokens
  · rw [if_neg hdocument]
    refine Turn.Emits.of_finalizeCurrent ⟨?_, List.suffix_cons c rest⟩
    split_ifs with hc
    · exact .add (finalizeCurrent_currentToken t) (fun _ => hc ▸ List.mem_cons_self) rfl
    · exact .refl

theorem processPlain_emits (t : Tokenizer) (c : Byte) (rest : List Byte) : (processPlain t c rest).Emits (c :: rest) t := by
  have hempty := finalizeCurrent_currentToken t
  unfold processPlain
  split_ifs with hspace hhash hdparen harith hparam htick hop htilde
  · exact processBlank_emits t c rest
  · exact (processComment_emits hempty _).of_finalizeCurrent
  · refine Turn.Emits.of_finalizeCurrent ?_
    unfold processDparen
    split_ifs <;> exact openWith_emits (t := { t.finalizeCurrent with parenDepthDparen := _ }) (by decide) _
  · refine Turn.Emits.of_finalizeCurrent ?_
    unfold processArith
    split_ifs <;> exact openWith_emits (t := { t.finalizeCurrent with parenDepthArith := _ }) (by decide) _
  · refine Turn.Emits.of_finalizeCurrent ?_
    unfold processParam
    split_ifs <;> exact openWith_emits (t := { t.finalizeCurrent with braceDepthParam := _ }) (by decide) _
  · exact (processBacktick_emits hempty _).of_finalizeCurrent
  · exact (processOperator_emits hempty _).of_finalizeCurrent
  · obtain ⟨rfl, hempty⟩ := htilde
    unfold processTilde
    dsimp only
    split_ifs
    · exact .refl
    · refine ⟨.add hempty (fun h => ?_) rfl, (List.dropWhile_suffix _).trans (List.suffix_cons _ rest)⟩
      obtain hnl | hnewline := h
      · obtain hnl | hnl := List.mem_cons.mp hnl
        · exact absurd hnl (by decide)
        · exact List.mem_cons_of_mem _ (List.takeWhile_subset _ hnl)
      · cases hnewline
  · exact appendNext_emits t c rest

theorem turn_emits (h : t.heredocDelim = none) (c : Byte) (rest : List Byte) : (turn t c rest).Emits (c :: rest) t := by
  rw [turn_outside h]
  split_ifs
  · have happend := appendNext_emits t c rest
    unfold appendNext at happend
    cases hc : t.append c with
    | none =>
      rw [hc] at happend
      exact happend
    | some u =>
      rw [hc] at happend
      exact happend
  · exact .refl
  · exact ⟨.refl, List.suffix_cons c rest⟩
  · exact appendNext_emits _ c rest
  · exact appendNext_emits _ c rest
  · exact appendNext_emits t c rest
  · exact processPlain_emits t c rest

theorem Turn.Emits.left {turn : Turn} (h : turn.Emits input t) (hleft : turn.left = some t') : Sh23.Emits input t t' := by
  cases turn with
  | next =>
    cases hleft
    exact h.1
  | done | failed =>
    cases hleft
    exact h
  | overrun => cases hleft

theorem processHeredocContent_tokens (t : Tokenizer) (delim input : List Byte) :
    t.tokens <+: (processHeredocContent t delim input).tokens := by
  unfold processHeredocContent
  dsimp only
  generalize (if input.getLast? = some 0x0A then input.dropLast else input) = line
  split_ifs
  · exact List.prefix_append _ _
  · exact List.prefix_rfl
  · exact List.prefix_rfl
  · exact List.prefix_rfl

/-- Every turn keeps the tokens that are there. -/
theorem turn_tokens (h : (turn t c rest).left = some t') : t.tokens <+: t'.tokens := by
  cases hdelim : t.heredocDelim with
  | none => exact ((turn_emits hdelim c rest).left h).tokens
  | some delim =>
    unfold turn at h
    rw [hdelim] at h
    cases h
    exact processHeredocContent_tokens t delim (c :: rest)

theorem processInput_tokens (h : (processInput t p).left = some t') : t.tokens <+: t'.tokens := by
  fun_induction processInput t p with
  | case1 t =>
    cases h
    exact List.prefix_rfl
  | case2 t c rest t₁ rest' hturn ih => exact (turn_tokens (congrArg Turn.left hturn)).trans (ih h)
  | case3 t c rest hne => exact turn_tokens h

theorem turn_suffix (h : turn t c rest = .next t' q) : q <:+ c :: rest := by
  cases hdelim : t.heredocDelim with
  | none =>
    have hemits := turn_emits hdelim c rest
    rw [h] at hemits
    exact hemits.2
  | some delim =>
    unfold turn at h
    rw [hdelim] at h
    cases h

/-- The first token behind so many tokens, or the current one as long as there is none, has a newline in it, or has none. -/
def NextToken (newline : Bool) (before : List Token) (t : Tokenizer) : Prop :=
  (t.tokens = before ∧ (0x0A ∈ t.currentToken ↔ newline = true) ∧ t.heredocDelim = none ∧ t.afterHeredocOp = false) ∨
    ∃ first more, t.tokens = before ++ first :: more ∧ (0x0A ∈ first.text ↔ newline = true) ∧ first.type ≠ .newline

variable {newline : Bool} {before : List Token}

theorem NextToken.of_tokens {first : Token} {more : List Token} (htokens : t.tokens = before ++ first :: more)
    (hnl : 0x0A ∈ first.text ↔ newline = true) (htype : first.type ≠ .newline) (hgrows : t.tokens <+: t'.tokens) :
    NextToken newline before t' := by
  obtain ⟨more', hmore⟩ := hgrows
  refine .inr ⟨first, more ++ more', ?_, hnl, htype⟩
  rw [← hmore, htokens, List.append_assoc, List.cons_append]

theorem turn_nextToken (h : NextToken newline before t) (hinput : newline = false → 0x0A ∉ c :: rest)
    (hleft : (turn t c rest).left = some t') : NextToken newline before t' := by
  obtain ⟨rfl, hcurrent, hdelim, hop⟩ | ⟨first, more, htokens, hnl, htype⟩ := h
  · obtain ⟨htokens', ⟨w, hw, hwnl⟩, hdelim', hop'⟩ | ⟨first, more, htokens', hnonempty, hempty⟩ :=
      (turn_emits hdelim c rest).left hleft
    · refine .inl ⟨htokens', ?_, hdelim'.trans hdelim, hop'.trans hop⟩
      rw [hw, List.mem_append, hcurrent]
      cases newline with
      | true => simp
      | false => simpa using fun hmem => hinput rfl (hwnl hmem)
    · refine .inr ⟨first, more, htokens', ?_⟩
      by_cases hcur : t.currentToken = []
      · cases newline with
        | true => simp [hcur] at hcurrent
        | false =>
          have hno := mt (hempty hcur) (hinput rfl)
          exact ⟨by simpa using fun h => hno (.inl h), fun h => hno (.inr h)⟩
      · obtain ⟨htext, htype⟩ := hnonempty hcur
        exact ⟨htext ▸ hcurrent, htype⟩
  · exact .of_tokens htokens hnl htype (turn_tokens hleft)

theorem processInput_nextToken (h : NextToken newline before t) (hinput : newline = false → 0x0A ∉ p)
    (hleft : (processInput t p).left = some t') : NextToken newline before t' := by
  fun_induction processInput t p with
  | case1 t =>
    cases hleft
    exact h
  | case2 t c rest t₁ rest' hturn ih =>
    exact ih (turn_nextToken h hinput (congrArg Turn.left hturn)) (fun hfalse hmem => hinput hfalse ((turn_suffix hturn).subset hmem)) hleft
  | case3 t c rest hne => exact turn_nextToken h hinput hleft

theorem processLine_tokens {line : List Byte} (h : processLine t line = some t') : t.tokens <+: t'.tokens := by
  unfold processLine at h
  by_cases hop : t.afterHeredocOp = true
  · rw [if_pos hop] at h
    cases h
    exact List.prefix_rfl
  · rw [if_neg hop] at h
    cases hdelim : t.heredocDelim with
    | some delim =>
      rw [hdelim] at h
      dsimp only at h
      split_ifs at h
      · cases h
        exact List.prefix_append _ _
      · cases h
        exact processHeredocContent_tokens t delim line
    | none =>
      rw [hdelim] at h
      dsimp only at h
      split_ifs at h
      · cases h
        exact List.prefix_append _ _
      · exact processInput_tokens h

theorem processLine_nextToken {line : List Byte} (h : NextToken false before t) (hline : 0x0A ∉ line)
    (hprocess : processLine t line = some t') : NextToken false before t' := by
  obtain ⟨rfl, hcurrent, hdelim, hop⟩ | ⟨first, more, htokens, hnl, htype⟩ := h
  · rw [processLine, hop, hdelim, if_neg Bool.false_ne_true] at hprocess
    dsimp only at hprocess
    split_ifs at hprocess
    · cases hprocess
      exact .inr ⟨⟨.dless, lit "<<"⟩, [], rfl, by decide, by decide⟩
    · exact processInput_nextToken (.inl ⟨rfl, hcurrent, hdelim, hop⟩) (fun _ => hline) hprocess
  · exact .of_tokens htokens hnl htype (processLine_tokens hprocess)

/-! ### Texts of tokens -/

def textsOf (ts : List Token) : List (List Byte) := (withoutNewlines ts).map Token.text

theorem textsOf_append (a b : List Token) : textsOf (a ++ b) = textsOf a ++ textsOf b := by
  rw [textsOf, withoutNewlines, List.filter_append, List.map_append]
  rfl

theorem textsOf_cons {token : Token} (h : token.type ≠ .newline) (ts : List Token) : textsOf (token :: ts) = token.text :: textsOf ts := by
  rw [textsOf, withoutNewlines, List.filter_cons_of_pos (by simpa using h), List.map_cons]
  rfl

theorem wordType_ne_newline (text : List Byte) (next : Option Token) : wordType text next ≠ .newline := by
  unfold wordType
  dsimp only
  split_ifs <;> decide

theorem textsOf_classify (ts : List Token) : textsOf (classify ts) = textsOf ts := by
  induction ts with
  | nil => rfl
  | cons token ts ih =>
    rw [classify]
    by_cases hword : token.type = .word
    · rw [if_pos hword, textsOf_cons (wordType_ne_newline _ _), textsOf_cons (by rw [hword]; decide), ih]
    · rw [if_neg hword]
      change textsOf ([token] ++ classify ts) = textsOf ([token] ++ ts)
      rw [textsOf_append, textsOf_append, ih]

theorem finalizeCurrent_tokens (t : Tokenizer) : t.tokens <+: t.finalizeCurrent.tokens := by
  unfold Tokenizer.finalizeCurrent
  split
  · exact List.prefix_rfl
  · exact List.prefix_append _ _

theorem tokenizerFinalize_tokens (h : tokenizerFinalize t = some t') :
    t.isComplete = true ∧ t'.tokens = classify t.finalizeCurrent.tokens := by
  unfold tokenizerFinalize at h
  split_ifs at h with hcomplete hop
  cases h
  exact ⟨by simpa using hcomplete, rfl⟩

theorem finalized_tokens (t : Tokenizer) : ∃ ts, t.tokens <+: ts ∧ textsOf (finalized t).tokens = textsOf ts := by
  unfold finalized
  cases hfinal : tokenizerFinalize t with
  | some t' => exact ⟨_, finalizeCurrent_tokens t, by rw [(tokenizerFinalize_tokens hfinal).2, textsOf_classify]⟩
  | none =>
    by_cases hempty : t.currentToken = []
    · rw [processHeredoc, if_pos hempty]
      exact ⟨_, List.prefix_rfl, rfl⟩
    · obtain ⟨t', hfailed, htokens⟩ | ⟨t', q, hnext, htokens, -⟩ := processHeredoc_tokens hempty []
      · rw [hfailed]
        exact ⟨_, htokens ▸ List.prefix_append _ _, rfl⟩
      · rw [hnext]
        exact ⟨_, htokens ▸ List.prefix_append _ _, rfl⟩

/-- The texts begin with those of before, and go on with one that has a newline, or has none. -/
def NextText (newline : Bool) (before : List Token) (ts : List Token) : Prop :=
  (newline = false ∧ textsOf ts = textsOf before) ∨
    ∃ text more, textsOf ts = textsOf before ++ text :: more ∧ (0x0A ∈ text ↔ newline = true)

theorem finalized_nextText (h : NextToken newline before t) (hcomplete : t.isComplete = true) :
    NextText newline before (finalized t).tokens := by
  obtain ⟨rfl, hcurrent, -, hop⟩ | ⟨first, more, htokens, hnl, htype⟩ := h
  · have hfinal : tokenizerFinalize t = some { t.finalizeCurrent with tokens := classify t.finalizeCurrent.tokens } := by
      rw [tokenizerFinalize, if_neg (by simp [hcomplete]), if_neg (by simp [hop])]
    have htexts : textsOf (finalized t).tokens = textsOf t.finalizeCurrent.tokens := by
      rw [finalized, hfinal]
      exact textsOf_classify _
    unfold NextText
    rw [htexts, Tokenizer.finalizeCurrent]
    by_cases hempty : t.currentToken = []
    · rw [if_pos hempty]
      refine .inl ⟨?_, rfl⟩
      simpa [hempty] using hcurrent
    · rw [if_neg hempty]
      refine .inr ⟨t.currentToken, [], ?_, hcurrent⟩
      rw [Tokenizer.add, textsOf_append, textsOf_cons]
      · rfl
      · dsimp only
        split_ifs <;> decide
  · obtain ⟨ts, ⟨more', rfl⟩, htexts⟩ := finalized_tokens t
    refine .inr ⟨first.text, textsOf (more ++ more'), ?_, hnl⟩
    rw [htexts, htokens, List.append_assoc, List.cons_append, textsOf_append, textsOf_cons htype]

theorem NextText.disagree {a b : List Token} (ha : NextText false before a) (hb : NextText true before b) :
    withoutNewlines a ≠ withoutNewlines b := by
  intro heq
  have htexts : textsOf a = textsOf b := congrArg (List.map Token.text) heq
  obtain ⟨hfalse, -⟩ | ⟨text, more, hb, hnl⟩ := hb
  · cases hfalse
  · obtain ⟨-, ha⟩ | ⟨text', more', ha, hnl'⟩ := ha
    · rw [ha, hb] at htexts
      simp at htexts
    · rw [ha, hb, List.append_cancel_left_eq] at htexts
      obtain ⟨rfl, -⟩ := List.cons.inj htexts
      simp at hnl hnl'
      exact hnl' hnl

/-! ## Lines and texts -/

variable {line : List Byte} {lines : List (List Byte)}

theorem readLines_nextText (h : NextToken false before t) (hlines : ∀ line ∈ lines, 0x0A ∉ line) {ts : List Token}
    {delivered : List (List Token)} (hread : readLines t lines = some (ts :: delivered, t')) : NextText false before ts := by
  induction lines generalizing t with
  | nil => cases hread
  | cons line lines ih =>
    obtain ⟨hline, hlines⟩ := List.forall_mem_cons.mp hlines
    obtain ⟨t₁, hprocess, hread⟩ := Option.bind_eq_some_iff.mp hread
    have hnext := processLine_nextToken h hline hprocess
    split_ifs at hread with hcomplete
    · obtain ⟨r, -, hr⟩ := Option.map_eq_some_iff.mp hread
      obtain ⟨hts, -⟩ := List.cons.inj (Prod.mk.inj hr).1
      exact hts ▸ finalized_nextText hnext hcomplete
    · exact ih hnext hlines hread

/-- Where a line leaves something open, its newline becomes a part of the token. -/
theorem turn_newline {s : Lexical} (h : Tracks t s []) (hopen : ¬s.Closed) (r : List Byte) :
    ∃ t', turn t 0x0A r = .next t' r ∧ NextToken true t.tokens t' := by
  have hnext {u : Tokenizer} (htokens : u.tokens = t.tokens) (hcurrent : u.currentToken = t.currentToken ++ [0x0A])
      (hdelim : u.heredocDelim = t.heredocDelim) (hop : u.afterHeredocOp = t.afterHeredocOp) : NextToken true t.tokens u := by
    refine .inl ⟨htokens, ?_, hdelim.trans h.normal.heredocDelim, hop.trans h.normal.afterHeredocOp⟩
    simp [hcurrent]
  rw [turn_outside h.normal.heredocDelim]
  by_cases hescaped : t.escaped = true
  · rw [if_pos hescaped]
    exact ⟨_, rfl, hnext rfl rfl rfl rfl⟩
  · have hquoted : t.inQuotes = true ∨ t.inDquotes = true := by
      by_contra hneither
      obtain ⟨hquotes, hdquotes⟩ := not_or.mp hneither
      refine hopen ⟨?_, h.escaped.trans (Bool.eq_false_iff.mpr hescaped)⟩
      rw [h.opened, if_neg hquotes, if_neg hdquotes]
    rw [if_neg hescaped, if_neg fun h => absurd h.1 (by decide), if_neg fun h => absurd h.1 (by decide),
      if_neg fun h => absurd h.1 (by decide), if_pos hquoted]
    exact ⟨_, appendNext_ascii (by decide), hnext rfl rfl rfl rfl⟩

theorem tracks_start (line : List Byte) : Tracks .create .start line where
  normal := ⟨rfl, rfl, rfl⟩
  currentToken := List.not_mem_nil
  escaped := rfl
  opened := rfl
  inQuotes := absurd_of_false rfl
  comment := absurd_of_false rfl
  dollar := absurd_of_false rfl

theorem processLine_create (h : Lexical.start.NoHeredoc line) : processLine .create line = (processInput .create line).left := by
  have hdocument : (lit "<<").isPrefixOf line = false := by
    refine Bool.eq_false_iff.mpr fun hbegins => ?_
    obtain ⟨behind, rfl⟩ := List.isPrefixOf_iff_prefix.mp hbegins
    exact h [] behind rfl ⟨⟨rfl, rfl⟩, rfl⟩
  change (if (lit "<<").isPrefixOf line = true then _ else (processInput .create line).left) = _
  rw [hdocument, if_neg Bool.false_ne_true]

/-- A line that leaves something open is not read as it is in the text. -/
theorem not_alike {r : List Byte} (hlines : ∀ l ∈ line :: lines, 0x0A ∉ l)
    (hdoc : Lexical.start.NoHeredoc (line ++ 0x0A :: r)) (hopen : ¬(Lexical.start.after line).Closed) {ts ts' : List Token}
    {delivered : List (List Token)} (hread : readLines .create (line :: lines) = some (ts :: delivered, t'))
    (htext : tokenize (line ++ 0x0A :: r) = some ts') : withoutNewlines ts ≠ withoutNewlines ts' := by
  obtain ⟨hline, hlines⟩ := List.forall_mem_cons.mp hlines
  unfold tokenize at htext
  obtain ⟨-, hstuck⟩ | ⟨t₁, hdone, hmore, htracks⟩ := processInput_follows (tracks_start line) hline hdoc.before r
  · split at htext
    · next heq =>
      rw [heq] at hstuck
      exact hstuck.elim
    · cases htext
  · have hlines : NextText false t₁.tokens ts := by
      obtain ⟨t₂, hprocess, hread⟩ := Option.bind_eq_some_iff.mp hread
      rw [processLine_create hdoc.before, hdone] at hprocess
      cases hprocess
      have hnext : NextToken false t₁.tokens t₁ :=
        .inl ⟨rfl, by simpa using htracks.currentToken, htracks.normal.heredocDelim, htracks.normal.afterHeredocOp⟩
      split_ifs at hread with hcomplete
      · obtain ⟨r, -, hr⟩ := Option.map_eq_some_iff.mp hread
        obtain ⟨hts, -⟩ := List.cons.inj (Prod.mk.inj hr).1
        exact hts ▸ finalized_nextText hnext hcomplete
      · exact readLines_nextText hnext hlines hread
    have hwhole : NextText true t₁.tokens ts' := by
      obtain ⟨t₂, hturn, hnext⟩ := turn_newline htracks hopen r
      rw [hmore, processInput_cons, hturn] at htext
      dsimp only at htext
      split at htext
      · next t₃ heq =>
        obtain ⟨t₄, hfinal, rfl⟩ := Option.map_eq_some_iff.mp htext
        have hfinalized : finalized t₃ = t₄ := by rw [finalized, hfinal]
        rw [← hfinalized]
        have hleft : (processInput t₂ r).left = some t₃ := congrArg Turn.left heq
        have hnext := processInput_nextToken hnext (fun h => absurd h.symm Bool.false_ne_true) hleft
        exact finalized_nextText hnext (tokenizerFinalize_tokens hfinal).1
      · cases htext
    exact hlines.disagree hwhole

theorem joinLines_singleton (line : List Byte) : joinLines [line] = line := List.intercalate_singleton

/-- A logical line begins with a physical line that leaves something open, or is one. -/
theorem IsLogicalLine.cases (h : IsLogicalLine lines) :
    (∃ line, lines = [line]) ∨ ∃ line rest, lines = line :: rest ∧ ¬(Lexical.start.after line).Closed ∧
      ∃ r, rest ≠ [] ∧ joinLines lines = line ++ 0x0A :: r := by
  obtain ⟨hne, -, hopen⟩ := h
  match lines with
  | [] => exact absurd rfl hne
  | [line] => exact .inl ⟨line, rfl⟩
  | line :: line' :: rest =>
    refine .inr ⟨line, line' :: rest, rfl, ?_, joinLines (line' :: rest), List.cons_ne_nil _ _, ?_⟩
    · have hfirst := hopen [line] (by simp) (by simp) (by simp)
      rwa [joinLines_singleton] at hfirst
    · rw [joinLines, List.intercalate_cons_cons, List.append_assoc]
      rfl

/-- The tokens of lines are those of the text exactly where each logical line is one physical line, and is accepted. -/
theorem feedsAlike_iff (logical : List (List (List Byte))) (hlogical : ∀ lines ∈ logical, IsLogicalLine lines)
    (hlines : ∀ lines ∈ logical, ∀ line ∈ lines, 0x0A ∉ line)
    (hdoc : ∀ lines ∈ logical, Lexical.start.NoHeredoc (joinLines lines)) :
    FeedsAlike .create logical ↔ ∀ lines ∈ logical, ∃ line, lines = [line] ∧ (tokenize line).isSome := by
  induction logical with
  | nil => simp [FeedsAlike]
  | cons lines rest ih =>
    obtain ⟨hfirst, hlogical⟩ := List.forall_mem_cons.mp hlogical
    obtain ⟨hnl, hlines⟩ := List.forall_mem_cons.mp hlines
    obtain ⟨hheredoc, hdoc⟩ := List.forall_mem_cons.mp hdoc
    have ih := ih hlogical hlines hdoc
    rw [List.forall_mem_cons]
    obtain ⟨line, rfl⟩ | ⟨line, more, rfl, hopen, r, hmore, hjoin⟩ := hfirst.cases
    · rw [joinLines_singleton] at hheredoc
      constructor
      · rintro ⟨delivered, ts, t', hread, htext, -, hrest⟩
        obtain ⟨t₁, -, hread⟩ := Option.bind_eq_some_iff.mp hread
        rw [joinLines_singleton] at htext
        split_ifs at hread with hcomplete
        · cases hread
          exact ⟨⟨line, rfl, by rw [htext]; rfl⟩, ih.mp hrest⟩
        · cases hread
      · rintro ⟨⟨l, hl, htokens⟩, hrest⟩
        obtain rfl := List.singleton_inj.mp hl
        obtain ⟨ts, htext⟩ := Option.isSome_iff_exists.mp htokens
        refine ⟨ts, ts, .create, ?_, by rw [joinLines_singleton, htext], rfl, ih.mpr hrest⟩
        unfold tokenize at htext
        split at htext
        · next t₁ hdone =>
          obtain ⟨t₂, hfinal, rfl⟩ := Option.map_eq_some_iff.mp htext
          have hprocess : processLine .create line = some t₁ := by
            rw [processLine_create hheredoc, hdone]
            rfl
          have hfinalized : finalized t₁ = t₂ := by rw [finalized, hfinal]
          rw [readLines, hprocess, Option.bind_some, if_pos (tokenizerFinalize_tokens hfinal).1, hfinalized]
          rfl
        · cases htext
    · refine iff_of_false ?_ ?_
      · rintro ⟨delivered, ts, t', hread, htext, hsame, -⟩
        rw [hjoin] at htext hheredoc
        exact not_alike hnl hheredoc hopen hread htext hsame
      · rintro ⟨⟨l, hl, -⟩, -⟩
        exact hmore (List.cons.inj hl).2

theorem noHeredoc_of_not_mem {text : List Byte} (h : 0x3C ∉ text) (s : Lexical) : s.NoHeredoc text := by
  rintro before behind rfl
  refine absurd ?_ h
  rw [List.append_assoc]
  exact List.mem_append_right before List.mem_cons_self

set_option maxRecDepth 8192 in
theorem feedsAlike_word : FeedsAlike .create [[lit "ls"]] := by
  refine (feedsAlike_iff [[lit "ls"]] ?_ ?_ ?_).mpr ?_
  · refine List.forall_mem_singleton.mpr ⟨List.cons_ne_nil _ _, ⟨rfl, rfl⟩, fun first hne hbegins hnot => ?_⟩
    obtain rfl | ⟨more, rfl, hmore⟩ := List.prefix_cons_iff.mp hbegins
    · exact absurd rfl hne
    · rw [List.prefix_nil.mp hmore] at hnot
      exact absurd rfl hnot
  · decide
  · exact List.forall_mem_singleton.mpr (noHeredoc_of_not_mem (by decide) _)
  · refine List.forall_mem_singleton.mpr ⟨lit "ls", rfl, ?_⟩
    have hdone : processInput .create (lit "ls" ++ []) = .done { Tokenizer.create with currentToken := lit "ls" } := by
      rw [processInput_word create_between (by decide) (by decide), processInput]
      rfl
    rw [List.append_nil] at hdone
    rw [tokenize, hdone]
    rfl

/-- A quoted word with a newline in it -/
theorem quoted_newline_lost : IsLogicalLine [lit "'a", lit "b'"] ∧ Lexical.start.NoHeredoc (joinLines [lit "'a", lit "b'"]) ∧
    ¬FeedsAlike .create [[lit "'a", lit "b'"]] := by
  have hdoc : Lexical.start.NoHeredoc (joinLines [lit "'a", lit "b'"]) := noHeredoc_of_not_mem (by decide) _
  have hopen : ¬(Lexical.start.after (lit "'a")).Closed := fun h => List.cons_ne_nil _ _ h.1
  refine ⟨⟨List.cons_ne_nil _ _, ⟨rfl, rfl⟩, fun first hne hbegins hnot => ?_⟩, hdoc, ?_⟩
  · obtain rfl | ⟨more, rfl, hmore⟩ := List.prefix_cons_iff.mp hbegins
    · exact absurd rfl hne
    · obtain rfl | ⟨more', rfl, hmore'⟩ := List.prefix_cons_iff.mp hmore
      · rwa [joinLines_singleton]
      · rw [List.prefix_nil.mp hmore'] at hnot
        exact absurd rfl hnot
  · rintro ⟨delivered, ts, t', hread, htext, hsame, -⟩
    exact not_alike (by decide) hdoc hopen hread htext hsame

end

end ValidcTools.Sh23
