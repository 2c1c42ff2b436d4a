import ValidcTools.Sh23.Tokenizer

/-! Where the tokenizer stays inside its input, and which substitutions it takes. -/
namespace ValidcTools.Sh23

/-! ## Balanced constructs -/

/-- The rest of a text in double quotes -/
inductive DoubleQuoted : List Byte → Prop
  | nil : DoubleQuoted []
  | byte {b : Byte} {q : List Byte} (hb : b ∉ lit "\"\\") (hq : DoubleQuoted q) : DoubleQuoted (b :: q)
  | escaped (b : Byte) {q : List Byte} (hq : DoubleQuoted q) : DoubleQuoted (0x5C :: b :: q)

/-- A text in which the brackets are balanced, but for those that are quoted -/
inductive Body (left right : Byte) : List Byte → Prop
  | nil : Body left right []
  | byte {b : Byte} {q : List Byte} (hb : b ∉ left :: right :: lit "'\"\\") (hq : Body left right q) : Body left right (b :: q)
  | escaped (b : Byte) {q : List Byte} (hq : Body left right q) : Body left right (0x5C :: b :: q)
  | quoted {text q : List Byte} (ht : 0x27 ∉ text) (hq : Body left right q) : Body left right (0x27 :: text ++ 0x27 :: q)
  | doubleQuoted {text q : List Byte} (ht : DoubleQuoted text) (hq : Body left right q) :
      Body left right (0x22 :: text ++ 0x22 :: q)
  | nested {inner q : List Byte} (hi : Body left right inner) (hq : Body left right q) :
      Body left right (left :: inner ++ right :: q)

/-- The whole texts of substitutions with the tokens that they should become -/
inductive Construct : TokenType → List Byte → Prop
  | arith {body : List Byte} (h : Body '(' ')' body) : Construct .arith (lit "$((" ++ body ++ lit "))")
  | dparen {body : List Byte} (h : Body '(' ')' body)
      (hne : ∀ inner, Body '(' ')' inner → body ≠ lit "(" ++ inner ++ lit ")") :
      Construct .dparen (lit "$(" ++ body ++ lit ")")
  | param {body : List Byte} (h : Body 0x7B 0x7D body) : Construct .param ([0x24, 0x7B] ++ body ++ [0x7D])

/-- Outside quotes, escapes and here-documents -/
structure Plain (t : Tokenizer) : Prop where
  heredocDelim : t.heredocDelim = none
  escaped : t.escaped = false
  inQuotes : t.inQuotes = false
  inDquotes : t.inDquotes = false

/-- The text begins with `$(` or with a dollar sign and an opening brace. -/
def OpensDollar (p : List Byte) : Prop := lit "$(" <+: p ∨ [0x24, 0x7B] <+: p

theorem OpensDollar.head {c : Byte} {rest : List Byte} (h : OpensDollar (c :: rest)) : c = 0x24 := by
  cases h with
  | inl h =>
    obtain ⟨q, hq⟩ := h
    exact (List.cons.inj hq).1.symm
  | inr h =>
    obtain ⟨q, hq⟩ := h
    exact (List.cons.inj hq).1.symm

/-- A substitution starts here. -/
def Opens (t : Tokenizer) (p : List Byte) : Prop := OpensDollar p ∨ (p.head? = some 0x60 ∧ t.inBacktick = false)

/-- A substitution starts here and has no end. -/
def Unclosed (t : Tokenizer) (p : List Byte) : Prop :=
  (OpensDollar p ∧ ∀ type w rest, p = w ++ rest → ¬Construct type w) ∨
    (p.head? = some 0x60 ∧ t.inBacktick = false ∧ 0x60 ∉ p.tail)

/-! ## What the tokenizer should do -/

def StopsInside (t : Tokenizer) (input : List Byte) : Prop := processInput t input ≠ .overrun

/-- Every balanced substitution that the loop gets to becomes one token with its text. -/
def TakesConstructs (t : Tokenizer) (input : List Byte) : Prop :=
  ∀ t' type w rest, Reaches (t, input) (t', w ++ rest) → Plain t' → Construct type w →
    ∃ t'', Reaches (t', w ++ rest) (t'', rest) ∧ t''.tokens = t'.finalizeCurrent.tokens ++ [⟨type, w⟩]

/-- An unclosed substitution that the loop gets to is reported, as an error or as incomplete input. -/
def ReportsUnclosed (t : Tokenizer) (input : List Byte) : Prop :=
  ∀ t' p, Reaches (t, input) (t', p) → Plain t' → Unclosed t' p →
    (∃ t'', processInput t input = .failed t'') ∨ ∃ t'', processInput t input = .done t'' ∧ t''.isComplete = false

/-- At this place the newline of the delimiter of a here-document is the last byte of the input. -/
def EndsAtDelimiter (t : Tokenizer) (p : List Byte) : Prop :=
  t.currentToken ≠ [] ∧ t.afterHeredocOp = true ∧ p.head?.any isSpace ∧
    p.dropWhile (fun c => decide (c ≠ 0x0A) && isSpace c) = [0x0A]

/-- At this place the code does as it should. -/
def Harmless (t : Tokenizer) (p : List Byte) : Prop :=
  Plain t → ¬EndsAtDelimiter t p ∧
    (Opens t p → (∃ b ∈ p, 0x80 ≤ b) ∧ ∀ type w rest, p = w ++ rest → ¬Construct type w)

/-! ## What a turn does at such a place -/

@[simp] theorem finalizeCurrent_inBacktick (t : Tokenizer) : t.finalizeCurrent.inBacktick = t.inBacktick := by
  unfold Tokenizer.finalizeCurrent Tokenizer.add
  split <;> rfl

theorem takeAll_overrun_iff (t : Tokenizer) (p : List Byte) : takeAll t p = .overrun ↔ ∀ b ∈ p, b < 0x80 := by
  induction p generalizing t with
  | nil => simp [takeAll]
  | cons c p ih =>
    unfold takeAll Tokenizer.append
    by_cases hc : c < 0x80
    · rw [if_pos hc]
      simp [ih, hc]
    · rw [if_neg hc]
      simp [hc]

theorem takeAll_cases (t : Tokenizer) (p : List Byte) : takeAll t p = .overrun ∨ ∃ t', takeAll t p = .failed t' := by
  induction p generalizing t with
  | nil => exact .inl rfl
  | cons c p ih =>
    unfold takeAll
    split
    · exact .inr ⟨t, rfl⟩
    · exact ih _

/-- The substitutions at the start of a text -/
inductive IsOpening : List Byte → Prop
  | dparen (q : List Byte) : IsOpening (0x24 :: 0x28 :: q)
  | param (q : List Byte) : IsOpening (0x24 :: 0x7B :: q)
  | backtick (q : List Byte) : IsOpening (0x60 :: q)

theorem Opens.isOpening {t : Tokenizer} {p : List Byte} (h : Opens t p) : IsOpening p := by
  cases h with
  | inl h =>
    cases h with
    | inl h =>
      obtain ⟨q, rfl⟩ := h
      exact .dparen q
    | inr h =>
      obtain ⟨q, rfl⟩ := h
      exact .param q
  | inr h =>
    obtain ⟨hp, -⟩ := h
    cases p with
    | nil => cases hp
    | cons c q =>
      cases hp
      exact .backtick q

/-- The turn at an opening is the loop that nothing ends but a byte which is refused. -/
theorem processPlain_opens {t : Tokenizer} {c : Byte} {rest : List Byte} (h : Opens t (c :: rest)) :
    ∃ t' q, processPlain t c rest = takeAll t' q ∧ ((∀ b ∈ q, b < 0x80) ↔ ∀ b ∈ c :: rest, b < 0x80) := by
  have hopening := h.isOpening
  cases hopening with
  | dparen q =>
    have hplain : processPlain t 0x24 (0x28 :: q) = processDparen t.finalizeCurrent (0x24 :: 0x28 :: q) := rfl
    rw [hplain, processDparen]
    split
    · exact ⟨_, q, rfl, by simp⟩
    · exact ⟨_, 0x28 :: q, rfl, by simp⟩
  | param q =>
    have hplain : processPlain t 0x24 (0x7B :: q) = processParam t.finalizeCurrent (0x24 :: 0x7B :: q) := rfl
    rw [hplain, processParam]
    split
    · exact ⟨_, q, rfl, by simp⟩
    · exact ⟨_, 0x7B :: q, rfl, by simp⟩
  | backtick =>
    have hinside : t.inBacktick = false := by
      cases h with
      | inl hdollar => exact absurd hdollar.head (by decide)
      | inr htick => exact htick.2
    have hplain : processPlain t 0x60 rest = processBacktick t.finalizeCurrent (0x60 :: rest) := rfl
    rw [hplain, processBacktick, finalizeCurrent_inBacktick, hinside]
    exact ⟨_, rest, rfl, by simp⟩

theorem turn_plain {t : Tokenizer} (h : Plain t) {c : Byte} (hc : c ∉ lit "'\"\\") (rest : List Byte) :
    turn t c rest = processPlain t c rest := by
  obtain ⟨hslash, hquote, hdquote⟩ : c ≠ 0x5C ∧ c ≠ 0x27 ∧ c ≠ 0x22 := by
    simp only [lit, List.mem_map, not_exists, not_and] at hc
    refine ⟨?_, ?_, ?_⟩
    · exact fun heq => hc '\\' (by decide) heq.symm
    · exact fun heq => hc '\'' (by decide) heq.symm
    · exact fun heq => hc '"' (by decide) heq.symm
  unfold turn
  rw [h.heredocDelim, h.escaped, h.inQuotes, h.inDquotes]
  simp [hquote, hdquote, show c ≠ Char.toUInt8 '\\' from hslash]

/-- At an opening the code reads on to a byte that is refused, or over the end. -/
theorem turn_opens {t : Tokenizer} (hplain : Plain t) {c : Byte} {rest : List Byte} (h : Opens t (c :: rest)) :
    (turn t c rest = .overrun ↔ ∀ b ∈ c :: rest, b < 0x80) ∧
      (turn t c rest = .overrun ∨ ∃ t', turn t c rest = .failed t') := by
  obtain ⟨t', q, htake, hascii⟩ := processPlain_opens h
  have hturn : turn t c rest = takeAll t' q := by
    rw [← htake]
    refine turn_plain hplain ?_ rest
    cases h.isOpening <;> decide
  rw [hturn]
  exact ⟨(takeAll_overrun_iff t' q).trans hascii, takeAll_cases t' q⟩

theorem processHeredoc_last_iff (t : Tokenizer) (p : List Byte) :
    (∃ t', processHeredoc t p = .next t' []) ↔
      t.currentToken ≠ [] ∧ p.dropWhile (fun c => decide (c ≠ 0x0A) && isSpace c) = [0x0A] := by
  unfold processHeredoc
  by_cases hcurrent : t.currentToken = []
  · simp [hcurrent]
  · rw [if_neg hcurrent]
    cases p.dropWhile fun c => decide (c ≠ 0x0A) && isSpace c with
    | nil => simp
    | cons c rest =>
      by_cases hc : c = 0x0A
      · simp [hc, hcurrent]
      · simp [hc]

theorem processHeredoc_ne_overrun {t : Tokenizer} {p : List Byte} : processHeredoc t p ≠ .overrun := by
  unfold processHeredoc
  split_ifs
  · simp
  · simp only
    split
    · simp
    · split_ifs <;> simp

theorem processBlank_overrun_iff {t : Tokenizer} {c : Byte} {rest : List Byte} (hc : isSpace c) :
    processBlank t c rest = .overrun ↔ EndsAtDelimiter t (c :: rest) := by
  have hlast := processHeredoc_last_iff t (c :: rest)
  unfold processBlank EndsAtDelimiter
  by_cases hheredoc : t.currentToken ≠ [] ∧ t.afterHeredocOp
  · rw [if_pos hheredoc]
    constructor
    · intro h
      split at h
      · next hnext =>
        obtain ⟨hcurrent, hend⟩ := hlast.1 ⟨_, hnext⟩
        exact ⟨hcurrent, hheredoc.2, by simpa using hc, hend⟩
      · cases h
      · exact absurd h processHeredoc_ne_overrun
    · intro h
      obtain ⟨t', hnext⟩ := hlast.2 ⟨h.1, h.2.2.2⟩
      rw [hnext]
  · rw [if_neg hheredoc]
    simp only [reduceCtorEq, false_iff]
    exact fun h => hheredoc ⟨h.1, h.2.1⟩

theorem appendNext_ne_overrun {t : Tokenizer} {c : Byte} {rest : List Byte} : appendNext t c rest ≠ .overrun := by
  unfold appendNext
  split <;> simp

theorem processPlain_overrun {t : Tokenizer} {c : Byte} {rest : List Byte} (h : processPlain t c rest = .overrun) :
    EndsAtDelimiter t (c :: rest) ∨ Opens t (c :: rest) := by
  unfold processPlain at h
  split_ifs at h with hspace hcomment hdparen harith hparam htick hop htilde
  · exact .inl ((processBlank_overrun_iff hspace).1 h)
  · unfold processComment at h
    simp only at h
    split at h <;> cases h
  · exact .inr (.inl (.inl ( List.isPrefixOf_iff_prefix.1 hdparen)))
  · have hshort : lit "$(" <+: lit "$((" := by decide
    exact .inr (.inl (.inl (hshort.trans ( List.isPrefixOf_iff_prefix.1 harith))))
  · exact .inr (.inl (.inr ( List.isPrefixOf_iff_prefix.1 hparam)))
  · refine .inr (.inr ⟨congrArg some htick, ?_⟩)
    unfold processBacktick at h
    split at h
    · cases h
    · next hinside => simpa using hinside
  · unfold processOperator at h
    split at h <;> cases h
  · unfold processTilde at h
    simp only at h
    split at h <;> cases h
  · exact absurd h appendNext_ne_overrun

/-- What else can read behind the NUL: nothing -/
theorem turn_overrun {t : Tokenizer} {c : Byte} {rest : List Byte} (h : turn t c rest = .overrun) :
    Plain t ∧ (EndsAtDelimiter t (c :: rest) ∨ Opens t (c :: rest)) := by
  unfold turn at h
  split at h
  · cases h
  · next hdelim =>
    split_ifs at h with hescaped hslash hrest hquote hdquote hquoted
    · split at h <;> cases h
    · exact absurd h appendNext_ne_overrun
    · exact absurd h appendNext_ne_overrun
    · exact absurd h appendNext_ne_overrun
    · refine ⟨⟨hdelim, by simpa using hescaped, ?_, ?_⟩, processPlain_overrun h⟩
      · simpa using fun hq => hquoted (.inl hq)
      · simpa using fun hq => hquoted (.inr hq)

theorem turn_overrun_iff {t : Tokenizer} (hplain : Plain t) (c : Byte) (rest : List Byte) :
    turn t c rest = .overrun ↔ EndsAtDelimiter t (c :: rest) ∨ (Opens t (c :: rest) ∧ ∀ b ∈ c :: rest, b < 0x80) := by
  constructor
  · intro h
    cases (turn_overrun h).2 with
    | inl hend => exact .inl hend
    | inr hopens => exact .inr ⟨hopens, (turn_opens hplain hopens).1.1 h⟩
  · intro h
    cases h with
    | inl hend =>
      have hspace : isSpace c := by simpa using hend.2.2.1
      have hc : c ∉ lit "'\"\\" := by
        revert hspace
        exact forall_byte (P := fun c => isSpace c → c ∉ lit "'\"\\") (by decide) c
      rw [turn_plain hplain hc, processPlain, if_pos hspace]
      exact (processBlank_overrun_iff hspace).2 hend
    | inr h => exact (turn_opens hplain h.1).1.2 h.2

/-! ## Where it does so -/

theorem Construct.opensDollar {type : TokenType} {w : List Byte} (h : Construct type w) (rest : List Byte) :
    OpensDollar (w ++ rest) := by
  cases h with
  | arith h => exact .inl ⟨_, by simp [lit]; rfl⟩
  | dparen h hne => exact .inl ⟨_, by simp [lit]; rfl⟩
  | param h => exact .inr ⟨_, by simp; rfl⟩

section
variable {t t' : Tokenizer} {input p : List Byte}

theorem Opens.exists_cons (h : Opens t p) : ∃ c rest, p = c :: rest := by
  cases h.isOpening <;> exact ⟨_, _, rfl⟩

theorem StopsInside.turn_ne_overrun (h : StopsInside t input) {c : Byte} {rest : List Byte}
    (hreach : Reaches (t, input) (t', c :: rest)) : turn t' c rest ≠ .overrun :=
  fun hover => h ((processInput_overrun_iff t input).2 ⟨t', c, rest, hreach, hover⟩)

/-- At an opening the run ends with an error, if it stays inside the input. -/
theorem StopsInside.failed (h : StopsInside t input) (hreach : Reaches (t, input) (t', p)) (hplain : Plain t')
    (hopens : Opens t' p) : ∃ t'', processInput t' p = .failed t'' := by
  obtain ⟨c, rest, rfl⟩ := hopens.exists_cons
  cases (turn_opens hplain hopens).2 with
  | inl hover => exact absurd hover (h.turn_ne_overrun hreach)
  | inr hfailed =>
    obtain ⟨t'', hfailed⟩ := hfailed
    refine ⟨t'', ?_⟩
    rw [processInput_cons, hfailed]

theorem StopsInside.reportsUnclosed (h : StopsInside t input) : ReportsUnclosed t input := by
  intro t' p hreach hplain hunclosed
  have hopens : Opens t' p := by
    cases hunclosed with
    | inl h => exact .inl h.1
    | inr h => exact .inr ⟨h.1, h.2.1⟩
  obtain ⟨t'', hfailed⟩ := h.failed hreach hplain hopens
  have heq := processInput_reaches hreach
  exact .inl ⟨t'', heq.trans hfailed⟩

/-- No turn at an opening is followed by another. -/
theorem Opens.not_step (hplain : Plain t) (hopens : Opens t p) {b : Config} : ¬Step (t, p) b := by
  intro hstep
  obtain ⟨c, rest, hp, hturn⟩ := hstep
  obtain rfl : p = c :: rest := hp
  cases (turn_opens hplain hopens).2 with
  | inl hover =>
    rw [hover] at hturn
    cases hturn
  | inr hfailed =>
    obtain ⟨t'', hfailed⟩ := hfailed
    rw [hfailed] at hturn
    cases hturn

theorem Construct.ne_nil {type : TokenType} {w : List Byte} (h : Construct type w) : w ≠ [] := by
  cases h <;> simp [lit]

theorem TakesConstructs.not_construct (h : TakesConstructs t input) (hplain : Plain t') {type : TokenType}
    {w rest : List Byte} (hreach : Reaches (t, input) (t', w ++ rest)) : ¬Construct type w := by
  intro hw
  obtain ⟨t'', hsteps, -⟩ := h t' type w rest hreach hplain hw
  cases hsteps.cases_head with
  | inl heq =>
    have hrest : w ++ rest = rest := congrArg Prod.snd heq
    exact hw.ne_nil (List.append_left_eq_self.1 hrest)
  | inr hstep =>
    obtain ⟨b, hstep, -⟩ := hstep
    exact Opens.not_step hplain (.inl (hw.opensDollar rest)) hstep

theorem harmless_of_stopsInside (h : StopsInside t input) (htakes : TakesConstructs t input)
    (hreach : Reaches (t, input) (t', p)) : Harmless t' p := by
  intro hplain
  have hturn : ∀ c rest, p = c :: rest → ¬(EndsAtDelimiter t' p ∨ (Opens t' p ∧ ∀ b ∈ p, b < 0x80)) := by
    intro c rest hp
    subst hp
    rw [← turn_overrun_iff hplain]
    exact h.turn_ne_overrun hreach
  constructor
  · intro hend
    cases p with
    | nil => simp [EndsAtDelimiter] at hend
    | cons c rest => exact hturn c rest rfl (.inl hend)
  · intro hopens
    obtain ⟨c, rest, hp⟩ := hopens.exists_cons
    constructor
    · by_contra hascii
      push Not at hascii
      exact hturn c rest hp (.inr ⟨hopens, fun b hb => UInt8.not_le.1 (hascii b hb)⟩)
    · intro type w rest' hw
      exact htakes.not_construct hplain (hw ▸ hreach)

theorem stopsInside_of_harmless (h : ∀ t' p, Reaches (t, input) (t', p) → Harmless t' p) : StopsInside t input := by
  intro hover
  obtain ⟨t', c, rest, hreach, hturn⟩ := (processInput_overrun_iff t input).1 hover
  have hplain := (turn_overrun hturn).1
  obtain ⟨hend, hopens⟩ := h t' (c :: rest) hreach hplain
  cases (turn_overrun_iff hplain c rest).1 hturn with
  | inl hdelimiter => exact hend hdelimiter
  | inr hascii =>
    obtain ⟨b, hb, hlarge⟩ := (hopens hascii.1).1
    exact absurd (hascii.2 b hb) (UInt8.not_lt.2 hlarge)

theorem takesConstructs_of_harmless (h : ∀ t' p, Reaches (t, input) (t', p) → Harmless t' p) : TakesConstructs t input := by
  intro t' type w rest hreach hplain hw
  exact absurd hw (((h t' (w ++ rest) hreach hplain).2 (.inl (hw.opensDollar rest))).2 type w rest rfl)

end

end ValidcTools.Sh23
