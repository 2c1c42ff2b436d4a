import ValidcTools.Sh23.Positions

/-! What a parse function that finds nothing leaves behind. -/
namespace ValidcTools.Sh23

variable {ε : Type} {ts : List Token} {s s' : ParserState} {parseExpansion : Token → Option ε} {n : ℕ}
  {call : Symbol → Parse (Option (Ast ε))}

/-- The operator stands at the position. -/
def operatorAt (ts : List Token) (text : String) (p : ℤ) : Bool := (tokenAt ts p).any (·.is .operator text)

/-- A name stands at the position, and no bracket is opened after it. -/
def loneNameAt (ts : List Token) (p : ℤ) : Bool := (tokenAt ts p).any Token.isName && !operatorAt ts "(" (p + 1)

/-! ## The grammar -/

/-- The least distance over which a function moves the position, when it finds what it looks for and when not -/
def Symbol.least : Symbol → Bool → ℤ
  | .list, found | .compoundList, found => if found then 0 else -1
  | .andOr, found | .pipeline, found | .command, found | .functionDefinition, found => if found then 1 else -1
  | _, found => if found then 1 else 0

theorem Symbol.neg_one_le_least (symbol : Symbol) (found : Bool) : -1 ≤ symbol.least found := by
  cases symbol <;> cases found <;> decide

theorem Symbol.least_le_one (symbol : Symbol) (found : Bool) : symbol.least found ≤ 1 := by
  cases symbol <;> cases found <;> decide

/-- The function does not go back, and moves on with what it finds. -/
def Forward {α : Type} (x : Parse (Option α)) : Prop := Moves x fun r d => (if r.isSome then 1 else 0) ≤ d

/-- The function goes back by one token at most, and by none with what it finds. -/
def Near {α : Type} (x : Parse (Option α)) : Prop := Moves x fun r d => (if r.isSome then 0 else -1) ≤ d

theorem Forward.near {α : Type} {x : Parse (Option α)} (h : Forward x) : Near x :=
  h.mono fun r d hd => by cases r <;> simp at hd ⊢ <;> omega

theorem Forward.none {α : Type} : Forward (Pure.pure none : Parse (Option α)) := .pure le_rfl

theorem Moves.forward {α β : Type} {x : Parse α} (hx : Moves x fun _ d => 0 ≤ d) {f : α → Parse (Option β)}
    (hf : ∀ a, Forward (f a)) : Forward (x >>= f) :=
  hx.bind fun a d hd => (hf a).mono fun r e he => by omega

theorem peekToken_forward {β : Type} {f : Option Token → Parse (Option β)} (hf : ∀ token, Forward (f token)) :
    Forward (peekToken ts >>= f) :=
  ((peekToken_moves ts).mono fun _ _ hd => hd.ge).forward hf

theorem consumeToken_forward {β : Type} {f : Unit → Parse (Option β)} (hf : ∀ u, Forward (f u)) :
    Forward (consumeToken ts >>= f) :=
  ((consumeToken_moves ts).mono fun _ _ hd => hd.1).forward hf

theorem parseWords_moves : Moves (parseWords ts n) fun _ d => 0 ≤ d := by
  induction n with
  | zero => exact .diverge
  | succ n ih =>
    refine (peekToken_moves ts).bind fun token d hd => ?_
    split
    · exact .pure (by omega)
    · exact (consumeToken_moves ts).bind fun _ e he => ih.bind fun _ g hg => .pure (by omega)

theorem parseRedirect_moves : Moves (parseRedirect ts) fun _ d => 0 ≤ d := by
  intro s r s' h
  obtain ⟨-, -, rfl⟩ | ⟨-, -, hle⟩ := parseRedirect_cases h
  · rw [unread_pos, sub_self]
  · omega

theorem parseRedirectList_moves : Moves (parseRedirectList ts n) fun _ d => 0 ≤ d := by
  induction n with
  | zero => exact .diverge
  | succ n ih =>
    refine parseRedirect_moves.bind fun r d hd => ?_
    cases r with
    | none => exact .pure (by omega)
    | some redir => exact ih.bind fun _ e he => .pure (by omega)

theorem parseSeparator_moves : Moves (parseSeparator ts) fun _ d => 0 ≤ d := by
  refine (peekToken_moves ts).bind fun token d hd => ?_
  split_ifs
  · exact (consumeToken_moves ts).bind fun _ e he => .pure (by omega)
  · exact (consumeToken_moves ts).bind fun _ e he => .pure (by omega)
  · exact .pure (by omega)

/-- A keyword or a bracket that ends a clause -/
theorem expect_forward {α : Type} {type : TokenType} (htype : type ≠ .newline) (expected : String) (clause : α) :
    Forward (do if ← expectToken ts type expected then return some clause else return none) := by
  refine (expectToken_moves ts htype expected).bind fun b d hd => ?_
  cases b with
  | true => exact .pure (show (1 : ℤ) ≤ d + 0 by rw [hd]; decide)
  | false => exact .pure (show (0 : ℤ) ≤ d + 0 by rw [hd]; decide)

/-- A keyword or a bracket with what follows it -/
theorem expect_then_forward {α : Type} {type : TokenType} (htype : type ≠ .newline) (expected : String) {x : Parse (Option α)}
    (hx : Forward x) : Forward (do if ← expectToken ts type expected then x else return none) := by
  refine (expectToken_moves ts htype expected).bind fun b d hd => ?_
  cases b with
  | true => exact hx.mono fun r e he => by rw [if_pos rfl] at hd; omega
  | false => exact .pure (show (0 : ℤ) ≤ d + 0 by rw [hd]; decide)

/-- A construct with its first keyword or bracket, the compound list after it, and what follows that -/
def Heads (ts : List Token) (call : Symbol → Parse (Option (Ast ε))) (type : TokenType) (expected : String)
    (x : Parse (Option (Ast ε))) : Prop :=
  ∃ rest : Ast ε → Parse (Option (Ast ε)), (∀ body, Forward (rest body)) ∧ x = do
    if ← expectToken ts type expected then
      match ← call .compoundList with
      | none => return none
      | some body => rest body
    else return none

/-- A construct with its keyword, the word after it, and what follows that -/
def Takes (ts : List Token) (keyword : String) (p : Token → Bool) (x : Parse (Option (Ast ε))) : Prop :=
  ∃ rest : Token → Parse (Option (Ast ε)), (∀ word, Forward (rest word)) ∧ x = do
    if ← expectToken ts .keyword keyword then
      match (← peekToken ts).filter p with
      | none => return none
      | some word =>
        consumeToken ts
        rest word
    else return none

section
variable {keyword : String} {p : Token → Bool} {x : Parse (Option (Ast ε))}

theorem Takes.forward (h : Takes ts keyword p x) : Forward x := by
  obtain ⟨rest, hrest, rfl⟩ := h
  refine expect_then_forward (by decide) keyword (peekToken_forward fun token => ?_)
  split
  · exact .none
  · exact consumeToken_forward fun _ => hrest _

/-- A construct that is not found is left behind its keyword, and behind its word when that stands there. -/
theorem Takes.cases (hx : Takes ts keyword p x) (hp : ∀ token, token.isName → p token) (hword : ∀ token, p token → token.type = .word)
    (htoken : (tokenAt ts s.pos).any (·.is .keyword keyword) = true) {r : Option (Ast ε)} (h : x s = some (r, s')) :
    s.pos + 1 ≤ s'.pos ∧ (s'.pos = s.pos + 1 → (tokenAt ts (s.pos + 1)).any Token.isName = false) := by
  obtain ⟨rest, hrest, rfl⟩ := hx
  rw [Parse.bind_apply, expectToken_eq ts (by decide), if_pos (show (peek ts s).any _ = true from htoken), Option.bind_some,
    if_pos rfl, Parse.bind_apply, peekToken_apply, Option.bind_some] at h
  cases hfilter : (tokenAt ts (s.pos + 1)).filter p with
  | none =>
    rw [show peek ts ⟨s.pos + 1, s.lineNumber⟩ = tokenAt ts (s.pos + 1) from rfl, hfilter] at h
    cases h
    refine ⟨le_rfl, fun _ => Bool.eq_false_iff.mpr fun hname => ?_⟩
    obtain ⟨token, hnext, hname⟩ := (Option.any_eq_true _ _).mp hname
    rw [hnext, Option.filter_some_pos (hp token hname)] at hfilter
    cases hfilter
  | some word =>
    obtain ⟨hnext, htrue⟩ := Option.filter_eq_some_iff.mp hfilter
    have hpeek : peek ts ⟨s.pos + 1, s.lineNumber⟩ = some word := hnext
    rw [hpeek, Option.filter_some_pos htrue] at h
    dsimp only at h
    rw [Parse.bind_apply, consumeToken_apply, consume_of_peek hpeek (by rw [hword word htrue]; decide), Option.bind_some] at h
    have hle := hrest word _ _ _ h
    have : 0 ≤ s'.pos - (s.pos + 1 + 1) := by
      dsimp only at hle
      split at hle <;> omega
    exact ⟨by omega, fun heq => by omega⟩

end

section
variable (hcall : ∀ symbol, Moves (call symbol) fun r d => symbol.least r.isSome ≤ d)
include hcall

theorem compoundList_moves : Moves (parseCompoundList ts call) fun r d => Symbol.compoundList.least r.isSome ≤ d := by
  refine (hcall .andOr).bind fun r d hd => ?_
  cases r with
  | none => exact .pure (hd.trans_eq (add_zero d).symm)
  | some andOr =>
    have hd : 1 ≤ d := hd
    refine parseSeparator_moves.bind fun separator e he => ?_
    split_ifs
    · exact .pure (show (0 : ℤ) ≤ d + (e + 0) by omega)
    · refine (hcall .compoundList).bind fun next g hg => .pure (show (0 : ℤ) ≤ d + (e + (g + 0)) from ?_)
      have hg := (Symbol.neg_one_le_least _ _).trans hg
      omega

theorem list_moves : Moves (parseList ts call) fun r d => Symbol.list.least r.isSome ≤ d := by
  refine (hcall .andOr).bind fun r d hd => ?_
  cases r with
  | none => exact .pure (hd.trans_eq (add_zero d).symm)
  | some andOr =>
    have hd : 1 ≤ d := hd
    refine parseSeparator_moves.bind fun separator e he => (peekToken_moves ts).bind fun token g hg => ?_
    split_ifs
    · refine (hcall .list).bind fun next f hf => .pure (show (0 : ℤ) ≤ d + (e + (g + (f + 0))) from ?_)
      have hf := (Symbol.neg_one_le_least _ _).trans hf
      omega
    · exact .pure (show (0 : ℤ) ≤ d + (e + (g + 0)) by omega)

theorem andOr_moves : Moves (parseAndOr ts call) fun r d => Symbol.andOr.least r.isSome ≤ d := by
  refine (hcall .pipeline).bind fun r d hd => ?_
  cases r with
  | none => exact .pure (hd.trans_eq (add_zero d).symm)
  | some left =>
    have hd : 1 ≤ d := hd
    refine (peekToken_moves ts).bind fun token e he => ?_
    split
    · exact .pure (show (1 : ℤ) ≤ d + (e + 0) by omega)
    · refine (consumeToken_moves ts).bind fun _ g hg => (hcall .andOr).bind fun right f hf => ?_
      cases right with
      | none =>
        have hf : -1 ≤ f := hf
        exact .pure (show (-1 : ℤ) ≤ d + (e + (g + (f + 0))) by omega)
      | some right =>
        have hf : 1 ≤ f := hf
        exact .pure (show (1 : ℤ) ≤ d + (e + (g + (f + 0))) by omega)

/-- A keyword or a bracket, a compound list and what follows them -/
theorem clause_forward {type : TokenType} (htype : type ≠ .newline) (expected : String) {α : Type}
    {rest : Ast ε → Parse (Option α)} (hrest : ∀ body, Near (rest body)) :
    Forward (do
      if ← expectToken ts type expected then
        match ← call .compoundList with
        | none => return none
        | some body => rest body
      else return none) := by
  refine (expectToken_moves ts htype expected).bind fun b d hd => ?_
  cases b with
  | false => exact .pure (show (0 : ℤ) ≤ d + 0 by rw [hd]; decide)
  | true =>
    have hd : d = 1 := hd
    refine (hcall .compoundList).bind fun body e he => ?_
    cases body with
    | none =>
      have he : -1 ≤ e := he
      exact .pure (show (0 : ℤ) ≤ d + (e + 0) by omega)
    | some body =>
      have he : 0 ≤ e := he
      refine (hrest body).mono fun r f hf => ?_
      cases r <;> simp at hf ⊢ <;> omega

theorem Heads.forward {type : TokenType} (htype : type ≠ .newline) {expected : String} {x : Parse (Option (Ast ε))}
    (h : Heads ts call type expected x) : Forward x := by
  obtain ⟨rest, hrest, rfl⟩ := h
  exact clause_forward hcall htype expected fun body => (hrest body).near

/-- Where a construct stands whose compound list is missing -/
theorem Heads.cases {type : TokenType} (htype : type ≠ .newline) {expected : String} {x : Parse (Option (Ast ε))}
    (hx : Heads ts call type expected x) (htoken : (tokenAt ts s.pos).any (·.is type expected) = true) {r : Option (Ast ε)}
    (h : x s = some (r, s')) :
    (call .compoundList ⟨s.pos + 1, s.lineNumber⟩ = some (none, s') ∧ r = none) ∨
      (∃ body s₁, call .compoundList ⟨s.pos + 1, s.lineNumber⟩ = some (some body, s₁)) ∧ s.pos + 1 ≤ s'.pos := by
  obtain ⟨rest, hrest, rfl⟩ := hx
  rw [Parse.bind_apply, expectToken_eq ts htype, if_pos (show (peek ts s).any _ = true from htoken), Option.bind_some, if_pos rfl] at h
  obtain ⟨body, s₁, hbody, h⟩ := Parse.bind_eq_some.mp h
  cases body with
  | none =>
    cases h
    exact .inl ⟨hbody, rfl⟩
  | some body =>
    refine .inr ⟨⟨body, s₁, hbody⟩, ?_⟩
    have hle : 0 ≤ s₁.pos - (s.pos + 1) := hcall .compoundList _ _ _ hbody
    have hrest := hrest body _ _ _ h
    dsimp only at hrest
    split at hrest <;> omega

theorem doGroup_forward (make : Ast ε → Ast ε) : Forward (parseDoGroup ts call make) :=
  clause_forward hcall (by decide) "do" fun body => (expect_forward (by decide) "done" (make body)).near

omit hcall in
theorem bracketed_head (left right : String) (make : Ast ε → Ast ε) :
    Heads ts call .operator left (parseBracketed ts call left right make) := by
  refine ⟨_, fun body => ?_, rfl⟩
  exact expect_forward (by decide) right (make body)

theorem loopClause_head (keyword : String) (make : Ast ε → Ast ε → Ast ε) :
    Heads ts call .keyword keyword (parseLoopClause ts call keyword make) := by
  refine ⟨_, fun condition => ?_, rfl⟩
  exact doGroup_forward hcall (make condition)

theorem ifClause_head : Heads ts call .keyword "if" (parseIfClause ts call) := by
  refine ⟨_, fun condition => ?_, rfl⟩
  refine clause_forward hcall (by decide) "then" fun thenBody => ?_
  refine (peekToken_moves ts).bind fun token d hd => ?_
  have hclosing (clause : Ast ε) {e : ℤ} (he : 0 ≤ e) :
      Moves (closing ts "fi" clause) fun r f => (if r.isSome then 0 else -1) ≤ d + (e + f) :=
    (expect_forward (by decide) "fi" clause).near.mono fun r f hf => by cases r <;> simp at hf ⊢ <;> omega
  split_ifs
  · refine (consumeToken_moves ts).bind fun _ e he => (hcall .compoundList).bind fun elsePart f hf => ?_
    cases elsePart with
    | none =>
      have hf : -1 ≤ f := hf
      exact .pure (show (-1 : ℤ) ≤ d + (e + (f + 0)) by omega)
    | some elsePart =>
      have hf : 0 ≤ f := hf
      refine (hclosing _ (e := e + f) (by omega)).mono fun r g hg => ?_
      rwa [add_assoc] at hg
  · refine (hcall .ifClause).bind fun elsePart f hf => ?_
    cases elsePart with
    | none =>
      have hf : 0 ≤ f := hf
      exact .pure (show (-1 : ℤ) ≤ d + (f + 0) by omega)
    | some elsePart =>
      have hf : 1 ≤ f := hf
      exact hclosing _ (by omega)
  · exact (hclosing _ le_rfl).mono fun r g hg => by rwa [zero_add] at hg

theorem forClause_takes : Takes ts "for" (fun t => t.type = .word ∧ isValidName t.text) (parseForClause ts n call) := by
  refine ⟨_, fun var => ?_, rfl⟩
  refine peekToken_forward fun token => ?_
  split_ifs
  · exact consumeToken_forward fun _ => parseWords_moves.forward fun wordlist =>
      expect_then_forward (by decide) ";" (doGroup_forward hcall _)
  · exact doGroup_forward hcall _

/-- The items of a `case`: a missing action goes back to the bracket before it at most. -/
theorem caseItems_moves (m : ℕ) : Moves (parseCaseItems ts n call m) fun _ d => 0 ≤ d := by
  induction m with
  | zero => exact .diverge
  | succ m ih =>
    refine (peekToken_moves ts).bind fun token d hd => ?_
    split_ifs
    · exact .pure (by omega)
    · refine (expectToken_moves ts (by decide) "(").bind fun b e he => ?_
      cases b with
      | false => exact .pure (by simp at he; omega)
      | true =>
        have he : e = 1 := he
        refine parseWords_moves.bind fun patterns f hf => (expectToken_moves ts (by decide) ")").bind fun b g hg => ?_
        cases b with
        | false => exact .pure (by simp at hg; omega)
        | true =>
          have hg : g = 1 := hg
          refine (hcall .compoundList).bind fun action i hi => (peekToken_moves ts).bind fun token j hj => ?_
          have hi := (Symbol.neg_one_le_least _ _).trans hi
          split_ifs
          · refine (consumeToken_moves ts).bind fun _ k hk => ih.bind fun items l hl => ?_
            cases items with
            | none => exact .pure (by omega)
            | some items => exact .pure (by omega)
          · exact .pure (by omega)

theorem caseClause_takes : Takes ts "case" (fun t => t.type = .word) (parseCaseClause ts n call) := by
  refine ⟨_, fun word => ?_, rfl⟩
  refine expect_then_forward (by decide) "in" ((caseItems_moves hcall n).forward fun items => ?_)
  cases items with
  | none => exact .none
  | some items => exact expect_forward (by decide) "esac" _

theorem compoundCommand_forward : Forward (parseCompoundCommand ts call) := by
  refine peekToken_forward fun token => ?_
  split
  · exact .none
  · split_ifs
    · exact hcall .ifClause
    · exact hcall .forClause
    · exact hcall .caseClause
    · exact hcall .whileClause
    · exact hcall .untilClause
    · exact hcall .braceGroup
    · exact hcall .subshell
    · exact .none

/-- A function definition that is not found leaves the parser where it was, unless a name stands alone, or its body is
missing. -/
theorem parseFunctionDefinition_cases {r : Option (Ast ε)} (h : parseFunctionDefinition ts n call s = some (r, s')) :
    r = none ∧ ((tokenAt ts s.pos).any Token.isName = false ∨ loneNameAt ts s.pos = false ∧ operatorAt ts ")" (s.pos + 2) = false) ∧
        s' = s ∨
      r = none ∧ loneNameAt ts s.pos = true ∧ s' = ⟨s.pos - 1, s.lineNumber⟩ ∨
      ((tokenAt ts s.pos).any Token.isName = true ∧ loneNameAt ts s.pos = false ∧ operatorAt ts ")" (s.pos + 2) = true) ∧
        s.pos + 3 ≤ s'.pos := by
  cases hname : (tokenAt ts s.pos).any Token.isName with
  | false =>
    rw [parseFunctionDefinition_other hname] at h
    cases h
    exact .inl ⟨rfl, .inl rfl, rfl⟩
  | true =>
    obtain ⟨name, hpeek, hisName⟩ := (Option.any_eq_true _ _).mp hname
    have hpeek : peek ts s = some name := hpeek
    obtain ⟨htype, hvalid⟩ := of_decide_eq_true hisName
    have hconsume := consume_of_peek hpeek (by simp [htype])
    have hlone : loneNameAt ts s.pos = !operatorAt ts "(" (s.pos + 1) := by rw [loneNameAt, hname, Bool.true_and]
    cases hopen : operatorAt ts "(" (s.pos + 1) with
    | false =>
      rw [parseFunctionDefinition_name hpeek hisName (by rw [hconsume]; exact hopen)] at h
      cases h
      exact .inr (.inl ⟨rfl, by rw [hlone, hopen]; rfl, rfl⟩)
    | true =>
      rw [hopen] at hlone
      have hfilter : (some name).filter (fun t => t.type = .word ∧ isValidName t.text) = some name :=
        Option.filter_some_pos (by simpa using ⟨htype, hvalid⟩)
      have hopen' : expectToken ts .operator "(" ⟨s.pos + 1, s.lineNumber⟩ = some (true, ⟨s.pos + 2, s.lineNumber⟩) := by
        rw [expectToken_eq ts (by decide), if_pos (show (peek ts ⟨s.pos + 1, s.lineNumber⟩).any _ = true from hopen)]
        rw [show s.pos + 1 + 1 = s.pos + 2 by omega]
      have hbrackets : ((do if ← expectToken ts .operator "(" then expectToken ts .operator ")" else return false) : Parse Bool)
          ⟨s.pos + 1, s.lineNumber⟩ = if operatorAt ts ")" (s.pos + 2) then some (true, ⟨s.pos + 2 + 1, s.lineNumber⟩)
            else some (false, ⟨s.pos + 2, s.lineNumber⟩) := by
        rw [Parse.bind_apply, hopen', Option.bind_some, if_pos rfl, expectToken_eq ts (by decide)]
        rfl
      unfold parseFunctionDefinition at h
      rw [Parse.bind_apply, peekToken_apply, Option.bind_some, hpeek, hfilter] at h
      dsimp only at h
      rw [Parse.bind_apply, consumeToken_apply, Option.bind_some, hconsume, Parse.bind_apply, hbrackets] at h
      cases hclosed : operatorAt ts ")" (s.pos + 2) with
      | false =>
        rw [hclosed] at h
        cases h
        refine .inl ⟨rfl, .inr ⟨hlone, rfl⟩, ?_⟩
        simp
      | true =>
        rw [hclosed] at h
        simp only [if_true, Option.bind_some] at h
        refine .inr (.inr ⟨⟨rfl, hlone, rfl⟩, ?_⟩)
        obtain ⟨body, s₁, hbody, h⟩ := Parse.bind_eq_some.mp h
        have hle : 0 ≤ s₁.pos - (s.pos + 2 + 1) := by
          have := hcall .compoundCommand _ _ _ hbody
          cases body <;> simp [Symbol.least] at this <;> omega
        cases body with
        | none =>
          cases h
          omega
        | some body =>
          obtain ⟨redirects, s₂, hlist, h⟩ := Parse.bind_eq_some.mp h
          have := parseRedirectList_moves _ _ _ hlist
          cases h
          omega

theorem functionDefinition_moves :
    Moves (parseFunctionDefinition ts n call) fun r d => Symbol.functionDefinition.least r.isSome ≤ d := by
  intro s r s' h
  obtain ⟨rfl, -, hs⟩ | ⟨rfl, -, hs⟩ | ⟨-, hle⟩ := parseFunctionDefinition_cases hcall h
  · exact show (-1 : ℤ) ≤ s'.pos - s.pos by rw [hs]; omega
  · exact show (-1 : ℤ) ≤ s'.pos - s.pos by rw [hs]; dsimp only; omega
  · have := Symbol.functionDefinition.least_le_one r.isSome
    omega

end

/-- Where the parser goes from a function definition: back by one token from a name that stands alone -/
def DefinitionEnds (ts : List Token) (s : ParserState) (r : Option (Ast ε)) (s' : ParserState) : Prop :=
  (r = none ∧ loneNameAt ts s.pos = false ∧ s' = s) ∨ (r = none ∧ loneNameAt ts s.pos = true ∧ s' = ⟨s.pos - 1, s.lineNumber⟩) ∨
    (tokenAt ts s.pos).any Token.isName = true ∧ loneNameAt ts s.pos = false ∧ s.pos + 3 ≤ s'.pos

theorem definitionEnds (hcall : ∀ symbol, Moves (call symbol) fun r d => symbol.least r.isSome ≤ d) {r : Option (Ast ε)}
    (h : parseFunctionDefinition ts n call s = some (r, s')) : DefinitionEnds ts s r s' := by
  obtain ⟨hr, hname | ⟨hlone, -⟩, hs⟩ | ⟨hr, hlone, hs⟩ | ⟨⟨hname, hlone, -⟩, hle⟩ := parseFunctionDefinition_cases hcall h
  · exact .inl ⟨hr, by rw [loneNameAt, hname, Bool.false_and], hs⟩
  · exact .inl ⟨hr, hlone, hs⟩
  · exact .inr (.inl ⟨hr, hlone, hs⟩)
  · exact .inr (.inr ⟨hname, hlone, hle⟩)

/-! ## Commands and pipelines -/

/-- How a command is looked for: as a compound command, as a function definition, then as a simple command -/
theorem parseCommand_cases {r : Option (Ast ε)} (h : parseCommand ts parseExpansion n call s = some (r, s')) :
    ((∃ cmd s₁, call .compoundCommand s = some (some cmd, s₁) ∧ s₁.pos ≤ s'.pos) ∧ r.isSome) ∨
      ∃ s₁, call .compoundCommand s = some (none, s₁) ∧
        (((∃ cmd, call .functionDefinition s₁ = some (some cmd, s')) ∧ r.isSome) ∨
          ∃ s₂ o, call .functionDefinition s₁ = some (none, s₂) ∧ parseSimpleCommand ts parseExpansion n s₂ = some (o, s') ∧
            (r = none ↔ o = none)) := by
  unfold parseCommand at h
  obtain ⟨compound, s₁, hcompound, h⟩ := Parse.bind_eq_some.mp h
  cases compound with
  | some cmd =>
    obtain ⟨redirects, s₂, hlist, h⟩ := Parse.bind_eq_some.mp h
    have := parseRedirectList_moves _ _ _ hlist
    cases h
    exact .inl ⟨⟨cmd, s₁, hcompound, by omega⟩, rfl⟩
  | none =>
    refine .inr ⟨s₁, hcompound, ?_⟩
    obtain ⟨definition, s₂, hdefinition, h⟩ := Parse.bind_eq_some.mp h
    cases definition with
    | some cmd =>
      cases h
      exact .inl ⟨⟨cmd, hdefinition⟩, rfl⟩
    | none =>
      obtain ⟨o, s₃, hsimple, h⟩ := Parse.bind_eq_some.mp h
      cases h
      exact .inr ⟨s₂, o, hdefinition, hsimple, by cases o <;> simp⟩

/-- `!` stands at the position. -/
def ParserState.afterBang (ts : List Token) (s : ParserState) : ParserState :=
  if operatorAt ts "!" s.pos then ⟨s.pos + 1, s.lineNumber⟩ else s

/-- After a command a pipeline does not go back behind it. -/
theorem pipelineLoop_moves (hcommand : Moves (call .command) fun _ d => -1 ≤ d) (commands : List (Ast ε)) (m : ℕ) :
    Moves (parsePipelineLoop ts call commands m) fun _ d => 0 ≤ d := by
  induction m generalizing commands with
  | zero => exact .diverge
  | succ m ih =>
    intro s r s' h
    unfold parsePipelineLoop at h
    rw [Parse.bind_apply, peekToken_apply, Option.bind_some] at h
    split_ifs at h with hpipe
    · rw [Parse.bind_apply, consumeToken_apply, Option.bind_some,
        consume_of_any ts hpipe fun token ht => by rw [(of_decide_eq_true ht).1]; decide] at h
      obtain ⟨cmd, s₁, hcmd, h⟩ := Parse.bind_eq_some.mp h
      have hle : -1 ≤ s₁.pos - (s.pos + 1) := hcommand _ _ _ hcmd
      cases cmd with
      | none =>
        cases h
        omega
      | some cmd =>
        have := ih _ _ _ _ h
        omega
    · cases h
      exact (sub_self s.pos).ge

theorem parsePipeline_cases (hcommand : Moves (call .command) fun _ d => -1 ≤ d) {r : Option (Ast ε)}
    (h : parsePipeline ts n call s = some (r, s')) :
    (∃ s₁, call .command (s.afterBang ts) = some (none, s₁) ∧ r = none ∧
        s' = if operatorAt ts "!" s.pos then ⟨s₁.pos - 1, s₁.lineNumber - 1⟩ else s₁) ∨
      ∃ cmd s₁, call .command (s.afterBang ts) = some (some cmd, s₁) ∧ s₁.pos ≤ s'.pos := by
  have hloop {cmd : Ast ε} {s₁ s₂ : ParserState} {o : Option (List (Ast ε))}
      (hl : parsePipelineLoop ts call [cmd] n s₁ = some (o, s₂)) : s₁.pos ≤ s₂.pos := by
    have := pipelineLoop_moves hcommand _ _ _ _ _ hl
    omega
  unfold parsePipeline at h
  rw [Parse.bind_apply, peekToken_apply, Option.bind_some] at h
  have hbang : (peek ts s).any (·.is .operator "!") = operatorAt ts "!" s.pos := rfl
  unfold ParserState.afterBang
  cases hb : operatorAt ts "!" s.pos with
  | true =>
    rw [hb] at hbang
    simp only [hbang, if_true] at h ⊢
    rw [Parse.bind_apply, consumeToken_apply, Option.bind_some,
      consume_of_any ts hbang fun token ht => by rw [(of_decide_eq_true ht).1]; decide] at h
    obtain ⟨cmd, s₁, hcmd, h⟩ := Parse.bind_eq_some.mp h
    cases cmd with
    | none =>
      cases h
      exact .inl ⟨s₁, hcmd, rfl, rfl⟩
    | some cmd =>
      obtain ⟨o, s₂, hl, h⟩ := Parse.bind_eq_some.mp h
      cases h
      exact .inr ⟨cmd, s₁, hcmd, hloop hl⟩
  | false =>
    rw [hb] at hbang
    simp only [hbang, Bool.false_eq_true, if_false] at h ⊢
    obtain ⟨cmd, s₁, hcmd, h⟩ := Parse.bind_eq_some.mp h
    cases cmd with
    | none =>
      cases h
      exact .inl ⟨s', hcmd, rfl, rfl⟩
    | some cmd =>
      obtain ⟨o, s₂, hl, h⟩ := Parse.bind_eq_some.mp h
      cases h
      exact .inr ⟨cmd, s₁, hcmd, hloop hl⟩

/-- The tokens with which a construct begins that holds a compound list -/
def Symbol.opens : Symbol → Token → Bool
  | .ifClause, t => t.is .keyword "if"
  | .whileClause, t => t.is .keyword "while"
  | .untilClause, t => t.is .keyword "until"
  | .braceGroup, t => t.is .operator "\x7b"
  | .subshell, t => t.is .operator "("
  | .compoundCommand, t => t.is .keyword "if" || t.is .keyword "while" || t.is .keyword "until" || t.is .operator "\x7b" ||
      t.is .operator "("
  | _, _ => false

/-- The tokens with which a construct begins that holds a word -/
def Symbol.takesWord : Symbol → Token → Bool
  | .forClause, t => t.is .keyword "for"
  | .caseClause, t => t.is .keyword "case"
  | .compoundCommand, t => t.is .keyword "for" || t.is .keyword "case"
  | _, _ => false

/-- The functions on the way from a compound list to a command -/
def Symbol.holdsCommand : Symbol → Bool
  | .command | .pipeline | .andOr | .compoundList => true
  | _ => false

/-- Nothing of a simple command stands at the position, nor a number. -/
def restsAt (ts : List Token) (p : ℤ) : Bool := stuckAt ts p && !(tokenAt ts p).any (·.type = .ioNumber)

/-- A command that is not found leaves the parser where it was: a construct that is opened before a name that stands alone,
such a name behind a token that is refused, and a token that begins nothing. -/
def commandGivesBack (ts : List Token) (parseExpansion : Token → Option ε) (p : ℤ) : Bool :=
  if (tokenAt ts p).any Symbol.compoundCommand.opens then loneNameAt ts (p + 1)
  else if loneNameAt ts p then refusedAt ts parseExpansion (p - 1)
  else restsAt ts p && !(tokenAt ts p).any Symbol.compoundCommand.takesWord

/-- Where the functions with fewer nested calls leave the parser -/
structure Retreats (ts : List Token) (parseExpansion : Token → Option ε) (call : Symbol → Parse (Option (Ast ε))) : Prop where
  moves : ∀ symbol, Moves (call symbol) fun r d => symbol.least r.isSome ≤ d
  definition : ∀ s r s', call .functionDefinition s = some (r, s') → DefinitionEnds ts s r s'
  lone : ∀ symbol s r s', symbol.holdsCommand = true → call symbol s = some (r, s') → loneNameAt ts s.pos = true →
    restsAt ts (s.pos - 1) = true → r = none ∧ s' = ⟨s.pos - 1, s.lineNumber⟩
  back : ∀ symbol s s', symbol.holdsCommand = true → call symbol s = some (none, s') → s'.pos = s.pos - 1 →
    s'.lineNumber ≤ s.lineNumber ∧ (loneNameAt ts s.pos = true ∨ s'.lineNumber < s.lineNumber)
  stays : ∀ s r s', call .command s = some (r, s') → (r = none ∧ s' = s ↔ commandGivesBack ts parseExpansion s.pos = true)
  level : ∀ s s', call .command s = some (none, s') → s'.pos = s.pos → s'.lineNumber ≤ s.lineNumber
  other : ∀ s r s', call .compoundCommand s = some (r, s') → (tokenAt ts s.pos).any Symbol.compoundCommand.opens = false →
    (tokenAt ts s.pos).any Symbol.compoundCommand.takesWord = false → r = none ∧ s' = s
  opens : ∀ symbol s r s', (tokenAt ts s.pos).any symbol.opens = true → call symbol s = some (r, s') →
    (loneNameAt ts (s.pos + 1) = true → r = none ∧ s' = s) ∧
      (r = none → s'.pos = s.pos → s'.lineNumber ≤ s.lineNumber ∧ (loneNameAt ts (s.pos + 1) = true ∨ s'.lineNumber < s.lineNumber))
  takesWord : ∀ symbol s s', (tokenAt ts s.pos).any symbol.takesWord = true → call symbol s = some (none, s') →
    s.pos + 1 ≤ s'.pos ∧ (s'.pos = s.pos + 1 → (tokenAt ts (s.pos + 1)).any Token.isName = false)

theorem restsAt_unread (h : restsAt ts s.pos = true) : s.unread ts = s := by
  unfold restsAt at h
  rw [Bool.and_eq_true, Bool.not_eq_true'] at h
  rw [ParserState.unread, peek_eq, h.2, if_neg Bool.false_ne_true]

/-- Keywords rest, and operators that are no redirection. -/
theorem restsAt_of_token {token : Token} {p : ℤ} (hpeek : tokenAt ts p = some token)
    (htoken : token.type = .keyword ∨ token.type = .operator ∧ token.text ≠ lit "<" ∧ token.text ≠ lit ">") :
    restsAt ts p = true := by
  have hstuck : stuckAt ts p = true := by
    refine stuckAt_iff.mpr fun t ht => ?_
    obtain rfl := Option.some.inj (hpeek.symm.trans ht)
    obtain htype | ⟨htype, hless, hgreat⟩ := htoken
    · rw [htype]
      exact ⟨by decide, by decide, by decide, fun h => absurd h (by decide)⟩
    · rw [htype]
      refine ⟨by decide, by decide, by decide, fun _ => ?_⟩
      have hnone : parseRedirectOperation token = none := by
        unfold parseRedirectOperation
        simp only [htype, hless, hgreat, if_false]
        rfl
      have hio : (tokenAt ts p).any (·.type = .ioNumber) = false := by simp [hpeek, htype]
      rw [redirectsAt, hio, if_neg Bool.false_ne_true, redirectAt, hpeek, Option.any_some, hnone]
      rfl
  rw [restsAt, hstuck, hpeek]
  obtain htype | ⟨htype, -⟩ := htoken <;> simp [htype]

theorem restsAt_of_opens {symbol : Symbol} {p : ℤ} (h : (tokenAt ts p).any symbol.opens = true) : restsAt ts p = true := by
  obtain ⟨token, htoken, hopens⟩ := (Option.any_eq_true _ _).mp h
  have hkeyword {text : String} (h : token.is .keyword text = true) : restsAt ts p = true :=
    restsAt_of_token htoken (.inl (of_decide_eq_true h).1)
  have hoperator {text : String} (h : token.is .operator text = true) (hne : lit text ≠ lit "<" ∧ lit text ≠ lit ">") :
      restsAt ts p = true := by
    obtain ⟨htype, htext⟩ := of_decide_eq_true h
    exact restsAt_of_token htoken (.inr ⟨htype, htext ▸ hne.1, htext ▸ hne.2⟩)
  cases symbol <;> simp only [Symbol.opens, Bool.or_eq_true, Bool.false_eq_true] at hopens
  · obtain (((h | h) | h) | h) | h := hopens
    · exact hkeyword h
    · exact hkeyword h
    · exact hkeyword h
    · exact hoperator h (by decide)
    · exact hoperator h (by decide)
  · exact hoperator hopens (by decide)
  · exact hoperator hopens (by decide)
  · exact hkeyword hopens
  · exact hkeyword hopens
  · exact hkeyword hopens

theorem isName_of_lone {p : ℤ} (h : loneNameAt ts p = true) : (tokenAt ts p).any Token.isName = true := by
  unfold loneNameAt at h
  rw [Bool.and_eq_true] at h
  exact h.1

/-- A name is a word. -/
theorem word_of_isName {p : ℤ} (h : (tokenAt ts p).any Token.isName = true) :
    ∃ token, tokenAt ts p = some token ∧ token.type = .word := by
  obtain ⟨token, htoken, hname⟩ := (Option.any_eq_true _ _).mp h
  exact ⟨token, htoken, (of_decide_eq_true hname).1⟩

/-- A construct does not begin with a name. -/
theorem not_opens_of_isName {p : ℤ} (h : (tokenAt ts p).any Token.isName = true) (symbol : Symbol) :
    (tokenAt ts p).any symbol.opens = false ∧ (tokenAt ts p).any symbol.takesWord = false := by
  obtain ⟨token, htoken, htype⟩ := word_of_isName h
  have his (type : TokenType) (hne : type ≠ .word) (text : String) : token.is type text = false :=
    decide_eq_false fun h => hne (h.1.symm.trans htype)
  rw [htoken]
  cases symbol <;> simp [Symbol.opens, Symbol.takesWord, his]

theorem not_restsAt_of_isName {p : ℤ} (h : (tokenAt ts p).any Token.isName = true) : restsAt ts p = false := by
  obtain ⟨token, htoken, htype⟩ := word_of_isName h
  rw [restsAt, Bool.eq_false_iff.mpr fun hs => (stuckAt_iff.mp hs token htoken).1 htype, Bool.false_and]

theorem refusedAt_of_stuck {p : ℤ} (h : stuckAt ts p = true) : refusedAt ts parseExpansion p = false := by
  refine Bool.eq_false_iff.mpr fun hr => ?_
  obtain ⟨token, htoken, hrefused⟩ := refusedAt_iff.mp hr
  obtain ⟨-, hassign, hexp, -⟩ := stuckAt_iff.mp h token htoken
  obtain hrefused | hrefused := hrefused
  · exact hassign hrefused.1
  · exact Bool.false_ne_true (hexp.symm.trans hrefused.1)

theorem unread_lineNumber (ts : List Token) (s : ParserState) : (s.unread ts).lineNumber ≤ s.lineNumber := by
  unfold ParserState.unread
  split
  · dsimp only
    omega
  · exact le_rfl

theorem parseSimpleCommand_pos {o : Option (SimpleCommand ε)} (h : parseSimpleCommand ts parseExpansion n s = some (o, s')) :
    s.pos ≤ s'.pos ∧ (o.isSome → s.pos + 1 ≤ s'.pos ∧ ∀ token ∈ peek ts s', token.type ≠ .word) := by
  obtain ⟨rfl, -, rfl⟩ | ⟨rfl, -, rfl⟩ | ⟨-, -, hnone, hsome⟩ := parseSimpleCommand_cases h
  · rw [unread_pos, unread_pos]
    exact ⟨le_rfl, by simp⟩
  · exact ⟨by dsimp only; omega, by simp⟩
  · refine ⟨?_, hsome⟩
    cases o with
    | none =>
      have := hnone rfl
      omega
    | some node =>
      have := (hsome rfl).1
      omega

/-- Where nothing of a simple command stands, none is found. -/
theorem parseSimpleCommand_rests {o : Option (SimpleCommand ε)} (h : parseSimpleCommand ts parseExpansion n s = some (o, s'))
    (hrests : restsAt ts s.pos = true) : o = none ∧ s' = s := by
  have hstuck : stuckAt ts s.pos = true := by
    unfold restsAt at hrests
    rw [Bool.and_eq_true] at hrests
    exact hrests.1
  obtain ⟨rfl, -, rfl⟩ | ⟨-, hrefused, -⟩ | ⟨hfalse, -⟩ := parseSimpleCommand_cases h
  · rw [restsAt_unread hrests, restsAt_unread hrests]
    exact ⟨rfl, rfl⟩
  · exact absurd (hrefused.symm.trans (refusedAt_of_stuck hstuck)) (by decide)
  · exact absurd (hstuck.symm.trans hfalse) (by decide)

/-- A token is one keyword only. -/
theorem is_other {token : Token} {text other : String} {type : TokenType} (h : token.is type text = true)
    (hne : lit text ≠ lit other) : token.is type other = false :=
  decide_eq_false fun hother => hne ((of_decide_eq_true h).2.symm.trans hother.2)

section
variable (hc : Retreats ts parseExpansion call)
include hc

theorem command_moves : Moves (parseCommand ts parseExpansion n call) fun r d => Symbol.command.least r.isSome ≤ d := by
  intro s r s' h
  have hone := Symbol.command.least_le_one r.isSome
  obtain ⟨⟨cmd, s₁, hcompound, hle⟩, -⟩ | ⟨s₁, hcompound, hrest⟩ := parseCommand_cases h
  · have hfound : 1 ≤ s₁.pos - s.pos := hc.moves .compoundCommand _ _ _ hcompound
    omega
  have hmissing : 0 ≤ s₁.pos - s.pos := hc.moves .compoundCommand _ _ _ hcompound
  obtain ⟨⟨cmd, hdefinition⟩, -⟩ | ⟨s₂, o, hdefinition, hsimple, hr⟩ := hrest
  · have hfound : 1 ≤ s'.pos - s₁.pos := hc.moves .functionDefinition _ _ _ hdefinition
    omega
  · obtain ⟨hle, hsome⟩ := parseSimpleCommand_pos hsimple
    cases o with
    | none =>
      obtain rfl := hr.mpr rfl
      have : -1 ≤ s₂.pos - s₁.pos := hc.moves .functionDefinition _ _ _ hdefinition
      exact show (-1 : ℤ) ≤ s'.pos - s.pos by omega
    | some node =>
      obtain ⟨hlt, hword⟩ := hsome rfl
      obtain ⟨-, -, rfl⟩ | ⟨-, hlone, rfl⟩ | ⟨-, -, hfar⟩ := hc.definition _ _ _ hdefinition
      · omega
      · -- the simple command goes on beyond the name
        obtain ⟨token, htoken, htype⟩ := word_of_isName (isName_of_lone hlone)
        have hne : s'.pos ≠ s₁.pos := fun heq => hword token (by rw [peek_eq, heq]; exact htoken) htype
        dsimp only at hlt
        omega
      · omega

theorem command_lone {r : Option (Ast ε)} (h : parseCommand ts parseExpansion n call s = some (r, s'))
    (hlone : loneNameAt ts s.pos = true) (hrests : restsAt ts (s.pos - 1) = true) : r = none ∧ s' = ⟨s.pos - 1, s.lineNumber⟩ := by
  have hname := isName_of_lone hlone
  obtain ⟨hopens, hword⟩ := not_opens_of_isName hname .compoundCommand
  obtain ⟨⟨cmd, s₁, hcompound, -⟩, -⟩ | ⟨s₁, hcompound, hrest⟩ := parseCommand_cases h
  · exact absurd (hc.other _ _ _ hcompound hopens hword).1 (Option.some_ne_none cmd)
  obtain ⟨-, rfl⟩ := hc.other _ _ _ hcompound hopens hword
  obtain ⟨⟨cmd, hdefinition⟩, -⟩ | ⟨s₂, o, hdefinition, hsimple, hr⟩ := hrest
  · obtain ⟨hnone, -⟩ | ⟨hnone, -⟩ | ⟨-, hfalse, -⟩ := hc.definition _ _ _ hdefinition
    · cases hnone
    · cases hnone
    · exact absurd (hlone.symm.trans hfalse) (by decide)
  · obtain ⟨-, hfalse, -⟩ | ⟨-, -, rfl⟩ | ⟨-, hfalse, -⟩ := hc.definition _ _ _ hdefinition
    · exact absurd (hlone.symm.trans hfalse) (by decide)
    · obtain ⟨rfl, rfl⟩ := parseSimpleCommand_rests hsimple hrests
      exact ⟨hr.mpr rfl, rfl⟩
    · exact absurd (hlone.symm.trans hfalse) (by decide)

theorem command_back (h : parseCommand ts parseExpansion n call s = some (none, s')) (hback : s'.pos = s.pos - 1) :
    s'.lineNumber ≤ s.lineNumber ∧ loneNameAt ts s.pos = true := by
  obtain ⟨-, hsome⟩ | ⟨s₁, hcompound, hrest⟩ := parseCommand_cases h
  · cases hsome
  have hmissing : 0 ≤ s₁.pos - s.pos := hc.moves .compoundCommand _ _ _ hcompound
  obtain ⟨-, hsome⟩ | ⟨s₂, o, hdefinition, hsimple, hr⟩ := hrest
  · cases hsome
  have hle := (parseSimpleCommand_pos hsimple).1
  obtain ⟨-, -, rfl⟩ | ⟨-, hlone, rfl⟩ | ⟨-, -, hfar⟩ := hc.definition _ _ _ hdefinition
  · omega
  · dsimp only at hle
    have hpos : s₁.pos = s.pos := by omega
    rw [hpos] at hlone
    obtain ⟨hopens, hword⟩ := not_opens_of_isName (isName_of_lone hlone) .compoundCommand
    obtain ⟨-, rfl⟩ := hc.other _ _ _ hcompound hopens hword
    obtain ⟨-, -, rfl⟩ | ⟨-, -, rfl⟩ | ⟨-, -, hfar, -⟩ := parseSimpleCommand_cases hsimple
    · exact ⟨(unread_lineNumber ts _).trans (unread_lineNumber ts _), hlone⟩
    · dsimp only at hback
      omega
    · have := hfar (hr.mp rfl)
      dsimp only at this
      omega
  · omega

/-- What becomes of a command where no compound command begins -/
theorem command_other {r : Option (Ast ε)} (h : parseCommand ts parseExpansion n call s = some (r, s'))
    (hopens : (tokenAt ts s.pos).any Symbol.compoundCommand.opens = false)
    (hword : (tokenAt ts s.pos).any Symbol.compoundCommand.takesWord = false) :
    (r = none ∧ s' = s ↔ commandGivesBack ts parseExpansion s.pos = true) ∧
      (r = none → s'.pos = s.pos → s'.lineNumber ≤ s.lineNumber) := by
  have hgives : commandGivesBack ts parseExpansion s.pos =
      if loneNameAt ts s.pos then refusedAt ts parseExpansion (s.pos - 1) else restsAt ts s.pos := by
    rw [commandGivesBack, hopens, hword]
    simp
  have hfar (hlt : s.pos + 1 ≤ s'.pos) (hfalse : commandGivesBack ts parseExpansion s.pos = false) :
      (r = none ∧ s' = s ↔ commandGivesBack ts parseExpansion s.pos = true) ∧
        (r = none → s'.pos = s.pos → s'.lineNumber ≤ s.lineNumber) := by
    refine ⟨iff_of_false (fun hs => ?_) (by simp [hfalse]), fun _ hpos => by omega⟩
    rw [hs.2] at hlt
    omega
  obtain ⟨⟨cmd, s₁, hcompound, -⟩, -⟩ | ⟨s₁, hcompound, hrest⟩ := parseCommand_cases h
  · exact absurd (hc.other _ _ _ hcompound hopens hword).1 (Option.some_ne_none cmd)
  obtain ⟨-, rfl⟩ := hc.other _ _ _ hcompound hopens hword
  obtain ⟨⟨cmd, hdefinition⟩, -⟩ | ⟨s₂, o, hdefinition, hsimple, hr⟩ := hrest
  · obtain ⟨hnone, -⟩ | ⟨hnone, -⟩ | ⟨hname, hlone, hle⟩ := hc.definition _ _ _ hdefinition
    · cases hnone
    · cases hnone
    · exact hfar (by omega) (by rw [hgives, hlone, if_neg Bool.false_ne_true, not_restsAt_of_isName hname])
  · obtain ⟨-, hlone, rfl⟩ | ⟨-, hlone, rfl⟩ | ⟨hname, hlone, hle⟩ := hc.definition _ _ _ hdefinition
    · rw [hlone, if_neg Bool.false_ne_true] at hgives
      obtain ⟨rfl, hstuck, rfl⟩ | ⟨-, hrefused, rfl⟩ | ⟨hstuck, -, hnone, hsome⟩ := parseSimpleCommand_cases hsimple
      · refine ⟨?_, fun _ _ => (unread_lineNumber ts _).trans (unread_lineNumber ts _)⟩
        rw [hgives, restsAt, hstuck, Bool.true_and, ← peek_eq]
        simp only [hr.mpr rfl, true_and]
        unfold ParserState.unread
        cases hio : (peek ts s₂).any (·.type = .ioNumber) with
        | true =>
          have hio' : (peek ts ⟨s₂.pos, s₂.lineNumber - 1⟩).any (·.type = .ioNumber) = true := hio
          simp only [if_true, hio']
          refine iff_of_false (fun hs => ?_) (by decide)
          have := congrArg ParserState.lineNumber hs
          dsimp only at this
          omega
        | false => simp [hio]
      · exact hfar (by dsimp only; omega) (by
          rw [hgives, restsAt, Bool.eq_false_iff.mpr fun hs => absurd (hrefused.symm.trans (refusedAt_of_stuck hs)) (by decide),
            Bool.false_and])
      · refine hfar ?_ (by rw [hgives, restsAt, hstuck, Bool.false_and])
        cases o with
        | none => exact le_trans (by omega) (hnone rfl)
        | some node => exact (hsome rfl).1
    · rw [hlone, if_pos rfl] at hgives
      obtain ⟨rfl, hstuck, rfl⟩ | ⟨rfl, hrefused, rfl⟩ | ⟨-, hrefused, hnone, hsome⟩ := parseSimpleCommand_cases hsimple
      · have hpos : (((⟨s₁.pos - 1, s₁.lineNumber⟩ : ParserState).unread ts).unread ts).pos = s₁.pos - 1 := by
          rw [unread_pos, unread_pos]
        refine ⟨iff_of_false (fun hs => ?_) ?_, fun _ heq => by omega⟩
        · rw [hs.2] at hpos
          omega
        · rw [hgives, refusedAt_of_stuck hstuck]
          exact Bool.false_ne_true
      · refine ⟨iff_of_true ⟨hr.mpr rfl, ?_⟩ (hgives.trans hrefused), fun _ _ => le_rfl⟩
        simp
      · refine ⟨iff_of_false (fun hs => ?_) (by simp [hgives, hrefused]), fun hr' _ => ?_⟩
        · have := hnone (hr.mp hs.1)
          rw [hs.2] at this
          dsimp only at this
          omega
        · have := hnone (hr.mp hr')
          dsimp only at this
          omega
    · exact hfar (by have := (parseSimpleCommand_pos hsimple).1; omega)
        (by rw [hgives, hlone, if_neg Bool.false_ne_true, not_restsAt_of_isName hname])

/-- What becomes of a command where a construct with a compound list begins -/
theorem command_opens {r : Option (Ast ε)} (h : parseCommand ts parseExpansion n call s = some (r, s'))
    (hopens : (tokenAt ts s.pos).any Symbol.compoundCommand.opens = true) :
    (r = none ∧ s' = s ↔ loneNameAt ts (s.pos + 1) = true) ∧ (r = none → s'.pos = s.pos → s'.lineNumber ≤ s.lineNumber) := by
  have hname : (tokenAt ts s.pos).any Token.isName = false := by
    refine Bool.eq_false_iff.mpr fun hname => ?_
    exact absurd (hopens.symm.trans (not_opens_of_isName hname .compoundCommand).1) (by decide)
  have hlone : loneNameAt ts s.pos = false := by rw [loneNameAt, hname, Bool.false_and]
  have hrests := restsAt_of_opens hopens
  obtain ⟨⟨cmd, s₁, hcompound, hle⟩, hsome⟩ | ⟨s₁, hcompound, hrest⟩ := parseCommand_cases h
  · refine ⟨iff_of_false (fun hs => ?_) fun hnext => ?_, fun hr => ?_⟩
    · rw [hs.1] at hsome
      cases hsome
    · exact absurd ((hc.opens _ _ _ _ hopens hcompound).1 hnext).1 (Option.some_ne_none cmd)
    · rw [hr] at hsome
      cases hsome
  obtain ⟨hgives, hkept⟩ := hc.opens _ _ _ _ hopens hcompound
  have hmissing : 0 ≤ s₁.pos - s.pos := hc.moves .compoundCommand _ _ _ hcompound
  -- where the command ends at its first token, the compound command did so
  have hends (hpos : s'.pos = s.pos) (hr : r = none) : s₁.pos = s.pos ∧ s' = s₁ := by
    obtain ⟨-, hsome⟩ | ⟨s₂, o, hdefinition, hsimple, -⟩ := hrest
    · rw [hr] at hsome
      cases hsome
    have hle := (parseSimpleCommand_pos hsimple).1
    obtain ⟨-, -, rfl⟩ | ⟨-, hl, rfl⟩ | ⟨-, -, hfar⟩ := hc.definition _ _ _ hdefinition
    · have heq : s₂.pos = s.pos := by omega
      exact ⟨heq, (parseSimpleCommand_rests hsimple (heq.symm ▸ hrests)).2⟩
    · dsimp only at hle
      obtain heq | heq : s₁.pos = s.pos ∨ s₁.pos = s.pos + 1 := by omega
      · rw [heq, hlone] at hl
        cases hl
      · rw [heq] at hl
        rw [(hgives hl).2] at heq
        omega
    · omega
  refine ⟨⟨fun hs => ?_, fun hnext => ?_⟩, fun hr hpos => ?_⟩
  · obtain ⟨hpos, heq⟩ := hends (by rw [hs.2]) hs.1
    obtain ⟨-, hnext | hlt⟩ := hkept rfl hpos
    · exact hnext
    · rw [← heq, hs.2] at hlt
      omega
  · obtain ⟨-, rfl⟩ := hgives hnext
    obtain ⟨⟨cmd, hdefinition⟩, -⟩ | ⟨s₂, o, hdefinition, hsimple, hr⟩ := hrest
    · obtain ⟨hnone, -⟩ | ⟨hnone, -⟩ | ⟨hn, -⟩ := hc.definition _ _ _ hdefinition
      · cases hnone
      · cases hnone
      · rw [hname] at hn
        cases hn
    · obtain ⟨-, -, rfl⟩ | ⟨-, hl, -⟩ | ⟨hn, -⟩ := hc.definition _ _ _ hdefinition
      · obtain ⟨ho, hs⟩ := parseSimpleCommand_rests hsimple hrests
        exact ⟨hr.mpr ho, hs⟩
      · rw [hlone] at hl
        cases hl
      · rw [hname] at hn
        cases hn
  · obtain ⟨heq, rfl⟩ := hends hpos hr
    exact (hkept rfl heq).1

/-- Where a construct with a word begins, a command that is not found ends behind its first token. -/
theorem command_takesWord (h : parseCommand ts parseExpansion n call s = some (none, s'))
    (hword : (tokenAt ts s.pos).any Symbol.compoundCommand.takesWord = true) : s.pos + 1 ≤ s'.pos := by
  obtain ⟨-, hsome⟩ | ⟨s₁, hcompound, hrest⟩ := parseCommand_cases h
  · cases hsome
  obtain ⟨hle₁, hnext⟩ := hc.takesWord _ _ _ hword hcompound
  obtain ⟨-, hsome⟩ | ⟨s₂, o, hdefinition, hsimple, -⟩ := hrest
  · cases hsome
  have hle := (parseSimpleCommand_pos hsimple).1
  obtain ⟨-, -, rfl⟩ | ⟨-, hl, rfl⟩ | ⟨-, -, hfar⟩ := hc.definition _ _ _ hdefinition
  · omega
  · have hne : s₁.pos ≠ s.pos + 1 := by
      intro heq
      have hname := isName_of_lone hl
      rw [heq, hnext heq] at hname
      cases hname
    dsimp only at hle
    omega
  · omega

theorem command_stays {r : Option (Ast ε)} (h : parseCommand ts parseExpansion n call s = some (r, s')) :
    (r = none ∧ s' = s ↔ commandGivesBack ts parseExpansion s.pos = true) ∧
      (r = none → s'.pos = s.pos → s'.lineNumber ≤ s.lineNumber) := by
  cases hopens : (tokenAt ts s.pos).any Symbol.compoundCommand.opens with
  | true =>
    rw [commandGivesBack, hopens, if_pos rfl]
    exact command_opens hc h hopens
  | false =>
    cases hword : (tokenAt ts s.pos).any Symbol.compoundCommand.takesWord with
    | false => exact command_other hc h hopens hword
    | true =>
      have hname : (tokenAt ts s.pos).any Token.isName = false := by
        refine Bool.eq_false_iff.mpr fun hname => ?_
        exact absurd (hword.symm.trans (not_opens_of_isName hname .compoundCommand).2) (by decide)
      have hfalse : commandGivesBack ts parseExpansion s.pos = false := by
        simp [commandGivesBack, hopens, hword, loneNameAt, hname]
      refine ⟨iff_of_false (fun hs => ?_) (by simp [hfalse]), fun hr hpos => ?_⟩
      · obtain ⟨rfl, rfl⟩ := hs
        have := command_takesWord hc h hword
        omega
      · subst hr
        have := command_takesWord hc h hword
        omega

omit hc in
/-- No name is a `!`. -/
theorem not_bang_of_lone {p : ℤ} (h : loneNameAt ts p = true) : operatorAt ts "!" p = false := by
  obtain ⟨token, htoken, htype⟩ := word_of_isName (isName_of_lone h)
  rw [operatorAt, htoken, Option.any_some]
  exact decide_eq_false fun hop => absurd (hop.1.symm.trans htype) (by decide)

theorem command_neg_one_le : Moves (call .command) fun _ d => -1 ≤ d :=
  (hc.moves .command).mono fun _ _ hd => (Symbol.neg_one_le_least _ _).trans hd

theorem pipeline_moves : Moves (parsePipeline ts n call) fun r d => Symbol.pipeline.least r.isSome ≤ d := by
  intro s r s' h
  have hbang : (s.afterBang ts).pos = if operatorAt ts "!" s.pos then s.pos + 1 else s.pos := by
    unfold ParserState.afterBang
    split <;> rfl
  obtain ⟨s₁, hcmd, rfl, rfl⟩ | ⟨cmd, s₁, hcmd, hle⟩ := parsePipeline_cases (command_neg_one_le hc) h
  · have : -1 ≤ s₁.pos - (s.afterBang ts).pos := hc.moves .command _ _ _ hcmd
    refine show (-1 : ℤ) ≤ _ - s.pos from ?_
    cases hb : operatorAt ts "!" s.pos with
    | true =>
      rw [hb] at hbang
      simp only [if_true] at hbang ⊢
      omega
    | false =>
      rw [hb] at hbang
      simp only [Bool.false_eq_true, if_false] at hbang ⊢
      omega
  · have : 1 ≤ s₁.pos - (s.afterBang ts).pos := hc.moves .command _ _ _ hcmd
    have := Symbol.pipeline.least_le_one r.isSome
    split_ifs at hbang <;> omega

theorem pipeline_lone {r : Option (Ast ε)} (h : parsePipeline ts n call s = some (r, s'))
    (hlone : loneNameAt ts s.pos = true) (hrests : restsAt ts (s.pos - 1) = true) : r = none ∧ s' = ⟨s.pos - 1, s.lineNumber⟩ := by
  have hbang : s.afterBang ts = s := by rw [ParserState.afterBang, not_bang_of_lone hlone, if_neg Bool.false_ne_true]
  obtain ⟨s₁, hcmd, rfl, rfl⟩ | ⟨cmd, s₁, hcmd, -⟩ := parsePipeline_cases (command_neg_one_le hc) h
  · rw [hbang] at hcmd
    rw [not_bang_of_lone hlone, if_neg Bool.false_ne_true]
    exact hc.lone .command _ _ _ rfl hcmd hlone hrests
  · rw [hbang] at hcmd
    exact absurd (hc.lone .command _ _ _ rfl hcmd hlone hrests).1 (Option.some_ne_none cmd)

theorem pipeline_back (h : parsePipeline ts n call s = some (none, s')) (hback : s'.pos = s.pos - 1) :
    s'.lineNumber ≤ s.lineNumber ∧ (loneNameAt ts s.pos = true ∨ s'.lineNumber < s.lineNumber) := by
  obtain ⟨s₁, hcmd, -, rfl⟩ | ⟨cmd, s₁, hcmd, hle⟩ := parsePipeline_cases (command_neg_one_le hc) h
  · unfold ParserState.afterBang at hcmd
    cases hb : operatorAt ts "!" s.pos with
    | true =>
      rw [hb] at hcmd hback
      simp only [if_true] at hcmd hback ⊢
      obtain ⟨hline, -⟩ := hc.back .command _ _ rfl hcmd (by dsimp only; omega)
      dsimp only at hline
      exact ⟨by omega, .inr (by omega)⟩
    | false =>
      rw [hb] at hcmd hback
      simp only [Bool.false_eq_true, if_false] at hcmd hback ⊢
      exact hc.back .command _ _ rfl hcmd hback
  · have : 1 ≤ s₁.pos - (s.afterBang ts).pos := hc.moves .command _ _ _ hcmd
    unfold ParserState.afterBang at this
    split_ifs at this
    · dsimp only at this
      omega
    · omega

/-- When a pipeline that is not found leaves the parser where it was -/
theorem pipeline_stays (h : parsePipeline ts n call s = some (none, s')) :
    s' = s ↔ operatorAt ts "!" s.pos = false ∧ commandGivesBack ts parseExpansion s.pos = true := by
  obtain ⟨s₁, hcmd, -, rfl⟩ | ⟨cmd, s₁, hcmd, hle⟩ := parsePipeline_cases (command_neg_one_le hc) h
  · unfold ParserState.afterBang at hcmd
    cases hb : operatorAt ts "!" s.pos with
    | true =>
      rw [hb, if_pos rfl] at hcmd
      rw [if_pos rfl]
      refine iff_of_false (fun hs => ?_) (by simp)
      have hpos := congrArg ParserState.pos hs
      have hline := congrArg ParserState.lineNumber hs
      dsimp only at hpos hline
      have := hc.level _ _ hcmd (by dsimp only; omega)
      dsimp only at this
      omega
    | false =>
      rw [hb, if_neg Bool.false_ne_true] at hcmd
      rw [if_neg Bool.false_ne_true]
      simpa using hc.stays _ _ _ hcmd
  · have hlt : 1 ≤ s₁.pos - (s.afterBang ts).pos := hc.moves .command _ _ _ hcmd
    unfold ParserState.afterBang at hcmd hlt
    cases hb : operatorAt ts "!" s.pos with
    | true =>
      rw [hb, if_pos rfl] at hlt
      refine iff_of_false (fun hs => ?_) (by simp)
      dsimp only at hlt
      rw [hs] at hle
      omega
    | false =>
      rw [hb, if_neg Bool.false_ne_true] at hcmd hlt
      refine iff_of_false (fun hs => ?_) fun hgives => ?_
      · rw [hs] at hle
        omega
      · exact absurd ((hc.stays _ _ _ hcmd).mpr hgives.2).1 (Option.some_ne_none cmd)

/-- A function that begins with another one, and ends with it when that finds nothing -/
theorem lone_of_first {x : Parse (Option (Ast ε))} (symbol : Symbol) (hholds : symbol.holdsCommand = true)
    (hx : ∀ s r s', x s = some (r, s') → (call symbol s = some (none, s') ∧ r = none) ∨
      ∃ first s₁, call symbol s = some (some first, s₁) ∧ s.pos ≤ s'.pos) {r : Option (Ast ε)} (h : x s = some (r, s')) :
    (loneNameAt ts s.pos = true → restsAt ts (s.pos - 1) = true → r = none ∧ s' = ⟨s.pos - 1, s.lineNumber⟩) ∧
      (r = none → s'.pos = s.pos - 1 →
        s'.lineNumber ≤ s.lineNumber ∧ (loneNameAt ts s.pos = true ∨ s'.lineNumber < s.lineNumber)) := by
  obtain ⟨hfirst, rfl⟩ | ⟨first, s₁, hfirst, hle⟩ := hx s r s' h
  · exact ⟨hc.lone _ _ _ _ hholds hfirst, fun _ => hc.back _ _ _ hholds hfirst⟩
  · refine ⟨fun hlone hrests => ?_, fun _ hback => by omega⟩
    exact absurd (hc.lone _ _ _ _ hholds hfirst hlone hrests).1 (Option.some_ne_none first)

theorem andOr_first (s : ParserState) (r : Option (Ast ε)) (s' : ParserState) (h : parseAndOr ts call s = some (r, s')) :
    (call .pipeline s = some (none, s') ∧ r = none) ∨
      ∃ first s₁, call .pipeline s = some (some first, s₁) ∧ s.pos ≤ s'.pos := by
  unfold parseAndOr at h
  obtain ⟨first, s₁, hfirst, h⟩ := Parse.bind_eq_some.mp h
  cases first with
  | none =>
    cases h
    exact .inl ⟨hfirst, rfl⟩
  | some left =>
    have hle : 1 ≤ s₁.pos - s.pos := hc.moves .pipeline _ _ _ hfirst
    refine .inr ⟨left, s₁, hfirst, ?_⟩
    dsimp only at h
    rw [Parse.bind_apply, peekToken_apply, Option.bind_some] at h
    cases hop : (peek ts s₁).filter fun t => t.type = .andIf ∨ t.type = .orIf with
    | none =>
      rw [hop] at h
      cases h
      exact show s.pos ≤ s₁.pos by omega
    | some token =>
      rw [hop] at h
      dsimp only at h
      rw [Parse.bind_apply, consumeToken_apply, Option.bind_some] at h
      obtain ⟨right, s₂, hright, h⟩ := Parse.bind_eq_some.mp h
      have hconsume := (consume_pos ts s₁).1
      have hback := (Symbol.neg_one_le_least _ _).trans (hc.moves .andOr _ _ _ hright)
      dsimp only at hback
      cases right <;> cases h <;> omega

theorem compoundList_first (s : ParserState) (r : Option (Ast ε)) (s' : ParserState)
    (h : parseCompoundList ts call s = some (r, s')) :
    (call .andOr s = some (none, s') ∧ r = none) ∨
      ∃ first s₁, call .andOr s = some (some first, s₁) ∧ s.pos ≤ s'.pos := by
  unfold parseCompoundList at h
  obtain ⟨first, s₁, hfirst, h⟩ := Parse.bind_eq_some.mp h
  cases first with
  | none =>
    cases h
    exact .inl ⟨hfirst, rfl⟩
  | some andOr =>
    have hle : 1 ≤ s₁.pos - s.pos := hc.moves .andOr _ _ _ hfirst
    refine .inr ⟨andOr, s₁, hfirst, ?_⟩
    obtain ⟨separator, s₂, hseparator, h⟩ := Parse.bind_eq_some.mp h
    have := parseSeparator_moves _ _ _ hseparator
    split_ifs at h
    · cases h
      omega
    · obtain ⟨next, s₃, hnext, h⟩ := Parse.bind_eq_some.mp h
      have hback := (Symbol.neg_one_le_least _ _).trans (hc.moves .compoundList _ _ _ hnext)
      cases h
      omega

/-- A construct that is opened before a name that stands alone is given back, and only there at its line. -/
theorem heads_opens {type : TokenType} (htype : type ≠ .newline) {expected : String} {x : Parse (Option (Ast ε))}
    (hx : Heads ts call type expected x) (htoken : (tokenAt ts s.pos).any (·.is type expected) = true)
    (hrests : restsAt ts s.pos = true) {r : Option (Ast ε)} (h : x s = some (r, s')) :
    (loneNameAt ts (s.pos + 1) = true → r = none ∧ s' = s) ∧
      (r = none → s'.pos = s.pos → s'.lineNumber ≤ s.lineNumber ∧ (loneNameAt ts (s.pos + 1) = true ∨ s'.lineNumber < s.lineNumber)) := by
  have hback : s.pos + 1 - 1 = s.pos := by omega
  obtain ⟨hlist, rfl⟩ | ⟨⟨body, s₁, hlist⟩, hle⟩ := hx.cases hc.moves htype htoken h
  · refine ⟨fun hlone => ⟨rfl, ?_⟩, fun _ hpos => hc.back .compoundList _ _ rfl hlist (hpos.trans hback.symm)⟩
    have := (hc.lone .compoundList _ _ _ rfl hlist hlone (by dsimp only; rw [hback]; exact hrests)).2
    rw [this]
    dsimp only
    rw [hback]
  · refine ⟨fun hlone => ?_, fun _ hpos => by omega⟩
    exact absurd (hc.lone .compoundList _ _ _ rfl hlist hlone (by dsimp only; rw [hback]; exact hrests)).1 (Option.some_ne_none body)

omit hc in
theorem compoundCommand_other {r : Option (Ast ε)} (h : parseCompoundCommand ts call s = some (r, s'))
    (hopens : (tokenAt ts s.pos).any Symbol.compoundCommand.opens = false)
    (hword : (tokenAt ts s.pos).any Symbol.compoundCommand.takesWord = false) : r = none ∧ s' = s := by
  unfold parseCompoundCommand at h
  rw [Parse.bind_apply, peekToken_apply, Option.bind_some, peek_eq] at h
  cases htoken : tokenAt ts s.pos with
  | none =>
    rw [htoken] at h
    cases h
    exact ⟨rfl, rfl⟩
  | some token =>
    rw [htoken, Option.any_some] at hopens hword
    simp only [Symbol.opens, Symbol.takesWord, Bool.or_eq_false_iff] at hopens hword
    obtain ⟨⟨⟨⟨hif, hwhile⟩, huntil⟩, hbrace⟩, hsubshell⟩ := hopens
    rw [htoken] at h
    simp only [hif, hwhile, huntil, hbrace, hsubshell, hword, Bool.false_eq_true, if_false] at h
    cases h
    exact ⟨rfl, rfl⟩

theorem compoundCommand_opens {r : Option (Ast ε)} (hopens : (tokenAt ts s.pos).any Symbol.compoundCommand.opens = true)
    (h : parseCompoundCommand ts call s = some (r, s')) :
    (loneNameAt ts (s.pos + 1) = true → r = none ∧ s' = s) ∧
      (r = none → s'.pos = s.pos → s'.lineNumber ≤ s.lineNumber ∧ (loneNameAt ts (s.pos + 1) = true ∨ s'.lineNumber < s.lineNumber)) := by
  obtain ⟨token, htoken, htrue⟩ := (Option.any_eq_true _ _).mp hopens
  have hany {symbol : Symbol} (hs : symbol.opens token = true) : (tokenAt ts s.pos).any symbol.opens = true := by
    rw [htoken, Option.any_some, hs]
  unfold parseCompoundCommand at h
  rw [Parse.bind_apply, peekToken_apply, Option.bind_some, peek_eq, htoken] at h
  have hother {keyword : String} (his : token.is .keyword keyword = true)
      (hnot : Symbol.compoundCommand.opens ⟨.keyword, lit keyword⟩ = false) : False := by
    obtain ⟨htype, htext⟩ := of_decide_eq_true his
    rw [show token = ⟨.keyword, lit keyword⟩ by cases token; simp_all] at htrue
    exact Bool.false_ne_true (hnot.symm.trans htrue)
  dsimp only at h
  split_ifs at h with hif hfor hcase hwhile huntil hbrace hsubshell
  · exact hc.opens .ifClause _ _ _ (hany hif) h
  · exact (hother hfor (by decide)).elim
  · exact (hother hcase (by decide)).elim
  · exact hc.opens .whileClause _ _ _ (hany hwhile) h
  · exact hc.opens .untilClause _ _ _ (hany huntil) h
  · exact hc.opens .braceGroup _ _ _ (hany hbrace) h
  · exact hc.opens .subshell _ _ _ (hany hsubshell) h
  · simp [Symbol.opens, hif, hwhile, huntil, hbrace, hsubshell] at htrue

theorem compoundCommand_takesWord (hword : (tokenAt ts s.pos).any Symbol.compoundCommand.takesWord = true)
    (h : parseCompoundCommand ts call s = some (none, s')) :
    s.pos + 1 ≤ s'.pos ∧ (s'.pos = s.pos + 1 → (tokenAt ts (s.pos + 1)).any Token.isName = false) := by
  obtain ⟨token, htoken, htrue⟩ := (Option.any_eq_true _ _).mp hword
  have hany {symbol : Symbol} (hs : symbol.takesWord token = true) : (tokenAt ts s.pos).any symbol.takesWord = true := by
    rw [htoken, Option.any_some, hs]
  unfold parseCompoundCommand at h
  rw [Parse.bind_apply, peekToken_apply, Option.bind_some, peek_eq, htoken] at h
  simp only [Symbol.takesWord, Bool.or_eq_true] at htrue
  obtain hfor | hcase := htrue
  · have hif : token.is .keyword "if" = false := is_other hfor (by decide)
    simp only [hif, hfor, Bool.false_eq_true, if_false, if_true] at h
    exact hc.takesWord .forClause _ _ (hany hfor) h
  · have hif : token.is .keyword "if" = false := is_other hcase (by decide)
    have hfor : token.is .keyword "for" = false := is_other hcase (by decide)
    simp only [hif, hfor, hcase, Bool.false_eq_true, if_false, if_true] at h
    exact hc.takesWord .caseClause _ _ (hany hcase) h

end

/-- However many calls may be nested, the functions leave the parser so. -/
theorem retreats (ts : List Token) (parseExpansion : Token → Option ε) (n : ℕ) : Retreats ts parseExpansion (parse ts parseExpansion n) := by
  induction n with
  | zero =>
    exact
      { moves := fun _ => .diverge
        definition := fun _ _ _ h => nomatch h
        lone := fun _ _ _ _ _ h => nomatch h
        back := fun _ _ _ _ h => nomatch h
        stays := fun _ _ _ h => nomatch h
        level := fun _ _ h => nomatch h
        other := fun _ _ _ h => nomatch h
        opens := fun _ _ _ _ _ h => nomatch h
        takesWord := fun _ _ _ _ h => nomatch h }
  | succ n ih =>
    constructor
    case moves =>
      intro symbol
      cases symbol with
      | list => exact list_moves ih.moves
      | compoundList => exact compoundList_moves ih.moves
      | andOr => exact andOr_moves ih.moves
      | pipeline => exact pipeline_moves ih
      | command => exact command_moves ih
      | compoundCommand => exact compoundCommand_forward ih.moves
      | functionDefinition => exact functionDefinition_moves ih.moves
      | braceGroup => exact (bracketed_head _ _ _).forward ih.moves (by decide)
      | subshell => exact (bracketed_head _ _ _).forward ih.moves (by decide)
      | ifClause => exact (ifClause_head ih.moves).forward ih.moves (by decide)
      | forClause => exact (forClause_takes ih.moves).forward
      | caseClause => exact (caseClause_takes ih.moves).forward
      | whileClause => exact (loopClause_head ih.moves _ _).forward ih.moves (by decide)
      | untilClause => exact (loopClause_head ih.moves _ _).forward ih.moves (by decide)
    case definition => exact fun s r s' h => definitionEnds ih.moves h
    case lone =>
      intro symbol s r s' hholds h
      cases symbol with
      | compoundList => exact (lone_of_first ih .andOr rfl (compoundList_first ih) h).1
      | andOr => exact (lone_of_first ih .pipeline rfl (andOr_first ih) h).1
      | pipeline => exact pipeline_lone ih h
      | command => exact command_lone ih h
      | _ => cases hholds
    case back =>
      intro symbol s s' hholds h
      cases symbol with
      | compoundList => exact (lone_of_first ih .andOr rfl (compoundList_first ih) h).2 rfl
      | andOr => exact (lone_of_first ih .pipeline rfl (andOr_first ih) h).2 rfl
      | pipeline => exact pipeline_back ih h
      | command => exact fun hback => (command_back ih h hback).imp_right .inl
      | _ => cases hholds
    case stays => exact fun s r s' h => (command_stays ih h).1
    case level => exact fun s s' h => (command_stays ih h).2 rfl
    case other => exact fun s r s' h hopens hword => compoundCommand_other h hopens hword
    case opens =>
      intro symbol s r s' hopens h
      have hrests := restsAt_of_opens hopens
      cases symbol with
      | compoundCommand => exact compoundCommand_opens ih hopens h
      | braceGroup => exact heads_opens ih (by decide) (bracketed_head _ _ _) hopens hrests h
      | subshell => exact heads_opens ih (by decide) (bracketed_head _ _ _) hopens hrests h
      | ifClause => exact heads_opens ih (by decide) (ifClause_head ih.moves) hopens hrests h
      | whileClause => exact heads_opens ih (by decide) (loopClause_head ih.moves _ _) hopens hrests h
      | untilClause => exact heads_opens ih (by decide) (loopClause_head ih.moves _ _) hopens hrests h
      | _ => 
        obtain ⟨_, -, hfalse⟩ := (Option.any_eq_true _ _).mp hopens
        cases hfalse
    case takesWord =>
      intro symbol s s' hword h
      cases symbol with
      | compoundCommand => exact compoundCommand_takesWord ih hword h
      | forClause =>
        refine (forClause_takes ih.moves).cases (fun token hname => ?_) (fun token hp => ?_) hword h
        · exact hname
        · exact (of_decide_eq_true hp).1
      | caseClause =>
        refine (caseClause_takes ih.moves).cases (fun token hname => ?_) (fun token hp => ?_) hword h
        · exact decide_eq_true (of_decide_eq_true hname).1
        · exact of_decide_eq_true hp
      | _ =>
        obtain ⟨_, -, hfalse⟩ := (Option.any_eq_true _ _).mp hword
        cases hfalse

/-- When a function that finds nothing leaves the position and the line as they were: a redirection without a number, a
function definition without a name or with a bracket behind it, and a pipeline without `!` whose command does so -/
theorem givesBack_iff (ts : List Token) (parseExpansion : Token → Option ε) (n : ℕ) (s s' : ParserState) :
    (parseRedirect ts s = some (none, s') → (s' = s ↔ (tokenAt ts s.pos).any (·.type = .ioNumber) = false)) ∧
    (parse ts parseExpansion n .functionDefinition s = some (none, s') →
      (s' = s ↔ (tokenAt ts s.pos).any Token.isName = false ∨
        operatorAt ts "(" (s.pos + 1) = true ∧ operatorAt ts ")" (s.pos + 2) = false)) ∧
    (parse ts parseExpansion n .pipeline s = some (none, s') →
      (s' = s ↔ operatorAt ts "!" s.pos = false ∧ commandGivesBack ts parseExpansion s.pos = true)) := by
  refine ⟨fun h => ?_, fun h => ?_, fun h => ?_⟩
  · obtain ⟨-, -, rfl⟩ | ⟨hsome, -⟩ := parseRedirect_cases h
    · rw [ParserState.unread, peek_eq]
      cases (tokenAt ts s.pos).any (·.type = .ioNumber) with
      | true =>
        refine iff_of_false (fun hs => ?_) (by decide)
        have := congrArg ParserState.lineNumber hs
        simp at this
      | false => simp
    · cases hsome
  · cases n with
    | zero => cases h
    | succ n =>
      have hname (hlone : loneNameAt ts s.pos = true) : ¬((tokenAt ts s.pos).any Token.isName = false ∨
          operatorAt ts "(" (s.pos + 1) = true ∧ operatorAt ts ")" (s.pos + 2) = false) := by
        unfold loneNameAt at hlone
        rw [Bool.and_eq_true, Bool.not_eq_true'] at hlone
        simp [hlone.1, hlone.2]
      obtain ⟨-, hnone | ⟨hlone, hclosed⟩, rfl⟩ | ⟨-, hlone, rfl⟩ | ⟨⟨hname, hlone, hclosed⟩, hle⟩ :=
        parseFunctionDefinition_cases (retreats ts parseExpansion n).moves h
      · exact iff_of_true rfl (.inl hnone)
      · unfold loneNameAt at hlone
        cases hname : (tokenAt ts s'.pos).any Token.isName with
        | false => exact iff_of_true rfl (.inl rfl)
        | true => exact iff_of_true rfl (.inr ⟨by simpa [hname] using hlone, hclosed⟩)
      · refine iff_of_false (fun hs => ?_) (hname hlone)
        have := congrArg ParserState.pos hs
        dsimp only at this
        omega
      · refine iff_of_false (fun hs => ?_) (by simp [hname, hclosed])
        rw [hs] at hle
        omega
  · cases n with
    | zero => cases h
    | succ n => exact pipeline_stays (retreats ts parseExpansion n) h

/-- A number without a redirection, a name that is given back twice, and a construct that is opened before such a name -/
theorem givesBack_lone : 
    parseRedirect [⟨.ioNumber, lit "2"⟩] ⟨0, 1⟩ = some (none, ⟨0, 0⟩) ∧
    parse [⟨.keyword, lit "if"⟩, ⟨.word, lit "a"⟩] (fun _ => (none : Option Unit)) 6 .functionDefinition ⟨1, 1⟩ = some (none, ⟨0, 1⟩) ∧
    parse [⟨.keyword, lit "if"⟩, ⟨.word, lit "a"⟩] (fun _ => (none : Option Unit)) 9 .pipeline ⟨0, 1⟩ = some (none, ⟨0, 1⟩) ∧
    commandGivesBack [⟨.keyword, lit "if"⟩, ⟨.word, lit "a"⟩] (fun _ => (none : Option Unit)) 0 = true := by
  have hredirect : parseRedirect [⟨.ioNumber, lit "2"⟩] ⟨0, 1⟩ = some (none, ⟨0, 0⟩) := rfl
  have hdefinition : parse [⟨.keyword, lit "if"⟩, ⟨.word, lit "a"⟩] (fun _ => (none : Option Unit)) 6 .functionDefinition ⟨1, 1⟩ =
      some (none, ⟨0, 1⟩) := rfl
  have hpipeline : parse [⟨.keyword, lit "if"⟩, ⟨.word, lit "a"⟩] (fun _ => (none : Option Unit)) 9 .pipeline ⟨0, 1⟩ =
      some (none, ⟨0, 1⟩) := rfl
  refine ⟨hredirect, hdefinition, hpipeline, ?_⟩
  exact ((givesBack_iff _ (fun _ => (none : Option Unit)) 9 _ _).2.2 hpipeline).mp rfl |>.2

/-- The first name of the input, alone: the position becomes negative. -/
theorem functionDefinition_negative :
    parse [⟨.word, lit "a"⟩] (fun _ => (none : Option Unit)) 2 .functionDefinition ⟨0, 1⟩ = some (none, ⟨-1, 1⟩) ∧
    parse [⟨.word, lit "a"⟩] (fun _ => (none : Option Unit)) 4 .pipeline ⟨0, 1⟩ = some (none, ⟨-1, 1⟩) := ⟨rfl, rfl⟩

end ValidcTools.Sh23
