import ValidcTools.Sh23.Separators

/-! How far a parse function moves the position, whether it finds what it looks for or not. -/
namespace ValidcTools.Sh23

/-! ## Rules -/

/-- What a function yields, and by how much it moves the position, where it returns -/
def Moves {α : Type} (x : Parse α) (P : α → ℤ → Prop) : Prop := ∀ s a s', x s = some (a, s') → P a (s'.pos - s.pos)

section
variable {α β : Type} {x : Parse α} {P Q : α → ℤ → Prop} {R : β → ℤ → Prop}

theorem Moves.bind (hx : Moves x P) {f : α → Parse β} (hf : ∀ a d, P a d → Moves (f a) fun b e => R b (d + e)) :
    Moves (x >>= f) R := by
  intro s b s' h
  obtain ⟨a, s₁, h₁, h₂⟩ := Parse.bind_eq_some.mp h
  have hR : R b (s₁.pos - s.pos + (s'.pos - s₁.pos)) := hf a _ (hx s a s₁ h₁) s₁ b s' h₂
  rwa [show s₁.pos - s.pos + (s'.pos - s₁.pos) = s'.pos - s.pos by omega] at hR

theorem Moves.pure {a : α} (h : P a 0) : Moves (Pure.pure a : Parse α) P := by
  intro s b s' hb
  obtain ⟨rfl, rfl⟩ := Prod.ext_iff.mp (Option.some.inj hb)
  rwa [sub_self]

theorem Moves.mono (hx : Moves x P) (h : ∀ a d, P a d → Q a d) : Moves x Q := fun s a s' hs => h a _ (hx s a s' hs)

theorem Moves.diverge : Moves (Sh23.diverge : Parse α) P := fun _ _ _ h => nomatch h

end

variable (ts : List Token)

theorem peekToken_moves : Moves (peekToken ts) fun _ d => d = 0 := by
  intro s a s' h
  obtain ⟨-, rfl⟩ := Prod.ext_iff.mp (Option.some.inj h)
  exact sub_self _

theorem consumeToken_moves : Moves (consumeToken ts) fun _ d => 0 ≤ d ∧ d ≤ 1 := by
  intro s a s' h
  obtain ⟨-, rfl⟩ := Prod.ext_iff.mp (Option.some.inj h)
  dsimp only [ParserState.consume]
  split
  · omega
  · dsimp only
    omega

theorem consume_of_any {p : Token → Bool} {s : ParserState} (h : (peek ts s).any p) (hp : ∀ token, p token → token.type ≠ .newline) :
    s.consume ts = ⟨s.pos + 1, s.lineNumber⟩ := by
  obtain ⟨token, htoken, htrue⟩ := (Option.any_eq_true _ _).mp h
  exact consume_of_peek htoken (hp token htrue)

theorem expectToken_eq {type : TokenType} (htype : type ≠ .newline) (expected : String) (s : ParserState) :
    expectToken ts type expected s =
      if (peek ts s).any (·.is type expected) then some (true, ⟨s.pos + 1, s.lineNumber⟩) else some (false, s) := by
  simp only [expectToken, Parse.bind_apply, peekToken_apply, Option.bind_some]
  split_ifs with h
  · rw [Parse.bind_apply, consumeToken_apply, consume_of_any ts h fun token ht => by rw [(of_decide_eq_true ht).1]; exact htype]
    rfl
  · rfl

theorem expectToken_moves {type : TokenType} (htype : type ≠ .newline) (expected : String) :
    Moves (expectToken ts type expected) fun b d => d = if b then 1 else 0 := by
  intro s b s' h
  rw [expectToken_eq ts htype] at h
  split_ifs at h with hany <;> obtain ⟨rfl, rfl⟩ := Prod.ext_iff.mp (Option.some.inj h) <;> simp

/-! ## Redirections -/

variable {ε : Type} {ts : List Token} {s s' : ParserState}

theorem consume_pos (ts : List Token) (s : ParserState) : s.pos ≤ (s.consume ts).pos ∧ (s.consume ts).pos ≤ s.pos + 1 := by
  unfold ParserState.consume
  split
  · omega
  · dsimp only
    omega

/-- The token at a position -/
def tokenAt (ts : List Token) (p : ℤ) : Option Token := if 0 ≤ p then ts[p.toNat]? else none

theorem peek_eq (ts : List Token) (s : ParserState) : peek ts s = tokenAt ts s.pos := rfl

/-- A redirection without a number stands at the position. -/
def redirectAt (ts : List Token) (p : ℤ) : Bool :=
  (tokenAt ts p).any (fun t => (parseRedirectOperation t).isSome) &&
    (tokenAt ts (p + 1)).any fun t => decide (t.type = .word ∨ t.type = .heredocDelim)

/-- `parse_redirect` after the number -/
def redirectFrom (ts : List Token) (ioNumber : Option Token) : Parse (Option Redirect) := do
  match (← peekToken ts).bind parseRedirectOperation with
  | none =>
    if ioNumber.isSome then backtrack 1 1
    return none
  | some operation =>
    consumeToken ts
    match (← peekToken ts).filter fun t => t.type = .word ∨ t.type = .heredocDelim with
    | none =>
      backtrack 1 0
      if ioNumber.isSome then backtrack 1 1
      return none
    | some word =>
      consumeToken ts
      if operation = .dless ∨ operation = .dlessdash then
        match (← peekToken ts).filter (·.type = .word) with
        | none => return some (redirect ioNumber operation word none)
        | some content =>
          backtrack 0 (-(content.text.count 0x0A : ℤ))
          consumeToken ts
          return some (redirect ioNumber operation word (some content))
      else return some (redirect ioNumber operation word none)

theorem parseRedirect_eq (ts : List Token) (s : ParserState) :
    parseRedirect ts s = redirectFrom ts ((peek ts s).filter (·.type = .ioNumber))
      (if (peek ts s).any (·.type = .ioNumber) then s.consume ts else s) := by
  unfold parseRedirect
  rw [Parse.bind_apply, peekToken_apply, Option.bind_some]
  cases hpeek : peek ts s with
  | none => rfl
  | some token =>
    by_cases hio : token.type = .ioNumber
    · simp only [Option.filter_some_pos, hio, decide_true, Option.isSome_some, if_true, Option.any_some]
      rfl
    · simp only [Option.filter_some_neg, hio, decide_false, Option.isSome_none, Bool.false_eq_true, if_false, Option.any_some]
      rfl

theorem parseRedirectOperation_newline {token : Token} (h : (parseRedirectOperation token).isSome) : token.type ≠ .newline := by
  intro hn
  simp [parseRedirectOperation, hn] at h

theorem redirectFrom_cases {ioNumber : Option Token} {r : Option Redirect} (h : redirectFrom ts ioNumber s = some (r, s')) :
    r = none ∧ redirectAt ts s.pos = false ∧
        s' = (if ioNumber.isSome then ⟨s.pos - 1, s.lineNumber - 1⟩ else s) ∨
      r.isSome = true ∧ redirectAt ts s.pos = true ∧ s.pos + 2 ≤ s'.pos := by
  unfold redirectFrom at h
  simp only [Parse.bind_apply, peekToken_apply, Option.bind_some] at h
  cases hop : (peek ts s).bind parseRedirectOperation with
  | none =>
    refine .inl ?_
    have hat : redirectAt ts s.pos = false := by
      have hnone : (tokenAt ts s.pos).any (fun t => (parseRedirectOperation t).isSome) = false := by
        rw [← peek_eq]
        cases hpeek : peek ts s with
        | none => rfl
        | some token => 
          rw [hpeek, Option.bind_some] at hop
          simp [hop]
      rw [redirectAt, hnone, Bool.false_and]
    rw [hop] at h
    cases ioNumber with
    | none => 
      cases h
      exact ⟨rfl, hat, rfl⟩
    | some io => 
      cases h
      exact ⟨rfl, hat, rfl⟩
  | some operation =>
    rw [hop] at h
    obtain ⟨token, htoken, hoperation⟩ := Option.bind_eq_some_iff.mp hop
    have hconsume := consume_of_peek htoken (parseRedirectOperation_newline (hoperation ▸ rfl))
    have hfirst : (tokenAt ts s.pos).any (fun t => (parseRedirectOperation t).isSome) = true := by
      rw [← peek_eq, htoken, Option.any_some, hoperation]
      rfl
    simp only [Parse.bind_apply, consumeToken_apply, Option.bind_some, peekToken_apply, hconsume] at h
    cases hword : (peek ts ⟨s.pos + 1, s.lineNumber⟩).filter fun t => t.type = .word ∨ t.type = .heredocDelim with
    | none =>
      refine .inl ?_
      have hat : redirectAt ts s.pos = false := by
        rw [redirectAt, hfirst, Bool.true_and]
        rw [peek_eq] at hword
        cases hnext : tokenAt ts (s.pos + 1) with
        | none => rfl
        | some word => simpa [hnext, Option.filter] using hword
      rw [hword] at h
      simp only [Parse.bind_apply, backtrack_apply, Option.bind_some] at h
      cases ioNumber with
      | none =>
        cases h
        refine ⟨rfl, hat, ?_⟩
        simp
      | some io =>
        cases h
        refine ⟨rfl, hat, ?_⟩
        simp
    | some word =>
      refine .inr ?_
      obtain ⟨hpeek, htype⟩ := Option.filter_eq_some_iff.mp hword
      have htype : word.type = .word ∨ word.type = .heredocDelim := of_decide_eq_true htype
      have hat : redirectAt ts s.pos = true := by
        rw [redirectAt, hfirst, Bool.true_and, show tokenAt ts (s.pos + 1) = some word from hpeek]
        exact decide_eq_true htype
      have hnext := consume_of_peek hpeek (by rcases htype with h | h <;> simp [h])
      rw [hword] at h
      simp only [Parse.bind_apply, consumeToken_apply, Option.bind_some, hnext] at h
      split at h
      · simp only [Parse.bind_apply, peekToken_apply, Option.bind_some] at h
        cases hcontent : (peek ts ⟨s.pos + 1 + 1, s.lineNumber⟩).filter (·.type = .word) with
        | none =>
          rw [hcontent] at h
          cases h
          refine ⟨rfl, hat, ?_⟩
          dsimp only
          omega
        | some content =>
          rw [hcontent] at h
          simp only [Parse.bind_apply, consumeToken_apply, backtrack_apply, Option.bind_some] at h
          cases h
          refine ⟨rfl, hat, ?_⟩
          have := (consume_pos ts ⟨s.pos + 1 + 1 - 0, s.lineNumber - -(content.text.count 0x0A : ℤ)⟩).1
          dsimp only at this
          omega
      · cases h
        refine ⟨rfl, hat, ?_⟩
        dsimp only
        omega

/-- A redirection stands at the position, with its number or without. -/
def redirectsAt (ts : List Token) (p : ℤ) : Bool :=
  redirectAt ts (if (tokenAt ts p).any (·.type = .ioNumber) then p + 1 else p)

/-- The state after a redirection that is not found: the line is counted back with the number. -/
def ParserState.unread (ts : List Token) (s : ParserState) : ParserState :=
  if (peek ts s).any (·.type = .ioNumber) then ⟨s.pos, s.lineNumber - 1⟩ else s

/-- A redirection that is not found leaves the position as it was, but not the line after a number. -/
theorem parseRedirect_cases {r : Option Redirect} (h : parseRedirect ts s = some (r, s')) :
    r = none ∧ redirectsAt ts s.pos = false ∧
        s' = s.unread ts ∨
      r.isSome = true ∧ redirectsAt ts s.pos = true ∧ s.pos + 2 ≤ s'.pos := by
  rw [parseRedirect_eq] at h
  unfold redirectsAt ParserState.unread
  rw [← peek_eq]
  cases hio : (peek ts s).any (·.type = .ioNumber) with
  | true =>
    obtain ⟨token, htoken, htype⟩ := (Option.any_eq_true _ _).mp hio
    have hconsume := consume_of_peek htoken (by simp [of_decide_eq_true htype])
    have hfilter : (some token).filter (·.type = .ioNumber) = some token := Option.filter_some_pos htype
    rw [hio, if_pos rfl, hconsume, htoken, hfilter] at h
    simp only [if_true]
    obtain ⟨hr, hat, rfl⟩ | ⟨hr, hat, hle⟩ := redirectFrom_cases h
    · refine .inl ⟨hr, hat, ?_⟩
      simp
    · refine .inr ⟨hr, hat, ?_⟩
      dsimp only at hle
      omega
  | false =>
    have hfilter : (peek ts s).filter (·.type = .ioNumber) = none := by
      cases hpeek : peek ts s with
      | none => rfl
      | some token =>
        rw [hpeek, Option.any_some] at hio
        exact Option.filter_some_neg (by simpa using hio)
    rw [hio, hfilter] at h
    simp only [Bool.false_eq_true, if_false] at h ⊢
    exact redirectFrom_cases h

/-! ## Simple commands -/

variable {parseExpansion : Token → Option ε} {n : ℕ}

/-- What `parse_simple_command` refuses in the end -/
def SimpleCommand.Blank (node : SimpleCommand ε) : Prop :=
  node.command.isNone ∧ node.assignments = [] ∧ node.redirects = [] ∧ node.expansions = []

/-- The first token is consumed, and refused. -/
def refusedAt (ts : List Token) (parseExpansion : Token → Option ε) (p : ℤ) : Bool :=
  (tokenAt ts p).any fun t =>
    decide (t.type = .assignment ∧ 0x3D ∉ t.text) || (isExpansion t.type && (parseExpansion t).isNone)

/-- No part of a simple command stands at the position. -/
def stuckAt (ts : List Token) (p : ℤ) : Bool :=
  (tokenAt ts p).all fun t =>
    decide (t.type ≠ .word ∧ t.type ≠ .assignment) && !isExpansion t.type && !(startsRedirect t.type && redirectsAt ts p)

theorem unread_of_other {token : Token} (hpeek : peek ts s = some token) (h : token.type ≠ .ioNumber) : s.unread ts = s := by
  rw [ParserState.unread, hpeek, Option.any_some, if_neg (by simpa using h)]

/-- One turn of the loop over assignments and redirections -/
theorem parsePrefix_step {node : SimpleCommand ε} {r : Option (SimpleCommand ε)}
    (h : parsePrefix ts node (n + 1) s = some (r, s')) :
    (∃ token, peek ts s = some token ∧ token.type = .assignment ∧ 0x3D ∉ token.text ∧ r = none ∧ s' = ⟨s.pos + 1, s.lineNumber⟩) ∨
      (∃ node₁ s₁, ¬node₁.Blank ∧ s.pos + 1 ≤ s₁.pos ∧ parsePrefix ts node₁ n s₁ = some (r, s') ∧
        ((∃ token, peek ts s = some token ∧ token.type = .assignment ∧ 0x3D ∈ token.text) ∨ redirectsAt ts s.pos = true)) ∨
      r = some node ∧ s' = s.unread ts ∧ ∀ token ∈ peek ts s, token.type ≠ .assignment ∧
        (startsRedirect token.type = true → redirectsAt ts s.pos = false) := by
  unfold parsePrefix at h
  rw [Parse.bind_apply, peekToken_apply, Option.bind_some] at h
  cases hpeek : peek ts s with
  | none =>
    rw [hpeek] at h
    cases h
    refine .inr (.inr ⟨rfl, ?_, by simp⟩)
    rw [ParserState.unread, hpeek]
    rfl
  | some token =>
    rw [hpeek] at h
    dsimp only at h
    split_ifs at h with hassign heq hstarts
    · have hconsume := consume_of_peek hpeek (by simp [hassign])
      rw [Parse.bind_apply, consumeToken_apply, Option.bind_some, hconsume] at h
      refine .inr (.inl ⟨_, _, fun hb => ?_, le_rfl, h, .inl ⟨token, rfl, hassign, heq⟩⟩)
      simpa using hb.2.1
    · have hconsume := consume_of_peek hpeek (by simp [hassign])
      rw [Parse.bind_apply, consumeToken_apply, Option.bind_some, hconsume] at h
      cases h
      exact .inl ⟨token, rfl, hassign, heq, rfl, rfl⟩
    · obtain ⟨redir, s₁, hredirect, h⟩ := Parse.bind_eq_some.mp h
      obtain ⟨rfl, hat, rfl⟩ | ⟨hsome, hat, hle⟩ := parseRedirect_cases hredirect
      · cases h
        refine .inr (.inr ⟨rfl, rfl, fun t ht => ?_⟩)
        obtain rfl := Option.some.inj ht
        exact ⟨hassign, fun _ => hat⟩
      · obtain ⟨redir, rfl⟩ := Option.isSome_iff_exists.mp hsome
        refine .inr (.inl ⟨_, s₁, fun hb => ?_, by omega, h, .inr hat⟩)
        simpa using hb.2.2.1
    · cases h
      refine .inr (.inr ⟨rfl, (unread_of_other hpeek ?_).symm, fun t ht => ?_⟩)
      · rintro hio
        simp [startsRedirect, hio] at hstarts
      · obtain rfl := Option.some.inj ht
        exact ⟨hassign, fun hs => absurd hs hstarts⟩

theorem unread_pos (ts : List Token) (s : ParserState) : (s.unread ts).pos = s.pos := by
  unfold ParserState.unread
  split <;> rfl

theorem parsePrefix_moves {node : SimpleCommand ε} {r : Option (SimpleCommand ε)}
    (h : parsePrefix ts node n s = some (r, s')) :
    s.pos ≤ s'.pos ∧ (r = none → s.pos + 1 ≤ s'.pos) ∧ ∀ node' ∈ r, node'.Blank → node.Blank := by
  induction n generalizing s node with
  | zero => cases h
  | succ n ih =>
    obtain ⟨_, -, -, -, rfl, rfl⟩ | ⟨node₁, s₁, hblank, hlt, hnext, -⟩ | ⟨rfl, rfl, -⟩ := parsePrefix_step h
    · exact ⟨by dsimp only; omega, fun _ => le_rfl, by simp⟩
    · obtain ⟨hle, -, hkeep⟩ := ih hnext
      exact ⟨by omega, fun _ => by omega, fun node' hr hb => absurd (hkeep node' hr hb) hblank⟩
    · refine ⟨(unread_pos ts s).ge, by simp, fun node' hr hb => ?_⟩
      obtain rfl := Option.some.inj hr
      exact hb

/-- One turn of the loop over arguments, redirections and expansions -/
theorem parseSuffix_step {node : SimpleCommand ε} {r : Option (SimpleCommand ε)}
    (h : parseSuffix ts parseExpansion node (n + 1) s = some (r, s')) :
    (∃ token, peek ts s = some token ∧ isExpansion token.type = true ∧ parseExpansion token = none ∧ r = none ∧
        s' = ⟨s.pos + 1, s.lineNumber⟩) ∨
      (∃ token node₁, peek ts s = some token ∧ token.type = .word ∧ (node₁.Blank → node.Blank) ∧
        parseSuffix ts parseExpansion node₁ n ⟨s.pos + 1, s.lineNumber⟩ = some (r, s')) ∨
      (∃ node₁ s₁, ¬node₁.Blank ∧ s.pos + 1 ≤ s₁.pos ∧ parseSuffix ts parseExpansion node₁ n s₁ = some (r, s') ∧
        ((∃ token, peek ts s = some token ∧ isExpansion token.type = true ∧ (parseExpansion token).isSome) ∨
          redirectsAt ts s.pos = true)) ∨
      r = some node ∧ s' = s.unread ts ∧ ∀ token ∈ peek ts s, token.type ≠ .word ∧ isExpansion token.type = false ∧
        (startsRedirect token.type = true → redirectsAt ts s.pos = false) := by
  unfold parseSuffix at h
  rw [Parse.bind_apply, peekToken_apply, Option.bind_some] at h
  cases hpeek : peek ts s with
  | none =>
    rw [hpeek] at h
    cases h
    refine .inr (.inr (.inr ⟨rfl, ?_, by simp⟩))
    rw [ParserState.unread, hpeek]
    rfl
  | some token =>
    rw [hpeek] at h
    dsimp only at h
    split_ifs at h with hword hstarts hexp
    · have hconsume := consume_of_peek hpeek (by simp [hword])
      rw [Parse.bind_apply, consumeToken_apply, Option.bind_some, hconsume] at h
      refine .inr (.inl ⟨token, _, rfl, hword, fun hb => ?_, h⟩)
      exact hb
    · obtain ⟨redir, s₁, hredirect, h⟩ := Parse.bind_eq_some.mp h
      obtain ⟨rfl, hat, rfl⟩ | ⟨hsome, hat, hle⟩ := parseRedirect_cases hredirect
      · cases h
        refine .inr (.inr (.inr ⟨rfl, rfl, fun t ht => ?_⟩))
        obtain rfl := Option.some.inj ht
        have hexp : isExpansion token.type = false := by
          revert hstarts
          cases token.type <;> decide
        exact ⟨hword, hexp, fun _ => hat⟩
      · obtain ⟨redir, rfl⟩ := Option.isSome_iff_exists.mp hsome
        refine .inr (.inr (.inl ⟨_, s₁, fun hb => ?_, by omega, h, .inr hat⟩))
        simpa using hb.2.2.1
    · have hline : token.type ≠ .newline := by
        revert hexp
        cases token.type <;> decide
      have hconsume := consume_of_peek hpeek hline
      rw [Parse.bind_apply, consumeToken_apply, Option.bind_some, hconsume] at h
      cases hparse : parseExpansion token with
      | none =>
        rw [hparse] at h
        cases h
        exact .inl ⟨token, rfl, hexp, hparse, rfl, rfl⟩
      | some exp =>
        rw [hparse] at h
        refine .inr (.inr (.inl ⟨_, _, fun hb => ?_, le_rfl, h, .inl ⟨token, rfl, hexp, by rw [hparse]; rfl⟩⟩))
        simpa using hb.2.2.2
    · cases h
      refine .inr (.inr (.inr ⟨rfl, (unread_of_other hpeek ?_).symm, fun t ht => ?_⟩))
      · rintro hio
        simp [startsRedirect, hio] at hstarts
      · obtain rfl := Option.some.inj ht
        exact ⟨hword, Bool.eq_false_iff.mpr hexp, fun hs => absurd hs hstarts⟩

theorem parseSuffix_moves {node : SimpleCommand ε} {r : Option (SimpleCommand ε)}
    (h : parseSuffix ts parseExpansion node n s = some (r, s')) :
    s.pos ≤ s'.pos ∧ (r = none → s.pos + 1 ≤ s'.pos) ∧
      ∀ node' ∈ r, (node'.Blank → node.Blank) ∧ ∀ token ∈ peek ts s', token.type ≠ .word := by
  induction n generalizing s node with
  | zero => cases h
  | succ n ih =>
    obtain ⟨_, -, -, -, rfl, rfl⟩ | ⟨_, node₁, -, -, hblank, hnext⟩ | ⟨node₁, s₁, hblank, hlt, hnext, -⟩ | ⟨rfl, rfl, hend⟩ :=
      parseSuffix_step h
    · exact ⟨by dsimp only; omega, fun _ => le_rfl, by simp⟩
    · obtain ⟨hle, -, hkeep⟩ := ih hnext
      dsimp only at hle
      exact ⟨by omega, fun _ => hle, fun node' hr => ⟨fun hb => hblank ((hkeep node' hr).1 hb), (hkeep node' hr).2⟩⟩
    · obtain ⟨hle, -, hkeep⟩ := ih hnext
      exact ⟨by omega, fun _ => by omega, fun node' hr => ⟨fun hb => absurd ((hkeep node' hr).1 hb) hblank, (hkeep node' hr).2⟩⟩
    · refine ⟨(unread_pos ts s).ge, by simp, fun node' hr => ?_⟩
      obtain rfl := Option.some.inj hr
      refine ⟨id, fun token ht => ?_⟩
      rw [peek_eq, unread_pos] at ht
      exact (hend token ht).1

theorem parseCommandWord_cases {node node' : SimpleCommand ε} (h : parseCommandWord ts node s = some (node', s')) :
    ((∀ token ∈ peek ts s, token.type ≠ .word) ∧ node' = node ∧ s' = s) ∨
      (∃ token, peek ts s = some token ∧ token.type = .word) ∧ ¬node'.Blank ∧ s.pos + 1 ≤ s'.pos := by
  cases hword : (peek ts s).filter (·.type = .word) with
  | none =>
    rw [parseCommandWord_none hword] at h
    cases h
    refine .inl ⟨fun token ht hw => ?_, rfl, rfl⟩
    rw [Option.mem_def.mp ht] at hword
    simp [Option.filter, hw] at hword
  | some token =>
    obtain ⟨hpeek, htype⟩ := Option.filter_eq_some_iff.mp hword
    have htype := of_decide_eq_true htype
    refine .inr ⟨⟨token, hpeek, htype⟩, ?_⟩
    have hconsume := consume_of_peek hpeek (by simp [htype])
    have hmore := consume_pos ts ⟨s.pos + 1, s.lineNumber⟩
    simp only [parseCommandWord, Parse.bind_apply, peekToken_apply, Option.bind_some, hword, consumeToken_apply, hconsume] at h
    split at h
    · rw [Parse.bind_apply, peekToken_apply, Option.bind_some] at h
      cases hnum : (peek ts ⟨s.pos + 1, s.lineNumber⟩).filter fun t => t.type = .word ∧ isNumber t.text with
      | none =>
        rw [hnum] at h
        cases h
        exact ⟨fun hb => by simp [SimpleCommand.Blank] at hb, le_rfl⟩
      | some num =>
        rw [hnum] at h
        simp only [Parse.bind_apply, consumeToken_apply, Option.bind_some] at h
        split_ifs at h
        · cases h
          exact ⟨fun hb => by simp [SimpleCommand.Blank] at hb, hmore.1⟩
        · cases h
          exact ⟨fun hb => by simp [SimpleCommand.Blank] at hb, hmore.1⟩
    · cases h
      exact ⟨fun hb => by simp [SimpleCommand.Blank] at hb, le_rfl⟩

/-- A redirection starts with one of these types. -/
theorem startsRedirect_of_redirectsAt {p : ℤ} (h : redirectsAt ts p = true) :
    ∃ token, tokenAt ts p = some token ∧ startsRedirect token.type = true := by
  unfold redirectsAt redirectAt at h
  cases hpeek : tokenAt ts p with
  | none => simp [hpeek] at h
  | some token =>
    refine ⟨token, rfl, ?_⟩
    rw [hpeek, Option.any_some] at h
    by_cases hio : token.type = .ioNumber
    · rw [hio]
      rfl
    · rw [decide_eq_false hio, if_neg Bool.false_ne_true, hpeek, Option.any_some, Bool.and_eq_true] at h
      have hop := h.1
      obtain ⟨type, text⟩ := token
      revert hop
      cases type <;> simp [parseRedirectOperation, startsRedirect]

theorem stuckAt_iff {p : ℤ} : stuckAt ts p = true ↔ ∀ token ∈ tokenAt ts p, token.type ≠ .word ∧ token.type ≠ .assignment ∧
    isExpansion token.type = false ∧ (startsRedirect token.type = true → redirectsAt ts p = false) := by
  unfold stuckAt
  cases tokenAt ts p with
  | none => simp
  | some token =>
    simp only [Option.all_some, Bool.and_eq_true, decide_eq_true_eq, Bool.not_eq_true', Bool.and_eq_false_iff, Option.mem_def,
      Option.some.injEq, forall_eq', and_assoc]
    cases startsRedirect token.type <;> simp

theorem refusedAt_iff {p : ℤ} : refusedAt ts parseExpansion p = true ↔ ∃ token ∈ tokenAt ts p,
    (token.type = .assignment ∧ 0x3D ∉ token.text) ∨ (isExpansion token.type = true ∧ parseExpansion token = none) := by
  unfold refusedAt
  cases tokenAt ts p with
  | none => simp
  | some token => simp

/-- A part of a simple command stands at the position. -/
theorem not_stuckAt (parseExpansion : Token → Option ε) {p : ℤ} (h : (∃ token, tokenAt ts p = some token ∧ (token.type = .word ∨
      (token.type = .assignment ∧ 0x3D ∈ token.text) ∨ (isExpansion token.type = true ∧ (parseExpansion token).isSome))) ∨
        redirectsAt ts p = true) :
    stuckAt ts p = false ∧ refusedAt ts parseExpansion p = false := by
  obtain ⟨token, htoken, hpart⟩ : ∃ token, tokenAt ts p = some token ∧ (token.type = .word ∨
      (token.type = .assignment ∧ 0x3D ∈ token.text) ∨ (isExpansion token.type = true ∧ (parseExpansion token).isSome) ∨
        startsRedirect token.type = true ∧ redirectsAt ts p = true) := by
    obtain ⟨token, htoken, h⟩ | h := h
    · refine ⟨token, htoken, ?_⟩
      tauto
    · obtain ⟨token, htoken, hstarts⟩ := startsRedirect_of_redirectsAt h
      exact ⟨token, htoken, .inr (.inr (.inr ⟨hstarts, h⟩))⟩
  have htypes : ∀ type : TokenType, (startsRedirect type = true → type ≠ .assignment ∧ isExpansion type = false) ∧
      (isExpansion type = true → type ≠ .assignment) ∧ (type = .word → isExpansion type = false) := by
    intro type
    cases type <;> decide
  obtain ⟨hredirect, hexp, hword⟩ := htypes token.type
  refine ⟨Bool.eq_false_iff.mpr fun hs => ?_, Bool.eq_false_iff.mpr fun hr => ?_⟩
  · obtain ⟨h1, h2, h3, h4⟩ := stuckAt_iff.mp hs token htoken
    obtain h | h | h | h := hpart
    · exact h1 h
    · exact h2 h.1
    · exact Bool.false_ne_true (h3.symm.trans h.1)
    · exact Bool.false_ne_true ((h4 h.1).symm.trans h.2)
  · obtain ⟨t, ht, hrefused⟩ := refusedAt_iff.mp hr
    obtain rfl := Option.some.inj (htoken.symm.trans ht)
    obtain ⟨hassign, hno⟩ | ⟨he, hnone⟩ := hrefused
    · obtain h | h | h | h := hpart
      · exact absurd (h.symm.trans hassign) (by decide)
      · exact hno h.2
      · exact hexp h.1 hassign
      · exact (hredirect h.1).1 hassign
    · obtain h | h | h | h := hpart
      · exact Bool.false_ne_true ((hword h).symm.trans he)
      · exact hexp he h.1
      · simp [hnone] at h
      · exact Bool.false_ne_true ((hredirect h.1).2.symm.trans he)

theorem parseSimpleCommand_parts {r : Option (SimpleCommand ε)} (h : parseSimpleCommand ts parseExpansion n s = some (r, s')) :
    parsePrefix ts (.empty : SimpleCommand ε) n s = some (none, s') ∧ r = none ∨
      ∃ node s₁ node' s₂ o, parsePrefix ts (.empty : SimpleCommand ε) n s = some (some node, s₁) ∧
        parseCommandWord ts node s₁ = some (node', s₂) ∧ parseSuffix ts parseExpansion node' n s₂ = some (o, s') ∧
        (r = none ↔ ∀ node ∈ o, node.Blank) ∧ (r.isSome → r = o) := by
  unfold parseSimpleCommand at h
  obtain ⟨o, s₁, hassigns, h⟩ := Parse.bind_eq_some.mp h
  cases o with
  | none =>
    cases h
    exact .inl ⟨hassigns, rfl⟩
  | some node =>
    obtain ⟨node', s₂, hword, h⟩ := Parse.bind_eq_some.mp h
    obtain ⟨o, s₃, hsuffix, h⟩ := Parse.bind_eq_some.mp h
    refine .inr ⟨node, s₁, node', s₂, o, hassigns, hword, ?_⟩
    cases o with
    | none =>
      cases h
      exact ⟨hsuffix, by simp, fun _ => rfl⟩
    | some node'' =>
      dsimp only at h
      split_ifs at h with hblank
      · cases h
        exact ⟨hsuffix, by simpa [SimpleCommand.Blank] using hblank, by simp⟩
      · cases h
        exact ⟨hsuffix, by simpa [SimpleCommand.Blank] using hblank, fun _ => rfl⟩

/-- What becomes of a simple command: nothing starts it, its first token is refused, or it is read beyond that. -/
theorem parseSimpleCommand_cases {r : Option (SimpleCommand ε)}
    (h : parseSimpleCommand ts parseExpansion n s = some (r, s')) :
    (r = none ∧ stuckAt ts s.pos = true ∧ s' = (s.unread ts).unread ts) ∨
      (r = none ∧ refusedAt ts parseExpansion s.pos = true ∧ s' = ⟨s.pos + 1, s.lineNumber⟩) ∨
      stuckAt ts s.pos = false ∧ refusedAt ts parseExpansion s.pos = false ∧ (r = none → s.pos + 2 ≤ s'.pos) ∧
        (r.isSome → s.pos + 1 ≤ s'.pos ∧ ∀ token ∈ peek ts s', token.type ≠ .word) := by
  cases n with
  | zero =>
    obtain ⟨hassigns, -⟩ | ⟨_, _, _, _, _, hassigns, -⟩ := parseSimpleCommand_parts h <;> cases hassigns
  | succ n =>
  -- what is read once something was
  have hlater {node : SimpleCommand ε} {s₂ : ParserState} {o : Option (SimpleCommand ε)} {m : ℕ} (hblank : ¬node.Blank)
      (hlt : s.pos + 1 ≤ s₂.pos) (hsuffix : parseSuffix ts parseExpansion node m s₂ = some (o, s'))
      (hr : r = none ↔ ∀ node ∈ o, node.Blank) :
      (r = none → s.pos + 2 ≤ s'.pos) ∧ (r.isSome → s.pos + 1 ≤ s'.pos ∧ ∀ token ∈ peek ts s', token.type ≠ .word) := by
    obtain ⟨hle, hnone, hkeep⟩ := parseSuffix_moves hsuffix
    cases o with
    | none =>
      obtain rfl := hr.mpr (by simp)
      have := hnone rfl
      exact ⟨fun _ => by omega, by simp⟩
    | some node' =>
      obtain ⟨hk, hend⟩ := hkeep node' rfl
      have hne : r ≠ none := fun h => hblank (hk (hr.mp h node' rfl))
      exact ⟨fun h => absurd h hne, fun _ => ⟨by omega, hend⟩⟩
  have hpeek_unread : peek ts (s.unread ts) = peek ts s := by rw [peek_eq, unread_pos, ← peek_eq]
  obtain ⟨hassigns, rfl⟩ | ⟨node, s₁, node', s₂, o, hassigns, hword, hsuffix, hr, -⟩ := parseSimpleCommand_parts h
  · obtain ⟨token, hpeek, hassign, hno, -, rfl⟩ | ⟨node₁, s₁, -, hlt, hnext, hpart⟩ | ⟨hsome, -⟩ := parsePrefix_step hassigns
    · exact .inr (.inl ⟨rfl, refusedAt_iff.mpr ⟨token, hpeek, .inl ⟨hassign, hno⟩⟩, rfl⟩)
    · obtain ⟨hstuck, hrefused⟩ := not_stuckAt parseExpansion
        (hpart.imp_left fun ⟨t, ht, hassign, heq⟩ => ⟨t, ht, .inr (.inl ⟨hassign, heq⟩)⟩)
      have := (parsePrefix_moves hnext).2.1 rfl
      exact .inr (.inr ⟨hstuck, hrefused, fun _ => by omega, by simp⟩)
    · cases hsome
  · obtain ⟨_, _, _, _, hnone, _⟩ | ⟨node₁, s₃, hblank, hlt, hnext, hpart⟩ | ⟨hempty, rfl, htoken⟩ := parsePrefix_step hassigns
    · cases hnone
    · obtain ⟨hstuck, hrefused⟩ := not_stuckAt parseExpansion
        (hpart.imp_left fun ⟨t, ht, hassign, heq⟩ => ⟨t, ht, .inr (.inl ⟨hassign, heq⟩)⟩)
      obtain ⟨hle, -, hkeep⟩ := parsePrefix_moves hnext
      obtain ⟨-, rfl, rfl⟩ | ⟨-, hb, hle'⟩ := parseCommandWord_cases hword
      · exact .inr (.inr ⟨hstuck, hrefused, hlater (fun hb => hblank (hkeep _ rfl hb)) (by omega) hsuffix hr⟩)
      · exact .inr (.inr ⟨hstuck, hrefused, hlater hb (by omega) hsuffix hr⟩)
    · obtain rfl := Option.some.inj hempty
      obtain ⟨hnoword, rfl, rfl⟩ | ⟨⟨token, ht, htype⟩, hb, hle⟩ := parseCommandWord_cases hword
      · obtain ⟨token, hpeek, hexp, hnone, rfl, rfl⟩ | ⟨token, _, hpeek, hw, -⟩ | ⟨node₁, s₃, hblank, hlt, hnext, hpart⟩ |
          ⟨rfl, rfl, hend⟩ := parseSuffix_step hsuffix
        · rw [hpeek_unread] at hpeek
          have hio : token.type ≠ .ioNumber := by
            intro hio
            simp [hio, isExpansion] at hexp
          refine .inr (.inl ⟨hr.mpr (by simp), refusedAt_iff.mpr ⟨token, hpeek, .inr ⟨hexp, hnone⟩⟩, ?_⟩)
          rw [unread_of_other hpeek hio]
        · exact absurd hw (hnoword token hpeek)
        · rw [hpeek_unread, unread_pos] at hpart
          obtain ⟨hstuck, hrefused⟩ := not_stuckAt parseExpansion
            (hpart.imp_left fun ⟨t, ht, hexp, hsome⟩ => ⟨t, ht, .inr (.inr ⟨hexp, hsome⟩)⟩)
          rw [unread_pos] at hlt
          exact .inr (.inr ⟨hstuck, hrefused, hlater hblank (by omega) hnext hr⟩)
        · refine .inl ⟨hr.mpr ?_, stuckAt_iff.mpr fun token ht => ?_, rfl⟩
          · intro node hnode
            obtain rfl := Option.some.inj hnode
            exact ⟨rfl, rfl, rfl, rfl⟩
          · obtain ⟨hassign, hredirect⟩ := htoken token ht
            obtain ⟨hw, hexp, -⟩ := hend token (hpeek_unread.symm ▸ ht)
            exact ⟨hw, hassign, hexp, hredirect⟩
      · rw [hpeek_unread] at ht
        rw [unread_pos] at hle
        obtain ⟨hstuck, hrefused⟩ := not_stuckAt parseExpansion (.inl ⟨token, ht, .inl htype⟩)
        exact .inr (.inr ⟨hstuck, hrefused, hlater hb hle hsuffix hr⟩)

end ValidcTools.Sh23
