import ValidcTools.Sh23.Positions
import ValidcTools.Sh23.Loops

/-! Chains of `if` and `elif`: the branches that are parsed, and the one that runs. -/
namespace ValidcTools.Sh23

variable {ε σ : Type}

/-- A condition and the body after it -/
structure Branch (ε : Type) where
  condition : Ast ε
  body : Ast ε

/-! ## Parsing a chain -/

def ParserState.next (s : ParserState) : ParserState := ⟨s.pos + 1, s.lineNumber⟩

section
variable (ts : List Token) (parseExpansion : Token → Option ε)

/-- The function returns this. -/
def Yields (symbol : Symbol) (s : ParserState) (r : Option (Ast ε)) (s' : ParserState) : Prop :=
  ∃ bound, ∀ n ≥ bound, parse ts parseExpansion n symbol s = some (r, s')

/-- The keyword stands here. -/
def KeywordAt (keyword : String) (s : ParserState) : Prop := (peek ts s).any (·.is .keyword keyword) = true

/-- A condition, `then` and a body, as `parse_compound_list` takes them -/
def Arm (s : ParserState) (b : Branch ε) (s' : ParserState) : Prop :=
  ∃ s₁, Yields ts parseExpansion .compoundList s (some b.condition) s₁ ∧ KeywordAt ts "then" s₁ ∧
    Yields ts parseExpansion .compoundList s₁.next (some b.body) s'

/-- The rest of a chain up to its `fi` -/
inductive IfTail : ParserState → List (Branch ε) → Option (Ast ε) → ParserState → Prop
  | fi {s : ParserState} (hfi : KeywordAt ts "fi" s) : IfTail s [] none s.next
  | els {s s₁ : ParserState} {e : Ast ε} (helse : KeywordAt ts "else" s)
      (he : Yields ts parseExpansion .compoundList s.next (some e) s₁) (hfi : KeywordAt ts "fi" s₁) :
      IfTail s [] (some e) s₁.next
  | elif {s s₁ s' : ParserState} {b : Branch ε} {bs : List (Branch ε)} {e : Option (Ast ε)} (helif : KeywordAt ts "elif" s)
      (hb : Arm ts parseExpansion s.next b s₁) (hrest : IfTail s₁ bs e s') : IfTail s (b :: bs) e s'

/-- `if`, the first branch, those after `elif`, the body after `else` and `fi` -/
def IfChain (s : ParserState) (b : Branch ε) (bs : List (Branch ε)) (e : Option (Ast ε)) (s' : ParserState) : Prop :=
  ∃ s₁, KeywordAt ts "if" s ∧ Arm ts parseExpansion s.next b s₁ ∧ IfTail ts parseExpansion s₁ bs e s'

end

section
variable {ts : List Token} {parseExpansion : Token → Option ε} {symbol : Symbol} {s s₁ s₂ s' : ParserState}
  {call : Symbol → Parse (Option (Ast ε))}

theorem Yields.unique {r r' : Option (Ast ε)} (h : Yields ts parseExpansion symbol s r s₁)
    (h' : Yields ts parseExpansion symbol s r' s₂) : r = r' ∧ s₁ = s₂ := by
  obtain ⟨bound, hn⟩ := h
  obtain ⟨bound', hn'⟩ := h'
  have heq := (hn (max bound bound') (le_max_left ..)).symm.trans (hn' (max bound bound') (le_max_right ..))
  exact Prod.mk.inj (Option.some.inj heq)

theorem Yields.of_add {r : Option (Ast ε)} (k : ℕ) (h : ∀ n, parse ts parseExpansion (n + k) symbol s = some (r, s')) :
    Yields ts parseExpansion symbol s r s' := by
  refine ⟨k, fun n hn => ?_⟩
  obtain ⟨n, rfl⟩ := Nat.exists_eq_add_of_le' hn
  exact h n

theorem KeywordAt.expect {keyword : String} (h : KeywordAt ts keyword s) : expectToken ts .keyword keyword s = some (true, s.next) := by
  rw [expectToken_eq ts (by decide), if_pos (show (peek ts s).any _ = true from h)]
  rfl

theorem KeywordAt.not_other {keyword other : String} (h : KeywordAt ts keyword s) (hne : lit keyword ≠ lit other) :
    (peek ts s).any (·.is .keyword other) = false := by
  obtain ⟨token, htoken, his⟩ := (Option.any_eq_true _ _).mp h
  rw [htoken, Option.any_some]
  exact decide_eq_false fun hother => hne ((of_decide_eq_true his).2.symm.trans hother.2)

/-- `parse_if_clause` up to the end of its body -/
theorem parseIfClause_arm {b : Branch ε} (hif : KeywordAt ts "if" s) (hcondition : call .compoundList s.next = some (some b.condition, s₁))
    (hthen : KeywordAt ts "then" s₁) (hbody : call .compoundList s₁.next = some (some b.body, s₂)) :
    (KeywordAt ts "fi" s₂ → parseIfClause ts call s = some (some (.ifClause b.condition b.body none), s₂.next)) ∧
    (∀ e s₃, KeywordAt ts "else" s₂ → call .compoundList s₂.next = some (some e, s₃) → KeywordAt ts "fi" s₃ →
      parseIfClause ts call s = some (some (.ifClause b.condition b.body (some e)), s₃.next)) ∧
    (∀ s₃, KeywordAt ts "elif" s₂ → call .ifClause s₂ = some (none, s₃) → parseIfClause ts call s = some (none, s₃)) := by
  refine ⟨fun hfi => ?_, fun e s₃ helse he hfi => ?_, fun s₃ helif hrest => ?_⟩
  · have hnone := hfi.not_other (show lit "fi" ≠ lit "else" by decide)
    have hnone' := hfi.not_other (show lit "fi" ≠ lit "elif" by decide)
    simp only [parseIfClause, Parse.bind_apply, hif.expect, Option.bind_some, if_true, hcondition, hthen.expect, hbody,
      peekToken_apply, hnone, hnone', Bool.false_eq_true, if_false, closing, hfi.expect, Parse.pure_apply]
  · have helse' : (peek ts s₂).any (·.is .keyword "else") = true := helse
    have hconsume := consume_of_any ts helse' fun token ht => by rw [(of_decide_eq_true ht).1]; decide
    have he' : call .compoundList ⟨s₂.pos + 1, s₂.lineNumber⟩ = some (some e, s₃) := he
    simp only [parseIfClause, Parse.bind_apply, hif.expect, Option.bind_some, if_true, hcondition, hthen.expect, hbody,
      peekToken_apply, helse', consumeToken_apply, hconsume, he', closing, hfi.expect, Parse.pure_apply]
  · have hnone := helif.not_other (show lit "elif" ≠ lit "else" by decide)
    have helif' : (peek ts s₂).any (·.is .keyword "elif") = true := helif
    simp only [parseIfClause, Parse.bind_apply, hif.expect, Option.bind_some, if_true, hcondition, hthen.expect, hbody,
      peekToken_apply, hnone, Bool.false_eq_true, if_false, helif', hrest, Parse.pure_apply]

/-- The function returns what its body does, over enough nested calls. -/
theorem yields_ifClause_of {r : Option (Ast ε)} {bound : ℕ}
    (h : ∀ n ≥ bound, parseIfClause ts (parse ts parseExpansion n) s = some (r, s')) : Yields ts parseExpansion .ifClause s r s' := by
  refine ⟨bound + 1, fun n hn => ?_⟩
  obtain ⟨n, rfl⟩ := Nat.exists_eq_add_one_of_ne_zero (show n ≠ 0 by omega)
  exact h n (by omega)

/-- For an `elif` the function calls itself, and then asks for an `if`. -/
theorem yields_elif {b : Branch ε} (hif : KeywordAt ts "if" s) (hb : Arm ts parseExpansion s.next b s₁) (helif : KeywordAt ts "elif" s₁) :
    Yields ts parseExpansion .ifClause s none s₁ := by
  obtain ⟨s₂, ⟨bound, hcondition⟩, hthen, ⟨bound', hbody⟩⟩ := hb
  have hnone (call : Symbol → Parse (Option (Ast ε))) : parseIfClause ts call s₁ = some (none, s₁) := by
    simp only [parseIfClause, Parse.bind_apply, expectToken_eq ts (show TokenType.keyword ≠ .newline by decide),
      helif.not_other (show lit "elif" ≠ lit "if" by decide), Bool.false_eq_true, if_false, Option.bind_some, Parse.pure_apply]
  refine yields_ifClause_of fun n (hn : max bound bound' + 1 ≤ n) => ?_
  obtain ⟨n, rfl⟩ := Nat.exists_eq_add_one_of_ne_zero (show n ≠ 0 by omega)
  exact (parseIfClause_arm hif (hcondition _ (by omega)) hthen (hbody _ (by omega))).2.2 s₁ helif (hnone _)

/-- Without an `elif` the chain is accepted. -/
theorem yields_ifClause {b : Branch ε} {e : Option (Ast ε)} (h : IfChain ts parseExpansion s b [] e s') :
    Yields ts parseExpansion .ifClause s (some (.ifClause b.condition b.body e)) s' := by
  obtain ⟨s₁, hif, ⟨s₂, ⟨bound, hcondition⟩, hthen, ⟨bound', hbody⟩⟩, htail⟩ := h
  cases htail with
  | fi hfi =>
    refine yields_ifClause_of fun n (hn : max bound bound' ≤ n) => ?_
    exact (parseIfClause_arm hif (hcondition _ (by omega)) hthen (hbody _ (by omega))).1 hfi
  | els helse he hfi =>
    obtain ⟨bound'', he⟩ := he
    refine yields_ifClause_of fun n (hn : max bound (max bound' bound'') ≤ n) => ?_
    exact (parseIfClause_arm hif (hcondition _ (by omega)) hthen (hbody _ (by omega))).2.1 _ _ helse (he _ (by omega)) hfi

end

/-! ## Running it -/

/-- The conditions up to the first that ends with status 0, then its body, or the one after `else` -/
def runChain (run : Ast ε → Exec σ ExecStatus) : List (Branch ε) → Option (Ast ε) → Exec σ ExecStatus
  | [], none => return .success
  | [], some e => run e
  | b :: bs, e => do
    let status ← run b.condition
    if status ≠ .success then return status
    else if (← get).lastStatus = 0 then run b.body
    else runChain run bs e

theorem execIfClause_chain (run : Ast ε → Exec σ ExecStatus) (b : Branch ε) (e : Option (Ast ε)) :
    execIfClause run b.condition b.body e = runChain run [b] e := by
  cases e <;> rfl

/-- The clause that is parsed runs as the chain does. -/
def RunsChain (σ : Type) (ts : List Token) (parseExpansion : Token → Option ε) (s : ParserState) (b : Branch ε) (bs : List (Branch ε))
    (e : Option (Ast ε)) (s' : ParserState) : Prop :=
  ∃ ast, Yields ts parseExpansion .ifClause s (some ast) s' ∧ ∀ (shell : Shell ε σ) (exec : Executor σ) (r : ExecStatus × Executor σ),
    (∃ bound, ∀ n ≥ bound, executorRun shell n ast exec = some r) ↔
      ∃ bound, ∀ n ≥ bound, runChain (executorRun shell n) (b :: bs) e exec = some r

/-- A chain is accepted and runs its one branch exactly where it has no `elif`. -/
theorem runsChain_iff {ts : List Token} {parseExpansion : Token → Option ε} {s s' : ParserState} {b : Branch ε}
    {bs : List (Branch ε)} {e : Option (Ast ε)} (h : IfChain ts parseExpansion s b bs e s') :
    RunsChain σ ts parseExpansion s b bs e s' ↔ bs = [] := by
  constructor
  · intro hruns
    obtain ⟨ast, hyields, -⟩ := hruns
    obtain ⟨s₁, hif, hb, htail⟩ := h
    cases htail with
    | fi => rfl
    | els => rfl
    | elif helif =>
      obtain ⟨hnone, -⟩ := (yields_elif hif hb helif).unique hyields
      cases hnone
  · intro hbs
    subst hbs
    refine ⟨_, yields_ifClause h, fun shell exec r => ⟨fun hrun => ?_, fun hrun => ?_⟩⟩
    · obtain ⟨bound, hn⟩ := hrun
      refine ⟨bound, fun n hle => ?_⟩
      have hsucc : execIfClause (executorRun shell n) b.condition b.body e exec = some r := hn (n + 1) (by omega)
      rwa [execIfClause_chain] at hsucc
    · obtain ⟨bound, hn⟩ := hrun
      refine ⟨bound + 1, fun n hle => ?_⟩
      obtain ⟨n, rfl⟩ := Nat.exists_eq_add_of_le' hle
      change execIfClause (executorRun shell (n + bound)) b.condition b.body e exec = some r
      rw [execIfClause_chain]
      exact hn _ (by omega)

/-- A command without arguments, alone in its list -/
def single (text : List Byte) : Ast Unit :=
  .list (.pipeline false [.simpleCommand { SimpleCommand.empty with command := some text }]) .unspecified none

/-- `if ./a then ./b fi` -/
def ifTokens : List Token :=
  [⟨.keyword, lit "if"⟩, ⟨.word, lit "./a"⟩, ⟨.keyword, lit "then"⟩, ⟨.word, lit "./b"⟩, ⟨.keyword, lit "fi"⟩]

theorem runsChain_single :
    RunsChain Unit ifTokens (fun _ => none) ⟨0, 1⟩ ⟨single (lit "./a"), single (lit "./b")⟩ [] none ⟨5, 1⟩ := by
  have harm : Arm ifTokens (fun _ => none) ⟨1, 1⟩ ⟨single (lit "./a"), single (lit "./b")⟩ ⟨4, 1⟩ :=
    ⟨⟨2, 1⟩, .of_add 6 fun _ => rfl, rfl, .of_add 6 fun _ => rfl⟩
  have hchain : IfChain ifTokens (fun _ => none) ⟨0, 1⟩ ⟨single (lit "./a"), single (lit "./b")⟩ [] none ⟨5, 1⟩ :=
    ⟨⟨4, 1⟩, rfl, harm, .fi rfl⟩
  exact (runsChain_iff hchain).mpr rfl

/-- `if ./a then ./b elif ./c then ./d fi` -/
def elifTokens : List Token :=
  [⟨.keyword, lit "if"⟩, ⟨.word, lit "./a"⟩, ⟨.keyword, lit "then"⟩, ⟨.word, lit "./b"⟩, ⟨.keyword, lit "elif"⟩, ⟨.word, lit "./c"⟩,
    ⟨.keyword, lit "then"⟩, ⟨.word, lit "./d"⟩, ⟨.keyword, lit "fi"⟩]

/-- A chain with an `elif` is refused. -/
theorem elif_refused :
    IfChain elifTokens (fun _ => none) ⟨0, 1⟩ ⟨single (lit "./a"), single (lit "./b")⟩ [⟨single (lit "./c"), single (lit "./d")⟩]
      none ⟨9, 1⟩ ∧
    Yields elifTokens (fun _ => (none : Option Unit)) .ifClause ⟨0, 1⟩ none ⟨4, 1⟩ ∧
    ¬RunsChain Unit elifTokens (fun _ => none) ⟨0, 1⟩ ⟨single (lit "./a"), single (lit "./b")⟩ [⟨single (lit "./c"), single (lit "./d")⟩]
      none ⟨9, 1⟩ := by
  have hfirst : Arm elifTokens (fun _ => none) ⟨1, 1⟩ ⟨single (lit "./a"), single (lit "./b")⟩ ⟨4, 1⟩ :=
    ⟨⟨2, 1⟩, .of_add 6 fun _ => rfl, rfl, .of_add 6 fun _ => rfl⟩
  have hsecond : Arm elifTokens (fun _ => none) ⟨5, 1⟩ ⟨single (lit "./c"), single (lit "./d")⟩ ⟨8, 1⟩ :=
    ⟨⟨6, 1⟩, .of_add 6 fun _ => rfl, rfl, .of_add 6 fun _ => rfl⟩
  have hrefused : Yields elifTokens (fun _ => (none : Option Unit)) .ifClause ⟨0, 1⟩ none ⟨4, 1⟩ := yields_elif rfl hfirst rfl
  refine ⟨⟨⟨4, 1⟩, rfl, hfirst, .elif rfl hsecond (.fi rfl)⟩, hrefused, fun hruns => ?_⟩
  obtain ⟨ast, hyields, -⟩ := hruns
  exact Option.some_ne_none ast (hyields.unique hrefused).1

end ValidcTools.Sh23
