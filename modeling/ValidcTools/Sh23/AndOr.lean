import ValidcTools.Sh23.Parser
import ValidcTools.Sh23.Executor

/-! And-or lists: the tree that is parsed, and the pipelines that run. -/
namespace ValidcTools.Sh23

variable {ε σ : Type}

/-- A pipeline as `parse_pipeline` makes it -/
structure Pipeline (ε : Type) where
  bang : Bool
  commands : List (Ast ε)

def Pipeline.ast (p : Pipeline ε) : Ast ε := .pipeline p.bang p.commands

/-- An operator and the pipeline after it -/
structure Link (ε : Type) where
  isAnd : Bool
  pipeline : Pipeline ε

def Link.operation (l : Link ε) : TokenType := if l.isAnd then .andIf else .orIf

/-! ## Parsing a chain -/

/-- The tokens at the first position are a chain of the pipelines that `parse_pipeline` yields there. -/
inductive Joined (ts : List Token) (pipeline : Parse (Option (Ast ε))) :
    ParserState → Pipeline ε → List (Link ε) → ParserState → Prop
  | last {s s' : ParserState} {p : Pipeline ε} (hp : pipeline s = some (some p.ast, s'))
      (hend : (peek ts s').filter (fun t => t.type = .andIf ∨ t.type = .orIf) = none) : Joined ts pipeline s p [] s'
  | link {s s₁ s' : ParserState} {p : Pipeline ε} {token : Token} {l : Link ε} {rest : List (Link ε)}
      (hp : pipeline s = some (some p.ast, s₁)) (htoken : peek ts s₁ = some token) (htype : token.type = l.operation)
      (hrest : Joined ts pipeline (s₁.consume ts) l.pipeline rest s') : Joined ts pipeline s p (l :: rest) s'

/-- `parse_and_or` over a given `parse_pipeline`, with so many nested calls -/
def andOrOver (ts : List Token) (pipeline : Parse (Option (Ast ε))) : ℕ → Parse (Option (Ast ε))
  | 0 => diverge
  | n + 1 => parseAndOr ts fun
    | .pipeline => pipeline
    | .andOr => andOrOver ts pipeline n
    | _ => diverge

/-- The tree of a chain, nested to the right -/
def nest (p : Pipeline ε) : List (Link ε) → Ast ε
  | [] => p.ast
  | l :: rest => .andOr p.ast l.operation (nest l.pipeline rest)

theorem Link.operation_eq (l : Link ε) : l.operation = .andIf ∨ l.operation = .orIf := by
  unfold Link.operation
  split <;> simp

section
variable {ts : List Token} {call : Symbol → Parse (Option (Ast ε))} {s s' : ParserState} {left : Ast ε}

theorem parseAndOr_last (hp : call .pipeline s = some (some left, s'))
    (hend : (peek ts s').filter (fun t => t.type = .andIf ∨ t.type = .orIf) = none) :
    parseAndOr ts call s = some (some left, s') := by
  simp only [parseAndOr, Parse.bind_apply, hp, Option.bind_some, peekToken_apply, hend, Parse.pure_apply]

theorem parseAndOr_link {s₁ : ParserState} {token : Token} {right : Ast ε} (hp : call .pipeline s = some (some left, s₁))
    (htoken : peek ts s₁ = some token) (htype : token.type = .andIf ∨ token.type = .orIf)
    (hright : call .andOr (s₁.consume ts) = some (some right, s')) :
    parseAndOr ts call s = some (some (.andOr left token.type right), s') := by
  have hfilter : (peek ts s₁).filter (fun t => t.type = .andIf ∨ t.type = .orIf) = some token := by
    rw [htoken]
    exact Option.filter_some_pos (decide_eq_true htype)
  simp only [parseAndOr, Parse.bind_apply, hp, Option.bind_some, peekToken_apply, hfilter, consumeToken_apply, hright,
    Parse.pure_apply]

end

theorem andOrOver_joined {ts : List Token} {pipeline : Parse (Option (Ast ε))} {s s' : ParserState} {p : Pipeline ε}
    {rest : List (Link ε)} (h : Joined ts pipeline s p rest s') {n : ℕ} (hn : rest.length < n) :
    andOrOver ts pipeline n s = some (some (nest p rest), s') := by
  obtain ⟨n, rfl⟩ := Nat.exists_eq_add_one_of_ne_zero (Nat.ne_of_gt (Nat.zero_lt_of_lt hn))
  induction h generalizing n with
  | last hp hend => exact parseAndOr_last hp hend
  | @link s s₁ s' p token l rest hp htoken htype hrest ih =>
    obtain ⟨n, rfl⟩ := Nat.exists_eq_add_one_of_ne_zero (Nat.ne_of_gt (Nat.zero_lt_of_lt (Nat.lt_of_succ_lt_succ hn)))
    rw [nest, ← htype]
    exact parseAndOr_link hp htoken (htype ▸ l.operation_eq) (ih n (Nat.lt_of_succ_lt_succ hn))

/-! ## Running it -/

/-- The exit status of a pipeline and what it does to the rest of the state, with the pipelines that ran -/
def Pipeline.run (effect : Pipeline ε → σ → ℤ × σ) (p : Pipeline ε) (exec : Executor (List (Pipeline ε) × σ)) :
    Executor (List (Pipeline ε) × σ) :=
  { exec with
    lastStatus := (effect p exec.world.2).1
    world := (exec.world.1 ++ [p], (effect p exec.world.2).2) }

/-- A shell with these exit statuses of its pipelines, which records them -/
def recording (effect : Pipeline ε → σ → ℤ × σ) : Shell ε (List (Pipeline ε) × σ) where
  command ast exec :=
    match ast with
    | .pipeline bang commands => some (.success, Pipeline.run effect ⟨bang, commands⟩ exec)
    | _ => none
  setVariable _ _ world := world
  positionalParams _ := []

/-- The pipeline after the operator runs at this status. -/
def Link.Proceeds (l : Link ε) (status : ℤ) : Prop := if l.isAnd then status = 0 else status ≠ 0

instance (l : Link ε) (status : ℤ) : Decidable (l.Proceeds status) := by
  unfold Link.Proceeds
  infer_instance

variable (effect : Pipeline ε → σ → ℤ × σ)

/-- One operator of `((p₁ op p₂) op p₃) …` -/
def Link.step (exec : Executor (List (Pipeline ε) × σ)) (l : Link ε) : Executor (List (Pipeline ε) × σ) :=
  if l.Proceeds exec.lastStatus then l.pipeline.run effect exec else exec

/-- The chain from left to right -/
def leftToRight (p : Pipeline ε) (rest : List (Link ε)) (exec : Executor (List (Pipeline ε) × σ)) :
    Executor (List (Pipeline ε) × σ) :=
  rest.foldl (Link.step effect) (p.run effect exec)

/-- The links of a tree nested to the right: all that is right of an operator goes with it. -/
def untilRefused (exec : Executor (List (Pipeline ε) × σ)) : List (Link ε) → Executor (List (Pipeline ε) × σ)
  | [] => exec
  | l :: rest => if l.Proceeds exec.lastStatus then untilRefused (l.pipeline.run effect exec) rest else exec

theorem Link.proceeds_iff (l : Link ε) (status : ℤ) :
    (l.operation = .andIf ∧ status = 0) ∨ (l.operation = .orIf ∧ status ≠ 0) ↔ l.Proceeds status := by
  unfold Link.operation Link.Proceeds
  cases l.isAnd <;> simp

theorem executorRun_pipeline (p : Pipeline ε) (n : ℕ) (exec : Executor (List (Pipeline ε) × σ)) :
    executorRun (recording effect) (n + 1) p.ast exec = some (.success, p.run effect exec) := rfl

theorem executorRun_andOr (p : Pipeline ε) (l : Link ε) (right : Ast ε) (n : ℕ) (exec : Executor (List (Pipeline ε) × σ)) :
    executorRun (recording effect) (n + 2) (.andOr p.ast l.operation right) exec =
      if l.Proceeds (p.run effect exec).lastStatus then executorRun (recording effect) (n + 1) right (p.run effect exec)
      else some (.success, p.run effect exec) := by
  change execAndOr (executorRun (recording effect) (n + 1)) p.ast l.operation right exec = _
  simp only [execAndOr, bind, StateT.bind, executorRun_pipeline, ne_eq, not_true_eq_false, if_false, get, getThe,
    MonadStateOf.get, StateT.get, pure, Option.bind_some, l.proceeds_iff]
  split <;> rfl

theorem executorRun_nest (p : Pipeline ε) (rest : List (Link ε)) {n : ℕ} (hn : rest.length < n)
    (exec : Executor (List (Pipeline ε) × σ)) :
    executorRun (recording effect) n (nest p rest) exec =
      some (.success, untilRefused effect (p.run effect exec) rest) := by
  obtain ⟨n, rfl⟩ := Nat.exists_eq_add_one_of_ne_zero (Nat.ne_of_gt (Nat.zero_lt_of_lt hn))
  induction rest generalizing p n exec with
  | nil => exact executorRun_pipeline effect p n exec
  | cons l rest ih =>
    obtain ⟨n, rfl⟩ := Nat.exists_eq_add_one_of_ne_zero (Nat.ne_of_gt (Nat.zero_lt_of_lt (Nat.lt_of_succ_lt_succ hn)))
    rw [nest, executorRun_andOr, untilRefused]
    split
    · exact ih l.pipeline _ n (Nat.lt_of_succ_lt_succ hn)
    · rfl

/-! ## Where the two agree -/

/-- After the first operator that does not hold, there is no other one. -/
def Uniform (exec : Executor (List (Pipeline ε) × σ)) : List (Link ε) → Prop
  | [] => True
  | l :: rest =>
    if l.Proceeds exec.lastStatus then Uniform (l.pipeline.run effect exec) rest else ∀ m ∈ rest, m.isAnd = l.isAnd

theorem Link.Proceeds.congr {l m : Link ε} (h : m.isAnd = l.isAnd) (status : ℤ) : m.Proceeds status ↔ l.Proceeds status := by
  unfold Link.Proceeds
  rw [h]

theorem Link.Proceeds.of_ne {l m : Link ε} (h : m.isAnd ≠ l.isAnd) {status : ℤ} (hl : ¬l.Proceeds status) :
    m.Proceeds status := by
  unfold Link.Proceeds at *
  cases hm : m.isAnd <;> cases hb : l.isAnd <;> simp_all

/-- Operators that do not hold change nothing. -/
theorem foldl_step_refused {exec : Executor (List (Pipeline ε) × σ)} {rest : List (Link ε)}
    (h : ∀ m ∈ rest, ¬m.Proceeds exec.lastStatus) : rest.foldl (Link.step effect) exec = exec := by
  induction rest with
  | nil => rfl
  | cons m rest ih =>
    have hm : Link.step effect exec m = exec := if_neg (h m (List.mem_cons_self ..))
    rw [List.foldl_cons, hm]
    exact ih fun k hk => h k (List.mem_cons_of_mem _ hk)

/-- No pipeline is taken back. -/
theorem length_le_foldl_step (exec : Executor (List (Pipeline ε) × σ)) (rest : List (Link ε)) :
    exec.world.1.length ≤ (rest.foldl (Link.step effect) exec).world.1.length := by
  induction rest generalizing exec with
  | nil => exact le_refl _
  | cons m rest ih =>
    refine le_trans ?_ (ih _)
    unfold Link.step
    split
    · simp [Pipeline.run]
    · exact le_refl _

/-- An operator that holds runs a pipeline. -/
theorem length_lt_foldl_step {exec : Executor (List (Pipeline ε) × σ)} {rest : List (Link ε)}
    (h : ∃ m ∈ rest, m.Proceeds exec.lastStatus) :
    exec.world.1.length < (rest.foldl (Link.step effect) exec).world.1.length := by
  induction rest with
  | nil => simp at h
  | cons m rest ih =>
    rw [List.foldl_cons]
    by_cases hm : m.Proceeds exec.lastStatus
    · refine lt_of_lt_of_le ?_ (length_le_foldl_step effect _ rest)
      simp [Link.step, hm, Pipeline.run]
    · have hstep : Link.step effect exec m = exec := if_neg hm
      obtain ⟨k, hk, hp⟩ := h
      rw [hstep]
      refine ih ⟨k, ?_, hp⟩
      cases List.mem_cons.1 hk with
      | inl heq => exact absurd (heq ▸ hp) hm
      | inr hmem => exact hmem

theorem untilRefused_eq_iff (exec : Executor (List (Pipeline ε) × σ)) (rest : List (Link ε)) :
    untilRefused effect exec rest = rest.foldl (Link.step effect) exec ↔ Uniform effect exec rest := by
  induction rest generalizing exec with
  | nil => simp [untilRefused, Uniform]
  | cons l rest ih =>
    rw [untilRefused, Uniform, List.foldl_cons, Link.step]
    by_cases hl : l.Proceeds exec.lastStatus
    · rw [if_pos hl, if_pos hl, if_pos hl]
      exact ih _
    · rw [if_neg hl, if_neg hl, if_neg hl]
      constructor
      · intro heq m hm
        by_contra hne
        have hlt := length_lt_foldl_step effect ⟨m, hm, Link.Proceeds.of_ne hne hl⟩
        rw [← heq] at hlt
        exact lt_irrefl _ hlt
      · intro hsame
        exact (foldl_step_refused effect fun m hm hp => hl ((Link.Proceeds.congr (hsame m hm) _).1 hp)).symm

/-- The tree that is parsed runs as the chain does from left to right. -/
def LeftAssociative (ts : List Token) (pipeline : Parse (Option (Ast ε))) (s : ParserState) (p : Pipeline ε)
    (rest : List (Link ε)) (exec : Executor (List (Pipeline ε) × σ)) : Prop :=
  ∃ (ast : Ast ε) (s' : ParserState) (bound : ℕ), ∀ n ≥ bound,
    andOrOver ts pipeline n s = some (some ast, s') ∧
      executorRun (recording effect) n ast exec = some (.success, leftToRight effect p rest exec)

variable {ts : List Token} {pipeline : Parse (Option (Ast ε))} {s s' : ParserState} {p : Pipeline ε} {rest : List (Link ε)}

theorem leftAssociative_iff (h : Joined ts pipeline s p rest s') (exec : Executor (List (Pipeline ε) × σ)) :
    LeftAssociative effect ts pipeline s p rest exec ↔
      untilRefused effect (p.run effect exec) rest = leftToRight effect p rest exec := by
  constructor
  · intro hagree
    obtain ⟨ast, s₁, bound, hn⟩ := hagree
    have hle := Nat.le_add_right bound (rest.length + 1)
    have hlt : rest.length < bound + (rest.length + 1) := by omega
    obtain ⟨hparse, hrun⟩ := hn _ hle
    rw [andOrOver_joined h hlt] at hparse
    cases hparse
    rw [executorRun_nest effect p rest hlt] at hrun
    exact (Prod.mk.inj (Option.some.inj hrun)).2
  · intro heq
    refine ⟨nest p rest, s', rest.length + 1, fun n hn => ⟨andOrOver_joined h hn, ?_⟩⟩
    rw [executorRun_nest effect p rest hn, heq]

/-- A command without arguments, alone in its pipeline -/
def bare (text : List Byte) : Pipeline Unit := ⟨false, [.simpleCommand { SimpleCommand.empty with command := some text }]⟩

/-- `./f && ./t || ./t` -/
def mixed : List Token :=
  [⟨.word, lit "./f"⟩, ⟨.andIf, lit "&&"⟩, ⟨.word, lit "./t"⟩, ⟨.orIf, lit "||"⟩, ⟨.word, lit "./t"⟩]

/-- The pipelines of `mixed`, as the parser finds them -/
theorem joined_mixed :
    Joined mixed (parse mixed (fun _ => none) 5 .pipeline) ⟨0, 1⟩ (bare (lit "./f"))
      [⟨true, bare (lit "./t")⟩, ⟨false, bare (lit "./t")⟩] ⟨5, 1⟩ := by
  have hf : parse mixed (fun _ => none) 5 .pipeline ⟨0, 1⟩ = some (some (bare (lit "./f")).ast, ⟨1, 1⟩) := rfl
  have ht : parse mixed (fun _ => none) 5 .pipeline ⟨2, 1⟩ = some (some (bare (lit "./t")).ast, ⟨3, 1⟩) := rfl
  exact .link hf rfl rfl (.link ht rfl rfl (.last rfl rfl))

/-- The pipelines end with the statuses of the list, in the order in which they run. -/
def statuses (_ : Pipeline Unit) (world : List ℤ) : ℤ × List ℤ := (world.headD 0, world.tail)

/-- The chain runs from left to right exactly where an operator that does not hold is followed by no
other operator. -/
theorem runs_left_to_right (h : Joined ts pipeline s p rest s') (exec : Executor (List (Pipeline ε) × σ)) :
    LeftAssociative effect ts pipeline s p rest exec ↔ Uniform effect (p.run effect exec) rest :=
  (leftAssociative_iff effect h exec).trans (untilRefused_eq_iff effect _ rest)

theorem runs_left_to_right_mixed :
    LeftAssociative statuses mixed (parse mixed (fun _ => none) 5 .pipeline) ⟨0, 1⟩ (bare (lit "./f"))
        [⟨true, bare (lit "./t")⟩, ⟨false, bare (lit "./t")⟩] ⟨0, 0, 0, 0, ([], [0, 1, 2])⟩ ↔
      Uniform statuses ((bare (lit "./f")).run statuses ⟨0, 0, 0, 0, ([], [0, 1, 2])⟩)
        [⟨true, bare (lit "./t")⟩, ⟨false, bare (lit "./t")⟩] :=
  runs_left_to_right statuses joined_mixed _

/-- After `./f` failed, the chain is left without its last pipeline. -/
theorem mixed_not_leftAssociative :
    ¬LeftAssociative statuses mixed (parse mixed (fun _ => none) 5 .pipeline) ⟨0, 1⟩ (bare (lit "./f"))
      [⟨true, bare (lit "./t")⟩, ⟨false, bare (lit "./t")⟩] ⟨0, 0, 0, 0, ([], [1, 0, 0])⟩ := by
  intro h
  have heq := (leftAssociative_iff statuses joined_mixed _).1 h
  have hlength := congrArg (fun exec => exec.world.1.length) heq
  revert hlength
  decide

end ValidcTools.Sh23
