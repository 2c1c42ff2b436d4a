import ValidcTools.Sh23.Builtins

/-! Which loops `break` and `continue` leave. -/
namespace ValidcTools.Sh23

variable {ε σ : Type}

/-! ## Runs of POSIX -/

/-- A status that ends the lists and loops around it -/
abbrev StopStatus := {status : ExecStatus // status ≠ .success ∧ status ≠ .breakLoop ∧ status ≠ .continueLoop}

/-- How a command ends, with the number of loops that are still to be left or continued -/
inductive Outcome
  | normal
  | brk (levels : ℕ)
  | cont (levels : ℕ)
  | stop (status : StopStatus)

/-- What an outcome of its condition or body is for a loop: `none` when the next turn follows -/
def Outcome.after : Outcome → Option Outcome
  | .normal => none
  | .brk levels => if levels ≤ 1 then some .normal else some (.brk (levels - 1))
  | .cont levels => if levels ≤ 1 then none else some (.cont (levels - 1))
  | .stop status => some (.stop status)

/-- No loop but the innermost is left or continued. -/
def Outcome.Shallow : Outcome → Prop
  | .brk levels | .cont levels => levels = 1
  | _ => True

def Outcome.IsStop : Outcome → Prop
  | .stop _ => True
  | _ => False

/-- What runs: a tree, a `for` loop over the words that are left, or the turns of a `while` or `until` loop -/
inductive Task (ε : Type)
  | node (ast : Ast ε)
  | words (name : List Byte) (body : Ast ε) (words : List (List Byte))
  | turns (isUntil : Bool) (condition body : Ast ε)

/-- The fields that belong to the loops -/
structure SameLoops (a b : Executor σ) : Prop where
  breakCount : b.breakCount = a.breakCount
  continueCount : b.continueCount = a.continueCount
  loopDepth : b.loopDepth = a.loopDepth

/-- The trees that are no lists, conditionals or loops -/
def Ast.IsCommand : Ast ε → Prop
  | .simpleCommand _ | .pipeline _ _ | .subshell _ | .functionDefinition _ _ _ => True
  | _ => False

/-- The tree that runs first, and the one after it at each exit status -/
def Ast.sequence : Ast ε → Option (Ast ε × (ℤ → Option (Ast ε)))
  | .andOr left operation right =>
    some (left, fun status =>
      if (operation = .andIf ∧ status = 0) ∨ (operation = .orIf ∧ status ≠ 0) then some right else none)
  | .list first separator next => some (first, fun _ => if separator ≠ .amp then next else none)
  | .ifClause condition thenBody elsePart => some (condition, fun status => if status = 0 then some thenBody else elsePart)
  | .completeCommand inner | .program inner | .braceGroup inner | .redirected inner _ => some (inner, fun _ => none)
  | _ => none

/-- The action of a case clause: `none` when no item is taken -/
def caseAction (word : List Byte) : List (List (List Byte) × Option (Ast ε) × Bool) → Option (Option (Ast ε))
  | [] => none
  | (patterns, action, hasDsemi) :: items =>
    if patterns.any (matchPattern word) then some action else if hasDsemi then none else caseAction word items

section
variable (shell : Shell ε σ)

/-- The turns of a loop -/
def Ast.loopTask (exec : Executor σ) : Ast ε → Option (Task ε)
  | .forClause name wordlist body =>
    some (.words name body (if wordlist = [] then shell.positionalParams exec.world else wordlist))
  | .whileClause condition body => some (.turns false condition body)
  | .untilClause condition body => some (.turns true condition body)
  | _ => none

/-- A command that asks to leave or continue loops, of which there are so many -/
inductive Asks (ast : Ast ε) (exec : Executor σ) : Outcome → Executor σ → Prop
  | brk {levels : ℕ} {exec' : Executor σ}
      (h : shell.command ast exec = some (.breakLoop, { exec' with breakCount := levels })) (hsame : SameLoops exec exec')
      (hpos : 1 ≤ levels) (hdepth : levels ≤ exec.loopDepth) : Asks ast exec (.brk levels) exec'
  | cont {levels : ℕ} {exec' : Executor σ}
      (h : shell.command ast exec = some (.continueLoop, { exec' with continueCount := levels }))
      (hsame : SameLoops exec exec') (hpos : 1 ≤ levels) (hdepth : levels ≤ exec.loopDepth) :
      Asks ast exec (.cont levels) exec'

/-- Runs as POSIX has them. Those that are `plain` leave or continue the innermost loop only, and neither
from the condition of a `while` or `until` loop nor from a pipeline. -/
inductive Runs (plain : Bool) : Task ε → Executor σ → Outcome → Executor σ → Prop
  | command {ast : Ast ε} {exec exec' : Executor σ} (hcommand : ast.IsCommand)
      (hpipe : ∀ cmd o e, ast = .pipeline false [cmd] → ¬Asks shell cmd exec o e)
      (h : shell.command ast exec = some (.success, exec')) (hsame : SameLoops exec exec') :
      Runs plain (.node ast) exec .normal exec'
  | stopped {ast : Ast ε} {exec exec' : Executor σ} {status : StopStatus} (hcommand : ast.IsCommand)
      (h : shell.command ast exec = some (status.1, exec')) (hsame : SameLoops exec exec') :
      Runs plain (.node ast) exec (.stop status) exec'
  | asks {ast : Ast ε} {exec exec' : Executor σ} {o : Outcome} (hcommand : ast.IsCommand)
      (h : Asks shell ast exec o exec') : Runs plain (.node ast) exec o exec'
  | pipelineAsks {cmd : Ast ε} {exec exec' : Executor σ} {o : Outcome} (hplain : plain = false)
      (h : Asks shell cmd exec o exec') : Runs plain (.node (.pipeline false [cmd])) exec o exec'
  | first {ast first : Ast ε} {next : ℤ → Option (Ast ε)} {exec exec' : Executor σ} {o : Outcome}
      (hseq : ast.sequence = some (first, next)) (h : Runs plain (.node first) exec o exec') (ho : o ≠ .normal) :
      Runs plain (.node ast) exec o exec'
  | only {ast first : Ast ε} {next : ℤ → Option (Ast ε)} {exec exec' : Executor σ}
      (hseq : ast.sequence = some (first, next)) (h : Runs plain (.node first) exec .normal exec')
      (hnext : next exec'.lastStatus = none) : Runs plain (.node ast) exec .normal exec'
  | both {ast first second : Ast ε} {next : ℤ → Option (Ast ε)} {exec exec' exec'' : Executor σ} {o : Outcome}
      (hseq : ast.sequence = some (first, next)) (h : Runs plain (.node first) exec .normal exec')
      (hnext : next exec'.lastStatus = some second) (hsecond : Runs plain (.node second) exec' o exec'') :
      Runs plain (.node ast) exec o exec''
  | noCase {word : List Byte} {items : List (List (List Byte) × Option (Ast ε) × Bool)} {exec : Executor σ}
      (haction : caseAction word items = none) : Runs plain (.node (.caseClause word items)) exec .normal exec
  | emptyCase {word : List Byte} {items : List (List (List Byte) × Option (Ast ε) × Bool)} {exec : Executor σ}
      (haction : caseAction word items = some none) :
      Runs plain (.node (.caseClause word items)) exec .normal { exec with lastStatus := 0 }
  | case {word : List Byte} {items : List (List (List Byte) × Option (Ast ε) × Bool)} {action : Ast ε}
      {exec exec' : Executor σ} {o : Outcome} (haction : caseAction word items = some (some action))
      (h : Runs plain (.node action) exec o exec') : Runs plain (.node (.caseClause word items)) exec o exec'
  | loop {ast : Ast ε} {task : Task ε} {exec exec' : Executor σ} {o : Outcome} (htask : ast.loopTask shell exec = some task)
      (h : Runs plain task { exec with loopDepth := exec.loopDepth + 1 } o exec') :
      Runs plain (.node ast) exec o { exec' with loopDepth := exec'.loopDepth - 1 }
  | noWords {name : List Byte} {body : Ast ε} {exec : Executor σ} : Runs plain (.words name body []) exec .normal exec
  | wordNext {name word : List Byte} {words : List (List Byte)} {body : Ast ε} {exec exec' exec'' : Executor σ}
      {o o' : Outcome}
      (h : Runs plain (.node body) { exec with world := shell.setVariable name word exec.world } o exec')
      (hafter : o.after = none) (hplain : plain = true → o.Shallow) (hrest : Runs plain (.words name body words) exec' o' exec'') :
      Runs plain (.words name body (word :: words)) exec o' exec''
  | wordLast {name word : List Byte} {words : List (List Byte)} {body : Ast ε} {exec exec' : Executor σ} {o o' : Outcome}
      (h : Runs plain (.node body) { exec with world := shell.setVariable name word exec.world } o exec')
      (hafter : o.after = some o') (hplain : plain = true → o.Shallow) :
      Runs plain (.words name body (word :: words)) exec o' exec'
  | conditionNext {isUntil : Bool} {condition body : Ast ε} {exec exec' exec'' : Executor σ} {o o' : Outcome}
      (hcondition : Runs plain (.node condition) exec o exec') (ho : o ≠ .normal) (hafter : o.after = none)
      (hplain : plain = false) (hrest : Runs plain (.turns isUntil condition body) exec' o' exec'') :
      Runs plain (.turns isUntil condition body) exec o' exec''
  | conditionLast {isUntil : Bool} {condition body : Ast ε} {exec exec' : Executor σ} {o o' : Outcome}
      (hcondition : Runs plain (.node condition) exec o exec') (ho : o ≠ .normal) (hafter : o.after = some o')
      (hplain : plain = true → o.IsStop) : Runs plain (.turns isUntil condition body) exec o' exec'
  | turnEnd {isUntil : Bool} {condition body : Ast ε} {exec exec' : Executor σ}
      (hcondition : Runs plain (.node condition) exec .normal exec') (htest : decide (exec'.lastStatus = 0) = isUntil) :
      Runs plain (.turns isUntil condition body) exec .normal exec'
  | turnNext {isUntil : Bool} {condition body : Ast ε} {exec exec' exec'' exec''' : Executor σ} {o o' : Outcome}
      (hcondition : Runs plain (.node condition) exec .normal exec') (htest : decide (exec'.lastStatus = 0) ≠ isUntil)
      (h : Runs plain (.node body) exec' o exec'') (hafter : o.after = none) (hplain : plain = true → o.Shallow)
      (hrest : Runs plain (.turns isUntil condition body) exec'' o' exec''') :
      Runs plain (.turns isUntil condition body) exec o' exec'''
  | turnLast {isUntil : Bool} {condition body : Ast ε} {exec exec' exec'' : Executor σ} {o o' : Outcome}
      (hcondition : Runs plain (.node condition) exec .normal exec') (htest : decide (exec'.lastStatus = 0) ≠ isUntil)
      (h : Runs plain (.node body) exec' o exec'') (hafter : o.after = some o') (hplain : plain = true → o.Shallow) :
      Runs plain (.turns isUntil condition body) exec o' exec''

/-- A `while` or `until` loop comes from the head of one turn to the head of a later one. -/
inductive Iterates (plain : Bool) (isUntil : Bool) (condition body : Ast ε) : Executor σ → Executor σ → Prop
  | refl {exec : Executor σ} : Iterates plain isUntil condition body exec exec
  | turn {exec exec' exec'' exec₁ : Executor σ} {o : Outcome} (hcondition : Runs shell plain (.node condition) exec .normal exec')
      (htest : decide (exec'.lastStatus = 0) ≠ isUntil) (h : Runs shell plain (.node body) exec' o exec'') (hafter : o.after = none)
      (hplain : plain = true → o.Shallow) (hrest : Iterates plain isUntil condition body exec'' exec₁) :
      Iterates plain isUntil condition body exec exec₁

end

/-! ## Runs of the code -/

/-- The status that the code returns -/
def Outcome.status : Outcome → ExecStatus
  | .normal => .success
  | .brk _ => .breakLoop
  | .cont _ => .continueLoop
  | .stop status => status

/-- The counters that go with it -/
def Outcome.mark (exec : Executor σ) : Outcome → Executor σ
  | .brk levels => { exec with breakCount := levels }
  | .cont levels => { exec with continueCount := levels }
  | _ => exec

/-- What the loop functions return at the end of a loop -/
def Outcome.loopResult : Outcome → Option ExecStatus
  | .stop status => some status
  | _ => none

/-- The code, with enough nested calls and turns, ends as the run does. -/
def Executes (shell : Shell ε σ) : Task ε → Executor σ → Outcome → Executor σ → Prop
  | .node ast, exec, o, exec' => ∃ bound, ∀ n ≥ bound, executorRun shell n ast exec = some (o.status, o.mark exec')
  | .words name body words, exec, o, exec' =>
    ∃ bound, ∀ n ≥ bound, forLoop (executorRun shell n) shell name body words exec = some (o.loopResult, exec')
  | .turns isUntil condition body, exec, o, exec' =>
    ∃ bound, ∀ n ≥ bound, ∀ m ≥ bound,
      whileLoop (executorRun shell n) isUntil condition body m exec = some (o.loopResult, exec')

section
variable {shell : Shell ε σ} {α β : Type} {exec exec' exec'' : Executor σ}

@[simp] theorem Exec.bind_apply (x : Exec σ α) (f : α → Exec σ β) : (x >>= f) exec = (x exec).bind fun r => f r.1 r.2 := rfl

@[simp] theorem Exec.pure_apply (a : α) : (pure a : Exec σ α) exec = some (a, exec) := rfl

@[simp] theorem Exec.get_apply : (get : Exec σ (Executor σ)) exec = some (exec, exec) := rfl

@[simp] theorem Exec.set_apply : (set exec' : Exec σ PUnit) exec = some (⟨⟩, exec') := rfl

@[simp] theorem Exec.modify_apply (f : Executor σ → Executor σ) : (modify f : Exec σ PUnit) exec = some (⟨⟩, f exec) := rfl

theorem executorRun_command {ast : Ast ε} (h : ast.IsCommand) (n : ℕ) :
    executorRun shell (n + 1) ast exec = shell.command ast exec := by
  cases ast <;> first | rfl | exact absurd h id

/-- A tree, and what runs after it -/
def thenRun (run : Ast ε → Exec σ ExecStatus) (next : ℤ → Option (Ast ε)) (r : ExecStatus × Executor σ) :
    Option (ExecStatus × Executor σ) :=
  if r.1 ≠ .success then some r
  else
    match next r.2.lastStatus with
    | none => some (.success, r.2)
    | some second => run second r.2

theorem bind_thenRun_none (x : Option (ExecStatus × Executor σ)) (run : Ast ε → Exec σ ExecStatus)
    (next : ℤ → Option (Ast ε)) (hnext : ∀ status, next status = none := by exact fun _ => rfl) :
    x.bind (thenRun run next) = x := by
  cases x with
  | none => rfl
  | some r =>
    obtain ⟨status, exec⟩ := r
    simp only [Option.bind_some, thenRun, hnext]
    split
    · rfl
    · next h => rw [not_not.1 h]

variable (run : Ast ε → Exec σ ExecStatus)

theorem execAndOr_apply (left : Ast ε) (operation : TokenType) (right : Ast ε) (exec : Executor σ) :
    execAndOr run left operation right exec = (run left exec).bind (thenRun run fun status =>
      if (operation = .andIf ∧ status = 0) ∨ (operation = .orIf ∧ status ≠ 0) then some right else none) := by
  unfold execAndOr
  rw [Exec.bind_apply]
  congr 1
  funext r
  unfold thenRun
  split
  · rfl
  · rw [Exec.bind_apply, Exec.get_apply, Option.bind_some]
    by_cases h : (operation = .andIf ∧ r.2.lastStatus = 0) ∨ (operation = .orIf ∧ r.2.lastStatus ≠ 0)
    · simp only [if_pos h]
    · simp only [if_neg h, Exec.pure_apply]

theorem execList_apply (first : Ast ε) (separator : TokenType) (next : Option (Ast ε)) (exec : Executor σ) :
    execList run first separator next exec =
      (run first exec).bind (thenRun run fun _ => if separator ≠ .amp then next else none) := by
  unfold execList
  rw [Exec.bind_apply]
  congr 1
  funext r
  unfold thenRun
  split
  · rfl
  · cases next with
    | none => simp
    | some second =>
      by_cases h : separator ≠ .amp
      · simp only [if_pos h]
      · simp only [if_neg h, Exec.pure_apply]

theorem execIfClause_apply (condition thenBody : Ast ε) (elsePart : Option (Ast ε)) (exec : Executor σ) :
    execIfClause run condition thenBody elsePart exec =
      (run condition exec).bind (thenRun run fun status => if status = 0 then some thenBody else elsePart) := by
  unfold execIfClause
  rw [Exec.bind_apply]
  congr 1
  funext r
  unfold thenRun
  split
  · rfl
  · rw [Exec.bind_apply, Exec.get_apply, Option.bind_some]
    by_cases h : r.2.lastStatus = 0
    · simp only [if_pos h]
    · simp only [if_neg h]
      cases elsePart <;> rfl

theorem executorRun_sequence {ast first : Ast ε} {next : ℤ → Option (Ast ε)} (h : ast.sequence = some (first, next)) (n : ℕ) :
    executorRun shell (n + 1) ast exec =
      (executorRun shell n first exec).bind (thenRun (executorRun shell n) next) := by
  cases ast with
  | andOr left operation right =>
    cases h
    exact execAndOr_apply _ first operation right exec
  | list first separator rest =>
    cases h
    exact execList_apply _ first separator rest exec
  | ifClause condition thenBody elsePart =>
    cases h
    exact execIfClause_apply _ first thenBody elsePart exec
  | completeCommand inner | program inner | braceGroup inner | redirected inner redirects =>
    cases h
    exact (bind_thenRun_none _ (executorRun shell n) _).symm
  | _ => cases h

theorem execCaseClause_apply (word : List Byte) (items : List (List (List Byte) × Option (Ast ε) × Bool)) (exec : Executor σ) :
    execCaseClause run word items exec =
      match caseAction word items with
      | none => some (.success, exec)
      | some none => some (.success, { exec with lastStatus := 0 })
      | some (some action) => run action exec := by
  induction items with
  | nil => rfl
  | cons item items ih =>
    obtain ⟨patterns, action, hasDsemi⟩ := item
    unfold execCaseClause caseAction
    by_cases hmatch : patterns.any (matchPattern word)
    · rw [if_pos hmatch, if_pos hmatch]
      cases action <;> rfl
    · rw [if_neg hmatch, if_neg hmatch]
      by_cases hend : hasDsemi = true
      · rw [if_pos hend, if_pos hend]
        rfl
      · rw [if_neg hend, if_neg hend]
        exact ih

/-! ### The rules of the runs, for the code -/

theorem SameLoops.refl : SameLoops exec exec := ⟨rfl, rfl, rfl⟩

theorem SameLoops.trans (h : SameLoops exec exec') (h' : SameLoops exec' exec'') : SameLoops exec exec'' :=
  ⟨h'.breakCount.trans h.breakCount, h'.continueCount.trans h.continueCount, h'.loopDepth.trans h.loopDepth⟩

theorem SameLoops.of_world {world : σ} (h : SameLoops { exec with world := world } exec') : SameLoops exec exec' :=
  ⟨h.breakCount, h.continueCount, h.loopDepth⟩

/-- No request is pending. -/
structure Settled (exec : Executor σ) : Prop where
  breakCount : exec.breakCount = 0
  continueCount : exec.continueCount = 0

theorem Settled.of_same (h : Settled exec) (hsame : SameLoops exec exec') : Settled exec' :=
  ⟨hsame.breakCount.trans h.breakCount, hsame.continueCount.trans h.continueCount⟩

theorem executes_first {ast first : Ast ε} {next : ℤ → Option (Ast ε)} (hseq : ast.sequence = some (first, next)) {o : Outcome}
    (h : Executes shell (.node first) exec o exec') (ho : o.status ≠ .success) : Executes shell (.node ast) exec o exec' := by
  obtain ⟨bound, hn⟩ := h
  refine ⟨bound + 1, fun n hle => ?_⟩
  obtain ⟨m, rfl⟩ := Nat.exists_eq_add_of_le' (Nat.one_le_of_lt hle)
  rw [executorRun_sequence hseq, hn m (by omega)]
  exact if_pos ho

theorem executes_only {ast first : Ast ε} {next : ℤ → Option (Ast ε)} (hseq : ast.sequence = some (first, next))
    (h : Executes shell (.node first) exec .normal exec') (hnext : next exec'.lastStatus = none) :
    Executes shell (.node ast) exec .normal exec' := by
  obtain ⟨bound, hn⟩ := h
  refine ⟨bound + 1, fun n hle => ?_⟩
  obtain ⟨m, rfl⟩ := Nat.exists_eq_add_of_le' (Nat.one_le_of_lt hle)
  rw [executorRun_sequence hseq, hn m (by omega)]
  simp only [Option.bind_some, thenRun, Outcome.status, Outcome.mark, ne_eq, not_true_eq_false, if_false, hnext]

theorem executes_both {ast first second : Ast ε} {next : ℤ → Option (Ast ε)} (hseq : ast.sequence = some (first, next))
    (h : Executes shell (.node first) exec .normal exec') (hnext : next exec'.lastStatus = some second) {o : Outcome}
    (hsecond : Executes shell (.node second) exec' o exec'') : Executes shell (.node ast) exec o exec'' := by
  obtain ⟨bound, hn⟩ := h
  obtain ⟨bound', hn'⟩ := hsecond
  refine ⟨max bound bound' + 1, fun n hle => ?_⟩
  obtain ⟨m, rfl⟩ := Nat.exists_eq_add_of_le' (Nat.one_le_of_lt hle)
  rw [executorRun_sequence hseq, hn m (by omega)]
  simp only [Option.bind_some, thenRun, Outcome.status, Outcome.mark, ne_eq, not_true_eq_false, if_false, hnext]
  exact hn' m (by omega)

/-- What the loops do with the status of their body -/
def afterBody (again : Executor σ → Option (Option ExecStatus × Executor σ)) (r : ExecStatus × Executor σ) :
    Option (Option ExecStatus × Executor σ) :=
  match r.1 with
  | .breakLoop => some (none, { r.2 with breakCount := r.2.breakCount - 1 })
  | .continueLoop => again { r.2 with continueCount := r.2.continueCount - 1 }
  | .success => again r.2
  | status => some (some status, r.2)

theorem afterBody_stop (again : Executor σ → Option (Option ExecStatus × Executor σ)) (status : StopStatus) :
    afterBody again (status.1, exec) = some (some status.1, exec) := by
  obtain ⟨status, hsuccess, hbreak, hcontinue⟩ := status
  cases status with
  | success => exact absurd rfl hsuccess
  | breakLoop => exact absurd rfl hbreak
  | continueLoop => exact absurd rfl hcontinue
  | _ => rfl

/-- With no pending request, a request for the innermost loop is used up by it. -/
theorem afterBody_shallow (again : Executor σ → Option (Option ExecStatus × Executor σ)) (h : Settled exec) {o : Outcome}
    (ho : o.Shallow) :
    afterBody again (o.status, o.mark exec) =
      match o.after with
      | none => again exec
      | some o' => some (o'.loopResult, exec) := by
  obtain ⟨hbreak, hcontinue⟩ := h
  cases o with
  | normal => rfl
  | brk levels =>
    obtain rfl : levels = 1 := ho
    simp [afterBody, Outcome.status, Outcome.mark, Outcome.after, Outcome.loopResult, ← hbreak]
  | cont levels =>
    obtain rfl : levels = 1 := ho
    simp [afterBody, Outcome.status, Outcome.mark, Outcome.after, ← hcontinue]
  | stop status => exact afterBody_stop again status

theorem forLoop_settled (h : Settled exec) (name word : List Byte) (body : Ast ε) (words : List (List Byte)) :
    forLoop run shell name body (word :: words) exec =
      (run body { exec with world := shell.setVariable name word exec.world }).bind
        (afterBody (forLoop run shell name body words)) := by
  have hbreak : ¬exec.breakCount > 0 := by simp [h.breakCount]
  have hcontinue : ¬exec.continueCount > 0 := by simp [h.continueCount]
  conv_lhs => unfold forLoop
  rw [Exec.bind_apply, Exec.get_apply, Option.bind_some]
  simp only [hbreak, hcontinue, if_false, Exec.bind_apply, Exec.set_apply, Option.bind_some]
  congr 1
  funext r
  obtain ⟨status, exec'⟩ := r
  cases status <;> rfl

theorem whileLoop_settled (h : Settled exec) (isUntil : Bool) (condition body : Ast ε) (m : ℕ) :
    whileLoop run isUntil condition body (m + 1) exec =
      (run condition exec).bind fun r =>
        if r.1 ≠ .success then some (some r.1, r.2)
        else if decide (r.2.lastStatus = 0) = isUntil then some (none, r.2)
        else (run body r.2).bind (afterBody (whileLoop run isUntil condition body m)) := by
  have hbreak : ¬exec.breakCount > 0 := by simp [h.breakCount]
  have hcontinue : ¬exec.continueCount > 0 := by simp [h.continueCount]
  conv_lhs => unfold whileLoop
  rw [Exec.bind_apply, Exec.get_apply, Option.bind_some]
  simp only [hbreak, hcontinue, if_false, Exec.bind_apply]
  congr 1
  funext r
  obtain ⟨status, exec'⟩ := r
  by_cases hstatus : status ≠ .success
  · rw [if_pos hstatus, if_pos hstatus, Exec.pure_apply]
  · rw [if_neg hstatus, if_neg hstatus, Exec.bind_apply, Exec.get_apply, Option.bind_some]
    by_cases htest : decide (exec'.lastStatus = 0) = isUntil
    · rw [if_pos htest, if_pos htest, Exec.pure_apply]
    · rw [if_neg htest, if_neg htest, Exec.bind_apply]
      congr 1
      funext r
      obtain ⟨status, exec''⟩ := r
      cases status <;> rfl

/-- The outcomes of a whole loop, when only the innermost loop is left or continued -/
def Outcome.Ends : Outcome → Prop
  | .normal | .stop _ => True
  | _ => False

theorem Outcome.Shallow.ends {o o' : Outcome} (h : o.Shallow) (hafter : o.after = some o') : o'.Ends := by
  cases o with
  | normal => cases hafter
  | brk levels =>
    obtain rfl : levels = 1 := h
    cases hafter
    trivial
  | cont levels =>
    obtain rfl : levels = 1 := h
    cases hafter
  | stop status =>
    cases hafter
    trivial

theorem inLoop_apply (loop : Exec σ (Option ExecStatus)) :
    inLoop loop exec = (loop { exec with loopDepth := exec.loopDepth + 1 }).bind fun r =>
      some (r.1.getD .success, { r.2 with loopDepth := r.2.loopDepth - 1 }) := rfl

theorem executes_loop {ast : Ast ε} {task : Task ε} (htask : ast.loopTask shell exec = some task) {o : Outcome}
    (h : Executes shell task { exec with loopDepth := exec.loopDepth + 1 } o exec') (ho : o.Ends) :
    Executes shell (.node ast) exec o { exec' with loopDepth := exec'.loopDepth - 1 } := by
  have hend : some (o.loopResult.getD .success, { exec' with loopDepth := exec'.loopDepth - 1 }) =
      some (o.status, o.mark { exec' with loopDepth := exec'.loopDepth - 1 }) := by
    cases o with
    | normal | stop => rfl
    | brk | cont => exact absurd ho id
  cases ast with
  | forClause name wordlist body =>
    cases htask
    obtain ⟨bound, hn⟩ := h
    refine ⟨bound + 1, fun n hle => ?_⟩
    obtain ⟨m, rfl⟩ := Nat.exists_eq_add_of_le' (Nat.one_le_of_lt hle)
    change inLoop _ exec = _
    rw [inLoop_apply, Exec.bind_apply, Exec.get_apply, Option.bind_some, hn m (by omega), ← hend]
    rfl
  | whileClause condition body | untilClause condition body =>
    cases htask
    obtain ⟨bound, hn⟩ := h
    refine ⟨bound + 1, fun n hle => ?_⟩
    obtain ⟨m, rfl⟩ := Nat.exists_eq_add_of_le' (Nat.one_le_of_lt hle)
    change inLoop _ exec = _
    rw [inLoop_apply, hn m (by omega) m (by omega), ← hend]
    rfl
  | _ => cases htask

theorem executes_wordNext (hsettled : Settled exec) {name word : List Byte} {words : List (List Byte)} {body : Ast ε}
    {o o' : Outcome} (h : Executes shell (.node body) { exec with world := shell.setVariable name word exec.world } o exec')
    (hsettled' : Settled exec') (ho : o.Shallow) (hafter : o.after = none)
    (hrest : Executes shell (.words name body words) exec' o' exec'') :
    Executes shell (.words name body (word :: words)) exec o' exec'' := by
  obtain ⟨bound, hn⟩ := h
  obtain ⟨bound', hn'⟩ := hrest
  refine ⟨max bound bound', fun n hle => ?_⟩
  rw [forLoop_settled _ hsettled, hn n (by omega), Option.bind_some, afterBody_shallow _ hsettled' ho, hafter]
  exact hn' n (by omega)

theorem executes_wordLast (hsettled : Settled exec) {name word : List Byte} {words : List (List Byte)} {body : Ast ε}
    {o o' : Outcome} (h : Executes shell (.node body) { exec with world := shell.setVariable name word exec.world } o exec')
    (hsettled' : Settled exec') (ho : o.Shallow) (hafter : o.after = some o') :
    Executes shell (.words name body (word :: words)) exec o' exec' := by
  obtain ⟨bound, hn⟩ := h
  refine ⟨bound, fun n hle => ?_⟩
  rw [forLoop_settled _ hsettled, hn n hle, Option.bind_some, afterBody_shallow _ hsettled' ho, hafter]

section
variable {isUntil : Bool} {condition body : Ast ε} {o o' : Outcome}

theorem executes_conditionStop (hsettled : Settled exec) {status : StopStatus}
    (h : Executes shell (.node condition) exec (.stop status) exec') :
    Executes shell (.turns isUntil condition body) exec (.stop status) exec' := by
  obtain ⟨bound, hn⟩ := h
  refine ⟨bound + 1, fun n hle m hm => ?_⟩
  obtain ⟨m, rfl⟩ := Nat.exists_eq_add_of_le' (Nat.one_le_of_lt hm)
  rw [whileLoop_settled _ hsettled, hn n (by omega), Option.bind_some]
  exact if_pos status.2.1

theorem executes_turnEnd (hsettled : Settled exec) (h : Executes shell (.node condition) exec .normal exec')
    (htest : decide (exec'.lastStatus = 0) = isUntil) :
    Executes shell (.turns isUntil condition body) exec .normal exec' := by
  obtain ⟨bound, hn⟩ := h
  refine ⟨bound + 1, fun n hle m hm => ?_⟩
  obtain ⟨m, rfl⟩ := Nat.exists_eq_add_of_le' (Nat.one_le_of_lt hm)
  rw [whileLoop_settled _ hsettled, hn n (by omega), Option.bind_some]
  change (if ExecStatus.success ≠ .success then _ else _) = _
  rw [if_neg (not_not.2 rfl)]
  exact if_pos htest

/-- One turn of the code, with enough nested calls -/
theorem whileLoop_turn (hsettled : Settled exec) (hcondition : Executes shell (.node condition) exec .normal exec')
    (htest : decide (exec'.lastStatus = 0) ≠ isUntil) (h : Executes shell (.node body) exec' o exec'') (hsettled' : Settled exec'')
    (ho : o.Shallow) :
    ∃ bound, ∀ n ≥ bound, ∀ m, whileLoop (executorRun shell n) isUntil condition body (m + 1) exec =
      match o.after with
      | none => whileLoop (executorRun shell n) isUntil condition body m exec''
      | some o' => some (o'.loopResult, exec'') := by
  obtain ⟨bound, hn⟩ := hcondition
  obtain ⟨bound', hn'⟩ := h
  refine ⟨max bound bound', fun n hle m => ?_⟩
  rw [whileLoop_settled _ hsettled, hn n (by omega), Option.bind_some]
  change (if ExecStatus.success ≠ .success then _ else if decide (exec'.lastStatus = 0) = isUntil then _ else _) = _
  rw [if_neg (not_not.2 rfl), if_neg htest]
  change (executorRun shell n body exec').bind _ = _
  rw [hn' n (by omega), Option.bind_some, afterBody_shallow _ hsettled' ho]

theorem executes_turnNext (hsettled : Settled exec) (hcondition : Executes shell (.node condition) exec .normal exec')
    (htest : decide (exec'.lastStatus = 0) ≠ isUntil) (h : Executes shell (.node body) exec' o exec'') (hsettled' : Settled exec'')
    (ho : o.Shallow) (hafter : o.after = none) {exec₁ : Executor σ}
    (hrest : Executes shell (.turns isUntil condition body) exec'' o' exec₁) :
    Executes shell (.turns isUntil condition body) exec o' exec₁ := by
  obtain ⟨bound, hturn⟩ := whileLoop_turn hsettled hcondition htest h hsettled' ho
  obtain ⟨bound', hn⟩ := hrest
  refine ⟨max bound bound' + 1, fun n hle m hm => ?_⟩
  obtain ⟨m, rfl⟩ := Nat.exists_eq_add_of_le' (Nat.one_le_of_lt hm)
  rw [hturn n (by omega), hafter]
  exact hn n (by omega) m (by omega)

theorem executes_turnLast (hsettled : Settled exec) (hcondition : Executes shell (.node condition) exec .normal exec')
    (htest : decide (exec'.lastStatus = 0) ≠ isUntil) (h : Executes shell (.node body) exec' o exec'') (hsettled' : Settled exec'')
    (ho : o.Shallow) (hafter : o.after = some o') : Executes shell (.turns isUntil condition body) exec o' exec'' := by
  obtain ⟨bound, hturn⟩ := whileLoop_turn hsettled hcondition htest h hsettled' ho
  refine ⟨bound + 1, fun n hle m hm => ?_⟩
  obtain ⟨m, rfl⟩ := Nat.exists_eq_add_of_le' (Nat.one_le_of_lt hm)
  rw [hturn n (by omega), hafter]

end

theorem Outcome.status_ne_success {o : Outcome} (h : o ≠ .normal) : o.status ≠ .success := by
  cases o with
  | normal => exact absurd rfl h
  | brk | cont => simp [Outcome.status]
  | stop status => exact status.2.1

theorem Asks.executes {ast : Ast ε} (hcommand : ast.IsCommand) {o : Outcome} (h : Asks shell ast exec o exec') :
    SameLoops exec exec' ∧ Executes shell (.node ast) exec o exec' := by
  cases h with
  | brk h hsame | cont h hsame =>
    refine ⟨hsame, 1, fun n hn => ?_⟩
    obtain ⟨m, rfl⟩ := Nat.exists_eq_add_of_le' hn
    exact (executorRun_command hcommand m).trans h

theorem executes_case {word : List Byte} {items : List (List (List Byte) × Option (Ast ε) × Bool)} {action : Ast ε}
    (haction : caseAction word items = some (some action)) {o : Outcome} (h : Executes shell (.node action) exec o exec') :
    Executes shell (.node (.caseClause word items)) exec o exec' := by
  obtain ⟨bound, hn⟩ := h
  refine ⟨bound + 1, fun n hle => ?_⟩
  obtain ⟨m, rfl⟩ := Nat.exists_eq_add_of_le' (Nat.one_le_of_lt hle)
  change execCaseClause _ word items exec = _
  rw [execCaseClause_apply, haction]
  exact hn m (by omega)

def Task.IsLoop : Task ε → Prop
  | .node _ => False
  | _ => True

theorem isLoop_of_loopTask {ast : Ast ε} {task : Task ε} (h : ast.loopTask shell exec = some task) : task.IsLoop := by
  cases ast <;> cases h <;> trivial

/-- A plain run is what the code does: the step for each rule keeps the loops' fields as they are. -/
theorem Runs.executes {task : Task ε} {o : Outcome} (h : Runs shell true task exec o exec') (hsettled : Settled exec) :
    SameLoops exec exec' ∧ Executes shell task exec o exec' ∧ (task.IsLoop → o.Ends) := by
  induction h with
  | command hcommand hpipe h hsame =>
    refine ⟨hsame, ⟨1, fun n hn => ?_⟩, fun hloop => hloop.elim⟩
    obtain ⟨m, rfl⟩ := Nat.exists_eq_add_of_le' hn
    exact (executorRun_command hcommand m).trans h
  | stopped hcommand h hsame =>
    refine ⟨hsame, ⟨1, fun n hn => ?_⟩, fun hloop => hloop.elim⟩
    obtain ⟨m, rfl⟩ := Nat.exists_eq_add_of_le' hn
    exact (executorRun_command hcommand m).trans h
  | asks hcommand h =>
    obtain ⟨hsame, hexecutes⟩ := h.executes hcommand
    exact ⟨hsame, hexecutes, fun hloop => hloop.elim⟩
  | pipelineAsks hplain => cases hplain
  | first hseq _ ho ih =>
    obtain ⟨hsame, hfirst, -⟩ := ih hsettled
    exact ⟨hsame, executes_first hseq hfirst (Outcome.status_ne_success ho), fun hloop => hloop.elim⟩
  | only hseq _ hnext ih =>
    obtain ⟨hsame, hfirst, -⟩ := ih hsettled
    exact ⟨hsame, executes_only hseq hfirst hnext, fun hloop => hloop.elim⟩
  | both hseq _ hnext _ ih ih' =>
    obtain ⟨hsame, hfirst, -⟩ := ih hsettled
    obtain ⟨hsame', hsecond, -⟩ := ih' (hsettled.of_same hsame)
    exact ⟨hsame.trans hsame', executes_both hseq hfirst hnext hsecond, fun hloop => hloop.elim⟩
  | @noCase word items exec haction =>
    refine ⟨.refl, ⟨1, fun n hn => ?_⟩, fun hloop => hloop.elim⟩
    obtain ⟨m, rfl⟩ := Nat.exists_eq_add_of_le' hn
    change execCaseClause _ word items exec = _
    rw [execCaseClause_apply, haction]
    rfl
  | @emptyCase word items exec haction =>
    refine ⟨⟨rfl, rfl, rfl⟩, ⟨1, fun n hn => ?_⟩, fun hloop => hloop.elim⟩
    obtain ⟨m, rfl⟩ := Nat.exists_eq_add_of_le' hn
    change execCaseClause _ word items exec = _
    rw [execCaseClause_apply, haction]
    rfl
  | case haction _ ih =>
    obtain ⟨hsame, haction', -⟩ := ih hsettled
    exact ⟨hsame, executes_case haction haction', fun hloop => hloop.elim⟩
  | @loop ast task exec exec' o htask _ ih =>
    obtain ⟨hsame, hloop, hends⟩ := ih ⟨hsettled.breakCount, hsettled.continueCount⟩
    have hdepth : exec'.loopDepth = exec.loopDepth + 1 := hsame.loopDepth
    refine ⟨⟨hsame.breakCount, hsame.continueCount, ?_⟩, ?_, fun hloop => hloop.elim⟩
    · change exec'.loopDepth - 1 = exec.loopDepth
      omega
    · exact executes_loop htask hloop (hends (isLoop_of_loopTask htask))
  | noWords => exact ⟨.refl, ⟨0, fun n hn => rfl⟩, fun _ => trivial⟩
  | wordNext _ hafter hplain _ ih ih' =>
    obtain ⟨hsame, hbody, -⟩ := ih ⟨hsettled.breakCount, hsettled.continueCount⟩
    have hsame := hsame.of_world
    obtain ⟨hsame', hrest, hends⟩ := ih' (hsettled.of_same hsame)
    exact ⟨hsame.trans hsame',
      executes_wordNext hsettled hbody (hsettled.of_same hsame) (hplain rfl) hafter hrest, hends⟩
  | wordLast _ hafter hplain ih =>
    obtain ⟨hsame, hbody, -⟩ := ih ⟨hsettled.breakCount, hsettled.continueCount⟩
    have hsame := hsame.of_world
    exact ⟨hsame, executes_wordLast hsettled hbody (hsettled.of_same hsame) (hplain rfl) hafter,
      fun _ => (hplain rfl).ends hafter⟩
  | conditionNext _ _ _ hplain => cases hplain
  | @conditionLast _ _ _ _ _ o o' _ _ hafter hplain ih =>
    obtain ⟨hsame, hcondition, -⟩ := ih hsettled
    have hstop := hplain rfl
    cases o with
    | stop status =>
      cases hafter
      exact ⟨hsame, executes_conditionStop hsettled hcondition, fun _ => trivial⟩
    | _ => exact hstop.elim
  | turnEnd _ htest ih =>
    obtain ⟨hsame, hcondition, -⟩ := ih hsettled
    exact ⟨hsame, executes_turnEnd hsettled hcondition htest, fun _ => trivial⟩
  | turnNext _ htest _ hafter hplain _ ih ih' ih₁ =>
    obtain ⟨hsame, hcondition, -⟩ := ih hsettled
    obtain ⟨hsame', hbody, -⟩ := ih' (hsettled.of_same hsame)
    have hsettled' := hsettled.of_same (hsame.trans hsame')
    obtain ⟨hsame₁, hrest, hends⟩ := ih₁ hsettled'
    exact ⟨(hsame.trans hsame').trans hsame₁,
      executes_turnNext hsettled hcondition htest hbody hsettled' (hplain rfl) hafter hrest, hends⟩
  | turnLast _ htest _ hafter hplain ih ih' =>
    obtain ⟨hsame, hcondition, -⟩ := ih hsettled
    obtain ⟨hsame', hbody, -⟩ := ih' (hsettled.of_same hsame)
    exact ⟨hsame.trans hsame',
      executes_turnLast hsettled hcondition htest hbody (hsettled.of_same (hsame.trans hsame')) (hplain rfl) hafter,
      fun _ => (hplain rfl).ends hafter⟩

/-- The plain runs are among all runs. -/
theorem Runs.of_plain {task : Task ε} {o : Outcome} (h : Runs shell true task exec o exec') :
    Runs shell false task exec o exec' := by
  induction h with
  | command hcommand hpipe h hsame => exact .command hcommand hpipe h hsame
  | stopped hcommand h hsame => exact .stopped hcommand h hsame
  | asks hcommand h => exact .asks hcommand h
  | pipelineAsks hplain => cases hplain
  | first hseq _ ho ih => exact .first hseq ih ho
  | only hseq _ hnext ih => exact .only hseq ih hnext
  | both hseq _ hnext _ ih ih' => exact .both hseq ih hnext ih'
  | noCase haction => exact .noCase haction
  | emptyCase haction => exact .emptyCase haction
  | case haction _ ih => exact .case haction ih
  | loop htask _ ih => exact .loop htask ih
  | noWords => exact .noWords
  | wordNext _ hafter _ _ ih ih' => exact .wordNext ih hafter (fun h => nomatch h) ih'
  | wordLast _ hafter _ ih => exact .wordLast ih hafter fun h => nomatch h
  | conditionNext _ _ _ hplain => cases hplain
  | conditionLast _ ho hafter _ ih => exact .conditionLast ih ho hafter fun h => nomatch h
  | turnEnd _ htest ih => exact .turnEnd ih htest
  | turnNext _ htest _ hafter _ _ ih ih' ih₁ => exact .turnNext ih htest ih' hafter (fun h => nomatch h) ih₁
  | turnLast _ htest _ hafter _ ih ih' => exact .turnLast ih htest ih' hafter fun h => nomatch h

theorem Iterates.executes {isUntil : Bool} {condition body : Ast ε}
    (h : Iterates shell true isUntil condition body exec exec') (hsettled : Settled exec) :
    SameLoops exec exec' ∧ ∃ turns bound, ∀ n ≥ bound, ∀ m,
      whileLoop (executorRun shell n) isUntil condition body (m + turns) exec =
        whileLoop (executorRun shell n) isUntil condition body m exec' := by
  induction h with
  | refl => exact ⟨.refl, 0, 0, fun n hn m => rfl⟩
  | turn hcondition htest hbody hafter hplain _ ih =>
    obtain ⟨hsame, hcondition, -⟩ := hcondition.executes hsettled
    obtain ⟨hsame', hbody, -⟩ := hbody.executes (hsettled.of_same hsame)
    have hsettled' := hsettled.of_same (hsame.trans hsame')
    obtain ⟨bound, hturn⟩ := whileLoop_turn hsettled hcondition htest hbody hsettled' (hplain rfl)
    obtain ⟨hsame₁, turns, bound', hturns⟩ := ih hsettled'
    refine ⟨(hsame.trans hsame').trans hsame₁, turns + 1, max bound bound', fun n hn m => ?_⟩
    rw [← Nat.add_assoc, hturn n (by omega), hafter]
    exact hturns n (by omega) m

end

/-! ## Plain runs -/

/-- Every run of POSIX from here is what the code does, and no request is left behind. -/
def LeavesLoops (shell : Shell ε σ) (exec : Executor σ) : Prop :=
  ∀ ast o exec', Runs shell false (.node ast) exec o exec' → SameLoops exec exec' ∧ Executes shell (.node ast) exec o exec'

/-- A shell whose other commands do nothing and are recorded -/
def recorder : SimpleShell Unit (List (List (List Byte))) where
  isInteractive _ := false
  prepare c world := some (some (c.command.toList ++ c.suffix), world)
  other argv exec := some (.success, { exec with lastStatus := 0, world := exec.world ++ [argv] })

def recorderShell : Shell Unit (List (List (List Byte))) where
  command
    | .simpleCommand c => execSimpleCommand recorder c
    | _ => fun exec => some (.failure, exec)
  setVariable _ _ world := world
  positionalParams _ := []

def simple (command : String) (suffix : List String) : Ast Unit :=
  .simpleCommand { SimpleCommand.empty with command := some (lit command), suffix := suffix.map lit }

def fresh : Executor (List (List (List Byte))) := ⟨0, 0, 0, 0, []⟩

/-- In each run in which the requests are for the innermost loop only, and come neither from the condition
of a `while` or `until` loop nor from a pipeline, the code does what POSIX does: whole runs end alike,
and after each turn of a `while` or `until` loop, however many follow, the states are the same. -/
theorem plain_runs_leave_loops (shell : Shell ε σ) (exec : Executor σ) (hsettled : Settled exec) :
    (∀ ast o exec', Runs shell true (.node ast) exec o exec' →
      Runs shell false (.node ast) exec o exec' ∧ SameLoops exec exec' ∧ Executes shell (.node ast) exec o exec') ∧
    ∀ isUntil condition body exec', Iterates shell true isUntil condition body exec exec' →
      SameLoops exec exec' ∧ ∃ turns bound, ∀ n ≥ bound, ∀ m,
        whileLoop (executorRun shell n) isUntil condition body (m + turns) exec =
          whileLoop (executorRun shell n) isUntil condition body m exec' := by
  constructor
  · intro ast o exec' h
    obtain ⟨hsame, hexecutes, -⟩ := h.executes hsettled
    exact ⟨h.of_plain, hsame, hexecutes⟩
  · intro isUntil condition body exec' h
    exact h.executes hsettled

/-- `for j in a; do break; done` -/
theorem plain_runs_leave_loops_break :
    Executes recorderShell (.node (.forClause (lit "j") [lit "a"] (simple "break" []))) fresh .normal fresh := by
  have hbreak : Runs recorderShell true (.node (simple "break" [])) { fresh with loopDepth := 1 } (.brk 1)
      { fresh with loopDepth := 1 } := .asks trivial (.brk rfl .refl (by decide) (by decide))
  have hwords : Runs recorderShell true (.words (lit "j") (simple "break" []) [lit "a"]) { fresh with loopDepth := 1 }
      .normal { fresh with loopDepth := 1 } := .wordLast hbreak rfl fun _ => rfl
  have htask : Ast.loopTask recorderShell fresh (.forClause (lit "j") [lit "a"] (simple "break" [])) =
      some (.words (lit "j") (simple "break" []) [lit "a"]) := rfl
  exact ((plain_runs_leave_loops recorderShell fresh ⟨rfl, rfl⟩).1 _ _ _ (Runs.loop htask hwords)).2.2

/-- `for j in a; do break 2; done` -/
def innerLoop : Ast Unit := .forClause (lit "j") [lit "a"] (simple "break" ["2"])

/-- The same, and then `./t` -/
def outerBody : Ast Unit := .list innerLoop .semi (some (.list (simple "./t" []) .unspecified none))

/-- `for i in a; do for j in a; do break 2; done; ./t; done` -/
def breakTwo : Ast Unit := .forClause (lit "i") [lit "a"] outerBody

theorem runs_breakTwo : Runs recorderShell false (.node breakTwo) fresh .normal fresh := by
  have hbreak : Runs recorderShell false (.node (simple "break" ["2"])) { fresh with loopDepth := 2 } (.brk 2)
      { fresh with loopDepth := 2 } := .asks trivial (.brk rfl .refl (by decide) (by decide))
  have hwords : Runs recorderShell false (.words (lit "j") (simple "break" ["2"]) [lit "a"]) { fresh with loopDepth := 2 }
      (.brk 1) { fresh with loopDepth := 2 } := .wordLast hbreak rfl (by simp)
  have htask : innerLoop.loopTask recorderShell { fresh with loopDepth := 1 } =
      some (.words (lit "j") (simple "break" ["2"]) [lit "a"]) := rfl
  have hinner := Runs.loop htask hwords
  have hbody : Runs recorderShell false (.node outerBody) { fresh with loopDepth := 1 } (.brk 1)
      { fresh with loopDepth := 1 } := .first rfl hinner (by simp)
  have houter : Runs recorderShell false (.words (lit "i") outerBody [lit "a"]) { fresh with loopDepth := 1 } .normal
      { fresh with loopDepth := 1 } := .wordLast hbody rfl (by simp)
  have htask' : breakTwo.loopTask recorderShell fresh = some (.words (lit "i") outerBody [lit "a"]) := rfl
  exact Runs.loop htask' houter

/-- After `break 2` the code runs `./t`. -/
theorem breakTwo_not_leavesLoops : ¬LeavesLoops recorderShell fresh := by
  intro h
  obtain ⟨-, bound, hn⟩ := h breakTwo .normal fresh runs_breakTwo
  have hcode : executorRun recorderShell (bound + 9) breakTwo fresh =
      some (.success, { fresh with breakCount := 1, world := [[lit "./t"]] }) := rfl
  rw [hn (bound + 9) (Nat.le_add_right _ _)] at hcode
  have hworld := congrArg (fun r => r.2.world) (Option.some.inj hcode)
  cases hworld

end ValidcTools.Sh23
