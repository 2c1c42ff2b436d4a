import ValidcTools.Sh23.Loops
import ValidcTools.Sh23.Variables

/-! Child processes: pipelines and subshells, the exit status of a tree, and what is left of the shell's memory. -/
namespace ValidcTools.Sh23

variable {ε σ ω : Type}

/-! ## Processes of the code -/

/-- What a child leaves behind: it has a copy of the memory, and only what it does outside remains. -/
def afterChild (exec child : Executor (σ × ω)) : Executor (σ × ω) := { exec with world := (exec.world.1, child.world.2) }

/-- `fork`, `exit` with the number that the child comes to, and `waitpid` -/
def forked (child : Exec (σ × ω) ℤ) : Exec (σ × ω) ℤ := fun exec =>
  (child exec).map fun r => (r.1 % 256, afterChild exec r.2)

section
variable (run : Ast ε → Exec (σ × ω) ExecStatus)

/-- The children of `exec_pipeline`, as if each ended before the next begins, with the exit status of the last -/
def runPipeline (status : ℤ) : List (Ast ε) → Exec (σ × ω) ℤ
  | [] => return status
  | command :: commands => do
    let status ← forked do return if (← run command) = .success then 0 else 1
    runPipeline status commands

/-- `exec_pipeline` -/
def execPipeline (bang : Bool) (commands : List (Ast ε)) : Exec (σ × ω) ExecStatus := do
  let status ← runPipeline run 0 commands
  modify fun exec => { exec with lastStatus := if bang then (if status = 0 then 1 else 0) else status }
  return .success

/-- `exec_subshell` -/
def execSubshell (body : Ast ε) : Exec (σ × ω) ExecStatus := do
  let status ← forked do
    let ret ← run body
    let exec ← get
    return if ret = .success ∨ ret = .returned then exec.lastStatus else 1
  modify fun exec => { exec with lastStatus := status }
  return .success

end

/-- The parts of the shell that act on its memory -/
structure Commands (ε σ ω : Type) where
  simple : SimpleShell ε (σ × ω)
  /-- `function_store_set`, and whether it succeeds -/
  functionStoreSet : List Byte → Ast ε → σ → Bool × σ
  /-- `variable_store_set_variable` -/
  setVariable : List Byte → List Byte → σ → σ
  positionalParams : σ → List (List Byte)

namespace Commands

variable (commands : Commands ε σ ω)

/-- `exec_function_definition` -/
def execFunctionDefinition (name : List Byte) (body : Ast ε) : Exec (σ × ω) ExecStatus := fun exec =>
  let r := commands.functionStoreSet name body exec.world.1
  some (.success, { exec with lastStatus := if r.1 then 0 else 1, world := (r.2, exec.world.2) })

/-- The shell, when its children run so -/
def shell (run : Ast ε → Exec (σ × ω) ExecStatus) : Shell ε (σ × ω) where
  command
    | .simpleCommand c => execSimpleCommand commands.simple c
    | .pipeline bang cs => execPipeline run bang cs
    | .subshell body => execSubshell run body
    | .functionDefinition name body _ => commands.execFunctionDefinition name body
    | _ => fun exec => some (.failure, { exec with lastStatus := 1 })
  setVariable name value world := (commands.setVariable name value world.1, world.2)
  positionalParams world := commands.positionalParams world.1

/-- `executor_run`, with so many processes inside each other, nested calls and turns of a loop -/
def run : ℕ → Ast ε → Exec (σ × ω) ExecStatus
  | 0 => fun _ _ => none
  | n + 1 => executorRun (commands.shell (run n)) (n + 1)

end Commands

/-! ## Exit statuses of POSIX -/

/-- What ends: a tree, the commands of a pipeline, or a loop whose body has ended with the status `last`, or has not begun
and `last` is 0 -/
inductive Phase (ε : Type)
  | node (ast : Ast ε)
  | children (commands : List (Ast ε))
  | words (last : ℤ) (name : List Byte) (body : Ast ε) (words : List (List Byte))
  | turns (last : ℤ) (isUntil : Bool) (condition body : Ast ε)

/-- No list whose first command is to run in the background -/
def Ast.Foreground : Ast ε → Prop
  | .list _ separator _ => separator ≠ .amp
  | _ => True

section
variable (commands : Commands ε σ ω)

/-- Runs with the exit statuses of POSIX. In those that are `plain` the last command of each pipeline ends with 0, each `if`
has a branch for the status of its condition, and each loop or `case` that is left without a command of its own in between
is left with the status it should have. -/
inductive Ends (plain : Bool) : Phase ε → Executor (σ × ω) → Executor (σ × ω) → Prop
  | simple {c : SimpleCommand ε} {exec exec' : Executor (σ × ω)}
      (h : execSimpleCommand commands.simple c exec = some (.success, exec')) (hsame : SameLoops exec exec')
      (hstatus : 0 ≤ exec'.lastStatus ∧ exec'.lastStatus < 256) : Ends plain (.node (.simpleCommand c)) exec exec'
  | pipeline {bang : Bool} {cs : List (Ast ε)} {exec exec' : Executor (σ × ω)} (h : Ends plain (.children cs) exec exec')
      (hplain : plain = true → exec'.lastStatus = 0) :
      Ends plain (.node (.pipeline bang cs)) exec
        { exec' with lastStatus := if bang then (if exec'.lastStatus = 0 then 1 else 0) else exec'.lastStatus }
  | lastChild {command : Ast ε} {exec exec' : Executor (σ × ω)} (h : Ends plain (.node command) exec exec') :
      Ends plain (.children [command]) exec { afterChild exec exec' with lastStatus := exec'.lastStatus }
  | child {command : Ast ε} {cs : List (Ast ε)} {exec exec' exec'' : Executor (σ × ω)} (h : Ends plain (.node command) exec exec')
      (hrest : Ends plain (.children cs) (afterChild exec exec') exec'') : Ends plain (.children (command :: cs)) exec exec''
  | subshell {body : Ast ε} {exec exec' : Executor (σ × ω)} (h : Ends plain (.node body) exec exec') :
      Ends plain (.node (.subshell body)) exec { afterChild exec exec' with lastStatus := exec'.lastStatus }
  | only {ast first : Ast ε} {next : ℤ → Option (Ast ε)} {exec exec' : Executor (σ × ω)}
      (hseq : ast.sequence = some (first, next)) (hfore : ast.Foreground)
      (hif : ∀ condition thenBody elsePart, ast ≠ .ifClause condition thenBody elsePart) (h : Ends plain (.node first) exec exec')
      (hnext : next exec'.lastStatus = none) : Ends plain (.node ast) exec exec'
  | both {ast first second : Ast ε} {next : ℤ → Option (Ast ε)} {exec exec' exec'' : Executor (σ × ω)}
      (hseq : ast.sequence = some (first, next)) (hfore : ast.Foreground) (h : Ends plain (.node first) exec exec')
      (hnext : next exec'.lastStatus = some second) (hsecond : Ends plain (.node second) exec' exec'') :
      Ends plain (.node ast) exec exec''
  | noBranch {condition thenBody : Ast ε} {exec exec' : Executor (σ × ω)} (hplain : plain = false)
      (h : Ends plain (.node condition) exec exec') (hstatus : exec'.lastStatus ≠ 0) :
      Ends plain (.node (.ifClause condition thenBody none)) exec { exec' with lastStatus := 0 }
  | noCase {word : List Byte} {items : List (List (List Byte) × Option (Ast ε) × Bool)} {exec : Executor (σ × ω)}
      (haction : caseAction word items = none) (hplain : plain = true → exec.lastStatus = 0) :
      Ends plain (.node (.caseClause word items)) exec { exec with lastStatus := 0 }
  | emptyCase {word : List Byte} {items : List (List (List Byte) × Option (Ast ε) × Bool)} {exec : Executor (σ × ω)}
      (haction : caseAction word items = some none) : Ends plain (.node (.caseClause word items)) exec { exec with lastStatus := 0 }
  | case {word : List Byte} {items : List (List (List Byte) × Option (Ast ε) × Bool)} {action : Ast ε}
      {exec exec' : Executor (σ × ω)} (haction : caseAction word items = some (some action))
      (h : Ends plain (.node action) exec exec') : Ends plain (.node (.caseClause word items)) exec exec'
  | forClause {name : List Byte} {wordlist : List (List Byte)} {body : Ast ε} {exec exec' : Executor (σ × ω)}
      (h : Ends plain (.words 0 name body (if wordlist = [] then commands.positionalParams exec.world.1 else wordlist))
        { exec with loopDepth := exec.loopDepth + 1 } exec') :
      Ends plain (.node (.forClause name wordlist body)) exec { exec' with loopDepth := exec'.loopDepth - 1 }
  | whileClause {condition body : Ast ε} {exec exec' : Executor (σ × ω)}
      (h : Ends plain (.turns 0 false condition body) { exec with loopDepth := exec.loopDepth + 1 } exec') :
      Ends plain (.node (.whileClause condition body)) exec { exec' with loopDepth := exec'.loopDepth - 1 }
  | untilClause {condition body : Ast ε} {exec exec' : Executor (σ × ω)}
      (h : Ends plain (.turns 0 true condition body) { exec with loopDepth := exec.loopDepth + 1 } exec') :
      Ends plain (.node (.untilClause condition body)) exec { exec' with loopDepth := exec'.loopDepth - 1 }
  | noWords {last : ℤ} {name : List Byte} {body : Ast ε} {exec : Executor (σ × ω)} (hplain : plain = true → exec.lastStatus = last) :
      Ends plain (.words last name body []) exec { exec with lastStatus := last }
  | word {last : ℤ} {name word : List Byte} {words : List (List Byte)} {body : Ast ε} {exec exec' exec'' : Executor (σ × ω)}
      (h : Ends plain (.node body) { exec with world := (commands.setVariable name word exec.world.1, exec.world.2) } exec')
      (hrest : Ends plain (.words exec'.lastStatus name body words) exec' exec'') :
      Ends plain (.words last name body (word :: words)) exec exec''
  | turnEnd {last : ℤ} {isUntil : Bool} {condition body : Ast ε} {exec exec' : Executor (σ × ω)}
      (hcondition : Ends plain (.node condition) exec exec') (htest : decide (exec'.lastStatus = 0) = isUntil)
      (hplain : plain = true → exec'.lastStatus = last) :
      Ends plain (.turns last isUntil condition body) exec { exec' with lastStatus := last }
  | turn {last : ℤ} {isUntil : Bool} {condition body : Ast ε} {exec exec' exec'' exec₁ : Executor (σ × ω)}
      (hcondition : Ends plain (.node condition) exec exec') (htest : decide (exec'.lastStatus = 0) ≠ isUntil)
      (h : Ends plain (.node body) exec' exec'') (hrest : Ends plain (.turns exec''.lastStatus isUntil condition body) exec'' exec₁) :
      Ends plain (.turns last isUntil condition body) exec exec₁

/-- The code, with enough nested processes, calls and turns, ends so. -/
def Completes : Phase ε → Executor (σ × ω) → Executor (σ × ω) → Prop
  | .node ast, exec, exec' =>
    ∃ bound, ∀ k ≥ bound, ∀ n ≥ bound, executorRun (commands.shell (commands.run k)) n ast exec = some (.success, exec')
  | .children cs, exec, exec' =>
    ∃ bound, ∀ k ≥ bound, ∀ status, runPipeline (commands.run k) status cs exec = some (0, { exec' with lastStatus := exec.lastStatus })
  | .words _ name body words, exec, exec' =>
    ∃ bound, ∀ k ≥ bound, ∀ n ≥ bound, forLoop (executorRun (commands.shell (commands.run k)) n) (commands.shell (commands.run k))
      name body words exec = some (none, exec')
  | .turns _ isUntil condition body, exec, exec' =>
    ∃ bound, ∀ k ≥ bound, ∀ n ≥ bound, ∀ m ≥ bound,
      whileLoop (executorRun (commands.shell (commands.run k)) n) isUntil condition body m exec = some (none, exec')

end

section
variable {commands : Commands ε σ ω} {exec exec' exec'' : Executor (σ × ω)} {ast : Ast ε}

theorem Completes.run (h : Completes commands (.node ast) exec exec') :
    ∃ bound, ∀ k ≥ bound, commands.run k ast exec = some (.success, exec') := by
  obtain ⟨bound, hn⟩ := h
  refine ⟨bound + 1, fun k hk => ?_⟩
  obtain ⟨m, rfl⟩ := Nat.exists_eq_add_of_le' (Nat.one_le_of_lt hk)
  exact hn m (by omega) (m + 1) (by omega)

theorem forked_apply {child : Exec (σ × ω) ℤ} {status : ℤ} (h : child exec = some (status, exec')) :
    forked child exec = some (status % 256, afterChild exec exec') := by
  rw [forked, h]
  rfl

/-- A tree is completed by one level of `executor_run` above what its parts need. -/
theorem completes_of_succ
    (h : ∃ bound, ∀ k ≥ bound, ∀ n ≥ bound, executorRun (commands.shell (commands.run k)) (n + 1) ast exec = some (.success, exec')) :
    Completes commands (.node ast) exec exec' := by
  obtain ⟨bound, hn⟩ := h
  refine ⟨bound + 1, fun k hk n hle => ?_⟩
  obtain ⟨m, rfl⟩ := Nat.exists_eq_add_of_le' (Nat.one_le_of_lt hle)
  exact hn k (by omega) m (by omega)

/-- A child that ends normally has the exit status 0 in a pipeline, whatever the status of its last command. -/
theorem completes_child {command : Ast ε} {cs : List (Ast ε)} (h : Completes commands (.node command) exec exec') :
    ∃ bound, ∀ k ≥ bound, ∀ status, runPipeline (commands.run k) status (command :: cs) exec =
      runPipeline (commands.run k) 0 cs (afterChild exec exec') := by
  obtain ⟨bound, hrun⟩ := h.run
  refine ⟨bound, fun k hk status => ?_⟩
  have hchild : (do return if (← commands.run k command) = .success then 0 else 1 : Exec (σ × ω) ℤ) exec = some (0, exec') := by
    rw [Exec.bind_apply, hrun k hk]
    rfl
  rw [runPipeline, Exec.bind_apply, forked_apply hchild]
  rfl

theorem completes_pipeline {bang : Bool} {cs : List (Ast ε)} (h : Completes commands (.children cs) exec exec') :
    Completes commands (.node (.pipeline bang cs)) exec { exec' with lastStatus := if bang then 1 else 0 } := by
  obtain ⟨bound, hn⟩ := h
  refine completes_of_succ ⟨bound, fun k hk n hle => ?_⟩
  change execPipeline (commands.run k) bang cs exec = _
  rw [execPipeline, Exec.bind_apply, hn k hk]
  rfl

theorem completes_subshell {body : Ast ε} (h : Completes commands (.node body) exec exec')
    (hstatus : 0 ≤ exec'.lastStatus ∧ exec'.lastStatus < 256) :
    Completes commands (.node (.subshell body)) exec { afterChild exec exec' with lastStatus := exec'.lastStatus } := by
  obtain ⟨bound, hrun⟩ := h.run
  refine completes_of_succ ⟨bound, fun k hk n hle => ?_⟩
  have hchild : (do
      let ret ← commands.run k body
      let exec ← get
      return if ret = .success ∨ ret = .returned then exec.lastStatus else 1 : Exec (σ × ω) ℤ) exec =
        some (exec'.lastStatus, exec') := by
    rw [Exec.bind_apply, hrun k hk]
    rfl
  change execSubshell (commands.run k) body exec = _
  rw [execSubshell, Exec.bind_apply, forked_apply hchild, Int.emod_eq_of_lt hstatus.1 hstatus.2]
  rfl

theorem completes_only {first : Ast ε} {next : ℤ → Option (Ast ε)} (hseq : ast.sequence = some (first, next))
    (h : Completes commands (.node first) exec exec') (hnext : next exec'.lastStatus = none) :
    Completes commands (.node ast) exec exec' := by
  obtain ⟨bound, hn⟩ := h
  refine completes_of_succ ⟨bound, fun k hk n hle => ?_⟩
  rw [executorRun_sequence hseq, hn k hk n hle]
  simp only [Option.bind_some, thenRun, ne_eq, not_true_eq_false, if_false, hnext]

theorem completes_both {first second : Ast ε} {next : ℤ → Option (Ast ε)} (hseq : ast.sequence = some (first, next))
    (h : Completes commands (.node first) exec exec') (hnext : next exec'.lastStatus = some second)
    (hsecond : Completes commands (.node second) exec' exec'') : Completes commands (.node ast) exec exec'' := by
  obtain ⟨bound, hn⟩ := h
  obtain ⟨bound', hn'⟩ := hsecond
  refine completes_of_succ ⟨max bound bound', fun k hk n hle => ?_⟩
  rw [executorRun_sequence hseq, hn k (by omega) n (by omega)]
  simp only [Option.bind_some, thenRun, ne_eq, not_true_eq_false, if_false, hnext]
  exact hn' k (by omega) n (by omega)

theorem completes_for {last : ℤ} {name : List Byte} {wordlist : List (List Byte)} {body : Ast ε}
    (h : Completes commands (.words last name body (if wordlist = [] then commands.positionalParams exec.world.1 else wordlist))
      { exec with loopDepth := exec.loopDepth + 1 } exec') :
    Completes commands (.node (.forClause name wordlist body)) exec { exec' with loopDepth := exec'.loopDepth - 1 } := by
  obtain ⟨bound, hn⟩ := h
  refine completes_of_succ ⟨bound, fun k hk n hle => ?_⟩
  change inLoop _ exec = _
  rw [inLoop_apply, Exec.bind_apply, Exec.get_apply, Option.bind_some]
  exact congrArg (Option.bind · _) (hn k hk n hle)

theorem completes_turns {last : ℤ} {isUntil : Bool} {condition body : Ast ε}
    (h : Completes commands (.turns last isUntil condition body) { exec with loopDepth := exec.loopDepth + 1 } exec')
    (hast : ast = if isUntil then .untilClause condition body else .whileClause condition body) :
    Completes commands (.node ast) exec { exec' with loopDepth := exec'.loopDepth - 1 } := by
  obtain ⟨bound, hn⟩ := h
  refine completes_of_succ ⟨bound, fun k hk n hle => ?_⟩
  have hrun : executorRun (commands.shell (commands.run k)) (n + 1) ast =
      inLoop (whileLoop (executorRun (commands.shell (commands.run k)) n) isUntil condition body n) := by
    rw [hast]
    cases isUntil <;> rfl
  rw [hrun, inLoop_apply, hn k hk n hle n hle]
  rfl

theorem completes_word {last : ℤ} {name word : List Byte} {words : List (List Byte)} {body : Ast ε} (hsettled : Settled exec)
    (h : Completes commands (.node body) { exec with world := (commands.setVariable name word exec.world.1, exec.world.2) } exec')
    (hrest : Completes commands (.words exec'.lastStatus name body words) exec' exec'') :
    Completes commands (.words last name body (word :: words)) exec exec'' := by
  obtain ⟨bound, hn⟩ := h
  obtain ⟨bound', hn'⟩ := hrest
  refine ⟨max bound bound', fun k hk n hle => ?_⟩
  rw [forLoop_settled _ hsettled]
  refine (congrArg (Option.bind · _) (hn k (by omega) n (by omega))).trans ?_
  exact hn' k (by omega) n (by omega)

section
variable {last : ℤ} {isUntil : Bool} {condition body : Ast ε}

theorem completes_turnEnd (hsettled : Settled exec) (hcondition : Completes commands (.node condition) exec exec')
    (htest : decide (exec'.lastStatus = 0) = isUntil) : Completes commands (.turns last isUntil condition body) exec exec' := by
  obtain ⟨bound, hn⟩ := hcondition
  refine ⟨bound + 1, fun k hk n hle m hm => ?_⟩
  obtain ⟨m, rfl⟩ := Nat.exists_eq_add_of_le' (Nat.one_le_of_lt hm)
  rw [whileLoop_settled _ hsettled, hn k (by omega) n (by omega), Option.bind_some]
  simp only [ne_eq, not_true_eq_false, if_false, htest, if_true]

theorem completes_turn (hsettled : Settled exec) (hcondition : Completes commands (.node condition) exec exec')
    (htest : decide (exec'.lastStatus = 0) ≠ isUntil) (h : Completes commands (.node body) exec' exec'') {exec₁ : Executor (σ × ω)}
    (hrest : Completes commands (.turns exec''.lastStatus isUntil condition body) exec'' exec₁) :
    Completes commands (.turns last isUntil condition body) exec exec₁ := by
  obtain ⟨bound, hn⟩ := hcondition
  obtain ⟨bound', hn'⟩ := h
  obtain ⟨bound₁, hn₁⟩ := hrest
  refine ⟨max (max bound bound') bound₁ + 1, fun k hk n hle m hm => ?_⟩
  obtain ⟨m, rfl⟩ := Nat.exists_eq_add_of_le' (Nat.one_le_of_lt hm)
  rw [whileLoop_settled _ hsettled, hn k (by omega) n (by omega), Option.bind_some]
  simp only [ne_eq, not_true_eq_false, if_false, if_neg htest]
  rw [hn' k (by omega) n (by omega), Option.bind_some]
  exact hn₁ k (by omega) n (by omega) m (by omega)

end

/-- The status of the body that has ended is an exit status. -/
def Phase.InRange : Phase ε → Prop
  | .words last _ _ _ | .turns last _ _ _ => 0 ≤ last ∧ last < 256
  | _ => True

/-- Every run ends with an exit status. -/
theorem Ends.status_range {plain : Bool} {phase : Phase ε} (h : Ends commands plain phase exec exec') (hphase : phase.InRange) :
    0 ≤ exec'.lastStatus ∧ exec'.lastStatus < 256 := by
  induction h with
  | simple _ _ hstatus => exact hstatus
  | pipeline _ _ ih =>
    have := ih trivial
    dsimp only
    split_ifs <;> omega
  | lastChild _ ih | subshell _ ih | only _ _ _ _ _ ih | case _ _ ih => exact ih trivial
  | child _ _ _ ih => exact ih trivial
  | both _ _ _ _ _ _ ih => exact ih trivial
  | noBranch | noCase | emptyCase => exact ⟨le_rfl, by norm_num⟩
  | forClause _ ih | whileClause _ ih | untilClause _ ih => exact ih ⟨le_rfl, by norm_num⟩
  | noWords | turnEnd => exact hphase
  | word _ _ ih ih' => exact ih' (ih trivial)
  | turn _ _ _ _ _ ih ih' => exact ih' (ih trivial)

theorem SameLoops.inLoop {a b : Executor σ} (h : SameLoops { a with loopDepth := a.loopDepth + 1 } b) :
    SameLoops a { b with loopDepth := b.loopDepth - 1 } := by
  have hdepth : b.loopDepth = a.loopDepth + 1 := h.loopDepth
  refine ⟨h.breakCount, h.continueCount, ?_⟩
  change b.loopDepth - 1 = a.loopDepth
  omega

/-- The code ends plain runs as POSIX does: one step for each rule. -/
theorem Ends.completes {phase : Phase ε} (h : Ends commands true phase exec exec') (hsettled : Settled exec) :
    SameLoops exec exec' ∧ Completes commands phase exec exec' := by
  induction h with
  | simple h hsame => exact ⟨hsame, completes_of_succ ⟨0, fun k _ n _ => h⟩⟩
  | @pipeline bang cs exec exec' _ hplain ih =>
    obtain ⟨hsame, hchildren⟩ := ih hsettled
    refine ⟨⟨hsame.breakCount, hsame.continueCount, hsame.loopDepth⟩, ?_⟩
    rw [hplain rfl, if_pos rfl]
    exact completes_pipeline hchildren
  | lastChild _ ih =>
    obtain ⟨bound, hchild⟩ := completes_child (ih hsettled).2
    exact ⟨⟨rfl, rfl, rfl⟩, bound, fun k hk status => hchild k hk status⟩
  | child _ _ ih ih' =>
    obtain ⟨bound, hchild⟩ := completes_child (ih hsettled).2
    obtain ⟨hsame, bound', hrest⟩ := ih' ⟨hsettled.breakCount, hsettled.continueCount⟩
    refine ⟨⟨hsame.breakCount, hsame.continueCount, hsame.loopDepth⟩, max bound bound', fun k hk status => ?_⟩
    rw [hchild k (by omega), hrest k (by omega)]
    rfl
  | subshell h ih =>
    obtain ⟨hsame, hbody⟩ := ih hsettled
    exact ⟨⟨rfl, rfl, rfl⟩, completes_subshell hbody (h.status_range trivial)⟩
  | only hseq _ _ _ hnext ih =>
    obtain ⟨hsame, hfirst⟩ := ih hsettled
    exact ⟨hsame, completes_only hseq hfirst hnext⟩
  | both hseq _ _ hnext _ ih ih' =>
    obtain ⟨hsame, hfirst⟩ := ih hsettled
    obtain ⟨hsame', hsecond⟩ := ih' (hsettled.of_same hsame)
    exact ⟨hsame.trans hsame', completes_both hseq hfirst hnext hsecond⟩
  | noBranch hplain => cases hplain
  | @noCase word items exec haction hplain =>
    have hexec : { exec with lastStatus := 0 } = exec := by rw [← hplain rfl]
    rw [hexec]
    refine ⟨.refl, completes_of_succ ⟨0, fun k _ n _ => ?_⟩⟩
    change execCaseClause _ word items exec = _
    rw [execCaseClause_apply, haction]
  | @emptyCase word items exec haction =>
    refine ⟨⟨rfl, rfl, rfl⟩, completes_of_succ ⟨0, fun k _ n _ => ?_⟩⟩
    change execCaseClause _ word items exec = _
    rw [execCaseClause_apply, haction]
  | @case word items action exec exec' haction _ ih =>
    obtain ⟨hsame, bound, hn⟩ := ih hsettled
    refine ⟨hsame, completes_of_succ ⟨bound, fun k hk n hle => ?_⟩⟩
    change execCaseClause _ word items exec = _
    rw [execCaseClause_apply, haction]
    exact hn k hk n hle
  | forClause _ ih =>
    obtain ⟨hsame, hwords⟩ := ih ⟨hsettled.breakCount, hsettled.continueCount⟩
    exact ⟨hsame.inLoop, completes_for hwords⟩
  | whileClause _ ih | untilClause _ ih =>
    obtain ⟨hsame, hturns⟩ := ih ⟨hsettled.breakCount, hsettled.continueCount⟩
    exact ⟨hsame.inLoop, completes_turns hturns rfl⟩
  | @noWords last name body exec hplain =>
    have hexec : { exec with lastStatus := last } = exec := by rw [← hplain rfl]
    rw [hexec]
    exact ⟨.refl, 0, fun k _ n _ => rfl⟩
  | word _ _ ih ih' =>
    obtain ⟨hsame, hbody⟩ := ih ⟨hsettled.breakCount, hsettled.continueCount⟩
    have hsame := hsame.of_world
    obtain ⟨hsame', hrest⟩ := ih' (hsettled.of_same hsame)
    exact ⟨hsame.trans hsame', completes_word hsettled hbody hrest⟩
  | @turnEnd last isUntil condition body exec exec' _ htest hplain ih =>
    obtain ⟨hsame, hcondition⟩ := ih hsettled
    have hexec : { exec' with lastStatus := last } = exec' := by rw [← hplain rfl]
    rw [hexec]
    exact ⟨hsame, completes_turnEnd hsettled hcondition htest⟩
  | turn _ htest _ _ ih ih' ih₁ =>
    obtain ⟨hsame, hcondition⟩ := ih hsettled
    obtain ⟨hsame', hbody⟩ := ih' (hsettled.of_same hsame)
    obtain ⟨hsame₁, hrest⟩ := ih₁ (hsettled.of_same (hsame.trans hsame'))
    exact ⟨(hsame.trans hsame').trans hsame₁, completes_turn hsettled hcondition htest hbody hrest⟩

/-- The plain runs are among all runs. -/
theorem Ends.of_plain {phase : Phase ε} (h : Ends commands true phase exec exec') : Ends commands false phase exec exec' := by
  induction h with
  | simple h hsame hstatus => exact .simple h hsame hstatus
  | pipeline _ _ ih => exact .pipeline ih fun h => nomatch h
  | lastChild _ ih => exact .lastChild ih
  | child _ _ ih ih' => exact .child ih ih'
  | subshell _ ih => exact .subshell ih
  | only hseq hfore hif _ hnext ih => exact .only hseq hfore hif ih hnext
  | both hseq hfore _ hnext _ ih ih' => exact .both hseq hfore ih hnext ih'
  | noBranch hplain => cases hplain
  | noCase haction => exact .noCase haction fun h => nomatch h
  | emptyCase haction => exact .emptyCase haction
  | case haction _ ih => exact .case haction ih
  | forClause _ ih => exact .forClause ih
  | whileClause _ ih => exact .whileClause ih
  | untilClause _ ih => exact .untilClause ih
  | noWords => exact .noWords fun h => nomatch h
  | word _ _ ih ih' => exact .word ih ih'
  | turnEnd _ htest _ ih => exact .turnEnd ih htest fun h => nomatch h
  | turn _ htest _ _ ih ih' ih₁ => exact .turn ih htest ih' ih₁

end

/-! ## Plain runs -/

/-- Every tree ends with the status of POSIX. -/
def EndsAsPosix (commands : Commands ε σ ω) (exec : Executor (σ × ω)) : Prop :=
  ∀ ast exec', Ends commands false (.node ast) exec exec' → ∃ bound, ∀ k ≥ bound, commands.run k ast exec = some (.success, exec')

/-- In each plain run the code ends with the status of POSIX, and in the same state. -/
theorem plain_runs_end (commands : Commands ε σ ω) (exec : Executor (σ × ω)) (hsettled : Settled exec) (ast : Ast ε)
    (exec' : Executor (σ × ω)) (h : Ends commands true (.node ast) exec exec') :
    Ends commands false (.node ast) exec exec' ∧ ∃ bound, ∀ k ≥ bound, commands.run k ast exec = some (.success, exec') :=
  ⟨h.of_plain, (h.completes hsettled).2.run⟩

/-- Variables and functions, and external commands of which `./f` alone fails -/
def externals : Commands Unit (VariableStore × List (List Byte × Ast Unit)) Unit where
  simple :=
    { isInteractive := fun _ => false
      prepare := fun c world =>
        let vars := c.assignments.foldl (fun vars a => vars.setVariable a.1 a.2) world.1.1
        some (some (c.command.toList ++ c.suffix), ((vars, world.1.2), world.2))
      other := fun argv exec => some (.success, { exec with lastStatus := if argv = [lit "./f"] then 1 else 0 }) }
  functionStoreSet name body memory := (true, (memory.1, (name, body) :: memory.2))
  setVariable name value memory := (memory.1.setVariable name value, memory.2)
  positionalParams memory := memory.1.positionalParams

def started : Executor ((VariableStore × List (List Byte × Ast Unit)) × Unit) := ⟨0, 0, 0, 0, ((.create none 1, []), ())⟩

theorem ends_simple {plain : Bool} (command : String) (status : ℤ) (exec : Executor ((VariableStore × List (List Byte × Ast Unit)) × Unit))
    (h : execSimpleCommand externals.simple { SimpleCommand.empty with command := some (lit command) } exec =
      some (.success, { exec with lastStatus := status })) (hstatus : 0 ≤ status ∧ status < 256) :
    Ends externals plain (.node (simple command [])) exec { exec with lastStatus := status } :=
  .simple h ⟨rfl, rfl, rfl⟩ hstatus

/-- `if (./t); then ./t | ./t; fi` -/
theorem plain_runs_end_if :
    ∃ bound, ∀ k ≥ bound, externals.run k
      (.ifClause (.subshell (simple "./t" [])) (.pipeline false [simple "./t" [], simple "./t" []]) none) started =
      some (.success, started) := by
  have htrue : Ends externals true (.node (simple "./t" [])) started started := ends_simple "./t" 0 started rfl (by decide)
  have hpipeline : Ends externals true (.node (.pipeline false [simple "./t" [], simple "./t" []])) started started :=
    .pipeline (.child htrue (.lastChild htrue)) fun _ => rfl
  refine (plain_runs_end externals started ⟨rfl, rfl⟩ _ _ ?_).2
  exact .both rfl trivial (.subshell htrue) rfl hpipeline

/-- A pipeline of a command that fails -/
theorem failing_pipeline_not_endsAsPosix : ¬EndsAsPosix externals started := by
  intro h
  have hfalse : Ends externals false (.node (simple "./f" [])) started { started with lastStatus := 1 } :=
    ends_simple "./f" 1 started rfl (by decide)
  have hpipeline : Ends externals false (.node (.pipeline false [simple "./f" []])) started { started with lastStatus := 1 } :=
    .pipeline (.lastChild hfalse) fun h => nomatch h
  obtain ⟨bound, hrun⟩ := h _ _ hpipeline
  have hcode : externals.run (bound + 3) (.pipeline false [simple "./f" []]) started = some (.success, started) := rfl
  rw [hrun (bound + 3) (by omega)] at hcode
  have hstatus := congrArg (fun r => r.2.lastStatus) (Option.some.inj hcode)
  cases hstatus

/-! ## What is left of the memory -/

/-- A command that acts on the memory of the process that it runs in -/
inductive Direct (ε : Type)
  | simple (c : SimpleCommand ε)
  | functionDefinition (name : List Byte) (body : Ast ε) (redirects : List Redirect)

def Direct.ast : Direct ε → Ast ε
  | .simple c => .simpleCommand c
  | .functionDefinition name body redirects => .functionDefinition name body redirects

/-- `exec_simple_command` or `exec_function_definition` -/
def Direct.exec (commands : Commands ε σ ω) : Direct ε → Exec (σ × ω) ExecStatus
  | .simple c => execSimpleCommand commands.simple c
  | .functionDefinition name body _ => commands.execFunctionDefinition name body

/-- The list of commands, joined by ';', as `parse_list` and `parse_pipeline` make it -/
def program (first : Direct ε) : List (Direct ε) → Ast ε
  | [] => .list (.pipeline false [first.ast]) .unspecified none
  | second :: rest => .list (.pipeline false [first.ast]) .semi (some (program second rest))

/-- The commands one after another, in the shell itself -/
def Commands.inOrder (commands : Commands ε σ ω) : List (Direct ε) → Executor (σ × ω) → Option (Executor (σ × ω))
  | [], exec => some exec
  | c :: cs, exec => (c.exec commands exec).bind fun r => inOrder commands cs r.2

/-- The program leaves the variables, positional parameters, functions and options that its commands leave. -/
def ActsOnShell (commands : Commands ε σ ω) (first : Direct ε) (rest : List (Direct ε)) (exec : Executor (σ × ω)) : Prop :=
  ∃ exec' exec'', (∃ bound, ∀ k ≥ bound, commands.run k (program first rest) exec = some (.success, exec')) ∧
    commands.inOrder (first :: rest) exec = some exec'' ∧ exec'.world.1 = exec''.world.1

section
variable {commands : Commands ε σ ω} {exec : Executor (σ × ω)} {first : Direct ε} {rest : List (Direct ε)}

/-- In its pipeline a command acts on the copy of a child. -/
theorem completes_direct {c : Direct ε} (h : (c.exec commands exec).isSome) :
    ∃ exec', Completes commands (.node (.pipeline false [c.ast])) exec exec' ∧ exec'.world.1 = exec.world.1 := by
  obtain ⟨⟨ret, child⟩, hexec⟩ := Option.isSome_iff_exists.mp h
  refine ⟨{ afterChild exec child with lastStatus := (if ret = .success then 0 else 1) % 256 },
    completes_of_succ ⟨1, fun k hk n _ => ?_⟩, rfl⟩
  obtain ⟨m, rfl⟩ := Nat.exists_eq_add_of_le' hk
  have hrun : commands.run (m + 1) c.ast exec = some (ret, child) := by
    rw [← hexec]
    cases c <;> rfl
  have hchild : (do return if (← commands.run (m + 1) c.ast) = .success then 0 else 1 : Exec (σ × ω) ℤ) exec =
      some (if ret = .success then 0 else 1, child) := by
    rw [Exec.bind_apply, hrun]
    rfl
  change execPipeline (commands.run (m + 1)) false [c.ast] exec = _
  rw [execPipeline, Exec.bind_apply, runPipeline, Exec.bind_apply, forked_apply hchild]
  rfl

/-- The memory is the same after every program. -/
theorem completes_program (hreturns : ∀ c ∈ first :: rest, ∀ exec, (c.exec commands exec).isSome) :
    ∃ exec', Completes commands (.node (program first rest)) exec exec' ∧ exec'.world.1 = exec.world.1 := by
  induction rest generalizing first exec with
  | nil =>
    obtain ⟨exec', hfirst, hmemory⟩ := completes_direct (hreturns first List.mem_cons_self exec)
    exact ⟨exec', completes_only rfl hfirst rfl, hmemory⟩
  | cons second rest ih =>
    obtain ⟨hfirst, hrest⟩ := List.forall_mem_cons.mp hreturns
    obtain ⟨exec', hfirst, hmemory⟩ := completes_direct (hfirst exec)
    obtain ⟨exec'', hrest, hmemory'⟩ := ih hrest
    exact ⟨exec'', completes_both rfl hfirst rfl hrest, hmemory'.trans hmemory⟩

/-- A program acts on the shell just when its commands, one after another, leave the memory as it was. -/
theorem actsOnShell_iff (commands : Commands ε σ ω) (first : Direct ε) (rest : List (Direct ε)) (exec : Executor (σ × ω))
    (hreturns : ∀ c ∈ first :: rest, ∀ exec, (c.exec commands exec).isSome) :
    ActsOnShell commands first rest exec ↔
      ∃ exec', commands.inOrder (first :: rest) exec = some exec' ∧ exec'.world.1 = exec.world.1 := by
  obtain ⟨exec', hprogram, hmemory⟩ : ∃ exec', Completes commands (.node (program first rest)) exec exec' ∧
      exec'.world.1 = exec.world.1 := completes_program hreturns
  constructor
  · rintro ⟨exec₁, exec₂, ⟨bound, hrun⟩, horder', hsame⟩
    obtain ⟨bound', hrun'⟩ := hprogram.run
    obtain rfl : exec₁ = exec' := by
      have := (hrun (max bound bound') (by omega)).symm.trans (hrun' (max bound bound') (by omega))
      exact (Prod.mk.inj (Option.some.inj this)).2
    exact ⟨exec₂, horder', hsame.symm.trans hmemory⟩
  · rintro ⟨exec₂, horder', hsame⟩
    exact ⟨exec', exec₂, hprogram.run, horder', hmemory.trans hsame.symm⟩

end

/-- `./t; ./f` -/
theorem actsOnShell_externals :
    ActsOnShell externals (.simple { SimpleCommand.empty with command := some (lit "./t") })
      [.simple { SimpleCommand.empty with command := some (lit "./f") }] started := by
  refine (actsOnShell_iff externals _ _ started ?_).mpr ⟨{ started with lastStatus := 1 }, rfl, rfl⟩
  exact List.forall_mem_cons.mpr ⟨fun _ => rfl, List.forall_mem_singleton.mpr fun _ => rfl⟩

/-- `x=1`: the variable is set in a child. -/
theorem assignment_lost :
    ¬ActsOnShell externals (.simple { SimpleCommand.empty with assignments := [(lit "x", lit "1")] }) [] started := by
  intro h
  obtain ⟨exec', exec'', ⟨bound, hrun⟩, horder, hsame⟩ := h
  have hcode : externals.run (bound + 3) (program (.simple { SimpleCommand.empty with assignments := [(lit "x", lit "1")] }) [])
      started = some (.success, started) := rfl
  rw [hrun (bound + 3) (by omega)] at hcode
  obtain ⟨-, rfl⟩ := Prod.mk.inj (Option.some.inj hcode)
  obtain rfl := Option.some.inj horder
  have hvars := congrArg (fun memory => memory.1.vars.length) hsame
  exact absurd hvars (by decide)

end ValidcTools.Sh23
