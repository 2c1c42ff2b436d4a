import ValidcTools.Sh23.Loops

/-! Lists of commands: which of them are run. -/
namespace ValidcTools.Sh23

variable {ε σ : Type}

def Ast.isList : Ast ε → Bool
  | .list _ _ _ => true
  | _ => false

/-- A command of a list, and the separator behind it -/
structure ListItem (ε : Type) where
  command : Ast ε
  separator : TokenType
  noList : command.isList = false

/-- The nodes that `parse_list` and `parse_compound_list` link: `NULL` behind the last one -/
def listAst : List (ListItem ε) → Option (Ast ε)
  | [] => none
  | item :: items => some (.list item.command item.separator (listAst items))

/-- `executor_run` on lists, where a given function runs what is no list -/
def runOver (command : Ast ε → Exec σ ExecStatus) : Ast ε → Exec σ ExecStatus
  | .list andOr separator next => fun exec =>
    (runOver command andOr exec).bind fun r =>
      if r.1 ≠ .success then some r
      else
        match next with
        | none => some (.success, r.2)
        | some next => if separator ≠ .amp then runOver command next r.2 else some (.success, r.2)
  | ast => command ast

theorem runOver_list (command : Ast ε → Exec σ ExecStatus) (andOr : Ast ε) (separator : TokenType) (next : Option (Ast ε)) :
    runOver command (.list andOr separator next) = execList (runOver command) andOr separator next := by
  funext exec
  rw [execList_apply, runOver]
  refine congrArg (Option.bind (runOver command andOr exec)) (funext fun r => ?_)
  unfold thenRun
  by_cases hsuccess : r.1 ≠ .success
  · rw [if_pos hsuccess, if_pos hsuccess]
  · rw [if_neg hsuccess, if_neg hsuccess]
    cases next with
    | none => simp
    | some next => split_ifs <;> rfl

theorem runOver_command (command : Ast ε → Exec σ ExecStatus) (item : ListItem ε) :
    runOver command item.command = command item.command := by
  obtain ⟨ast, separator, hno⟩ := item
  cases ast with
  | list andOr separator next => cases hno
  | _ => rfl

/-! ## Commands that return -/

/-- What a command does that neither breaks, continues, returns nor exits: whether it reports a failure, and the state that it
leaves -/
abbrev Behaviour (ε σ : Type) := Ast ε → Executor σ → Bool × Executor σ

/-- The state without the record -/
def Executor.forget (exec : Executor (List (Ast ε) × σ)) : Executor σ := { exec with world := exec.world.2 }

/-- The record with one more command -/
def Executor.note (exec : Executor σ) (record : List (Ast ε)) (command : Ast ε) : Executor (List (Ast ε) × σ) :=
  { exec with world := (record ++ [command], exec.world) }

/-- A command is run, and recorded. -/
def recorded (behaviour : Behaviour ε σ) : Ast ε → Exec (List (Ast ε) × σ) ExecStatus := fun command exec =>
  let r := behaviour command exec.forget
  some (if r.1 then .failure else .success, r.2.note exec.world.1 command)

section
variable (behaviour : Behaviour ε σ)

/-- `exec_list` runs each command of the list once, in their order. -/
def RunsAll (items : List (ListItem ε)) (exec : Executor (List (Ast ε) × σ)) : Prop :=
  ∃ list status exec', listAst items = some list ∧ runOver (recorded behaviour) list exec = some (status, exec') ∧
    exec'.world.1 = exec.world.1 ++ items.map ListItem.command

/-- Each command but the last reports no failure, and no `&` is behind it. -/
def Unbroken : List (ListItem ε) → Executor σ → Prop
  | [], _ => True
  | [_], _ => True
  | item :: next :: items, exec =>
    (behaviour item.command exec).1 = false ∧ item.separator ≠ .amp ∧
      Unbroken (next :: items) (behaviour item.command exec).2

/-- One node of a list -/
theorem runOver_cons (item : ListItem ε) (next : Option (Ast ε)) (exec : Executor (List (Ast ε) × σ)) :
    runOver (recorded behaviour) (.list item.command item.separator next) exec =
      let r := behaviour item.command exec.forget
      let exec' := r.2.note exec.world.1 item.command
      if r.1 then some (.failure, exec')
      else
        match next with
        | none => some (.success, exec')
        | some next => if item.separator ≠ .amp then runOver (recorded behaviour) next exec' else some (.success, exec') := by
  rw [runOver, runOver_command]
  cases hfails : (behaviour item.command exec.forget).1 with
  | true => simp [recorded, hfails]
  | false => simp [recorded, hfails]

variable {behaviour}

theorem note_record (exec : Executor σ) (record : List (Ast ε)) (command : Ast ε) :
    (exec.note record command).world.1 = record ++ [command] := rfl

theorem forget_note (exec : Executor σ) (record : List (Ast ε)) (command : Ast ε) :
    (exec.note record command).forget = exec := rfl

/-- Where the list is left, the commands behind are missing. -/
theorem ne_of_missing {record : List (Ast ε)} (item next : ListItem ε) (items : List (ListItem ε)) :
    record ++ [item.command] ≠ record ++ (item :: next :: items).map ListItem.command := by
  intro heq
  have hlen := congrArg List.length heq
  simp at hlen

theorem runsAll_cons_iff (item : ListItem ε) (items : List (ListItem ε)) (exec : Executor (List (Ast ε) × σ)) :
    RunsAll behaviour (item :: items) exec ↔ Unbroken behaviour (item :: items) exec.forget := by
  induction items generalizing item exec with
  | nil =>
    constructor
    · intro _
      trivial
    · intro _
      have hrun := runOver_cons behaviour item none exec
      dsimp only at hrun
      cases hfails : (behaviour item.command exec.forget).1 with
      | true =>
        rw [hfails, if_pos rfl] at hrun
        exact ⟨_, _, _, rfl, hrun, rfl⟩
      | false =>
        rw [hfails, if_neg Bool.false_ne_true] at hrun
        exact ⟨_, _, _, rfl, hrun, rfl⟩
  | cons next items ih =>
    have hrun := runOver_cons behaviour item (listAst (next :: items)) exec
    have hrecord : (exec.world.1 ++ [item.command]) ++ (next :: items).map ListItem.command =
        exec.world.1 ++ (item :: next :: items).map ListItem.command := List.append_assoc _ _ _
    have hrest := ih next ((behaviour item.command exec.forget).2.note exec.world.1 item.command)
    rw [forget_note] at hrest
    dsimp only at hrun
    constructor
    · rintro ⟨list, status, exec', hlist, hall, hworld⟩
      obtain rfl := Option.some.inj hlist
      rw [hrun] at hall
      cases hfails : (behaviour item.command exec.forget).1 with
      | true =>
        rw [hfails, if_pos rfl] at hall
        obtain ⟨-, rfl⟩ := Prod.mk.inj (Option.some.inj hall)
        exact absurd hworld (ne_of_missing item next items)
      | false =>
        rw [hfails, if_neg Bool.false_ne_true, listAst] at hall
        dsimp only at hall
        by_cases hamp : item.separator ≠ .amp
        · rw [if_pos hamp] at hall
          exact ⟨hfails, hamp, hrest.mp ⟨_, status, exec', rfl, hall, hworld.trans hrecord.symm⟩⟩
        · rw [if_neg hamp] at hall
          obtain ⟨-, rfl⟩ := Prod.mk.inj (Option.some.inj hall)
          exact absurd hworld (ne_of_missing item next items)
    · rintro ⟨hfails, hamp, hunbroken⟩
      obtain ⟨list, status, exec', hlist, hall, hworld⟩ := hrest.mpr hunbroken
      rw [hfails, if_neg Bool.false_ne_true, hlist] at hrun
      dsimp only at hrun
      rw [if_pos hamp, hall] at hrun
      refine ⟨_, status, exec', rfl, ?_, hworld.trans hrecord⟩
      rw [hlist]
      exact hrun

/-- The commands that are run are the first ones. -/
theorem runOver_first {items : List (ListItem ε)} {list : Ast ε} {exec exec' : Executor (List (Ast ε) × σ)}
    {status : ExecStatus} (hlist : listAst items = some list)
    (h : runOver (recorded behaviour) list exec = some (status, exec')) :
    ∃ k, exec'.world.1 = exec.world.1 ++ (items.take k).map ListItem.command := by
  induction items generalizing list exec with
  | nil => cases hlist
  | cons item items ih =>
    obtain rfl := Option.some.inj hlist
    rw [runOver_cons] at h
    dsimp only at h
    have hone : exec' = (behaviour item.command exec.forget).2.note exec.world.1 item.command →
        ∃ k, exec'.world.1 = exec.world.1 ++ ((item :: items).take k).map ListItem.command := by
      rintro rfl
      exact ⟨1, rfl⟩
    by_cases hfails : (behaviour item.command exec.forget).1 = true
    · rw [if_pos hfails] at h
      exact hone (Prod.mk.inj (Option.some.inj h)).2.symm
    rw [if_neg hfails] at h
    cases hnext : listAst items with
    | none =>
      rw [hnext] at h
      exact hone (Prod.mk.inj (Option.some.inj h)).2.symm
    | some next =>
      rw [hnext] at h
      dsimp only at h
      by_cases hamp : item.separator ≠ .amp
      · rw [if_pos hamp] at h
        obtain ⟨k, hk⟩ := ih hnext h
        refine ⟨k + 1, hk.trans ?_⟩
        rw [note_record, List.append_assoc, List.take_succ_cons, List.map_cons]
        rfl
      · rw [if_neg hamp] at h
        exact hone (Prod.mk.inj (Option.some.inj h)).2.symm

end

/-- Where the commands of a list return, `executor_run` runs the list over them. -/
theorem executorRun_listAst {shell : Shell ε σ} {command : Ast ε → Exec σ ExecStatus} {n : ℕ} {items : List (ListItem ε)}
    {list : Ast ε} (hlist : listAst items = some list)
    (h : ∀ item ∈ items, ∀ m ≥ n, executorRun shell m item.command = command item.command) :
    ∀ m ≥ n + items.length, executorRun shell m list = runOver command list := by
  induction items generalizing list with
  | nil => cases hlist
  | cons item items ih =>
    obtain rfl := Option.some.inj hlist
    intro m hm
    rw [List.length_cons] at hm
    have hpos : 1 ≤ m := by omega
    obtain ⟨m, rfl⟩ := Nat.exists_eq_add_of_le' hpos
    have hfirst : executorRun shell m item.command = runOver command item.command := by
      rw [runOver_command]
      exact h item List.mem_cons_self m (by omega)
    have hrest : ∀ next, listAst items = some next → executorRun shell m next = runOver command next := fun next hnext =>
      ih hnext (fun item hitem => h item (List.mem_cons_of_mem _ hitem)) m (by omega)
    rw [runOver_list]
    funext exec
    have hstep : executorRun shell (m + 1) (.list item.command item.separator (listAst items)) exec =
        execList (executorRun shell m) item.command item.separator (listAst items) exec := rfl
    rw [hstep, execList_apply, execList_apply, hfirst]
    refine congrArg (Option.bind (runOver command item.command exec)) (funext fun r => ?_)
    unfold thenRun
    cases hnext : listAst items with
    | none => simp
    | some next =>
      by_cases hamp : item.separator ≠ .amp
      · simp only [if_pos hamp, hrest next hnext]
      · simp only [if_neg hamp]

end ValidcTools.Sh23
