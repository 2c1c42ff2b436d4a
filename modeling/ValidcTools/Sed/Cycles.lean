import ValidcTools.Sed.Execution

/-! The cycles of `sed`, held against a machine without signals between its commands and its driver. -/
namespace ValidcTools.Sed

/-! ## The machine -/

/-- What a cycle comes to: the end of the script, `n`, `d` or `q` -/
inductive Outcome
  | ended
  | next
  | deleted
  | quit
deriving DecidableEq

/-- The next line becomes the pattern space. -/
def ExecState.readNext (st : ExecState) (line : List Byte) (lines : List (List Byte)) : ExecState :=
  { st with lineno := st.lineno + 1, ps := some line, isLast := decide (lines = []) }

/-- The next line is appended to the pattern space. -/
def ExecState.joinNext (st : ExecState) (line : List Byte) (lines : List (List Byte)) : ExecState :=
  { st with lineno := st.lineno + 1, ps := some (st.space ++ line), isLast := decide (lines = []) }

/-- A range ends after its command as the program has it. -/
def ExecState.endRange (st : ExecState) (i : ℕ) (c : SedCmd) : ExecState :=
  { st with cmds := st.cmds.set i (maybeEndRangeAfterLine st.isLast c st.space st.lineno) }

/-- The commands of a cycle from one on, with the lines that are left. After `n` the next line goes on with the
next command, or in a cycle of its own. -/
def commands (env : Env) (continues : Bool) : List ℕ → List (List Byte) → ExecState → Outcome × List (List Byte) × ExecState
  | [], lines, st => (.ended, lines, st)
  | i :: is, lines, st =>
    match st.cmds[i]? with
    | none => commands env continues is lines st
    | some c =>
      let r := applyAddresses st.isLast c st.space st.lineno
      let st := { st with cmds := st.cmds.set i r.2 }
      if r.1 = false then commands env continues is lines st
      else if c.action = .d then (.deleted, lines, st)
      else if c.action = .q then (.quit, lines, st)
      else if c.action = .n ∧ continues = false then (.next, lines, st)
      else if c.action = .n then
        match lines with
        | [] => (.quit, [], st)
        | line :: lines => commands env continues is lines (((st.autoPrint env).readNext line lines).endRange i r.2)
      else if c.action = .ncap then
        match lines with
        | [] => (.deleted, [], st)
        | line :: lines => commands env continues is lines ((st.joinNext line lines).endRange i r.2)
      else commands env continues is lines ((execAction env st c.action).2.endRange i r.2)

theorem length_commands_le (env : Env) (continues : Bool) (is : List ℕ) (lines : List (List Byte)) (st : ExecState) :
    (commands env continues is lines st).2.1.length ≤ lines.length := by
  induction is generalizing lines st with
  | nil => exact le_rfl
  | cons i is ih =>
    unfold commands
    split
    · exact ih lines st
    · dsimp only
      split_ifs
      · exact ih lines _
      · exact le_rfl
      · exact le_rfl
      · exact le_rfl
      · cases lines with
        | nil => exact le_rfl
        | cons line lines => exact (ih lines _).trans (Nat.le_succ _)
      · cases lines with
        | nil => exact le_rfl
        | cons line lines => exact (ih lines _).trans (Nat.le_succ _)
      · exact ih lines _

/-- A space that was output at the end of a cycle, before those of the cycles after it -/
def prependEnd (space : List Byte) (r : Bool × List (List Byte) × ExecState) : Bool × List (List Byte) × ExecState :=
  (r.1, space :: r.2.1, r.2.2)

/-- The cycles over the lines of a file: whether it was left by `q`, the spaces that were output at the end of a
cycle, and the state. -/
def cycles (env : Env) (continues : Bool) (lines : List (List Byte)) (st : ExecState) :
    Bool × List (List Byte) × ExecState :=
  match lines with
  | [] => (false, [], st)
  | line :: lines =>
    let r := commands env continues (List.range st.cmds.length) lines (st.readNext line lines)
    match r.1 with
    | .ended => prependEnd r.2.2.space (cycles env continues r.2.1 (r.2.2.autoPrint env))
    | .next => cycles env continues r.2.1 (r.2.2.autoPrint env)
    | .deleted => cycles env continues r.2.1 r.2.2
    | .quit => (true, [r.2.2.space], r.2.2.autoPrint env)
termination_by lines.length
decreasing_by all_goals exact Nat.lt_succ_of_le (length_commands_le env continues _ _ _)

/-- The cycles over files; what ends a cycle with output, and the state -/
def cyclesFiles (env : Env) (continues : Bool) : List (List (List Byte)) → ExecState → List (List Byte) × ExecState
  | [], st => ([], st)
  | lines :: files, st =>
    let r := cycles env continues lines st
    if r.1 then r.2
    else
      let r' := cyclesFiles env continues files r.2.2
      (r.2.1 ++ r'.1, r'.2)

/-! ## The commands of a cycle -/

/-- The program notes its turns, and that it is to quit. -/
def ExecState.noted (st : ExecState) (turns : List Turn) (quit : Bool) : ExecState :=
  { st with turns := turns, quitNow := quit }

theorem writeTo_noted (env : Env) (st : ExecState) (turns : List Turn) (quit : Bool) (name s : List Byte) :
    (st.noted turns quit).writeTo env name s = (st.writeTo env name s).noted turns quit := by
  unfold ExecState.writeTo ExecState.noted
  split_ifs <;> rfl

theorem autoPrint_noted (env : Env) (st : ExecState) (turns : List Turn) (quit : Bool) :
    (st.noted turns quit).autoPrint env = (st.autoPrint env).noted turns quit := by
  unfold ExecState.autoPrint
  split_ifs <;> rfl

/-- The commands that go on to the next one, on the line they are on -/
def Action.goesOn : Action → Bool
  | .d | .q | .n | .ncap | .dcap => false
  | _ => true

theorem execAction_goesOn {a : Action} (ha : a.goesOn = true) (env : Env) (st : ExecState) (turns : List Turn) (quit : Bool) :
    execAction env (st.noted turns quit) a = (.next, (execAction env st a).2.noted turns quit) := by
  cases a with
  | d => cases ha
  | q => cases ha
  | n => cases ha
  | ncap => cases ha
  | dcap => cases ha
  | w name => exact congrArg _ (writeTo_noted env st turns quit name _)
  | s pat repl occurrence print wfile => rw [execAction_s, execAction_s, ExecState.noted]; rfl
  | _ => rfl

theorem execAction_n (env : Env) (st : ExecState) (turns : List Turn) (quit : Bool) :
    execAction env (st.noted turns quit) .n = (.leave true, { (st.autoPrint env).noted turns quit with ps := none }) := by
  simp only [execAction, autoPrint_noted]

theorem writeTo_keeps (env : Env) (st : ExecState) (name s : List Byte) :
    (st.writeTo env name s).cmds = st.cmds ∧ (st.writeTo env name s).ps = st.ps := by
  unfold ExecState.writeTo
  split_ifs <;> exact ⟨rfl, rfl⟩

theorem execAction_keeps {a : Action} (ha : a.goesOn = true) (env : Env) (st : ExecState) :
    (execAction env st a).2.cmds = st.cmds ∧ (st.ps ≠ none → (execAction env st a).2.ps ≠ none) := by
  cases a with
  | d => cases ha
  | q => cases ha
  | n => cases ha
  | ncap => cases ha
  | dcap => cases ha
  | w name =>
    obtain ⟨hcmds, hps⟩ := writeTo_keeps env st name st.space
    exact ⟨hcmds, fun h => hps ▸ h⟩
  | s pat repl occurrence print wfile =>
    rw [execAction_s]
    exact ⟨rfl, fun _ => Option.some_ne_none _⟩
  | c => exact ⟨rfl, fun _ => Option.some_ne_none _⟩
  | y => exact ⟨rfl, fun _ => Option.some_ne_none _⟩
  | g => exact ⟨rfl, fun _ => Option.some_ne_none _⟩
  | gapp => exact ⟨rfl, fun _ => Option.some_ne_none _⟩
  | x => exact ⟨rfl, fun _ => Option.some_ne_none _⟩
  | _ => exact ⟨rfl, id⟩

/-- Neither addresses nor ranges change what a command does. -/
theorem action_applyAddresses (isLast : Bool) (c : SedCmd) (ps : List Byte) (lineno : ℕ) :
    (applyAddresses isLast c ps lineno).2.action = c.action := by
  unfold applyAddresses
  split <;> rfl

theorem action_maybeEnd {isLast : Bool} {c : SedCmd} {ps : List Byte} {lineno : ℕ} :
    (maybeEndRangeAfterLine isLast c ps lineno).action = c.action := by
  unfold maybeEndRangeAfterLine
  split
  · split_ifs <;> rfl
  · rfl

/-- No `D` and no `N` -/
def StaysOnLine (cmds : List SedCmd) : Prop := ∀ c ∈ cmds, c.action ≠ .dcap ∧ c.action ≠ .ncap

theorem StaysOnLine.set {cmds : List SedCmd} (h : StaysOnLine cmds) {i : ℕ} {c c' : SedCmd} (hc : cmds[i]? = some c)
    (hact : c'.action = c.action) : StaysOnLine (cmds.set i c') := by
  intro x hx
  obtain hx | rfl := List.mem_or_eq_of_mem_set hx
  · exact h x hx
  · exact hact ▸ h c (List.mem_of_getElem? hc)

theorem goesOn_of_ne {a : Action} (hd : a ≠ .d) (hq : a ≠ .q) (hn : a ≠ .n) (hN : a ≠ .ncap) (hD : a ≠ .dcap) :
    a.goesOn = true := by
  cases a with
  | d => exact absurd rfl hd
  | q => exact absurd rfl hq
  | n => exact absurd rfl hn
  | ncap => exact absurd rfl hN
  | dcap => exact absurd rfl hD
  | _ => rfl

theorem getElem?_set_of_getElem? {α : Type} {l : List α} {i : ℕ} {x y : α} (h : l[i]? = some x) :
    (l.set i y)[i]? = some y := by
  obtain ⟨hi, -⟩ := List.getElem?_eq_some_iff.mp h
  rw [List.getElem?_set_self hi]

/-- How the end of the commands is told to the driver -/
def Signals (r : Outcome × List (List Byte) × ExecState) (env : Env) (e : Option Bool × ExecState) : Prop :=
  ∃ turns, match r.1 with
    | .ended => e = (some true, r.2.2.noted turns false) ∧ r.2.2.ps ≠ none
    | .next => e = (some true, { (r.2.2.autoPrint env).noted turns false with ps := none })
    | .deleted => e = (some false, r.2.2.noted turns false)
    | .quit => e = (some true, r.2.2.noted turns true) ∧ r.2.2.ps ≠ none

theorem execFrom_commands (env : Env) (restart : ExecState → Option Bool × ExecState) (is : List ℕ) (lines : List (List Byte))
    {m : ExecState} (hps : m.ps ≠ none) (hstays : StaysOnLine m.cmds) (turns : List Turn) :
    Signals (commands env false is lines m) env (execFrom env restart is (m.noted turns false)) ∧
      (commands env false is lines m).2.1 = lines ∧ StaysOnLine (commands env false is lines m).2.2.cmds := by
  induction is generalizing m turns with
  | nil => exact ⟨⟨turns, rfl, hps⟩, rfl, hstays⟩
  | cons i is ih =>
    unfold commands execFrom
    cases hc : m.cmds[i]? with
    | none =>
      have hturn : turn env i (m.noted turns false) = (.next, m.noted turns false) := turn_none env hc
      rw [hturn]
      exact ih hps hstays turns
    | some c =>
      obtain ⟨applied, c', hr⟩ : ∃ applied c', applyAddresses m.isLast c m.space m.lineno = (applied, c') := ⟨_, _, rfl⟩
      have hact : c'.action = c.action := by
        have hact := action_applyAddresses m.isLast c m.space m.lineno
        rwa [hr] at hact
      have hstays' : StaysOnLine (m.cmds.set i c') := hstays.set hc hact
      obtain ⟨hD, hN⟩ := hstays c (List.mem_of_getElem? hc)
      have hc : (m.noted turns false).cmds[i]? = some c := hc
      cases applied with
      | false =>
        rw [turn_skipped hc hr]
        simp only [hr, if_true]
        exact ih (m := { m with cmds := m.cmds.set i c' }) hps hstays' _
      | true =>
        simp only [hr, Bool.true_eq_false, if_false]
        by_cases hd : c.action = .d
        · rw [turn_leave hc hr (by rw [hd]; rfl), if_pos hd]
          exact ⟨⟨_, rfl⟩, rfl, hstays'⟩
        by_cases hq : c.action = .q
        · rw [turn_leave hc hr (by rw [hq]; rfl), if_neg hd, if_pos hq]
          exact ⟨⟨_, rfl, hps⟩, rfl, hstays'⟩
        by_cases hn : c.action = .n
        · have he : execAction env { m.noted turns false with cmds := m.cmds.set i c' } c.action =
              (.leave true, { (({ m with cmds := m.cmds.set i c' } : ExecState).autoPrint env).noted turns false with
                ps := none }) := by
            rw [hn]
            exact execAction_n env { m with cmds := m.cmds.set i c' } turns false
          rw [turn_leave hc hr he, if_neg hd, if_neg hq, if_pos ⟨hn, trivial⟩]
          exact ⟨⟨_, rfl⟩, rfl, hstays'⟩
        · have hgoes : c.action.goesOn = true := goesOn_of_ne hd hq hn hN hD
          rw [if_neg hd, if_neg hq, if_neg fun h => hn h.1, if_neg hn, if_neg hN]
          have he := execAction_goesOn hgoes env { m with cmds := m.cmds.set i c' } turns false
          obtain ⟨hcmds, hps'⟩ := execAction_keeps hgoes env { m with cmds := m.cmds.set i c' }
          rw [turn_next hc hr he]
          refine ih (m := (execAction env { m with cmds := m.cmds.set i c' } c.action).2.endRange i c') (hps' hps) ?_ _
          have hget : (execAction env { m with cmds := m.cmds.set i c' } c.action).2.cmds[i]? = some c' := by
            rw [hcmds]
            exact getElem?_set_of_getElem? hc
          exact StaysOnLine.set (hcmds ▸ hstays') hget action_maybeEnd

/-! ## The driver -/

/-- Between two cycles the pattern space is not looked at again. -/
def Core (st m : ExecState) (quit : Bool) : Prop :=
  ∃ turns ps isLast, st = { m.noted turns quit with ps := ps, isLast := isLast }

theorem core_noted (m : ExecState) (turns : List Turn) (quit : Bool) : Core (m.noted turns quit) m quit :=
  ⟨turns, m.ps, m.isLast, rfl⟩

/-- The state after a cycle -/
def afterCycle (env : Env) (r : Outcome × List (List Byte) × ExecState) : ExecState :=
  if r.1 = .deleted then r.2.2 else r.2.2.autoPrint env

theorem autoPrint_cmds (env : Env) (st : ExecState) : (st.autoPrint env).cmds = st.cmds := by
  unfold ExecState.autoPrint
  split_ifs <;> rfl

theorem afterCycle_cmds (env : Env) (r : Outcome × List (List Byte) × ExecState) : (afterCycle env r).cmds = r.2.2.cmds := by
  unfold afterCycle
  split_ifs
  · rfl
  · exact autoPrint_cmds env _

theorem cycles_cons (env : Env) (line : List Byte) (lines : List (List Byte)) (m : ExecState) :
    cycles env false (line :: lines) m =
      let r := commands env false (List.range m.cmds.length) lines (m.readNext line lines)
      if r.1 = .quit then (true, [r.2.2.space], afterCycle env r)
      else if r.1 = .ended then prependEnd r.2.2.space (cycles env false r.2.1 (afterCycle env r))
      else cycles env false r.2.1 (afterCycle env r) := by
  rw [cycles]
  generalize commands env false (List.range m.cmds.length) lines (m.readNext line lines) = r
  obtain ⟨outcome, lines, st⟩ := r
  cases outcome <;> simp [afterCycle]

theorem endCycle_noted (env : Env) {m : ExecState} (hmark : m.space.getLast? ≠ some 1) (rest : List Byte)
    (turns : List Turn) (quit : Bool) :
    endCycle env rest (m.noted turns quit) = (if quit then some .quit else none, rest, (m.autoPrint env).noted turns quit) := by
  have hnext : appendNext rest (m.noted turns quit) = (rest, m.noted turns quit) := if_neg hmark
  simp only [endCycle, hnext, autoPrint_noted]
  rfl

/-- After `n` there is no pattern space to output. -/
theorem endCycle_none (env : Env) {st : ExecState} (hps : st.ps = none) (hquit : st.quitNow = false) (rest : List Byte) :
    endCycle env rest st = (none, rest, st) := by
  have hspace : st.space = [] := by rw [ExecState.space, hps]; rfl
  have hnext : appendNext rest st = (rest, st) := if_neg (by simp [hspace])
  have hprint : st.autoPrint env = st := by
    unfold ExecState.autoPrint ExecState.print
    rw [hspace, List.append_nil]
    split_ifs <;> rfl
  simp only [endCycle, hnext, hquit, hprint, Bool.false_eq_true, if_false]

theorem flatten_eq_nil_iff {lines : List (List Byte)} (h : Lines lines) : lines.flatten = [] ↔ lines = [] := by
  cases lines with
  | nil => exact iff_of_true rfl rfl
  | cons line lines => exact iff_of_false (by simp [h.1.ne]) (List.cons_ne_nil _ _)

section
variable {env : Env} {line : List Byte} {lines : List (List Byte)} (hlines : Lines (line :: lines)) {m : ExecState}
  (hstays : StaysOnLine m.cmds) {st : ExecState} (hcore : Core st m false)
include hlines hstays hcore

/-- The commands on a line that was read, and what they tell the driver -/
theorem onLine_commands (fuel : ℕ) :
    ∃ e, Signals (commands env false (List.range m.cmds.length) lines (m.readNext line lines)) env e ∧
      (commands env false (List.range m.cmds.length) lines (m.readNext line lines)).2.1 = lines ∧
      StaysOnLine (commands env false (List.range m.cmds.length) lines (m.readNext line lines)).2.2.cmds ∧
      execCmdsOnLine env (fuel + 1)
        { st with lineno := st.lineno + 1, ps := some line, isLast := decide (lines.flatten = []) } = e := by
  obtain ⟨turns, ps, isLast, rfl⟩ := hcore
  have hlast : decide (lines.flatten = []) = decide (lines = []) := decide_eq_decide.mpr (flatten_eq_nil_iff hlines.2.2.2)
  obtain ⟨hsignals, hrest, hstays'⟩ := execFrom_commands env (execCmdsOnLine env fuel)
    (List.range m.cmds.length) lines (m := m.readNext line lines) (Option.some_ne_none _) hstays turns
  rw [hlast]
  exact ⟨_, hsignals, hrest, hstays', rfl⟩

/-- A cycle that is not followed by the line after an `n` -/
theorem onLine_endCycle (fuel : ℕ)
    (hmark : ∀ r, r = commands env false (List.range m.cmds.length) lines (m.readNext line lines) →
      r.1 = .ended ∨ r.1 = .quit → r.2.2.space.getLast? ≠ some 1) :
    ∃ r, r = commands env false (List.range m.cmds.length) lines (m.readNext line lines) ∧
      ∃ st', onLine env (fuel + 1) (endCycle env) lines.flatten { st with lineno := st.lineno + 1, ps := some line } =
          (if r.1 = .quit then some .quit else none, lines.flatten, st') ∧
        Core st' (afterCycle env r) (decide (r.1 = .quit)) := by
  obtain ⟨e, hsignals, -, -, he⟩ := onLine_commands hlines hstays hcore fuel
  refine ⟨_, rfl, ?_⟩
  have hmark := hmark _ rfl
  generalize commands env false (List.range m.cmds.length) lines (m.readNext line lines) = r at hsignals hmark ⊢
  obtain ⟨outcome, rest, s⟩ := r
  obtain ⟨turns, hsignals⟩ := hsignals
  cases outcome with
  | ended =>
    obtain ⟨rfl, -⟩ := hsignals
    exact ⟨_, by simp only [onLine, he, endCycle_noted env (hmark (.inl rfl))]; rfl, core_noted _ turns false⟩
  | next =>
    obtain rfl := hsignals
    refine ⟨_, ?_, turns, none, (s.autoPrint env).isLast, rfl⟩
    simp only [onLine, he]
    exact endCycle_none env rfl rfl _
  | deleted =>
    obtain rfl := hsignals
    exact ⟨_, by simp only [onLine, he]; rfl, core_noted s turns false⟩
  | quit =>
    obtain ⟨rfl, -⟩ := hsignals
    exact ⟨_, by simp only [onLine, he, endCycle_noted env (hmark (.inr rfl))]; rfl, core_noted _ turns true⟩

/-- A cycle of the program: that of one line, or after an `n` what comes of the next one. -/
theorem cycle_commands (fuel : ℕ)
    (hmark : ∀ r, r = commands env false (List.range m.cmds.length) lines (m.readNext line lines) →
      r.1 = .ended ∨ r.1 = .quit → r.2.2.space.getLast? ≠ some 1) :
    ∃ r, r = commands env false (List.range m.cmds.length) lines (m.readNext line lines) ∧
      ∃ st', cycle env (fuel + 1) (line :: lines).flatten st =
          (if r.1 = .next then afterN env (fuel + 1) lines.flatten st'
          else (if r.1 = .quit then some .quit else none, lines.flatten, st')) ∧
        Core st' (afterCycle env r) (decide (r.1 = .quit)) := by
  obtain ⟨e, hsignals, -, -, he⟩ := onLine_commands hlines hstays hcore fuel
  refine ⟨_, rfl, ?_⟩
  have hmark := hmark _ rfl
  generalize commands env false (List.range m.cmds.length) lines (m.readNext line lines) = r at hsignals hmark ⊢
  obtain ⟨outcome, rest, s⟩ := r
  obtain ⟨turns, hsignals⟩ := hsignals
  cases outcome with
  | ended =>
    obtain ⟨rfl, hps⟩ := hsignals
    refine ⟨_, ?_, core_noted _ turns false⟩
    simp only [cycle, readLine_lines hlines, onLine, he]
    rw [if_neg (show (s.noted turns false).ps ≠ none from hps), endCycle_noted env (hmark (.inl rfl))]
    rfl
  | next =>
    obtain rfl := hsignals
    refine ⟨_, ?_, turns, none, (s.autoPrint env).isLast, rfl⟩
    simp only [cycle, readLine_lines hlines, onLine, he]
    rfl
  | deleted =>
    obtain rfl := hsignals
    refine ⟨_, ?_, core_noted s turns false⟩
    simp only [cycle, readLine_lines hlines, onLine, he]
    rfl
  | quit =>
    obtain ⟨rfl, hps⟩ := hsignals
    refine ⟨_, ?_, core_noted _ turns true⟩
    simp only [cycle, readLine_lines hlines, onLine, he]
    rw [if_neg (show (s.noted turns true).ps ≠ none from hps), endCycle_noted env (hmark (.inr rfl))]
    rfl

end

/-- What is to hold of a run over a file -/
def Follows (env : Env) (lines : List (List Byte)) (m : ExecState) (e : Stop × ExecState) : Prop :=
  e.1 = (if (cycles env false lines m).1 then .quit else .eof) ∧
    Core e.2 (cycles env false lines m).2.2 (cycles env false lines m).1 ∧
    StaysOnLine (cycles env false lines m).2.2.cmds

section
variable {env : Env} {line : List Byte} {lines : List (List Byte)} {m : ExecState} {r : Outcome × List (List Byte) × ExecState}
  (hr : r = commands env false (List.range m.cmds.length) lines (m.readNext line lines)) (hrest : r.2.1 = lines)
include hr hrest

theorem cycles_of_outcome :
    cycles env false (line :: lines) m =
      if r.1 = .quit then (true, [r.2.2.space], afterCycle env r)
      else if r.1 = .ended then prependEnd r.2.2.space (cycles env false lines (afterCycle env r))
      else cycles env false lines (afterCycle env r) := by
  rw [cycles_cons]
  dsimp only
  rw [← hr, hrest]

/-- What holds of the spaces that are output holds of that of the first cycle, and of those after it. -/
theorem ends_cons {P : List Byte → Prop} (h : ∀ s ∈ (cycles env false (line :: lines) m).2.1, P s) :
    (r.1 = .ended ∨ r.1 = .quit → P r.2.2.space) ∧
      (r.1 ≠ .quit → ∀ s ∈ (cycles env false lines (afterCycle env r)).2.1, P s) := by
  rw [cycles_of_outcome hr hrest] at h
  split_ifs at h with hq he
  · exact ⟨fun _ => h _ List.mem_cons_self, fun hne => absurd hq hne⟩
  · exact ⟨fun _ => h _ List.mem_cons_self, fun _ s hs => h s (List.mem_cons_of_mem _ hs)⟩
  · exact ⟨fun hor => absurd hor (not_or.mpr ⟨he, hq⟩), fun _ => h⟩

theorem follows_cons (hq : r.1 ≠ .quit) {e : Stop × ExecState} (h : Follows env lines (afterCycle env r) e) :
    Follows env (line :: lines) m e := by
  rw [Follows, cycles_of_outcome hr hrest, if_neg hq]
  by_cases he : r.1 = .ended
  · rw [if_pos he]
    exact h
  · rw [if_neg he]
    exact h

theorem follows_quit (hq : r.1 = .quit) (hstays : StaysOnLine r.2.2.cmds) {st : ExecState}
    (hcore : Core st (afterCycle env r) true) : Follows env (line :: lines) m (.quit, st) := by
  rw [Follows, cycles_of_outcome hr hrest, if_pos hq]
  exact ⟨rfl, hcore, (afterCycle_cmds env r).symm ▸ hstays⟩

end

theorem afterN_lines (env : Env) (fuel : ℕ) {line : List Byte} {lines : List (List Byte)} (h : Lines (line :: lines))
    {st : ExecState} (hquit : st.quitNow = false) :
    afterN env fuel (line :: lines).flatten st =
      onLine env fuel (endCycle env) lines.flatten { st with lineno := st.lineno + 1, ps := some line } := by
  have hread := readLine_lines h st
  obtain ⟨c, s, hc⟩ := List.exists_cons_of_ne_nil (mt (flatten_eq_nil_iff h).mp (List.cons_ne_nil line lines))
  rw [hc] at hread ⊢
  unfold afterN
  simp only [hread, hquit, Bool.false_eq_true, if_false]

theorem processFile_cycles {env : Env} (fuel : ℕ) {lines : List (List Byte)} (hlines : Lines lines) {m : ExecState}
    (hstays : StaysOnLine m.cmds) {st : ExecState} (hcore : Core st m false)
    (hmark : ∀ s ∈ (cycles env false lines m).2.1, s.getLast? ≠ some 1) :
    Follows env lines m (processFile env (fuel + 1) lines.flatten st) := by
  induction hn : lines.length using Nat.strong_induction_on generalizing lines m st with
  | _ n ih =>
    subst hn
    cases lines with
    | nil =>
      rw [List.flatten_nil, processFile, Follows, cycles]
      exact ⟨rfl, hcore, hstays⟩
    | cons line lines =>
      obtain ⟨-, -, hrest, hstays', -⟩ := onLine_commands hlines hstays hcore fuel
      obtain ⟨r, hr, st', hcycle, hcore'⟩ := cycle_commands hlines hstays hcore fuel fun r hr => by
        subst hr
        exact (ends_cons rfl hrest hmark).1
      rw [← hr] at hrest hstays'
      have hmark' := (ends_cons hr hrest hmark).2
      have hafter : StaysOnLine (afterCycle env r).cmds := (afterCycle_cmds env r).symm ▸ hstays'
      rw [processFile_lines env _ hlines, hcycle]
      by_cases hnext : r.1 = .next
      · have hq : r.1 ≠ .quit := by simp [hnext]
        rw [if_pos hnext]
        refine follows_cons hr hrest hq ?_
        rw [decide_eq_false hq] at hcore'
        have hlines' := hlines.2.2.2
        cases lines with
        | nil =>
          have hend : Follows env [] (afterCycle env r) (.eof, st') := by
            rw [Follows, cycles]
            exact ⟨rfl, hcore', hafter⟩
          exact hend
        | cons line' lines =>
          have hquit : st'.quitNow = false := by
            obtain ⟨turns, ps, isLast, rfl⟩ := hcore'
            rfl
          obtain ⟨-, -, hrest₂, hstays₂, -⟩ := onLine_commands hlines' hafter hcore' fuel
          obtain ⟨r₂, hr₂, st₂, hline, hcore₂⟩ := onLine_endCycle hlines' hafter hcore' fuel fun r hr => by
            subst hr
            exact (ends_cons rfl hrest₂ (hmark' hq)).1
          rw [← hr₂] at hrest₂ hstays₂
          have hafter₂ : StaysOnLine (afterCycle env r₂).cmds := (afterCycle_cmds env r₂).symm ▸ hstays₂
          rw [afterN_lines env _ hlines' hquit, hline]
          by_cases hq₂ : r₂.1 = .quit
          · rw [if_pos hq₂]
            exact follows_quit hr₂ hrest₂ hq₂ hstays₂ (by rwa [decide_eq_true hq₂] at hcore₂)
          · rw [if_neg hq₂]
            rw [decide_eq_false hq₂] at hcore₂
            have hlt : lines.length < (line :: line' :: lines).length := by simp
            exact follows_cons hr₂ hrest₂ hq₂
              (ih _ hlt hlines'.2.2.2 hafter₂ hcore₂ ((ends_cons hr₂ hrest₂ (hmark' hq)).2 hq₂) rfl)
      · rw [if_neg hnext]
        by_cases hq : r.1 = .quit
        · rw [if_pos hq]
          exact follows_quit hr hrest hq hstays' (by rwa [decide_eq_true hq] at hcore')
        · rw [if_neg hq]
          rw [decide_eq_false hq] at hcore'
          exact follows_cons hr hrest hq (ih _ (Nat.lt_succ_self _) hlines.2.2.2 hafter hcore' (hmark' hq) rfl)

theorem processFiles_cycles {env : Env} (fuel : ℕ) {files : List (List (List Byte))} (hfiles : ∀ lines ∈ files, Lines lines)
    {m : ExecState} (hstays : StaysOnLine m.cmds) {st : ExecState} (hcore : Core st m false)
    (hmark : ∀ s ∈ (cyclesFiles env false files m).1, s.getLast? ≠ some 1) :
    ∃ st' quit, processFiles env (fuel + 1) (files.map fun lines => some lines.flatten) st = (some true, st') ∧
      Core st' (cyclesFiles env false files m).2 quit := by
  induction files generalizing m st with
  | nil => exact ⟨st, false, rfl, hcore⟩
  | cons lines files ih =>
    rw [cyclesFiles] at hmark ⊢
    have hlines := hfiles lines List.mem_cons_self
    rw [List.map_cons, processFiles]
    dsimp only at hmark ⊢
    cases hq : (cycles env false lines m).1 with
    | true =>
      rw [hq, if_pos rfl] at hmark
      obtain ⟨hstop, hcore', -⟩ := processFile_cycles fuel hlines hstays hcore hmark
      rw [hq, if_pos rfl] at hstop
      generalize processFile env (fuel + 1) lines.flatten st = e at hstop hcore' ⊢
      obtain ⟨stop, st'⟩ := e
      obtain rfl : stop = .quit := hstop
      rw [if_pos rfl]
      exact ⟨st', _, rfl, hcore'⟩
    | false =>
      rw [hq, if_neg Bool.false_ne_true] at hmark
      obtain ⟨hstop, hcore', hstays'⟩ := processFile_cycles fuel hlines hstays hcore
        fun s hs => hmark s (List.mem_append_left _ hs)
      rw [hq, if_neg Bool.false_ne_true] at hstop
      rw [hq] at hcore'
      generalize processFile env (fuel + 1) lines.flatten st = e at hstop hcore' ⊢
      obtain ⟨stop, st'⟩ := e
      obtain rfl : stop = .eof := hstop
      rw [if_neg Bool.false_ne_true]
      exact ih (fun l hl => hfiles l (List.mem_cons_of_mem _ hl)) hstays' hcore' fun s hs => hmark s (List.mem_append_right _ hs)

/-- Without `D` and `N` a run of `sed` is that of the cycles in which `n` leaves its next line to a new cycle, where
no space that is output at the end of a cycle ends in the byte 1. -/
theorem run_eq_cycles (env : Env) (fuel : ℕ) (script : List SedCmd) (hscript : StaysOnLine script)
    (files : List (List (List Byte))) (hfiles : ∀ lines ∈ files, Lines lines)
    (hmark : ∀ s ∈ (cyclesFiles env false files (.init script)).1, s.getLast? ≠ some 1) :
    ∃ st, processFiles env (fuel + 1) (files.map fun lines => some lines.flatten) (.init script) = (some true, st) ∧
      st.out = (cyclesFiles env false files (.init script)).2.out ∧
      st.written = (cyclesFiles env false files (.init script)).2.written := by
  obtain ⟨st, quit, hrun, turns, ps, isLast, rfl⟩ := processFiles_cycles fuel hfiles (m := .init script) hscript
    ⟨[], none, false, rfl⟩ hmark
  exact ⟨_, hrun, rfl, rfl⟩

theorem run_eq_cycles_next : ∃ st,
    processFiles ⟨true, fun _ => none, fun _ => false⟩ 1 [some [( 'a' : Byte), '\n', 'b']]
        (.init [⟨none, none, false, .n⟩, ⟨none, none, false, .p⟩]) = (some true, st) ∧
      st.out = [( 'a' : Byte), '\n', 'b'] ∧ st.written = [] := by
  have hscript : StaysOnLine [⟨none, none, false, .n⟩, ⟨none, none, false, .p⟩] := by
    intro c hc
    simp only [List.mem_cons, List.not_mem_nil, or_false] at hc
    obtain rfl | rfl := hc <;> exact ⟨by decide, by decide⟩
  have hlines : Lines [[( 'a' : Byte), '\n'], [( 'b' : Byte)]] :=
    ⟨⟨by decide, by decide +kernel, by decide⟩, by simp [MAX_LINE], by decide,
      ⟨by decide, by decide +kernel, by decide⟩, by simp [MAX_LINE], by decide, trivial⟩
  obtain ⟨st, hrun, hout, hwritten⟩ := run_eq_cycles ⟨true, fun _ => none, fun _ => false⟩ 0 _ hscript
    [[[( 'a' : Byte), '\n'], [( 'b' : Byte)]]] (by simpa using hlines) (by decide +kernel)
  exact ⟨st, hrun, hout.trans (by decide +kernel), hwritten.trans (by decide +kernel)⟩

/-- After `n` the command after it comes too late. -/
theorem nextDelete_not_posix :
    (processFiles ⟨true, fun _ => none, fun _ => false⟩ 1 [some [( 'a' : Byte), '\n', 'b', '\n']]
        (.init [⟨none, none, false, .n⟩, ⟨none, none, false, .d⟩])).2.out = [( 'a' : Byte), '\n', 'b', '\n'] ∧
      (cyclesFiles ⟨true, fun _ => none, fun _ => false⟩ true [[[( 'a' : Byte), '\n'], [( 'b' : Byte), '\n']]]
        (.init [⟨none, none, false, .n⟩, ⟨none, none, false, .d⟩])).2.out = [( 'a' : Byte), '\n'] := by
  refine ⟨?_, ?_⟩
  · decide +kernel
  · decide +kernel

end ValidcTools.Sed
