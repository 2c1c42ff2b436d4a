import ValidcTools.Sed.Execution

/-! The pattern and the hold space of `sed`, held against those of POSIX. -/
namespace ValidcTools.Sed

/-! ## The spaces of POSIX -/

/-- The spaces hold lines without their newlines. -/
structure Spaces where
  pattern : List Byte
  hold : List Byte
  lineno : ℕ
  out : List Byte

namespace Spaces

/-- A print adds a newline. -/
def print (m : Spaces) (s : List Byte) : Spaces := { m with out := m.out ++ (s ++ [( '\n' : Byte)]) }

def exec (m : Spaces) : Action → Spaces
  | .p => m.print m.pattern
  | .pcap => m.print (m.pattern.takeWhile fun c => decide (c ≠ '\n'))
  | .l => m.print (m.pattern.flatMap visible ++ [( '$' : Byte)])
  | .y src dst => { m with pattern := m.pattern.map (translit src dst) }
  | .eq => m.print (number m.lineno)
  | .h => { m with hold := m.pattern }
  | .happ => { m with hold := m.hold ++ ( '\n' : Byte) :: m.pattern }
  | .g => { m with pattern := m.hold }
  | .gapp => { m with pattern := m.pattern ++ ( '\n' : Byte) :: m.hold }
  | .x => { m with pattern := m.hold, hold := m.pattern }
  | _ => m

/-- The end of a cycle -/
def finish (autoPrint : Bool) (m : Spaces) : Spaces := if autoPrint then m.print m.pattern else m

def cycle (autoPrint : Bool) (actions : List Action) (m : Spaces) (line : List Byte) : Spaces :=
  finish autoPrint (actions.foldl exec { m with pattern := line, lineno := m.lineno + 1 })

def run (autoPrint : Bool) (actions : List Action) (lines : List (List Byte)) : Spaces :=
  lines.foldl (cycle autoPrint actions) ⟨[], [], 0, []⟩

end Spaces

/-! ## Scripts and lines -/

/-- The commands that print, change or exchange the spaces, and change nothing else -/
def Action.isSpaceCommand : Action → Bool
  | .p | .pcap | .l | .y .. | .eq | .h | .happ | .g | .gapp | .x => true
  | _ => false

/-- The hold space is used, or set. -/
def Action.usesHold : Action → Bool
  | .h | .happ | .g | .gapp | .x => true
  | _ => false

/-- Such commands, without addresses -/
structure SpaceScript where
  actions : List Action
  only : ∀ a ∈ actions, a.isSpaceCommand = true

def SpaceScript.cmds (s : SpaceScript) : List SedCmd := s.actions.map fun a => ⟨none, none, false, a⟩

/-- A line that fits the buffer with its newline -/
structure ShortLine where
  bytes : List Byte
  newline : ('\n' : Byte) ∉ bytes
  nul : (0 : Byte) ∉ bytes
  fits : bytes.length + 1 < MAX_LINE

def fileText (lines : List ShortLine) : List Byte := lines.flatMap fun l => l.bytes ++ [( '\n' : Byte)]

/-- No `l`, no `y` that changes newlines, and an `h` before the hold space is used. -/
structure Plain (actions : List Action) : Prop where
  noL : Action.l ∉ actions
  newline : ∀ src dst, Action.y src dst ∈ actions → translit src dst '\n' = '\n'
  hold : ∀ a ∈ actions.find? Action.usesHold, a = .h

/-! ## One command -/

/-- Both spaces of the program end in a newline; the hold space may still be missing. -/
structure Represents (st : ExecState) (m : Spaces) : Prop where
  ps : st.ps = some (m.pattern ++ [( '\n' : Byte)])
  hs : st.hs = some (m.hold ++ [( '\n' : Byte)]) ∨ st.hs = none ∧ m.hold = []
  lineno : st.lineno = m.lineno
  out : st.out = m.out
  quitNow : st.quitNow = false

theorem Represents.space {st : ExecState} {m : Spaces} (h : Represents st m) : st.space = m.pattern ++ [( '\n' : Byte)] := by
  rw [ExecState.space, h.ps]
  rfl

theorem Represents.print {st : ExecState} {m : Spaces} (h : Represents st m) (s : List Byte) :
    Represents (st.print (s ++ [( '\n' : Byte)])) (m.print s) :=
  ⟨h.ps, h.hs, h.lineno, congrArg (· ++ (s ++ [( '\n' : Byte)])) h.out, h.quitNow⟩

theorem firstLine_newline (s : List Byte) :
    firstLine (s ++ [( '\n' : Byte)]) = (s.takeWhile fun c : Byte => decide (c ≠ '\n')) ++ [( '\n' : Byte)] := by
  have hafter : (afterNewline (s ++ [( '\n' : Byte)])).isSome = true := by
    unfold afterNewline
    split
    · next h => simpa using List.dropWhile_eq_nil_iff.mp h '\n' (by simp)
    · rfl
  rw [firstLine, hafter, if_pos rfl, List.takeWhile_append]
  split_ifs with hs
  · rw [(List.takeWhile_prefix fun c : Byte => decide (c ≠ '\n')).eq_of_length hs]
    simp
  · rfl

theorem execAction_represents (env : Env) {st : ExecState} {m : Spaces} (h : Represents st m) {a : Action}
    (ha : a.isSpaceCommand = true) (hl : a ≠ .l) (hy : ∀ src dst, a = .y src dst → translit src dst '\n' = '\n')
    (hhold : st.hs = none → a.usesHold = true → a = .h) :
    (execAction env st a).1 = .next ∧ Represents (execAction env st a).2 (m.exec a) ∧
      ((execAction env st a).2.hs = none → st.hs = none ∧ a.usesHold = false) ∧
      (execAction env st a).2.cmds = st.cmds := by
  have hspace := h.space
  have hset (hu : a.usesHold = true) (hne : a ≠ .h) : st.hs = some (m.hold ++ [( '\n' : Byte)]) :=
    h.hs.resolve_right fun hn => hne (hhold hn.1 hu)
  cases a with
  | p =>
    refine ⟨rfl, ?_, fun hn => ⟨hn, rfl⟩, rfl⟩
    change Represents (st.print st.space) _
    exact hspace ▸ h.print m.pattern
  | pcap =>
    refine ⟨rfl, ?_, fun hn => ⟨hn, rfl⟩, rfl⟩
    change Represents (st.print (firstLine st.space)) _
    rw [hspace, firstLine_newline]
    exact h.print _
  | eq =>
    refine ⟨rfl, ?_, fun hn => ⟨hn, rfl⟩, rfl⟩
    change Represents (st.print (number st.lineno ++ [( '\n' : Byte)])) _
    exact h.lineno ▸ h.print (number m.lineno)
  | y src dst =>
    refine ⟨rfl, ⟨?_, h.hs, h.lineno, h.out, h.quitNow⟩, fun hn => ⟨hn, rfl⟩, rfl⟩
    simp [execAction, Spaces.exec, hspace, hy src dst rfl]
  | h =>
    refine ⟨rfl, ⟨h.ps, .inl ?_, h.lineno, h.out, h.quitNow⟩, fun hn => (by cases hn), rfl⟩
    simp [execAction, Spaces.exec, hspace]
  | happ =>
    refine ⟨rfl, ⟨h.ps, .inl ?_, h.lineno, h.out, h.quitNow⟩, fun hn => (by cases hn), rfl⟩
    simp [execAction, Spaces.exec, hspace, hset rfl Action.noConfusion]
  | g =>
    have hh := hset rfl Action.noConfusion
    refine ⟨rfl, ⟨?_, h.hs, h.lineno, h.out, h.quitNow⟩, fun hn => absurd (hh.symm.trans hn) (Option.some_ne_none _), rfl⟩
    simp [execAction, Spaces.exec, hh]
  | gapp =>
    have hh := hset rfl Action.noConfusion
    refine ⟨rfl, ⟨?_, h.hs, h.lineno, h.out, h.quitNow⟩, fun hn => absurd (hh.symm.trans hn) (Option.some_ne_none _), rfl⟩
    simp [execAction, Spaces.exec, hspace, hh]
  | x =>
    refine ⟨rfl, ⟨?_, .inl ?_, h.lineno, h.out, h.quitNow⟩, fun hn => (by cases hn), rfl⟩
    · simp [execAction, Spaces.exec, hset rfl Action.noConfusion]
    · simp [execAction, Spaces.exec, hspace]
  | l => exact absurd rfl hl
  | _ => cases ha

/-! ## A cycle -/

theorem Represents.withTurns {st : ExecState} {m : Spaces} (h : Represents st m) (turns : List Turn) :
    Represents { st with turns := turns } m := ⟨h.ps, h.hs, h.lineno, h.out, h.quitNow⟩

/-- The commands from one on: where the hold space is missing, an `h` comes before its first use. -/
theorem execFrom_represents (env : Env) (restart : ExecState → Option Bool × ExecState) {cmds : List SedCmd}
    {actions : List Action} {i : ℕ} (hcmds : cmds.drop i = actions.map fun a => ⟨none, none, false, a⟩)
    (honly : ∀ a ∈ actions, a.isSpaceCommand = true) (hno : Action.l ∉ actions)
    (hnewline : ∀ src dst, Action.y src dst ∈ actions → translit src dst '\n' = '\n') {st : ExecState} {m : Spaces}
    (h : Represents st m) (hst : st.cmds = cmds) (hhold : st.hs = none → ∀ a ∈ actions.find? Action.usesHold, a = .h) :
    ∃ st', execFrom env restart (List.range' i actions.length) st = (some true, st') ∧
      Represents st' (actions.foldl Spaces.exec m) ∧ st'.cmds = cmds ∧
      (st'.hs = none → st.hs = none ∧ actions.find? Action.usesHold = none) := by
  induction actions generalizing i st m with
  | nil => exact ⟨st, rfl, h, hst, fun hn => ⟨hn, rfl⟩⟩
  | cons a actions ih =>
    have hget : cmds[i]? = some ⟨none, none, false, a⟩ := by
      rw [← List.head?_drop, hcmds]
      rfl
    have hdrop : cmds.drop (i + 1) = actions.map fun a => ⟨none, none, false, a⟩ := by
      rw [← List.tail_drop, hcmds]
      rfl
    obtain ⟨hnext, hrep, hhs, hkeep⟩ := execAction_represents env h (honly a List.mem_cons_self)
      (fun he => hno (he ▸ List.mem_cons_self)) (fun src dst he => hnewline src dst (he ▸ List.mem_cons_self))
      fun hn hu => hhold hn a (by rw [List.find?_cons_of_pos hu]; rfl)
    obtain ⟨turns, hturn⟩ := turn_unaddressed env (show st.cmds[i]? = some ⟨none, none, false, a⟩ from hst ▸ hget) rfl hnext hkeep
    rw [List.length_cons, List.range'_succ, execFrom, hturn]
    obtain ⟨st', hexec, hrep', hcmds', hhs'⟩ := ih hdrop (fun b hb => honly b (List.mem_cons_of_mem _ hb))
      (fun hb => hno (List.mem_cons_of_mem _ hb)) (fun src dst hb => hnewline src dst (List.mem_cons_of_mem _ hb))
      (hrep.withTurns turns) (hkeep.trans hst) fun hn b hb => by
        obtain ⟨hn, hu⟩ := hhs hn
        exact hhold hn b (by rwa [List.find?_cons_of_neg (by simp [hu])])
    refine ⟨st', hexec, hrep', hcmds', fun hn => ?_⟩
    obtain ⟨hn, hnone⟩ := hhs' hn
    obtain ⟨hn, hu⟩ := hhs hn
    exact ⟨hn, by rwa [List.find?_cons_of_neg (by simp [hu])]⟩

theorem endCycle_represents (env : Env) {st : ExecState} {m : Spaces} (h : Represents st m) (rest : List Byte) :
    ∃ st', endCycle env rest st = (none, rest, st') ∧ Represents st' (m.finish env.autoPrint) ∧ st'.cmds = st.cmds ∧
      st'.hs = st.hs := by
  have hmarker : appendNext rest st = (rest, st) := by
    have hne : ( '\n' : Byte) ≠ 1 := by decide
    simp [appendNext, h.space, hne]
  refine ⟨st.autoPrint env, ?_, ?_, ?_, ?_⟩
  · simp [endCycle, hmarker, h.quitNow]
  · unfold ExecState.autoPrint Spaces.finish
    split_ifs
    · exact h.space ▸ h.print m.pattern
    · exact h
  · unfold ExecState.autoPrint
    split_ifs <;> rfl
  · unfold ExecState.autoPrint
    split_ifs <;> rfl

/-- Between two cycles: the pattern space is not looked at again. -/
structure Between (script : SpaceScript) (st : ExecState) (m : Spaces) : Prop where
  hs : st.hs = some (m.hold ++ [( '\n' : Byte)]) ∨ st.hs = none ∧ m.hold = []
  lineno : st.lineno = m.lineno
  out : st.out = m.out
  quitNow : st.quitNow = false
  cmds : st.cmds = script.cmds

theorem cycle_represents (env : Env) {script : SpaceScript} (hscript : Plain script.actions) (fuel : ℕ)
    {line : List Byte} {lines : List (List Byte)} (hlines : Lines ((line ++ [( '\n' : Byte)]) :: lines)) {st : ExecState}
    {m : Spaces} (h : Between script st m) :
    ∃ st', cycle env (fuel + 1) ((line ++ [( '\n' : Byte)]) :: lines).flatten st = (none, lines.flatten, st') ∧
      Between script st' (m.cycle env.autoPrint script.actions line) := by
  have hread := readLine_lines hlines st
  set st₀ : ExecState := { st with lineno := st.lineno + 1, ps := some (line ++ [( '\n' : Byte)]) } with hst₀
  have hrep : Represents { st₀ with isLast := decide (lines.flatten = []) }
      { m with pattern := line, lineno := m.lineno + 1 } :=
    ⟨rfl, h.hs, congrArg (· + 1) h.lineno, h.out, h.quitNow⟩
  obtain ⟨st', hexec, hrep', hcmds', -⟩ := execFrom_represents env (execCmdsOnLine env fuel) (i := 0)
    (List.drop_zero (l := script.cmds)) script.only hscript.noL hscript.newline hrep h.cmds fun _ => hscript.hold
  obtain ⟨st'', hend, hrep'', hcmds'', -⟩ := endCycle_represents env hrep' lines.flatten
  have hrun : execCmdsOnLine env (fuel + 1) { st₀ with isLast := decide (lines.flatten = []) } = (some true, st') := by
    have hlength : st₀.cmds.length = script.actions.length := by
      rw [show st₀.cmds = script.cmds from h.cmds, SpaceScript.cmds, List.length_map]
    rw [execCmdsOnLine, List.range_eq_range', hlength]
    exact hexec
  refine ⟨st'', ?_, hrep''.hs, hrep''.lineno, hrep''.out, hrep''.quitNow, hcmds''.trans hcmds'⟩
  have hps : st'.ps ≠ none := by
    rw [hrep'.ps]
    exact Option.some_ne_none _
  simp only [cycle, hread, onLine, hrun, if_neg hps, hend]

theorem lines_shortLines (lines : List ShortLine) : Lines (lines.map fun l => l.bytes ++ [( '\n' : Byte)]) := by
  induction lines with
  | nil => trivial
  | cons l lines ih =>
    have hne : (0 : Byte) ≠ '\n' := by decide
    refine ⟨⟨by simp, fun c hc => ?_, .inl (by simp)⟩, ?_, by simp [l.nul, hne], ih⟩
    · rw [List.dropLast_concat] at hc
      exact ne_of_mem_of_not_mem hc l.newline
    · have := l.fits
      rw [List.length_append, List.length_singleton]
      omega

theorem processFile_represents (env : Env) {script : SpaceScript} (fuel : ℕ) (lines : List ShortLine)
    (hscript : lines ≠ [] → Plain script.actions) {st : ExecState} {m : Spaces} (h : Between script st m) :
    ∃ st', processFile env (fuel + 1) (fileText lines) st = (.eof, st') ∧
      Between script st' ((lines.map ShortLine.bytes).foldl (Spaces.cycle env.autoPrint script.actions) m) := by
  have htext (lines : List ShortLine) : fileText lines = (lines.map fun l => l.bytes ++ [( '\n' : Byte)]).flatten :=
    List.flatMap_def
  rw [htext]
  induction lines generalizing st m with
  | nil =>
    rw [List.map_nil, List.flatten_nil, processFile]
    exact ⟨st, rfl, h⟩
  | cons l lines ih =>
    have hlines := lines_shortLines (l :: lines)
    rw [List.map_cons] at hlines ⊢
    obtain ⟨st₁, hcycle, h₁⟩ := cycle_represents env (hscript (List.cons_ne_nil l lines)) fuel hlines h
    obtain ⟨st', hfile, h'⟩ := ih (fun _ => hscript (List.cons_ne_nil l lines)) h₁
    refine ⟨st', ?_, h'⟩
    rw [processFile_lines env _ hlines, hcycle]
    exact hfile

theorem processFiles_represents (env : Env) {script : SpaceScript} (fuel : ℕ) (files : List (List ShortLine))
    (hscript : files.flatten ≠ [] → Plain script.actions) {st : ExecState} {m : Spaces} (h : Between script st m) :
    ∃ st', processFiles env (fuel + 1) (files.map fun lines => some (fileText lines)) st = (some true, st') ∧
      Between script st' ((files.flatten.map ShortLine.bytes).foldl (Spaces.cycle env.autoPrint script.actions) m) := by
  induction files generalizing st m with
  | nil => exact ⟨st, rfl, h⟩
  | cons lines files ih =>
    rw [List.flatten_cons] at hscript
    obtain ⟨st₁, hfile, h₁⟩ := processFile_represents env fuel lines
      (fun hne => hscript (List.append_ne_nil_of_left_ne_nil hne _)) h
    obtain ⟨st', hfiles, h'⟩ := ih (fun hne => hscript (List.append_ne_nil_of_right_ne_nil _ hne)) h₁
    refine ⟨st', ?_, ?_⟩
    · rw [List.map_cons, processFiles, hfile]
      exact hfiles
    · rw [List.flatten_cons, List.map_append, List.foldl_append]
      exact h'

/-- The spaces of `sed` are those of POSIX where no command comes upon a hold space that was never set,
spells a newline that only ends the line, or changes it. -/
theorem out_eq_posix (env : Env) (script : SpaceScript) (files : List (List ShortLine)) (fuel : ℕ)
    (h : files.flatten ≠ [] → Plain script.actions) :
    ∃ st, processFiles env (fuel + 1) (files.map fun lines => some (fileText lines)) (.init script.cmds) = (some true, st) ∧
      st.out = (Spaces.run env.autoPrint script.actions (files.flatten.map ShortLine.bytes)).out := by
  obtain ⟨st, hrun, hst⟩ := processFiles_represents env fuel files h
    (show Between script (.init script.cmds) ⟨[], [], 0, []⟩ from ⟨.inr ⟨rfl, rfl⟩, rfl, rfl, rfl, rfl⟩)
  exact ⟨st, hrun, hst.out⟩

/-- Each line twice: `h` and `G`. -/
theorem out_eq_posix_twice : ∃ st,
    processFiles ⟨true, fun _ => none, fun _ => false⟩ 1 [some [( 'a' : Byte), '\n']]
        (.init [⟨none, none, false, .h⟩, ⟨none, none, false, .gapp⟩]) = (some true, st) ∧
      st.out = [( 'a' : Byte), '\n', 'a', '\n'] := by
  have hplain : Plain [.h, .gapp] :=
    ⟨by decide, fun src dst hmem => by simp at hmem, fun a ha => (Option.some.inj ha).symm⟩
  obtain ⟨st, hrun, hout⟩ := out_eq_posix ⟨true, fun _ => none, fun _ => false⟩ ⟨[.h, .gapp], by decide⟩
    [[⟨[( 'a' : Byte)], by decide, by decide, by decide⟩]] 0 fun _ => hplain
  exact ⟨st, hrun, hout.trans (by decide)⟩

/-- A `G` before anything is held adds no empty line. -/
theorem doubleSpace_not_posix :
    (processFiles ⟨true, fun _ => none, fun _ => false⟩ 1 [some [( 'a' : Byte), '\n']]
        (.init [⟨none, none, false, .gapp⟩])).2.out = [( 'a' : Byte), '\n'] ∧
      (Spaces.run true [.gapp] [[( 'a' : Byte)]]).out = [( 'a' : Byte), '\n', '\n'] := by
  refine ⟨?_, by decide⟩
  decide +kernel

end ValidcTools.Sed
