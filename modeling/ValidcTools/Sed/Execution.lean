import ValidcTools.Batch.Execution
import ValidcTools.Bre.Matcher
import ValidcTools.Sed.Script

/-! How `sed` runs its commands on the lines of its input. -/
namespace ValidcTools.Sed
open Batch (fgets length_fgets_lt)

def MAX_LINE : ℕ := 65536

def MAX_FILES : ℕ := 128

/-- A string of decimal digits, as `%ld` prints it -/
def number (n : ℕ) : List Byte := (Nat.toDigits 10 n).map Char.toUInt8

/-- What a run needs of its options and its files. The files that are read are not written in the run. -/
structure Env where
  autoPrint : Bool
  /-- `fopen(name, "r")` with what is read -/
  readFile : List Byte → Option (List Byte)
  /-- `fopen(name, "w")` succeeds. -/
  opens : List Byte → Bool

/-- The history: what each command came upon, and what it made of it. -/
structure Turn where
  index : ℕ
  lineno : ℕ
  space : List Byte
  applied : Bool
  /-- The pattern space after the command -/
  after : List Byte

/-- `ExecState`, with the static variables it works on, and what is written -/
structure ExecState where
  ps : Option (List Byte)
  hs : Option (List Byte)
  lineno : ℕ
  quitNow : Bool
  /-- `is_last_line_in_file` -/
  isLast : Bool
  cmds : List SedCmd
  out : List Byte
  wfiles : List (List Byte)
  written : List (List Byte × List Byte)
  turns : List Turn

def ExecState.init (cmds : List SedCmd) : ExecState := ⟨none, none, 0, false, false, cmds, [], [], [], []⟩

namespace ExecState

/-- `fputs` to the output -/
def print (st : ExecState) (s : List Byte) : ExecState := { st with out := st.out ++ s }

/-- The pattern space where it is no `NULL` -/
def space (st : ExecState) : List Byte := st.ps.getD []

/-- `fputs` of a text that is printed unless `-n` is given -/
def autoPrint (env : Env) (st : ExecState) : ExecState := if env.autoPrint then st.print st.space else st

/-- `get_wfile` and `fputs`. A file is truncated when it is opened, once. -/
def writeTo (env : Env) (st : ExecState) (name s : List Byte) : ExecState :=
  if st.wfiles.contains name then { st with written := st.written ++ [(name, s)] }
  else if MAX_FILES ≤ st.wfiles.length ∨ env.opens name = false then st
  else { st with wfiles := st.wfiles ++ [name], written := st.written ++ [(name, s)] }

end ExecState

/-! ## Addresses -/

/-- `addr_matches`. The result of `bre_match` is taken for a truth value, and `BRE_OK` is 0. -/
def addrMatches (isLast : Bool) (ps : List Byte) (lineno : ℕ) : Address → Bool
  | .line line => decide (line = lineno)
  | .last => isLast
  | .regex re =>
    match Bre.breMatch (.ofBytes ps) (.ofBytes re) with
    | .ok _ => false
    | _ => true

/-- `apply_addresses`; the end of a range is looked for after its command. -/
def applyAddresses (isLast : Bool) (c : SedCmd) (ps : List Byte) (lineno : ℕ) : Bool × SedCmd :=
  match c.a1, c.a2 with
  | none, _ => (true, c)
  | some a1, none => (addrMatches isLast ps lineno a1, c)
  | some a1, some _ =>
    let inRange := c.inRange || addrMatches isLast ps lineno a1
    (inRange, { c with inRange := inRange })

def maybeEndRangeAfterLine (isLast : Bool) (c : SedCmd) (ps : List Byte) (lineno : ℕ) : SedCmd :=
  match c.a1, c.a2 with
  | some _, some a2 => if c.inRange && addrMatches isLast ps lineno a2 then { c with inRange := false } else c
  | _, _ => c

/-! ## Commands -/

/-- `do_substitute`: the text, and whether anything was replaced. A match is `BRE_OK`, which is 0, and after
anything else the start of the match is negative: the first test of the loop copies the rest of the text. -/
def doSubstitute (text pattern : List Byte) : List Byte × Bool :=
  match Bre.breMatch (.ofBytes text) (.ofBytes pattern) with
  | .ok _ => (text, false)
  | _ => (text, false)

/-- A byte as `l` prints it -/
def visible (c : Byte) : List Byte :=
  if c = '\n' then ['\\', 'n']
  else if 32 ≤ c ∧ c ≤ 126 ∧ c ≠ '\\' then [c]
  else if c = '\\' then ['\\', '\\']
  else if c = 7 then ['\\', 'a']
  else if c = 8 then ['\\', 'b']
  else if c = '\t' then ['\\', 't']
  else if c = '\r' then ['\\', 'r']
  else if c = 12 then ['\\', 'f']
  else if c = 11 then ['\\', 'v']
  else ['\\', '0' + c / 64, '0' + c / 8 % 8, '0' + c % 8]

/-- `cmd_print_l` -/
def printL (ps : List Byte) : List Byte := ps.flatMap visible ++ [( '$' : Byte), '\n']

/-- The byte that `y` puts in the place of another -/
def translit (src dst : List Byte) (c : Byte) : Byte :=
  if c ∈ src then dst.getD (src.idxOf c) 0 else c

/-- What follows the first newline, if there is one -/
def afterNewline (ps : List Byte) : Option (List Byte) :=
  match ps.dropWhile fun c : Byte => decide (c ≠ '\n') with
  | [] => none
  | _ :: rest => some rest

/-- The bytes up to the first newline, and that -/
def firstLine (ps : List Byte) : List Byte :=
  (ps.takeWhile fun c : Byte => decide (c ≠ '\n')) ++ if (afterNewline ps).isSome then [( '\n' : Byte)] else []

/-- What a command is followed by: the next one, the end of the cycle with the result of `exec_cmds_on_line`,
or the first one. -/
inductive Flow
  | next
  | leave (cont : Bool)
  | restart
deriving DecidableEq

/-- The `switch` over the type of a command -/
def execAction (env : Env) (st : ExecState) : Action → Flow × ExecState
  | .p => (.next, st.print st.space)
  | .d => (.leave false, st)
  | .q => (.leave true, { st with quitNow := true })
  | .eq => (.next, st.print (number st.lineno ++ [( '\n' : Byte)]))
  | .n => (.leave true, { st.autoPrint env with ps := none })
  | .w name => (.next, st.writeTo env name st.space)
  | .r name => (.next, st.print ((env.readFile name).getD []))
  | .a text | .i text => (.next, st.print (text ++ [( '\n' : Byte)]))
  | .c text => (.next, { st with ps := some (text ++ [( '\n' : Byte)]) })
  | .s pat _ _ print wfile =>
    let res := doSubstitute st.space pat
    let st := { st with ps := some res.1 }
    let st := if res.2 && print then st.print res.1 else st
    (.next, match res.2, wfile with
      | true, some name => st.writeTo env name res.1
      | _, _ => st)
  | .y src dst => (.next, { st with ps := some (st.space.map (translit src dst)) })
  | .ncap => (.leave true, { st with ps := some (st.space ++ [1]) })
  | .dcap =>
    match afterNewline st.space with
    | none => (.leave false, st)
    | some rest => (.restart, { st with ps := some rest })
  | .pcap => (.next, st.print (firstLine st.space))
  | .h => (.next, { st with hs := some st.space })
  | .happ => (.next, { st with hs := some (st.hs.getD [] ++ st.space) })
  | .g => (.next, { st with ps := some (st.hs.getD []) })
  | .gapp => (.next, { st with ps := some (st.space ++ st.hs.getD []) })
  | .x => (.next, { st with ps := some (st.hs.getD []), hs := some st.space })
  | .l => (.next, st.print (printL st.space))

/-- `s` never replaces anything. -/
theorem doSubstitute_eq (text pattern : List Byte) : doSubstitute text pattern = (text, false) := by
  unfold doSubstitute
  split <;> rfl

theorem execAction_s (env : Env) (st : ExecState) (pat repl : List Byte) (occurrence : ℤ) (print : Bool)
    (wfile : Option (List Byte)) :
    execAction env st (.s pat repl occurrence print wfile) = (.next, { st with ps := some st.space }) := by
  simp only [execAction, doSubstitute_eq, Bool.false_and, Bool.false_eq_true, if_false]

/-- The loop body of `exec_cmds_on_line` for the command at `i` -/
def turn (env : Env) (i : ℕ) (st : ExecState) : Flow × ExecState :=
  match st.cmds[i]? with
  | none => (.next, st)
  | some c =>
    let r := applyAddresses st.isLast c st.space st.lineno
    let before : Turn := ⟨i, st.lineno, st.space, r.1, st.space⟩
    let st := { st with cmds := st.cmds.set i r.2 }
    if r.1 = false then (.next, { st with turns := st.turns ++ [before] })
    else
      let e := execAction env st c.action
      match e.1 with
      | .leave cont =>
        (.leave cont, { e.2 with turns := e.2.turns ++ [{ before with after := e.2.space }] })
      | flow =>
        (flow, { e.2 with
          cmds := e.2.cmds.set i (maybeEndRangeAfterLine e.2.isLast r.2 e.2.space e.2.lineno)
          turns := e.2.turns ++ [{ before with after := e.2.space }] })

/-- The commands from one on: the result is missing where the run has not come to its end. -/
def execFrom (env : Env) (restart : ExecState → Option Bool × ExecState) : List ℕ → ExecState → Option Bool × ExecState
  | [], st => (some true, st)
  | i :: is, st =>
    match turn env i st with
    | (.next, st) => execFrom env restart is st
    | (.leave cont, st) => (some cont, st)
    | (.restart, st) => restart st

/-- `exec_cmds_on_line`, with the number of times that `D` may begin it again -/
def execCmdsOnLine (env : Env) : ℕ → ExecState → Option Bool × ExecState
  | 0, st => (none, st)
  | fuel + 1, st => execFrom env (execCmdsOnLine env fuel) (List.range st.cmds.length) st

/-! ## The driver -/

/-- How the loop over a file ends. `running` is a run that has not come to its end. -/
inductive Stop
  | eof
  | quit
  | running
deriving DecidableEq

/-- `xstrdup(line)` -/
def cstr (line : List Byte) : List Byte := line.takeWhile fun c => decide (c ≠ 0)

/-- A line is read into the pattern space. -/
def ExecState.read (st : ExecState) (line : List Byte) : ExecState :=
  { st with lineno := st.lineno + 1, ps := some (cstr line) }

/-- The input left after a line, and the state with that line -/
def readLine (input : List Byte) (st : ExecState) : List Byte × ExecState :=
  ((fgets (MAX_LINE - 1) input).2, st.read (fgets (MAX_LINE - 1) input).1)

/-- The marker of `N`: a pattern space that ends in the byte 1 gets the next line. -/
def appendNext (rest : List Byte) (st : ExecState) : List Byte × ExecState :=
  if st.space.getLast? = some 1 then
    let st := { st with ps := some st.space.dropLast }
    match rest with
    | [] => ([], st)
    | c :: s =>
      let line := fgets (MAX_LINE - 1) (c :: s)
      (line.2, { st with lineno := st.lineno + 1, ps := some (st.space ++ ( '\n' : Byte) :: cstr line.1) })
  else (rest, st)

/-- The end of a cycle -/
def endCycle (env : Env) (rest : List Byte) (st : ExecState) : Option Stop × List Byte × ExecState :=
  let r := appendNext rest st
  (if r.2.quitNow then some .quit else none, r.1, r.2.autoPrint env)

/-- The commands on a line, which is the last one where nothing is left, and what `finish` does after them. -/
def onLine (env : Env) (fuel : ℕ) (finish : List Byte → ExecState → Option Stop × List Byte × ExecState)
    (rest : List Byte) (st : ExecState) : Option Stop × List Byte × ExecState :=
  match execCmdsOnLine env fuel { st with isLast := decide (rest = []) } with
  | (none, st) => (some .running, rest, st)
  | (some false, st) => (none, rest, st)
  | (some true, st) => finish rest st

/-- After `n` the next line is read, unless there is none. -/
def afterN (env : Env) (fuel : ℕ) (rest : List Byte) (st : ExecState) : Option Stop × List Byte × ExecState :=
  match rest with
  | [] => (some .eof, [], st)
  | c :: s =>
    let r := readLine (c :: s) st
    if r.2.quitNow then (some .quit, r.1, r.2.autoPrint env)
    else onLine env fuel (endCycle env) r.1 r.2

/-- The loop body of `process_files` where there is a line -/
def cycle (env : Env) (fuel : ℕ) (input : List Byte) (st : ExecState) : Option Stop × List Byte × ExecState :=
  let r := readLine input st
  onLine env fuel (fun rest st => if st.ps = none then afterN env fuel rest st else endCycle env rest st) r.1 r.2

theorem length_appendNext_le (rest : List Byte) (st : ExecState) : (appendNext rest st).1.length ≤ rest.length := by
  unfold appendNext
  split_ifs
  · cases rest with
    | nil => exact le_rfl
    | cons c s => exact (length_fgets_lt _ c s).le
  · exact le_rfl

theorem length_onLine_le {env : Env} {fuel : ℕ} {finish : List Byte → ExecState → Option Stop × List Byte × ExecState}
    (h : ∀ rest st, (finish rest st).2.1.length ≤ rest.length) (rest : List Byte) (st : ExecState) :
    (onLine env fuel finish rest st).2.1.length ≤ rest.length := by
  unfold onLine
  split
  · exact le_rfl
  · exact le_rfl
  · exact h rest _

theorem length_endCycle_le (env : Env) (rest : List Byte) (st : ExecState) :
    (endCycle env rest st).2.1.length ≤ rest.length := length_appendNext_le rest st

theorem length_afterN_le (env : Env) (fuel : ℕ) (rest : List Byte) (st : ExecState) :
    (afterN env fuel rest st).2.1.length ≤ rest.length := by
  cases rest with
  | nil => exact le_rfl
  | cons c s =>
    have hread : (readLine (c :: s) st).1.length ≤ (c :: s).length := (length_fgets_lt _ c s).le
    unfold afterN
    dsimp only
    split_ifs
    · exact hread
    · exact (length_onLine_le (length_endCycle_le env) _ _).trans hread

/-- A cycle takes at least a byte of the input. -/
theorem length_cycle_lt (env : Env) (fuel : ℕ) (c : Byte) (s : List Byte) (st : ExecState) :
    (cycle env fuel (c :: s) st).2.1.length < (c :: s).length := by
  refine (length_onLine_le (fun rest st => ?_) _ _).trans_lt (length_fgets_lt _ c s)
  split_ifs
  · exact length_afterN_le env fuel rest st
  · exact length_endCycle_le env rest st

/-- The loop over the lines of a file -/
def processFile (env : Env) (fuel : ℕ) (input : List Byte) (st : ExecState) : Stop × ExecState :=
  match input with
  | [] => (.eof, st)
  | c :: s =>
    let r := cycle env fuel (c :: s) st
    match r.1 with
    | some stop => (stop, r.2.2)
    | none => processFile env fuel r.2.1 r.2.2
termination_by input.length
decreasing_by exact length_cycle_lt env fuel _ s _

/-- `process_files` over what the files hold, missing where one cannot be opened. The result is missing where the
run has not come to its end. -/
def processFiles (env : Env) (fuel : ℕ) : List (Option (List Byte)) → ExecState → Option Bool × ExecState
  | [], st => (some true, st)
  | none :: _, st => (some false, st)
  | some input :: files, st =>
    match processFile env fuel input st with
    | (.eof, st) => processFiles env fuel files st
    | (.quit, st) => (some true, st)
    | (.running, st) => (none, st)

/-! ## One turn -/

theorem turn_none (env : Env) {i : ℕ} {st : ExecState} (hc : st.cmds[i]? = none) : turn env i st = (.next, st) := by
  simp only [turn, hc]

section
variable {env : Env} {i : ℕ} {st : ExecState} {c c' : SedCmd} (hc : st.cmds[i]? = some c)
include hc

theorem turn_skipped (h : applyAddresses st.isLast c st.space st.lineno = (false, c')) :
    turn env i st = (.next, { st with
      cmds := st.cmds.set i c'
      turns := st.turns ++ [⟨i, st.lineno, st.space, false, st.space⟩] }) := by
  simp only [turn, hc, h, if_true]

theorem turn_leave (h : applyAddresses st.isLast c st.space st.lineno = (true, c')) {cont : Bool} {st' : ExecState}
    (he : execAction env { st with cmds := st.cmds.set i c' } c.action = (.leave cont, st')) :
    turn env i st = (.leave cont, { st' with
      turns := st'.turns ++ [⟨i, st.lineno, st.space, true, st'.space⟩] }) := by
  simp only [turn, hc, h, Bool.true_eq_false, if_false, he]

theorem turn_next (h : applyAddresses st.isLast c st.space st.lineno = (true, c')) {st' : ExecState}
    (he : execAction env { st with cmds := st.cmds.set i c' } c.action = (.next, st')) :
    turn env i st = (.next, { st' with
      cmds := st'.cmds.set i (maybeEndRangeAfterLine st'.isLast c' st'.space st'.lineno)
      turns := st'.turns ++ [⟨i, st.lineno, st.space, true, st'.space⟩] }) := by
  simp only [turn, hc, h, Bool.true_eq_false, if_false, he]

theorem turn_restart (h : applyAddresses st.isLast c st.space st.lineno = (true, c')) {st' : ExecState}
    (he : execAction env { st with cmds := st.cmds.set i c' } c.action = (.restart, st')) :
    turn env i st = (.restart, { st' with
      cmds := st'.cmds.set i (maybeEndRangeAfterLine st'.isLast c' st'.space st'.lineno)
      turns := st'.turns ++ [⟨i, st.lineno, st.space, true, st'.space⟩] }) := by
  simp only [turn, hc, h, Bool.true_eq_false, if_false, he]

end

/-! ## Commands without addresses -/

theorem set_of_getElem? {α : Type} {l : List α} {i : ℕ} {x : α} (h : l[i]? = some x) : l.set i x = l := by
  obtain ⟨hi, rfl⟩ := List.getElem?_eq_some_iff.mp h
  exact List.set_getElem_self hi

/-- A command without addresses that goes on to the next one -/
theorem turn_unaddressed (env : Env) {i : ℕ} {st : ExecState} {c : SedCmd} (hc : st.cmds[i]? = some c) (ha : c.a1 = none)
    (hnext : (execAction env st c.action).1 = .next) (hcmds : (execAction env st c.action).2.cmds = st.cmds) :
    ∃ turns, turn env i st = (.next, { (execAction env st c.action).2 with turns := turns }) := by
  have happly : applyAddresses st.isLast c st.space st.lineno = (true, c) := by
    unfold applyAddresses
    rw [ha]
  have hend (isLast : Bool) (ps : List Byte) (lineno : ℕ) : maybeEndRangeAfterLine isLast c ps lineno = c := by
    unfold maybeEndRangeAfterLine
    rw [ha]
  have hset : { st with cmds := st.cmds.set i c } = st := by rw [set_of_getElem? hc]
  refine ⟨(execAction env st c.action).2.turns ++
    [⟨i, st.lineno, st.space, true, (execAction env st c.action).2.space⟩], ?_⟩
  have he : execAction env { st with cmds := st.cmds.set i c } c.action = (.next, (execAction env st c.action).2) := by
    rw [hset]
    exact Prod.ext hnext rfl
  have hset' : (execAction env st c.action).2.cmds.set i c = (execAction env st c.action).2.cmds := by
    rw [hcmds, set_of_getElem? hc]
  rw [turn_next hc happly he, hend, hset']

/-! ## Whole runs -/

/-- What the driver does between the commands: neither they nor the history change, and lines come in order. -/
structure Driven (st st' : ExecState) : Prop where
  cmds : st'.cmds = st.cmds
  turns : st'.turns = st.turns
  lineno : st.lineno ≤ st'.lineno

theorem Driven.refl (st : ExecState) : Driven st st := ⟨rfl, rfl, le_rfl⟩

theorem Driven.trans {a b c : ExecState} (h : Driven a b) (h' : Driven b c) : Driven a c :=
  ⟨h'.cmds.trans h.cmds, h'.turns.trans h.turns, h.lineno.trans h'.lineno⟩

theorem driven_autoPrint (env : Env) (st : ExecState) : Driven st (st.autoPrint env) := by
  unfold ExecState.autoPrint
  split_ifs
  · exact ⟨rfl, rfl, le_rfl⟩
  · exact Driven.refl st

theorem driven_readLine (input : List Byte) (st : ExecState) : Driven st (readLine input st).2 :=
  ⟨rfl, rfl, Nat.le_succ _⟩

theorem driven_appendNext (rest : List Byte) (st : ExecState) : Driven st (appendNext rest st).2 := by
  unfold appendNext
  split_ifs
  · cases rest with
    | nil => exact ⟨rfl, rfl, le_rfl⟩
    | cons c s => exact ⟨rfl, rfl, Nat.le_succ _⟩
  · exact Driven.refl st

theorem driven_endCycle (env : Env) (rest : List Byte) (st : ExecState) : Driven st (endCycle env rest st).2.2 :=
  (driven_appendNext rest st).trans (driven_autoPrint env _)

section
variable {env : Env} {P : ExecState → Prop} (hturn : ∀ i st, P st → P (turn env i st).2)
include hturn

theorem execFrom_keeps {restart : ExecState → Option Bool × ExecState} (hrestart : ∀ st, P st → P (restart st).2)
    (is : List ℕ) {st : ExecState} (h : P st) : P (execFrom env restart is st).2 := by
  induction is generalizing st with
  | nil => exact h
  | cons i is ih =>
    have hst := hturn i st h
    unfold execFrom
    split
    · next st' he =>
      rw [he] at hst
      exact ih hst
    · next cont st' he =>
      rw [he] at hst
      exact hst
    · next st' he =>
      rw [he] at hst
      exact hrestart st' hst

theorem execCmdsOnLine_keeps (fuel : ℕ) {st : ExecState} (h : P st) : P (execCmdsOnLine env fuel st).2 := by
  induction fuel generalizing st with
  | zero => exact h
  | succ fuel ih => exact execFrom_keeps hturn (fun st => ih) _ h

variable (hdrive : ∀ st st', P st → Driven st st' → P st')
include hdrive

theorem onLine_keeps (fuel : ℕ) {finish : List Byte → ExecState → Option Stop × List Byte × ExecState}
    (hfinish : ∀ rest st, P st → P (finish rest st).2.2) (rest : List Byte) {st : ExecState} (h : P st) :
    P (onLine env fuel finish rest st).2.2 := by
  have hst := execCmdsOnLine_keeps hturn fuel (hdrive st { st with isLast := decide (rest = []) } h ⟨rfl, rfl, le_rfl⟩)
  unfold onLine
  split
  · next st' he =>
      rw [he] at hst
      exact hst
  · next st' he =>
      rw [he] at hst
      exact hst
  · next st' he =>
      rw [he] at hst
      exact hfinish rest st' hst

theorem afterN_keeps (fuel : ℕ) (rest : List Byte) {st : ExecState} (h : P st) : P (afterN env fuel rest st).2.2 := by
  cases rest with
  | nil => exact h
  | cons c s =>
    have hread := hdrive _ _ h (driven_readLine (c :: s) st)
    unfold afterN
    dsimp only
    split_ifs
    · exact hdrive _ _ hread (driven_autoPrint env _)
    · exact onLine_keeps hturn hdrive fuel (fun rest st h => hdrive _ _ h (driven_endCycle env rest st)) _ hread

theorem cycle_keeps (fuel : ℕ) (input : List Byte) {st : ExecState} (h : P st) : P (cycle env fuel input st).2.2 := by
  refine onLine_keeps hturn hdrive fuel (fun rest st h => ?_) _ (hdrive _ _ h (driven_readLine input st))
  split_ifs
  · exact afterN_keeps hturn hdrive fuel rest h
  · exact hdrive _ _ h (driven_endCycle env rest st)

theorem processFile_keeps (fuel : ℕ) (input : List Byte) {st : ExecState} (h : P st) : P (processFile env fuel input st).2 := by
  fun_induction processFile env fuel input st with
  | case1 st => exact h
  | case2 st c s r stop hr => exact cycle_keeps hturn hdrive fuel (c :: s) h
  | case3 st c s r hr ih => exact ih (cycle_keeps hturn hdrive fuel (c :: s) h)

/-- What every turn of a command and the driver keep holds at the end of every run. -/
theorem processFiles_keeps (fuel : ℕ) (files : List (Option (List Byte))) {st : ExecState} (h : P st) :
    P (processFiles env fuel files st).2 := by
  induction files generalizing st with
  | nil => exact h
  | cons file files ih =>
    cases file with
    | none => exact h
    | some input =>
      have hst := processFile_keeps hturn hdrive fuel input h
      unfold processFiles
      split
      · next st' he =>
        rw [he] at hst
        exact ih hst
      · next st' he =>
        rw [he] at hst
        exact hst
      · next st' he =>
        rw [he] at hst
        exact hst

end

/-! ## Lines that fit the buffer -/

/-- What is left of a file is its lines, each read at once and with no NUL. -/
def Lines : List (List Byte) → Prop
  | [] => True
  | line :: lines => Batch.IsLine line lines.flatten ∧ line.length ≤ MAX_LINE - 1 ∧ 0 ∉ line ∧ Lines lines

theorem cstr_of_notMem {line : List Byte} (h : (0 : Byte) ∉ line) : cstr line = line :=
  List.takeWhile_eq_self_iff.mpr fun _ hc => decide_eq_true (ne_of_mem_of_not_mem hc h)

theorem readLine_lines {line : List Byte} {lines : List (List Byte)} (h : Lines (line :: lines)) (st : ExecState) :
    readLine (line :: lines).flatten st =
      (lines.flatten, { st with lineno := st.lineno + 1, ps := some line }) := by
  obtain ⟨hline, hlength, hnul, -⟩ := h
  rw [List.flatten_cons, readLine, Batch.fgets_line hline hlength, ExecState.read, cstr_of_notMem hnul]

theorem processFile_lines (env : Env) (fuel : ℕ) {line : List Byte} {lines : List (List Byte)} (h : Lines (line :: lines))
    (st : ExecState) :
    processFile env fuel (line :: lines).flatten st =
      let r := cycle env fuel (line :: lines).flatten st
      match r.1 with
      | some stop => (stop, r.2.2)
      | none => processFile env fuel r.2.1 r.2.2 := by
  obtain ⟨c, s, hc⟩ := List.exists_cons_of_ne_nil h.1.ne
  rw [List.flatten_cons, hc, List.cons_append, processFile]

end ValidcTools.Sed
