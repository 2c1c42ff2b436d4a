import ValidcTools.Sh23.Positions
import ValidcTools.Sh23.Expansions
import ValidcTools.Sh23.Builtins

/-! Redirections: the order in which they are kept, and what they do to the shell's own descriptors. -/
namespace ValidcTools.Sh23

variable {ε ω φ : Type}

/-! ## The order in which they are parsed -/

/-- The redirections between two states of the parser, in the order of the source -/
inductive Redirections (ts : List Token) : ParserState → List Redirect → ParserState → Prop
  | done {s : ParserState} : Redirections ts s [] s
  | other {s s' : ParserState} {token : Token} {rs : List Redirect} (htoken : peek ts s = some token)
      (htype : startsRedirect token.type = false) (hrest : Redirections ts (s.consume ts) rs s') : Redirections ts s rs s'
  | redirect {s s₁ s' : ParserState} {token : Token} {r : Redirect} {rs : List Redirect} (htoken : peek ts s = some token)
      (htype : startsRedirect token.type = true) (hr : parseRedirect ts s = some (some r, s₁))
      (hrest : Redirections ts s₁ rs s') : Redirections ts s (r :: rs) s'

section
variable {ts : List Token} {s s₁ s₂ s' : ParserState} {rs rs' : List Redirect} {n : ℕ} {parseExpansion : Token → Option ε}

theorem consume_pos_of_peek {token : Token} (h : peek ts s = some token) : (s.consume ts).pos = s.pos + 1 := by
  rw [ParserState.consume, h]

theorem Redirections.pos_le (h : Redirections ts s rs s') : s.pos ≤ s'.pos := by
  induction h with
  | done => exact le_rfl
  | other htoken _ _ ih =>
    rw [consume_pos_of_peek htoken] at ih
    omega
  | redirect _ _ hr _ ih =>
    obtain ⟨hnone, -⟩ | ⟨-, -, hle⟩ := parseRedirect_cases hr
    · cases hnone
    · omega

theorem Redirections.append (h : Redirections ts s rs s₁) (h' : Redirections ts s₁ rs' s') : Redirections ts s (rs ++ rs') s' := by
  induction h with
  | done => exact h'
  | other htoken htype _ ih => exact .other htoken htype (ih h')
  | redirect htoken htype hr _ ih => exact .redirect htoken htype hr (ih h')

/-- There is one list of redirections up to a position. -/
theorem Redirections.unique (h : Redirections ts s rs s₁) (h' : Redirections ts s rs' s₂) (hpos : s₁.pos = s₂.pos) : rs = rs' := by
  induction h generalizing rs' with
  | done =>
    cases h' with
    | done => rfl
    | other htoken _ hrest =>
      have := hrest.pos_le
      rw [consume_pos_of_peek htoken] at this
      omega
    | redirect _ _ hr hrest =>
      have := hrest.pos_le
      obtain ⟨hnone, -⟩ | ⟨-, -, hle⟩ := parseRedirect_cases hr
      · cases hnone
      · omega
  | other htoken htype hrest ih =>
    cases h' with
    | done =>
      have := hrest.pos_le
      rw [consume_pos_of_peek htoken] at this
      omega
    | other _ _ hrest' => exact ih hrest' hpos
    | redirect htoken' htype' _ _ =>
      obtain rfl := Option.some.inj (htoken.symm.trans htoken')
      exact absurd (htype.symm.trans htype') (by decide)
  | redirect htoken htype hr hrest ih =>
    cases h' with
    | done =>
      have := hrest.pos_le
      obtain ⟨hnone, -⟩ | ⟨-, -, hle⟩ := parseRedirect_cases hr
      · cases hnone
      · omega
    | other htoken' htype' _ =>
      obtain rfl := Option.some.inj (htoken.symm.trans htoken')
      exact absurd (htype.symm.trans htype') (by decide)
    | redirect _ _ hr' hrest' =>
      obtain ⟨hr, rfl⟩ := Prod.mk.inj (Option.some.inj (hr.symm.trans hr'))
      rw [Option.some.inj hr, ih hrest' hpos]

/-- The end of a loop over redirections: none stands there. -/
def EndsRedirections (ts : List Token) (s : ParserState) : Prop :=
  ∀ token ∈ peek ts s, startsRedirect token.type = true → redirectsAt ts s.pos = false

/-- The loop links each redirection in front of those before it. -/
theorem parsePrefix_redirections {node node' : SimpleCommand ε} (h : parsePrefix ts node n s = some (some node', s')) :
    ∃ rs s₁, Redirections ts s rs s₁ ∧ EndsRedirections ts s₁ ∧ s' = s₁.unread ts ∧
      node'.redirects = rs.reverse ++ node.redirects := by
  induction n generalizing s node with
  | zero => cases h
  | succ n ih =>
    unfold parsePrefix at h
    rw [Parse.bind_apply, peekToken_apply, Option.bind_some] at h
    cases hpeek : peek ts s with
    | none =>
      rw [hpeek] at h
      cases h
      exact ⟨[], s, .done, by simp [EndsRedirections, hpeek], by rw [ParserState.unread, hpeek]; rfl, rfl⟩
    | some token =>
      rw [hpeek] at h
      dsimp only at h
      split_ifs at h with hassign heq hstarts
      · rw [Parse.bind_apply, consumeToken_apply, Option.bind_some] at h
        obtain ⟨rs, s₁, hrs, hends, hs, hnode⟩ := ih h
        exact ⟨rs, s₁, .other hpeek (by rw [hassign]; rfl) hrs, hends, hs, hnode⟩
      · rw [Parse.bind_apply, consumeToken_apply, Option.bind_some] at h
        cases h
      · obtain ⟨redir, s₁, hredirect, h⟩ := Parse.bind_eq_some.mp h
        cases redir with
        | none =>
          obtain ⟨-, hat, rfl⟩ | ⟨hsome, -⟩ := parseRedirect_cases hredirect
          · cases h
            exact ⟨[], s, .done, fun _ _ _ => hat, rfl, rfl⟩
          · cases hsome
        | some redir =>
          obtain ⟨rs, s₂, hrs, hends, hs, hnode⟩ := ih h
          exact ⟨redir :: rs, s₂, .redirect hpeek hstarts hredirect hrs, hends, hs, by simp [hnode]⟩
      · cases h
        refine ⟨[], s', .done, fun t ht hs => ?_, (unread_of_other hpeek ?_).symm, rfl⟩
        · obtain rfl := Option.some.inj (hpeek.symm.trans ht)
          exact absurd hs hstarts
        · rintro hio
          simp [startsRedirect, hio] at hstarts

theorem parseCommandWord_redirections {node node' : SimpleCommand ε} (h : parseCommandWord ts node s = some (node', s')) :
    Redirections ts s [] s' ∧ node'.redirects = node.redirects := by
  cases hword : (peek ts s).filter (·.type = .word) with
  | none =>
    rw [parseCommandWord_none hword] at h
    cases h
    exact ⟨.done, rfl⟩
  | some token =>
    have hother {t : Token} {s₀ : ParserState} (hpeek : peek ts s₀ = some t) (htype : t.type = .word) {rs : List Redirect}
        {s₃ : ParserState} (hrest : Redirections ts (s₀.consume ts) rs s₃) : Redirections ts s₀ rs s₃ :=
      .other hpeek (by rw [htype]; rfl) hrest
    obtain ⟨hpeek, htype⟩ := Option.filter_eq_some_iff.mp hword
    simp only [parseCommandWord, Parse.bind_apply, peekToken_apply, Option.bind_some, hword, consumeToken_apply] at h
    split at h
    · rw [Parse.bind_apply, peekToken_apply, Option.bind_some] at h
      cases hnum : (peek ts (s.consume ts)).filter fun t => t.type = .word ∧ isNumber t.text with
      | none =>
        rw [hnum] at h
        cases h
        exact ⟨hother hpeek (of_decide_eq_true htype) .done, rfl⟩
      | some num =>
        obtain ⟨hpeek', htype'⟩ := Option.filter_eq_some_iff.mp hnum
        rw [hnum] at h
        simp only [Parse.bind_apply, consumeToken_apply, Option.bind_some] at h
        have hskip := hother hpeek (of_decide_eq_true htype) (hother hpeek' (of_decide_eq_true htype').1 .done)
        split_ifs at h
        · cases h
          exact ⟨hskip, rfl⟩
        · cases h
          exact ⟨hskip, rfl⟩
    · cases h
      exact ⟨hother hpeek (of_decide_eq_true htype) .done, rfl⟩

theorem parseSuffix_redirections {node node' : SimpleCommand ε} (h : parseSuffix ts parseExpansion node n s = some (some node', s')) :
    ∃ rs s₁, Redirections ts s rs s₁ ∧ s' = s₁.unread ts ∧ node'.redirects = rs.reverse ++ node.redirects := by
  induction n generalizing s node with
  | zero => cases h
  | succ n ih =>
    unfold parseSuffix at h
    rw [Parse.bind_apply, peekToken_apply, Option.bind_some] at h
    cases hpeek : peek ts s with
    | none =>
      rw [hpeek] at h
      cases h
      exact ⟨[], s, .done, by rw [ParserState.unread, hpeek]; rfl, rfl⟩
    | some token =>
      rw [hpeek] at h
      dsimp only at h
      split_ifs at h with hword hstarts hexp
      · rw [Parse.bind_apply, consumeToken_apply, Option.bind_some] at h
        obtain ⟨rs, s₁, hrs, hs, hnode⟩ := ih h
        exact ⟨rs, s₁, .other hpeek (by rw [hword]; rfl) hrs, hs, hnode⟩
      · obtain ⟨redir, s₁, hredirect, h⟩ := Parse.bind_eq_some.mp h
        cases redir with
        | none =>
          obtain ⟨-, -, rfl⟩ | ⟨hsome, -⟩ := parseRedirect_cases hredirect
          · cases h
            exact ⟨[], s, .done, rfl, rfl⟩
          · cases hsome
        | some redir =>
          obtain ⟨rs, s₂, hrs, hs, hnode⟩ := ih h
          exact ⟨redir :: rs, s₂, .redirect hpeek hstarts hredirect hrs, hs, by simp [hnode]⟩
      · have htype : startsRedirect token.type = false := Bool.eq_false_iff.mpr hstarts
        rw [Parse.bind_apply, consumeToken_apply, Option.bind_some] at h
        cases hparse : parseExpansion token with
        | none =>
          rw [hparse] at h
          cases h
        | some exp =>
          rw [hparse] at h
          obtain ⟨rs, s₁, hrs, hs, hnode⟩ := ih h
          exact ⟨rs, s₁, .other hpeek htype hrs, hs, hnode⟩
      · cases h
        refine ⟨[], s', .done, (unread_of_other hpeek ?_).symm, rfl⟩
        rintro hio
        simp [startsRedirect, hio] at hstarts

/-- A command keeps its redirections in the order that is opposite to that of the source. -/
theorem parseSimpleCommand_redirections {node : SimpleCommand ε}
    (h : parseSimpleCommand ts parseExpansion n s = some (some node, s')) :
    ∃ rs s₁, Redirections ts s rs s₁ ∧ s₁.pos = s'.pos ∧ node.redirects = rs.reverse := by
  obtain ⟨-, hnone⟩ | ⟨node₁, s₁, node₂, s₂, o, hassigns, hword, hsuffix, -, ho⟩ := parseSimpleCommand_parts h
  · cases hnone
  obtain rfl := ho rfl
  obtain ⟨rs, s₃, hrs, hends, rfl, hnode₁⟩ := parsePrefix_redirections hassigns
  obtain ⟨hnone, hnode₂⟩ := parseCommandWord_redirections hword
  obtain ⟨rs', s₄, hrs', rfl, hnode⟩ := parseSuffix_redirections hsuffix
  rw [hnode₂, hnode₁, SimpleCommand.empty, List.append_nil] at hnode
  have hmore := hnone.append hrs'
  rw [List.nil_append] at hmore
  cases hio : (peek ts s₃).any (·.type = .ioNumber) with
  | false =>
    have hsame : s₃.unread ts = s₃ := by rw [ParserState.unread, hio, if_neg Bool.false_ne_true]
    rw [hsame] at hmore
    exact ⟨rs ++ rs', s₄, hrs.append hmore, (unread_pos ts s₄).symm, by rw [hnode, List.reverse_append]⟩
  | true =>
    -- behind a number without a redirection nothing else is read
    obtain ⟨token, htoken, htype⟩ := (Option.any_eq_true _ _).mp hio
    have htype : token.type = .ioNumber := of_decide_eq_true htype
    have hstarts : startsRedirect token.type = true := by rw [htype]; rfl
    have hpeek : peek ts (s₃.unread ts) = some token := by rw [peek_eq, unread_pos, ← peek_eq, htoken]
    have hend : rs' = [] ∧ s₄ = s₃.unread ts := by
      cases hmore with
      | done => exact ⟨rfl, rfl⟩
      | other htoken' htype' =>
        obtain rfl := Option.some.inj (hpeek.symm.trans htoken')
        exact absurd (htype'.symm.trans hstarts) (by decide)
      | redirect _ _ hr =>
        obtain ⟨hnone, -⟩ | ⟨-, hat, -⟩ := parseRedirect_cases hr
        · cases hnone
        · rw [unread_pos, hends token htoken hstarts] at hat
          cases hat
    obtain ⟨rfl, rfl⟩ := hend
    refine ⟨rs, s₃, hrs, ?_, hnode⟩
    rw [unread_pos, unread_pos]

end

/-! ## The descriptor table -/

/-- The flags of `open`: O_RDONLY, O_WRONLY | O_CREAT | O_TRUNC, O_WRONLY | O_CREAT | O_APPEND and O_RDWR | O_CREAT -/
inductive OpenMode
  | read | truncate | append | readWrite

/-- The open files of the descriptors, of which there is a fixed number -/
abbrev Fds (ω : Type) := List (Option ω)

namespace Fds

/-- What a descriptor stands for -/
def get (fds : Fds ω) (fd : ℤ) : Option ω := if 0 ≤ fd then fds[fd.toNat]?.join else none

/-- The number is that of a descriptor. -/
def Has (fds : Fds ω) (fd : ℤ) : Prop := 0 ≤ fd ∧ fd < fds.length

instance (fds : Fds ω) (fd : ℤ) : Decidable (fds.Has fd) := inferInstanceAs (Decidable (_ ∧ _))

def put (fds : Fds ω) (fd : ℤ) (d : Option ω) : Fds ω := if 0 ≤ fd then fds.set fd.toNat d else fds

/-- The lowest descriptor that is not in use -/
def free (fds : Fds ω) : Option ℕ := fds.findIdx? Option.isNone

/-- `close` -/
def close (fds : Fds ω) (fd : ℤ) : Fds ω := fds.put fd none

/-- `dup2`: `none` when it fails -/
def dup2 (fds : Fds ω) (old new : ℤ) : Option (Fds ω) :=
  (fds.get old).bind fun d => if fds.Has new then some (fds.put new (some d)) else none

end Fds

/-- The descriptors of the shell, and everything else -/
structure Process (ω φ : Type) where
  fds : Fds ω
  rest : φ

/-- What the system and the rest of the shell do -/
structure Kernel (ε ω φ : Type) where
  /-- The open file of a name: `none` when `open` fails -/
  openFile : List Byte → OpenMode → φ → Option ω × φ
  /-- The reading end of a pipe with this text in it -/
  pipe : List Byte → φ → ω × φ
  /-- The assignments of a command, and its words as they are expanded -/
  words : SimpleCommand ε → φ → List (List Byte) × φ
  isInteractive : φ → Bool
  /-- The built-in commands other than `break`, `continue` and `exec`, the external commands, and the functions as far as
  they redirect nothing -/
  invoke : List (List Byte) → Fds ω → Exec φ ExecStatus

/-! ## Redirections of the code -/

/-- The descriptor in `apply_redirect` -/
def Redirect.fd (r : Redirect) : ℤ :=
  match r.ioNumber with
  | some text => atoiText text
  | none => if r.operation = .less then 0 else 1

/-- The number in the place of a file name -/
def Redirect.number (r : Redirect) : ℤ := atoiText (r.filename.getD [])

/-- How a file is opened: `none` for the redirections that open none -/
def RedirectOperation.mode : RedirectOperation → Option OpenMode
  | .less => some .read
  | .great | .clobber => some .truncate
  | .dgreat => some .append
  | .lessgreat => some .readWrite
  | _ => none

namespace Kernel

variable (k : Kernel ε ω φ)

/-- `open`, at the lowest free descriptor -/
def sysOpen (name : List Byte) (mode : OpenMode) (w : Process ω φ) : Option ℤ × Process ω φ :=
  match w.fds.free with
  | none => (none, w)
  | some i =>
    match k.openFile name mode w.rest with
    | (none, rest) => (none, { w with rest := rest })
    | (some d, rest) => (some i, ⟨w.fds.put i (some d), rest⟩)

/-- `pipe`, with the text written to it and its writing end closed -/
def sysPipe (content : List Byte) (w : Process ω φ) : Option ℤ × Process ω φ :=
  match w.fds.free with
  | none => (none, w)
  | some i =>
    let (d, rest) := k.pipe content w.rest
    if ((w.fds.put i (some d)).free).isNone then (none, w) else (some i, ⟨w.fds.put i (some d), rest⟩)

/-- `new_fd` of `apply_redirect`, which calls itself for `<<-` and takes the length of a here-document that is missing: `none`
when it does not return -/
def newFd (r : Redirect) (w : Process ω φ) : Option (Option ℤ × Process ω φ) :=
  match r.operation.mode with
  | some mode => some (k.sysOpen (r.filename.getD []) mode w)
  | none =>
    match r.operation with
    | .dless =>
      let o := k.sysPipe (r.heredocContent.getD []) w
      if o.1.isSome ∧ r.heredocContent.isNone then none else some o
    | .dlessdash => none
    | _ => some (some r.number, w)

/-- `apply_redirect` after that: whether it succeeds -/
def redirectTo (r : Redirect) (o : Option ℤ × Process ω φ) : Bool × Process ω φ :=
  match o.1 with
  | none => (false, o.2)
  | some fd =>
    if fd = -1 then (false, o.2)
    else
      match o.2.fds.dup2 fd r.fd with
      | none => (false, { o.2 with fds := o.2.fds.close fd })
      | some fds => (true, { o.2 with fds := if r.operation = .lessand ∨ r.operation = .greatand then fds else fds.close fd })

/-- `apply_redirect` -/
def applyRedirect (r : Redirect) (w : Process ω φ) : Option (Bool × Process ω φ) := (k.newFd r w).map (redirectTo r)

/-- The loop of `exec_simple_command` over the redirections -/
def applyRedirects : List Redirect → Process ω φ → Option (Bool × Process ω φ)
  | [], w => some (true, w)
  | r :: rs, w =>
    match k.applyRedirect r w with
    | none => none
    | some (false, w) => some (false, w)
    | some (true, w) => applyRedirects rs w

/-- The process when the redirections of a command are applied -/
def ready (c : SimpleCommand ε) (w : Process ω φ) : Process ω φ := { w with rest := (k.words c w.rest).2 }

/-- The parts of `exec_simple_command` -/
def simpleShell : SimpleShell ε (Process ω φ) where
  isInteractive w := k.isInteractive w.rest
  prepare c w := (k.applyRedirects c.redirects (k.ready c w)).map fun r =>
    (if r.1 then some (k.words c w.rest).1 else none, r.2)
  other argv exec :=
    (k.invoke argv exec.world.fds ⟨exec.lastStatus, exec.breakCount, exec.continueCount, exec.loopDepth, exec.world.rest⟩).map fun r =>
      (r.1, ⟨r.2.lastStatus, r.2.breakCount, r.2.continueCount, r.2.loopDepth, ⟨exec.world.fds, r.2.world⟩⟩)

/-! ## What they should do -/

end Kernel

/-- The descriptor that a redirection is about: without a number 0 for input, 1 for output -/
def Redirect.target (r : Redirect) : ℤ :=
  match r.ioNumber with
  | some text => atoiText text
  | none => if r.operation ∈ [.less, .dless, .dlessdash, .lessand, .lessgreat] then 0 else 1

namespace Kernel

variable (k : Kernel ε ω φ)

/-- The open file for the descriptor of a redirection, or that the descriptor is to be closed: `none` when it fails -/
def refersTo (r : Redirect) (w : Process ω φ) : Option (Option ω) × φ :=
  match r.operation.mode with
  | some mode => ((k.openFile (r.filename.getD []) mode w.rest).1.map some, (k.openFile (r.filename.getD []) mode w.rest).2)
  | none =>
    if r.operation = .dless ∨ r.operation = .dlessdash then
      (some (some (k.pipe (r.heredocContent.getD []) w.rest).1), (k.pipe (r.heredocContent.getD []) w.rest).2)
    else if isNumber (r.filename.getD []) then ((w.fds.get r.number).map some, w.rest)
    else if r.filename = some (lit "-") then (some none, w.rest)
    else (none, w.rest)

/-- The descriptors after the redirections, one after another: `none` when one of them fails -/
def redirected : List Redirect → Process ω φ → Option (Fds ω)
  | [], w => some w.fds
  | r :: rs, w =>
    match k.refersTo r w with
    | (none, _) => none
    | (some d, rest) => if w.fds.Has r.target then redirected rs ⟨w.fds.put r.target d, rest⟩ else none

end Kernel

/-! ## Runs -/

/-- The command has these redirections, in the order of the source. -/
def Parses (c : SimpleCommand ε) (source : List Redirect) : Prop :=
  ∃ ts parseExpansion n s s₁ s', parseSimpleCommand ts parseExpansion n s = some (some c, s') ∧ Redirections ts s source s₁ ∧
    s₁.pos = s'.pos

/-- The redirection copies a descriptor onto one with the same open file. -/
def Idle (fds : Fds ω) (r : Redirect) : Prop :=
  (r.operation = .lessand ∨ r.operation = .greatand) ∧ isNumber (r.filename.getD []) = true ∧ r.fd = r.target ∧ fds.Has r.fd ∧
    (fds.get r.fd).isSome ∧ fds.get r.number = fds.get r.fd

namespace Kernel

variable (k : Kernel ε ω φ)

/-- The redirections of a command are applied, in the order of the source, and the shell's own descriptors stay as they are. -/
def AppliesLocally (c : SimpleCommand ε) (source : List Redirect) (w : Process ω φ) : Prop :=
  ∃ ok w', k.applyRedirects c.redirects w = some (ok, w') ∧ (if ok then some w'.fds else none) = k.redirected source w ∧
    w'.fds = w.fds

/-- Commands one after another, each with its redirections in the order of the source, keep to this. -/
def KeepsDescriptors : List (SimpleCommand ε × List Redirect) → Executor (Process ω φ) → Prop
  | [], _ => True
  | (c, source) :: cs, exec => k.AppliesLocally c source (k.ready c exec.world) ∧
    ∀ ret exec', execSimpleCommand k.simpleShell c exec = some (ret, exec') →
      exec'.world.fds = exec.world.fds ∧ KeepsDescriptors cs exec'

/-- The redirection fails before it changes a descriptor. -/
def Refuses (r : Redirect) (w : Process ω φ) : Prop :=
  (∃ mode, r.operation.mode = some mode ∧ ((k.sysOpen (r.filename.getD []) mode w).1 = none ∨ ¬w.fds.Has r.fd)) ∨
    (r.operation = .dless ∧
      ((k.sysPipe (r.heredocContent.getD []) w).1 = none ∨ r.heredocContent.isSome ∧ ¬w.fds.Has r.fd)) ∨
    (r.operation = .lessand ∨ r.operation = .greatand) ∧ w.fds.get r.number = none

/-- The redirections copy descriptors onto ones with the same open file; or those behind one that fails do, and in the order
of the source one fails as well. -/
def Harmless (source : List Redirect) (w : Process ω φ) : Prop :=
  (∀ r ∈ source, Idle w.fds r) ∨
    ∃ before r after, source = before ++ r :: after ∧ (∀ r' ∈ after, Idle w.fds r') ∧ k.Refuses r w ∧ k.redirected source w = none

/-- The redirections of each command are harmless when it comes to it. -/
def HarmlessRun : List (SimpleCommand ε × List Redirect) → Executor (Process ω φ) → Prop
  | [], _ => True
  | (c, source) :: cs, exec => k.Harmless source (k.ready c exec.world) ∧
    ∀ ret exec', execSimpleCommand k.simpleShell c exec = some (ret, exec') → HarmlessRun cs exec'

end Kernel

section
variable {fds : Fds ω} {fd : ℤ} {d : ω} {i : ℕ}

theorem Parses.redirects {c : SimpleCommand ε} {source : List Redirect} (h : Parses c source) : c.redirects = source.reverse := by
  obtain ⟨ts, parseExpansion, n, s, s₁, s', hparse, hsource, hpos⟩ := h
  obtain ⟨rs, s₂, hrs, hpos', hc⟩ := parseSimpleCommand_redirections hparse
  rw [hc, hrs.unique hsource (hpos'.trans hpos.symm)]

theorem set_of_getElem? {o : Option ω} (h : fds[i]? = some o) : fds.set i o = fds := by
  obtain ⟨hlt, rfl⟩ := List.getElem?_eq_some_iff.mp h
  exact List.set_getElem_self hlt

theorem Fds.put_of_get (h : fds.get fd = some d) : fds.put fd (some d) = fds := by
  unfold Fds.get at h
  unfold Fds.put
  split_ifs at h with hfd
  rw [if_pos hfd]
  exact set_of_getElem? (Option.join_eq_some_iff.mp h)

theorem Fds.close_of_get (h : fds.get fd = none) : fds.close fd = fds := by
  unfold Fds.get at h
  unfold Fds.close Fds.put
  split_ifs at h ⊢ with hfd
  · cases hget : fds[fd.toNat]? with
    | none => exact List.set_eq_of_length_le (List.getElem?_eq_none_iff.mp hget)
    | some o =>
      rw [hget, Option.join_some] at h
      rw [h] at hget
      exact set_of_getElem? hget
  · rfl

/-- A file that is opened at a free descriptor, and closed again -/
theorem Fds.put_free (h : fds.free = some i) : (fds.put i (some d)).get i = some d ∧ (fds.put i (some d)).close i = fds := by
  obtain ⟨hlt, hnone, -⟩ := List.findIdx?_eq_some_iff_getElem.mp h
  have hnone : fds[i]? = some none := by rw [List.getElem?_eq_getElem hlt, Option.isNone_iff_eq_none.mp hnone]
  have hput (o : Option ω) (fds : Fds ω) : fds.put i o = fds.set i o := by simp [Fds.put]
  refine ⟨?_, ?_⟩
  · rw [hput, Fds.get, if_pos (Int.natCast_nonneg i), Int.toNat_natCast, List.getElem?_set_self hlt, Option.join_some]
  · rw [Fds.close, hput, hput, List.set_set, set_of_getElem? hnone]

theorem Fds.has_put {o : Option ω} {new : ℤ} : (fds.put fd o).Has new ↔ fds.Has new := by
  unfold Fds.Has Fds.put
  split_ifs <;> simp

end

namespace Kernel

variable {k : Kernel ε ω φ} {r : Redirect} {rs : List Redirect} {w w' : Process ω φ}

theorem applyRedirect_idle (h : Idle w.fds r) : k.applyRedirect r w = some (true, w) := by
  obtain ⟨hop, -, -, hhas, hopen, hsame⟩ := h
  obtain ⟨d, hd⟩ := Option.isSome_iff_exists.mp hopen
  rw [hd] at hsame
  have hnumber : r.number ≠ -1 := by
    intro h
    rw [h] at hsame
    cases hsame
  have hdup : w.fds.dup2 r.number r.fd = some w.fds := by
    rw [Fds.dup2, hsame, Option.bind_some, if_pos hhas, Fds.put_of_get hd]
  have hnew : k.newFd r w = some (some r.number, w) := by
    unfold newFd
    obtain hop | hop := hop <;> rw [hop] <;> rfl
  rw [applyRedirect, hnew, Option.map_some, redirectTo]
  simp only [if_neg hnumber, hdup, if_pos hop]

theorem redirected_idle (h : Idle w.fds r) : k.redirected (r :: rs) w = k.redirected rs w := by
  obtain ⟨hop, hnumber, htarget, hhas, hopen, hsame⟩ := h
  obtain ⟨d, hd⟩ := Option.isSome_iff_exists.mp hopen
  rw [hd] at hsame
  have hrefers : k.refersTo r w = (some (some d), w.rest) := by
    unfold refersTo
    obtain hop | hop := hop
    · simp [hop, RedirectOperation.mode, hnumber, hsame]
    · simp [hop, RedirectOperation.mode, hnumber, hsame]
  rw [redirected, hrefers]
  dsimp only
  rw [← htarget, if_pos hhas, Fds.put_of_get hd]

theorem applyRedirects_idle (h : ∀ r ∈ rs, Idle w.fds r) (rest : List Redirect) :
    k.applyRedirects (rs ++ rest) w = k.applyRedirects rest w := by
  induction rs with
  | nil => rfl
  | cons r rs ih =>
    obtain ⟨hr, hrs⟩ := List.forall_mem_cons.mp h
    rw [List.cons_append, applyRedirects, applyRedirect_idle hr]
    exact ih hrs

theorem redirected_idles (h : ∀ r ∈ rs, Idle w.fds r) : k.redirected rs w = some w.fds := by
  induction rs with
  | nil => rfl
  | cons r rs ih =>
    obtain ⟨hr, hrs⟩ := List.forall_mem_cons.mp h
    rw [redirected_idle hr]
    exact ih hrs

/-- What `open` and `pipe` come to: a new descriptor for a file, or nothing -/
def Opens (w : Process ω φ) (o : Option ℤ × Process ω φ) : Prop :=
  (o.1 = none ∧ o.2.fds = w.fds) ∨ ∃ (i : ℕ) (d : ω) (rest : φ), w.fds.free = some i ∧
    o = (some (i : ℤ), (⟨w.fds.put i (some d), rest⟩ : Process ω φ))

theorem sysOpen_opens (name : List Byte) (mode : OpenMode) : Opens w (k.sysOpen name mode w) := by
  unfold sysOpen
  cases hfree : w.fds.free with
  | none => exact .inl ⟨rfl, rfl⟩
  | some i =>
    dsimp only
    split
    · exact .inl ⟨rfl, rfl⟩
    · exact .inr ⟨i, _, _, hfree, rfl⟩

theorem sysPipe_opens (content : List Byte) : Opens w (k.sysPipe content w) := by
  unfold sysPipe
  cases hfree : w.fds.free with
  | none => exact .inl ⟨rfl, rfl⟩
  | some i =>
    dsimp only
    split
    · exact .inl ⟨rfl, rfl⟩
    · exact .inr ⟨i, _, _, hfree, rfl⟩

/-- A file that can not be opened, or is for a descriptor that there is not -/
theorem redirectTo_opens {o : Option ℤ × Process ω φ} (h : Opens w o) (hfails : o.1 = none ∨ ¬w.fds.Has r.fd) :
    (redirectTo r o).1 = false ∧ (redirectTo r o).2.fds = w.fds := by
  obtain ⟨hnone, hfds⟩ | ⟨i, d, rest, hfree, rfl⟩ := h
  · rw [redirectTo, hnone]
    exact ⟨rfl, hfds⟩
  · obtain ⟨hget, hclose⟩ := Fds.put_free (d := d) hfree
    have hhas : ¬(w.fds.put i (some d)).Has r.fd := by
      rw [Fds.has_put]
      exact hfails.resolve_left (Option.some_ne_none _)
    have hdup : (w.fds.put i (some d)).dup2 i r.fd = none := by rw [Fds.dup2, hget, Option.bind_some, if_neg hhas]
    have hne : (i : ℤ) ≠ -1 := by omega
    simp only [redirectTo, if_neg hne, hdup, hclose, and_self]

theorem applyRedirect_refuses (h : k.Refuses r w) : ∃ w', k.applyRedirect r w = some (false, w') ∧ w'.fds = w.fds := by
  have hresult {o : Option ℤ × Process ω φ} (hnew : k.newFd r w = some o)
      (hfails : (redirectTo r o).1 = false ∧ (redirectTo r o).2.fds = w.fds) :
      ∃ w', k.applyRedirect r w = some (false, w') ∧ w'.fds = w.fds := by
    refine ⟨(redirectTo r o).2, ?_, hfails.2⟩
    rw [applyRedirect, hnew, Option.map_some, ← hfails.1]
  obtain ⟨mode, hmode, hfails⟩ | ⟨hop, hfails⟩ | ⟨hop, hnone⟩ := h
  · refine hresult ?_ (redirectTo_opens (sysOpen_opens (r.filename.getD []) mode) hfails)
    rw [newFd, hmode]
  · refine hresult ?_ (redirectTo_opens (sysPipe_opens (r.heredocContent.getD [])) (hfails.imp_right And.right))
    unfold newFd
    rw [hop]
    simp only [RedirectOperation.mode]
    refine if_neg fun hcrash => ?_
    obtain hnone | ⟨hsome, -⟩ := hfails
    · rw [hnone] at hcrash
      cases hcrash.1
    · rw [Option.isNone_iff_eq_none.mp hcrash.2] at hsome
      cases hsome
  · have hnew : k.newFd r w = some (some r.number, w) := by
      unfold newFd
      obtain hop | hop := hop <;> rw [hop] <;> rfl
    refine hresult hnew ?_
    by_cases hnumber : r.number = -1
    · simp only [redirectTo, if_pos hnumber, and_self]
    · have hdup : w.fds.dup2 r.number r.fd = none := by rw [Fds.dup2, hnone, Option.bind_none]
      simp only [redirectTo, if_neg hnumber, hdup, Fds.close_of_get hnone, and_self]

/-- Harmless redirections are applied as they should be, in spite of their order. -/
theorem appliesLocally_of_harmless {c : SimpleCommand ε} {source : List Redirect} (hc : c.redirects = source.reverse)
    (h : k.Harmless source w) : k.AppliesLocally c source w := by
  unfold AppliesLocally
  rw [hc]
  obtain hidle | ⟨before, r, after, rfl, hidle, hrefuses, hfails⟩ := h
  · have hreverse : ∀ r ∈ source.reverse, Idle w.fds r := fun r hr => hidle r (List.mem_reverse.mp hr)
    have happly : k.applyRedirects source.reverse w = some (true, w) := by
      have := applyRedirects_idle (k := k) hreverse []
      rwa [List.append_nil] at this
    exact ⟨true, w, happly, (redirected_idles hidle).symm, rfl⟩
  · obtain ⟨w', hfail, hfds⟩ := applyRedirect_refuses hrefuses
    have hreverse : ∀ r ∈ after.reverse, Idle w.fds r := fun r hr => hidle r (List.mem_reverse.mp hr)
    refine ⟨false, w', ?_, hfails.symm, hfds⟩
    rw [List.reverse_append, List.reverse_cons, List.append_assoc, applyRedirects_idle hreverse, List.singleton_append,
      applyRedirects, hfail]

/-- A command that returns leaves the descriptors as its redirections made them. -/
theorem execSimpleCommand_fds {c : SimpleCommand ε} {exec exec' : Executor (Process ω φ)} {ret : ExecStatus} {ok : Bool}
    (happly : k.applyRedirects c.redirects (k.ready c exec.world) = some (ok, w'))
    (h : execSimpleCommand k.simpleShell c exec = some (ret, exec')) : exec'.world.fds = w'.fds := by
  have hprepare : k.simpleShell.prepare c exec.world = some (if ok then some (k.words c exec.world.rest).1 else none, w') := by
    change Option.map _ (k.applyRedirects c.redirects (k.ready c exec.world)) = _
    rw [happly]
    rfl
  have hbuiltin {argv : List (List Byte)} {e e' : Executor (Process ω φ)} {ret : ExecStatus} :
      (builtinBreak k.simpleShell.isInteractive argv e = some (ret, e') → e'.world = e.world) ∧
        (builtinContinue k.simpleShell.isInteractive argv e = some (ret, e') → e'.world = e.world) := by
    unfold builtinBreak builtinContinue builtinError
    refine ⟨fun h => ?_, fun h => ?_⟩
    · split at h
      · split_ifs at h
        cases h
        rfl
      · cases h
        rfl
    · split at h
      · split_ifs at h
        cases h
        rfl
      · cases h
        rfl
  unfold execSimpleCommand at h
  rw [hprepare] at h
  cases ok with
  | false =>
    cases h
    rfl
  | true =>
    simp only [if_true] at h
    split at h
    · cases h
      rfl
    · split_ifs at h
      · rw [hbuiltin.1 h]
      · rw [hbuiltin.2 h]
      · obtain ⟨r, -, hr⟩ := Option.map_eq_some_iff.mp h
        obtain ⟨-, rfl⟩ := Prod.mk.inj hr
        rfl

/-- Every name is that of the one file, and every command succeeds. -/
def single (d : ω) : Kernel ε ω Unit where
  openFile _ _ _ := (some d, ())
  pipe _ _ := (d, ())
  words c _ := (c.command.toList ++ c.suffix, ())
  isInteractive _ := false
  invoke _ _ exec := some (.success, { exec with lastStatus := 0 })

end Kernel

end ValidcTools.Sh23
