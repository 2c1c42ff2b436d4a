import ValidcTools.Batch.Commands

/-! What the loop does for a script within the limits. -/
namespace ValidcTools.Batch

/-! ## Arguments -/

/-- What is left after a quoted text for which there is room -/
theorem readQuoted_rest {room : ℕ} {p : List Byte} (last : Byte) (hroom : (unquote p).1.length < room) :
    (readQuoted room p last).rest = afterQuote p := by
  fun_induction readQuoted room p last with
  | case1 => exact absurd hroom (Nat.not_lt_zero _)
  | case2 => rfl
  | case3 => rfl
  | case4 last room c p q ih => exact ih (Nat.lt_of_succ_lt_succ hroom)
  | case5 last room p => rfl
  | case6 last room c p hone htwo hquote q ih =>
    rw [unquote_other hone htwo hquote] at hroom
    rw [afterQuote, if_neg hquote]
    · exact ih (Nat.lt_of_succ_lt_succ hroom)
    · exact hone
    · exact htwo

theorem parseOneArg_blank {p : List Byte} (h : p.dropWhile isSpace = []) (outsz : ℕ) : parseOneArg p outsz = none := by
  unfold parseOneArg
  rw [h]

theorem readArgument_blank {p : List Byte} (h : p.dropWhile isSpace = []) : readArgument p = none := by
  unfold readArgument
  rw [h]

theorem parseOneArg_quoted {p q : List Byte} (h : p.dropWhile isSpace = 0x22 :: q) (outsz : ℕ) :
    parseOneArg p outsz =
      if (readQuoted (outsz - 1) q '"').last ≠ '"' ∧ (readQuoted (outsz - 1) q '"').text.length < outsz - 1 then none
      else some ((readQuoted (outsz - 1) q '"').text, (readQuoted (outsz - 1) q '"').rest) := by
  unfold parseOneArg
  rw [h]
  rfl

theorem readArgument_quoted {p q : List Byte} (h : p.dropWhile isSpace = 0x22 :: q) :
    readArgument p = if (unquote q).2 then some ((unquote q).1, afterQuote q) else none := by
  unfold readArgument
  rw [h]
  rfl

theorem parseOneArg_plain {p : List Byte} {c : Byte} {q : List Byte} (h : p.dropWhile isSpace = c :: q) (hc : c ≠ '"')
    (outsz : ℕ) :
    parseOneArg p outsz = some (((c :: q).takeWhile (!isSpace ·)).take (outsz - 1),
      (c :: q).drop (((c :: q).takeWhile (!isSpace ·)).take (outsz - 1)).length) := by
  unfold parseOneArg
  rw [h]
  split
  · next heq => cases heq
  · next heq => exact absurd (List.cons.inj heq).1 hc
  · rfl

theorem readArgument_plain {p : List Byte} {c : Byte} {q : List Byte} (h : p.dropWhile isSpace = c :: q) (hc : c ≠ '"') :
    readArgument p = some ((c :: q).takeWhile (!isSpace ·), (c :: q).dropWhile (!isSpace ·)) := by
  unfold readArgument
  rw [h]
  split
  · next heq => cases heq
  · next heq => exact absurd (List.cons.inj heq).1 hc
  · rfl

/-- Where there is room, the argument that is read is the one that stands there. -/
theorem parseOneArg_eq {p : List Byte} (h : ArgumentFits p) : parseOneArg p MAX_VAR_VALUE = readArgument p := by
  obtain ⟨hquoted, hplain⟩ := h
  cases hp : p.dropWhile isSpace with
  | nil => rw [parseOneArg_blank hp, readArgument_blank hp]
  | cons c q =>
    rw [hp] at hquoted hplain
    by_cases hc : c = '"'
    · subst hc
      obtain ⟨hroom, hend⟩ := hquoted rfl
      change (unquote q).1.length < MAX_VAR_VALUE - 1 at hroom
      have htext : (readQuoted (MAX_VAR_VALUE - 1) q '"').text = (unquote q).1 := by
        rw [readQuoted_text, List.take_of_length_le hroom.le]
      rw [parseOneArg_quoted hp, readArgument_quoted hp, htext, readQuoted_rest _ hroom, readQuoted_last _ hroom]
      cases hclosed : (unquote q).2 with
      | true => rw [if_pos rfl, if_pos rfl, if_neg fun h => h.1 rfl]
      | false =>
        rw [if_neg Bool.false_ne_true, if_neg Bool.false_ne_true]
        refine if_pos ⟨fun hlast => hend ⟨rfl, hclosed, hroom, ?_⟩, hroom⟩
        rw [List.getLast?_eq_some_getLast (List.cons_ne_nil _ _)]
        exact congrArg some hlast
    · have hlength := hplain fun heq => hc (Option.some.inj heq)
      have hout : ((c :: q).takeWhile (!isSpace ·)).take (MAX_VAR_VALUE - 1) = (c :: q).takeWhile (!isSpace ·) :=
        List.take_of_length_le (Nat.le_pred_of_lt hlength)
      have hrest : (c :: q).drop ((c :: q).takeWhile (!isSpace ·)).length = (c :: q).dropWhile (!isSpace ·) := by
        conv_lhs => enter [2]; rw [← List.takeWhile_append_dropWhile (l := c :: q) (p := (!isSpace ·))]
        exact List.drop_left
      rw [parseOneArg_plain hp hc, readArgument_plain hp hc, hout, hrest]

/-- Where there is room, a text is expanded as it is meant. -/
theorem expandVariables_eq {u : Bool} {vars : Vars} {s : List Byte} {outsz : ℕ}
    (h : ExpansionFits u (lookup vars) s outsz) : expandVariables u vars s outsz = expansion u (lookup vars) s := by
  obtain ⟨hnames, hlength⟩ := h
  unfold expandVariables expansion
  cases he : (expanded u (lookup vars) s).2 with
  | true =>
    rw [he, if_pos rfl] at hlength
    rw [if_pos rfl, expandLoop_of_fits hnames he ((Nat.zero_add _).trans_lt hlength)]
    rfl
  | false =>
    rw [he, if_neg Bool.false_ne_true] at hlength
    rw [if_neg Bool.false_ne_true]
    exact expandLoop_eq_none he ((Nat.zero_add _).trans_lt hlength)

/-- Outside of any block a condition is decided as it is meant. -/
theorem conditional_eq {flags : Flags} {equal : Bool} {p : List Byte} {l : Loop} (hblock : l.inIfBlock = false)
    (h : ConditionFits flags.undefinedError (lookup l.vars) p) :
    conditional flags equal p l =
      (condition flags.undefinedError (lookup l.vars) equal p).elim (.error l)
        fun holds => .ok { l with fullCmd := [], inIfBlock := true, executeIfBlock := holds } := by
  obtain ⟨hfirst, hsecond, hexpansions⟩ := h
  unfold conditional condition twoArguments at *
  rw [if_neg (Bool.eq_false_iff.mp hblock), parseOneArg_eq hfirst]
  cases hone : readArgument p with
  | none => rfl
  | some a =>
    rw [hone] at hexpansions
    dsimp only
    rw [parseOneArg_eq (hsecond a hone), Option.bind_some]
    rw [Option.bind_some] at hexpansions
    cases htwo : readArgument a.2 with
    | none => rfl
    | some b =>
      rw [htwo] at hexpansions
      obtain ⟨he1, he2⟩ := hexpansions (a.1, b.1) rfl
      dsimp only [Option.map_some, Option.bind_some]
      rw [expandVariables_eq he1]
      cases expansion flags.undefinedError (lookup l.vars) a.1 with
      | none => rfl
      | some e1 =>
        dsimp only [Option.bind_some]
        rw [expandVariables_eq he2]
        cases expansion flags.undefinedError (lookup l.vars) b.1 with
        | none => rfl
        | some e2 => rfl

/-! ## Complete commands -/

/-- The loop between two lines, and the session with a line that is to be continued -/
structure Agrees (l : Loop) (pending : Option (List Byte)) (s : Session) : Prop where
  vars : l.vars = s.vars
  commands : l.commands = s.commands
  inIfBlock : l.inIfBlock = s.block.isSome
  executeIfBlock : l.executeIfBlock = (s.block == some true)
  continuing : l.continuing = pending.isSome
  fullCmd : ∀ p ∈ pending, l.fullCmd = p.take MAX_COMMAND
  running : s.stopped = false

/-- The loop goes on as the session does, or has ended with its commands. -/
def Follows (r : Except Loop Loop) (pending : Option (List Byte)) (s : Session) : Prop :=
  match r with
  | .ok l => Agrees l pending s
  | .error l => l.commands = s.commands ∧ s.stopped = true

section
variable {flags : Flags} {system : System} {l : Loop} {s : Session}

theorem Agrees.skips (h : Agrees l none s) : Agrees { l with fullCmd := [] } none s :=
  ⟨h.vars, h.commands, h.inIfBlock, h.executeIfBlock, h.continuing, fun _ hp => (Option.not_mem_none _ hp).elim, h.running⟩

theorem Agrees.stops (h : Agrees l none s) : Follows (.error l) none { s with stopped := true } := ⟨h.commands, rfl⟩

theorem Agrees.step (h : Agrees l none s) {k : Kind} {line : List Byte} (hk : kind (line.dropWhile isSpace) = k) :
    s.step flags system line = s.stepKind flags system line k := by
  unfold Session.step
  rw [hk, h.running]
  rfl

theorem Agrees.executes_condition (h : Agrees l none s) {equal : Bool} {p : List Byte}
    (hfits : s.block = none → ConditionFits flags.undefinedError (lookup s.vars) p) :
    Follows (conditional flags equal p l) none (s.stepKind flags system l.fullCmd (.condition equal p)) := by
  have hblock := h.inIfBlock
  unfold Session.stepKind
  cases hs : s.block with
  | some holds =>
    rw [hs] at hblock
    have he : conditional flags equal p l = .error l := if_pos hblock
    rw [he]
    exact h.stops
  | none =>
    rw [hs] at hblock
    rw [conditional_eq hblock (h.vars ▸ hfits hs), h.vars]
    dsimp only
    cases condition flags.undefinedError (lookup s.vars) equal p with
    | none => exact h.stops
    | some holds =>
      refine ⟨rfl, h.commands, rfl, ?_, h.continuing, fun _ hp => (Option.not_mem_none _ hp).elim, h.running⟩
      cases holds with
      | false => rfl
      | true => rfl

/-- The branch of a block whose condition did not hold -/
theorem Agrees.passes (h : Agrees l none s) : (l.inIfBlock && !l.executeIfBlock) = decide (s.block = some false) := by
  rw [h.inIfBlock, h.executeIfBlock]
  cases s.block with
  | none => rfl
  | some holds =>
    cases holds with
    | false => rfl
    | true => rfl

/-- The last branch of the loop body -/
theorem Agrees.executes_command (h : Agrees l none s) (hblock : s.block ≠ some false)
    (hfits : ExpansionFits flags.undefinedError (lookup s.vars) (l.fullCmd.dropWhile isSpace) MAX_EXPANDED) :
    Follows
      ((expandVariables flags.undefinedError l.vars (l.fullCmd.dropWhile isSpace) MAX_EXPANDED).elim (.error l)
        fun expanded =>
          if flags.dryRun then .ok { l with fullCmd := [] }
          else if system (l.commands ++ [expanded]) ≠ 0 ∧ flags.ignoreErrors = false then
            .error { l with commands := l.commands ++ [expanded] }
          else .ok { l with fullCmd := [], commands := l.commands ++ [expanded] })
      none (s.stepKind flags system l.fullCmd .command) := by
  have hstep : s.stepKind flags system l.fullCmd .command =
      (expansion flags.undefinedError (lookup s.vars) (l.fullCmd.dropWhile isSpace)).elim { s with stopped := true }
        (s.call flags system) := by
    unfold Session.stepKind
    cases hs : s.block with
    | none => cases expansion flags.undefinedError (lookup s.vars) (l.fullCmd.dropWhile isSpace) <;> rfl
    | some holds =>
      cases holds with
      | false => exact absurd hs hblock
      | true => cases expansion flags.undefinedError (lookup s.vars) (l.fullCmd.dropWhile isSpace) <;> rfl
  have hexpand : expandVariables flags.undefinedError l.vars (l.fullCmd.dropWhile isSpace) MAX_EXPANDED =
      expansion flags.undefinedError (lookup s.vars) (l.fullCmd.dropWhile isSpace) := by
    rw [h.vars]
    exact expandVariables_eq hfits
  rw [hstep, hexpand]
  cases expansion flags.undefinedError (lookup s.vars) (l.fullCmd.dropWhile isSpace) with
  | none => exact h.stops
  | some command =>
    have hcommands : l.commands ++ [command] = s.commands ++ [command] := congrArg (· ++ [command]) h.commands
    dsimp only [Option.elim_some]
    unfold Session.call
    split_ifs with hdry hfailed
    · exact h.skips
    · rw [hcommands] at hfailed
      refine ⟨hcommands, ?_⟩
      dsimp only
      rw [decide_eq_true hfailed.1, hfailed.2]
      rfl
    · rw [hcommands] at hfailed
      refine ⟨h.vars, hcommands, h.inIfBlock, h.executeIfBlock, h.continuing,
        fun _ hp => (Option.not_mem_none _ hp).elim, ?_⟩
      dsimp only
      rw [Bool.and_eq_false_iff, decide_eq_false_iff_not, Bool.not_eq_false']
      by_cases hzero : system (s.commands ++ [command]) ≠ 0
      · exact Or.inr (Bool.not_eq_false _ ▸ fun hignore => hfailed ⟨hzero, hignore⟩)
      · exact Or.inl hzero

theorem Agrees.executes_endif (h : Agrees l none s) :
    Follows
      (if l.inIfBlock then .ok { l with fullCmd := [], inIfBlock := false, executeIfBlock := false } else .error l) none
      (s.stepKind flags system l.fullCmd .endif) := by
  have hblock := h.inIfBlock
  unfold Session.stepKind
  cases hs : s.block with
  | none =>
    rw [hs] at hblock
    rw [if_neg (Bool.eq_false_iff.mp hblock)]
    exact h.stops
  | some holds =>
    have hin : l.inIfBlock = true := hblock.trans (congrArg Option.isSome hs)
    rw [if_pos hin]
    exact ⟨h.vars, h.commands, rfl, rfl, h.continuing, fun _ hp => (Option.not_mem_none _ hp).elim, h.running⟩

theorem Agrees.executes_builtin (h : Agrees l none s) {b : Builtin} :
    Follows
      (if decide (s.block = some false) then .ok { l with fullCmd := [] }
        else .ok { l with fullCmd := [], vars := (b.run flags.undefinedError l.fullCmd l.vars).vars })
      none (s.stepKind flags system l.fullCmd (.builtin b)) := by
  have hnone {p : List Byte} (q : List Byte) (hq : q ∈ (none : Option (List Byte))) : p = q.take MAX_COMMAND :=
    (Option.not_mem_none _ hq).elim
  have hvars := congrArg (fun vars => (b.run flags.undefinedError l.fullCmd vars).vars) h.vars
  have hblock := h.inIfBlock
  have hexecute := h.executeIfBlock
  unfold Session.stepKind
  cases hs : s.block with
  | none =>
    rw [hs] at hblock hexecute
    exact ⟨hvars, h.commands, hblock, hexecute, h.continuing, hnone, h.running⟩
  | some holds =>
    rw [hs] at hblock hexecute
    cases holds with
    | false => exact h.skips
    | true => exact ⟨hvars, h.commands, hblock, hexecute, h.continuing, hnone, h.running⟩

/-- A complete command does what its line does in the session. -/
theorem Agrees.executes (h : Agrees l none s) (hfits : Fits flags s l.fullCmd) :
    Follows (execute flags system l) none (s.step flags system l.fullCmd) := by
  have hkind : kind (l.fullCmd.dropWhile isSpace) = kind (l.fullCmd.dropWhile isSpace) := rfl
  unfold execute
  dsimp only
  conv_rhs at hkind => unfold kind
  by_cases hblank : l.fullCmd.dropWhile isSpace = []
  · rw [if_pos hblank] at hkind ⊢
    rw [h.step hkind]
    exact h.skips
  rw [if_neg hblank] at hkind ⊢
  by_cases hifeq : startsWord (CString.lit "ifeq").bytes (l.fullCmd.dropWhile isSpace) = true
  · rw [if_pos hifeq] at hkind ⊢
    rw [h.step hkind]
    exact h.executes_condition (hfits.condition _ _ hkind)
  rw [if_neg hifeq] at hkind ⊢
  by_cases hifneq : startsWord (CString.lit "ifneq").bytes (l.fullCmd.dropWhile isSpace) = true
  · rw [if_pos hifneq] at hkind ⊢
    rw [h.step hkind]
    exact h.executes_condition (hfits.condition _ _ hkind)
  rw [if_neg hifneq] at hkind ⊢
  by_cases hendif : startsWord (CString.lit "endif").bytes (l.fullCmd.dropWhile isSpace) = true
  · rw [if_pos hendif] at hkind ⊢
    rw [h.step hkind]
    exact h.executes_endif
  rw [if_neg hendif] at hkind ⊢
  rw [h.passes]
  cases hbuiltin : findBuiltin (l.fullCmd.dropWhile isSpace) with
  | some b =>
    rw [hbuiltin] at hkind
    rw [h.step hkind]
    exact h.executes_builtin
  | none =>
    rw [hbuiltin] at hkind
    rw [h.step hkind]
    by_cases hpass : s.block = some false
    · rw [decide_eq_true hpass, if_pos rfl]
      unfold Session.stepKind
      rw [hpass]
      exact h.skips
    · rw [decide_eq_false hpass, if_neg Bool.false_ne_true]
      have hcommand : Follows _ none (s.stepKind flags system l.fullCmd .command) :=
        h.executes_command hpass (hfits.command hkind hpass)
      cases hexpand : expandVariables flags.undefinedError l.vars (l.fullCmd.dropWhile isSpace) MAX_EXPANDED with
      | none =>
        rw [hexpand] at hcommand
        exact hcommand
      | some expanded =>
        rw [hexpand] at hcommand
        exact hcommand

/-! ## Lines -/

/-- What the buffer holds of a continued command after its next line -/
theorem appendLine_take (p line : List Byte) :
    appendLine (p.take MAX_COMMAND) line = (joined (some p) line).take MAX_COMMAND := by
  have hroom : 0 < MAX_COMMAND := by decide
  cases p with
  | nil =>
    unfold appendLine joined
    rw [List.take_nil, if_neg fun h => h.1 rfl]
    rfl
  | cons c p =>
    have hne : (c :: p).take MAX_COMMAND ≠ [] := by
      rw [Ne, List.take_eq_nil_iff]
      exact fun h => h.elim hroom.ne' (List.cons_ne_nil c p)
    change (let cmd := if _ ∧ _ then (c :: p).take MAX_COMMAND ++ [0x20] else (c :: p).take MAX_COMMAND
      cmd ++ line.take (MAX_COMMAND - cmd.length)) = ((c :: p) ++ 0x20 :: line).take MAX_COMMAND
    dsimp only
    by_cases hlong : MAX_COMMAND ≤ (c :: p).length
    · have hlength : ((c :: p).take MAX_COMMAND).length = MAX_COMMAND := List.length_take_of_le hlong
      have hfull : ¬((c :: p).take MAX_COMMAND ≠ [] ∧ ((c :: p).take MAX_COMMAND).length < MAX_COMMAND) :=
        fun h => h.2.ne hlength
      rw [if_neg hfull, hlength, Nat.sub_self, List.take_zero, List.append_nil, List.take_append_of_le_length hlong]
    · have hjoined : (c :: p) ++ 0x20 :: line = ((c :: p) ++ [0x20]) ++ line := List.append_cons _ _ _
      have hlength : ((c :: p) ++ [0x20]).length ≤ MAX_COMMAND := by
        rw [List.length_append]
        exact not_le.mp hlong
      rw [List.take_of_length_le (not_le.mp hlong).le] at hne ⊢
      rw [if_pos ⟨hne, not_le.mp hlong⟩, hjoined, List.take_append, List.take_of_length_le hlength]

theorem Session.run_append (lines : List (List Byte)) (line : List Byte) :
    Session.run flags system (lines ++ [line]) = (Session.run flags system lines).step flags system line :=
  List.foldl_append

/-- The loop body for one line, and the line added to the joined ones -/
theorem Agrees.turns {j : Joined} (h : Agrees l j.pending (Session.run flags system j.lines)) (buf : List Byte)
    (hfits : ∀ line, (j.add (cut buf)).lines = j.lines ++ [line] → Fits flags (Session.run flags system j.lines) line) :
    Follows (turn flags system buf l) (j.add (cut buf)).pending (Session.run flags system (j.add (cut buf)).lines) := by
  have hpending : l.continuing = false ↔ j.pending = none := by
    rw [h.continuing]
    cases j.pending with
    | none => exact iff_of_true rfl rfl
    | some p => exact iff_of_false Bool.true_eq_false.mp (Option.some_ne_none p)
  have hcommand (line : List Byte) : (if l.continuing then appendLine l.fullCmd line else line.take MAX_COMMAND) =
      (joined j.pending line).take MAX_COMMAND := by
    have hfull := h.fullCmd
    rw [h.continuing]
    cases hp : j.pending with
    | none => rfl
    | some p => rw [Option.isSome_some, if_pos rfl, hfull p hp, appendLine_take]
  by_cases hskip : j.pending = none ∧ ((cut buf).head? = some (';' : Byte) ∨ cut buf = [])
  · have hturn : turn flags system buf l = .ok l := if_pos ⟨hpending.mpr hskip.1, hskip.2⟩
    have hadd : j.add (cut buf) = j := if_pos hskip
    rw [hturn, hadd]
    exact h
  have hkeep : ¬(l.continuing = false ∧ ((cut buf).head? = some (';' : Byte) ∨ cut buf = [])) :=
    fun heq => hskip ⟨hpending.mp heq.1, heq.2⟩
  by_cases hcont : (cut buf).getLast? = some ('\\' : Byte)
  · have hturn : turn flags system buf l = .ok
        { l with
          fullCmd := (joined j.pending (stripTrailingWs (cut buf).dropLast)).take MAX_COMMAND
          continuing := true } := by
      unfold turn
      dsimp only
      rw [if_neg hkeep, decide_eq_true hcont, if_pos rfl, if_pos rfl, hcommand]
    have hadd : j.add (cut buf) = ⟨j.lines, some (joined j.pending (stripTrailingWs (cut buf).dropLast))⟩ := by
      unfold Joined.add
      rw [if_neg hskip, if_pos hcont]
    rw [hturn, hadd]
    exact ⟨h.vars, h.commands, h.inIfBlock, h.executeIfBlock, rfl, fun p hp => Option.some.inj hp ▸ rfl, h.running⟩
  · have hadd : j.add (cut buf) = ⟨j.lines ++ [joined j.pending (cut buf)], none⟩ := by
      unfold Joined.add
      rw [if_neg hskip, if_neg hcont]
    have hline := hfits (joined j.pending (cut buf)) (congrArg Joined.lines hadd)
    have hturn : turn flags system buf l =
        execute flags system { l with fullCmd := joined j.pending (cut buf), continuing := false } := by
      unfold turn
      dsimp only
      rw [if_neg hkeep, decide_eq_false hcont, if_neg Bool.false_ne_true, if_neg Bool.false_ne_true, hcommand,
        List.take_of_length_le hline.length]
    rw [hturn, hadd, Session.run_append]
    have hagrees : Agrees { l with fullCmd := joined j.pending (cut buf), continuing := false } none
        (Session.run flags system j.lines) :=
      ⟨h.vars, h.commands, h.inIfBlock, h.executeIfBlock, rfl, fun _ hp => (Option.not_mem_none _ hp).elim, h.running⟩
    exact hagrees.executes hline

end

/-! ## Reading -/

/-- A line with its '\n', or the last one of the text -/
structure IsLine (line rest : List Byte) : Prop where
  ne : line ≠ []
  inner : ∀ c ∈ line.dropLast, c ≠ '\n'
  last : line.getLast? = some ('\n' : Byte) ∨ rest = []

theorem fgets_append {n : ℕ} {line : List Byte} (rest : List Byte) (hinner : ∀ c ∈ line, c ≠ '\n')
    (hlength : line.length = n) : fgets n (line ++ rest) = (line, rest) := by
  induction line generalizing n with
  | nil =>
    subst hlength
    rfl
  | cons c line ih =>
    subst hlength
    rw [List.length_cons, List.cons_append, fgets, if_neg (hinner c List.mem_cons_self),
      ih (fun d hd => hinner d (List.mem_cons_of_mem c hd)) rfl]

/-- A line for which there is room is read whole. -/
theorem fgets_line {n : ℕ} {line rest : List Byte} (h : IsLine line rest) (hlength : line.length ≤ n) :
    fgets n (line ++ rest) = (line, rest) := by
  obtain ⟨hne, hinner, hlast⟩ := h
  induction line generalizing n with
  | nil => exact absurd rfl hne
  | cons c line ih =>
    obtain ⟨n, rfl⟩ : ∃ m, n = m + 1 := Nat.exists_eq_succ_of_ne_zero (by rintro rfl; cases hlength)
    rw [List.cons_append, fgets]
    cases line with
    | nil =>
      cases hlast with
      | inl hlast =>
        obtain rfl := Option.some.inj hlast
        rfl
      | inr hrest =>
        subst hrest
        split_ifs
        · rfl
        · cases n with
          | zero => rfl
          | succ n => rfl
    | cons d line =>
      have hinner' : ∀ e ∈ (d :: line).dropLast, e ≠ '\n' := fun e he => hinner e (List.mem_cons_of_mem c he)
      rw [if_neg (hinner c List.mem_cons_self),
        ih (Nat.le_of_succ_le_succ hlength) (List.cons_ne_nil d line) hinner' hlast]

/-- A line is what it says and its end. -/
theorem content_append (line : List Byte) : ∃ e, line = content line ++ e ∧
    (e = [0x0D, 0x0A] ∨ e = [0x0A] ∨ e = [] ∧ line.getLast? ≠ some ('\n' : Byte)) := by
  unfold content
  split_ifs with hcrlf hlf
  · obtain ⟨t, rfl⟩ := hcrlf
    refine ⟨_, ?_, Or.inl rfl⟩
    simp
  · obtain ⟨t, rfl⟩ := hlf
    refine ⟨_, ?_, Or.inr (Or.inl rfl)⟩
    simp
  · refine ⟨[], (List.append_nil line).symm, Or.inr (Or.inr ⟨rfl, fun hlast => hlf ?_⟩)⟩
    exact ⟨line.dropLast, List.dropLast_append_getLast? _ hlast⟩

theorem cut_append {t e : List Byte} (ht : ∀ c ∈ t, c ≠ 0 ∧ c ≠ '\r' ∧ c ≠ '\n')
    (he : ∀ c ∈ e.head?, c = '\r' ∨ c = '\n') : cut (t ++ e) = t := by
  unfold cut
  rw [List.takeWhile_append_of_pos fun c hc => decide_eq_true (ht c hc)]
  cases e with
  | nil => rw [List.takeWhile_nil, List.append_nil]
  | cons c e =>
    rw [List.takeWhile_cons_of_neg, List.append_nil]
    rw [decide_eq_true_iff]
    exact fun h => (he c rfl).elim h.2.1 h.2.2

theorem content_inner {line rest : List Byte} (h : IsLine line rest) (hfits : LineFits line) :
    ∀ c ∈ content line, c ≠ 0 ∧ c ≠ '\r' ∧ c ≠ '\n' := by
  intro c hc
  refine ⟨(hfits.text c hc).1, (hfits.text c hc).2, ?_⟩
  have hinner := h.inner
  obtain ⟨e, heq, hend⟩ := content_append line
  generalize content line = t at hc heq
  subst heq
  obtain rfl | rfl | ⟨rfl, hlast⟩ := hend
  · refine hinner c ?_
    rw [List.dropLast_append_of_ne_nil (by simp)]
    exact List.mem_append_left _ hc
  · refine hinner c ?_
    rw [List.dropLast_concat]
    exact hc
  · rw [List.append_nil] at hlast hinner
    have hne := List.ne_nil_of_mem hc
    rw [← List.dropLast_append_getLast hne, List.mem_append, List.mem_singleton] at hc
    cases hc with
    | inl hc => exact hinner c hc
    | inr hc =>
      rw [List.getLast?_eq_some_getLast hne, ← hc] at hlast
      exact fun heq => hlast (congrArg some heq)

theorem cut_line {line rest : List Byte} (h : IsLine line rest) (hfits : LineFits line) : cut line = content line := by
  obtain ⟨e, heq, hend⟩ := content_append line
  conv_lhs => rw [heq]
  refine cut_append (content_inner h hfits) ?_
  obtain rfl | rfl | ⟨rfl, -⟩ := hend
  · exact fun c hc => Or.inl (Option.some.inj hc).symm
  · exact fun c hc => Or.inr (Option.some.inj hc).symm
  · exact fun c hc => (Option.not_mem_none c hc).elim

/-- A line of which only the '\n' is left says the same. -/
theorem cut_dropLast {line rest : List Byte} (h : IsLine line rest) (hfits : LineFits line)
    (hlast : line.getLast? = some ('\n' : Byte)) : cut line.dropLast = content line := by
  have hinner := content_inner h hfits
  obtain ⟨e, heq, hend⟩ := content_append line
  generalize content line = t at heq hinner
  subst heq
  obtain rfl | rfl | ⟨rfl, hno⟩ := hend
  · rw [List.dropLast_append_of_ne_nil (by simp)]
    exact cut_append hinner fun c hc => Or.inl (Option.some.inj hc).symm
  · have hcut := cut_append (e := []) hinner fun c hc => (Option.not_mem_none c hc).elim
    rw [List.append_nil] at hcut
    rw [List.dropLast_concat]
    exact hcut
  · exact absurd hlast hno

section
variable {flags : Flags} {system : System} {l l' : Loop}

theorem turn_congr {buf buf' : List Byte} (h : cut buf = cut buf') : turn flags system buf l = turn flags system buf' l := by
  unfold turn
  rw [h]

theorem loop_error {input : List Byte} (hne : input ≠ [])
    (h : turn flags system (fgets (MAX_LINE - 1) input).1 l = .error l') : loop flags system input l = l' := by
  cases input with
  | nil => exact absurd rfl hne
  | cons c s =>
    unfold loop
    rw [h]

theorem loop_ok {input : List Byte} (hne : input ≠ [])
    (h : turn flags system (fgets (MAX_LINE - 1) input).1 l = .ok l') :
    loop flags system input l = loop flags system (fgets (MAX_LINE - 1) input).2 l' := by
  cases input with
  | nil => exact absurd rfl hne
  | cons c s =>
    conv_lhs => unfold loop
    rw [h]

/-- What `fgets` leaves of a line is nothing, or its '\n'. -/
theorem fgets_fits {line rest : List Byte} (h : IsLine line rest) (hfits : LineFits line) :
    fgets (MAX_LINE - 1) (line ++ rest) = (line, rest) ∨
      line.length = MAX_LINE ∧ fgets (MAX_LINE - 1) (line ++ rest) = (line.dropLast, 0x0A :: rest) := by
  by_cases hfull : line.length = MAX_LINE
  · obtain ⟨hlast, -⟩ := hfits.full hfull
    refine Or.inr ⟨hfull, ?_⟩
    have hline : line ++ rest = line.dropLast ++ 0x0A :: rest := by
      conv_lhs => rw [← List.dropLast_append_getLast? _ hlast, List.append_assoc]
      rfl
    rw [hline]
    exact fgets_append _ h.inner (by rw [List.length_dropLast, hfull])
  · exact Or.inl (fgets_line h (Nat.le_pred_of_lt (lt_of_le_of_ne hfits.length hfull)))

theorem turn_fits {line rest : List Byte} (h : IsLine line rest) (hfits : LineFits line) :
    turn flags system (fgets (MAX_LINE - 1) (line ++ rest)).1 l = turn flags system line l := by
  cases fgets_fits h hfits with
  | inl hread => rw [hread]
  | inr hread =>
    obtain ⟨hfull, hread⟩ := hread
    rw [hread]
    exact turn_congr ((cut_dropLast h hfits (hfits.full hfull).1).trans (cut_line h hfits).symm)

theorem loop_line_error {line rest : List Byte} (h : IsLine line rest) (hfits : LineFits line)
    (hturn : turn flags system line l = .error l') : loop flags system (line ++ rest) l = l' :=
  loop_error (List.append_ne_nil_of_left_ne_nil h.ne rest) ((turn_fits h hfits).trans hturn)

/-- The '\n' that is left of a full line is a blank line. -/
theorem loop_line_ok {line rest : List Byte} (h : IsLine line rest) (hfits : LineFits line)
    (hturn : turn flags system line l = .ok l') (hfull : line.length = MAX_LINE → l'.continuing = false) :
    loop flags system (line ++ rest) l = loop flags system rest l' := by
  rw [loop_ok (List.append_ne_nil_of_left_ne_nil h.ne rest) ((turn_fits h hfits).trans hturn)]
  cases fgets_fits h hfits with
  | inl hread => rw [hread]
  | inr hread =>
    rw [hread.2]
    exact loop_ok (List.cons_ne_nil _ rest) (if_pos ⟨hfull hread.1, Or.inr rfl⟩)

end

/-! ## Scripts -/

/-- The lines of a text. -/
structure AreLines (lines : List (List Byte)) : Prop where
  inner : ∀ line ∈ lines, line ≠ [] ∧ ∀ c ∈ line.dropLast, c ≠ '\n'
  ended : lines.IsChain fun line _ => line.getLast? = some ('\n' : Byte)

theorem areLines_physicalLines (script : List Byte) : AreLines (physicalLines script) := by
  refine ⟨fun line hline => ⟨List.ne_nil_of_mem_splitBy hline, ?_⟩, ?_⟩
  · have hchain := List.isChain_of_mem_splitBy hline
    clear hline
    induction line with
    | nil => exact fun c hc => absurd hc List.not_mem_nil
    | cons d line ih =>
      cases line with
      | nil => exact fun c hc => absurd hc List.not_mem_nil
      | cons e line =>
        obtain ⟨hd, htail⟩ := List.isChain_cons_cons.mp hchain
        rw [List.dropLast_cons_cons]
        exact List.forall_mem_cons.mpr ⟨of_decide_eq_true hd, ih htail⟩
  · refine (List.isChain_getLast_head_splitBy (fun (c : Byte) _ => decide (c ≠ '\n')) script).imp fun a b h => ?_
    obtain ⟨ha, -, hlast⟩ := h
    rw [List.getLast?_eq_some_getLast ha]
    exact congrArg some (not_not.mp (of_decide_eq_false hlast))

theorem AreLines.cons {line : List Byte} {lines : List (List Byte)} (h : AreLines (line :: lines)) :
    IsLine line lines.flatten ∧ AreLines lines := by
  obtain ⟨hlines, hended⟩ := h
  refine ⟨⟨(hlines line List.mem_cons_self).1, (hlines line List.mem_cons_self).2, ?_⟩,
    fun l hl => hlines l (List.mem_cons_of_mem line hl), hended.tail⟩
  cases lines with
  | nil => exact Or.inr rfl
  | cons l lines => exact Or.inl (List.isChain_cons_cons.mp hended).1

theorem joinLines_append (lines : List (List Byte)) (line : List Byte) :
    joinLines (lines ++ [line]) = (joinLines lines).add (content line) := by
  unfold joinLines
  rw [List.map_append, List.foldl_append]
  rfl

theorem Joined.add_cases (j : Joined) (line : List Byte) :
    (j.add line).lines = j.lines ∨ ∃ l, (j.add line).lines = j.lines ++ [l] := by
  unfold Joined.add
  split_ifs
  · exact Or.inl rfl
  · exact Or.inl rfl
  · exact Or.inr ⟨_, rfl⟩

/-- A line that does not end in a backslash leaves nothing to be continued. -/
theorem Joined.add_pending {j : Joined} {line : List Byte} (h : line.getLast? ≠ some ('\\' : Byte)) :
    (j.add line).pending = none := by
  unfold Joined.add
  split_ifs with hskip
  · exact hskip.1
  · rfl

theorem joinLines_mono (lines more : List (List Byte)) : (joinLines lines).lines <+: (joinLines (lines ++ more)).lines := by
  induction more using List.reverseRecOn with
  | nil => rw [List.append_nil]
  | append_singleton more line ih =>
    rw [← List.append_assoc, joinLines_append]
    refine ih.trans ?_
    cases (joinLines (lines ++ more)).add_cases (content line) with
    | inl hsame => rw [hsame]
    | inr hnew =>
      obtain ⟨l, hnew⟩ := hnew
      rw [hnew]
      exact List.prefix_append _ _

theorem Session.run_stopped {flags : Flags} {system : System} {before lines : List (List Byte)}
    (h : (Session.run flags system before).stopped = true) (hlines : before <+: lines) :
    Session.run flags system lines = Session.run flags system before := by
  obtain ⟨more, rfl⟩ := hlines
  induction more using List.reverseRecOn with
  | nil => rw [List.append_nil]
  | append_singleton more line ih =>
    rw [← List.append_assoc, Session.run_append, ih]
    exact if_pos h

theorem Within.of_start {flags : Flags} {system : System} {before lines : List (List Byte)}
    (h : Within flags system lines) (hbefore : before <+: lines) : Within flags system before := by
  refine ⟨fun pre line hpre => h.physical pre line (hpre.trans hbefore), fun pre line hpre => h.logical pre line ?_⟩
  obtain ⟨more, rfl⟩ := hbefore
  exact hpre.trans (joinLines_mono before more)

/-- The loop over the lines that are left -/
theorem loop_commands {flags : Flags} {system : System} {before lines : List (List Byte)} {l : Loop}
    (h : Within flags system (before ++ lines)) (hlines : AreLines lines)
    (hl : Agrees l (joinLines before).pending (Session.run flags system (joinLines before).lines)) :
    (loop flags system lines.flatten l).commands =
      (Session.run flags system (joinLines (before ++ lines)).lines).commands := by
  induction lines generalizing before l with
  | nil =>
    rw [List.append_nil, List.flatten_nil]
    unfold loop
    exact hl.commands
  | cons line lines ih =>
    obtain ⟨hline, hrest⟩ := hlines.cons
    rw [List.append_cons] at h ⊢
    have hnext : before ++ [line] <+: before ++ [line] ++ lines := List.prefix_append _ _
    have hfits := h.physical before line hnext hl.running
    have hcut := cut_line hline hfits
    have hturn := hl.turns line fun command hcommand => by
      refine h.logical _ _ ?_ hl.running
      rw [hcut, ← joinLines_append] at hcommand
      rw [← hcommand]
      exact joinLines_mono _ lines
    rw [hcut, ← joinLines_append] at hturn
    rw [List.flatten_cons]
    cases hresult : turn flags system line l with
    | error l' =>
      rw [hresult] at hturn
      rw [loop_line_error hline hfits hresult, Session.run_stopped hturn.2 (joinLines_mono _ lines)]
      exact hturn.1
    | ok l' =>
      rw [hresult] at hturn
      rw [loop_line_ok hline hfits hresult]
      · exact ih h hrest hturn
      · intro hfull
        rw [hturn.continuing, joinLines_append, Joined.add_pending (hfits.full hfull).2]
        rfl

theorem main_commands {flags : Flags} {system : System} {lines : List (List Byte)} (h : Within flags system lines)
    (hlines : AreLines lines) :
    (main flags system lines.flatten).commands = (Session.run flags system (joinLines lines).lines).commands :=
  have hstart : Agrees .start (joinLines []).pending (Session.run flags system (joinLines []).lines) :=
    ⟨rfl, rfl, rfl, rfl, rfl, fun _ hp => (Option.not_mem_none _ hp).elim, rfl⟩
  loop_commands h hlines hstart

theorem AreLines.of_start {before lines : List (List Byte)} (h : AreLines lines) (hbefore : before <+: lines) :
    AreLines before := by
  obtain ⟨more, rfl⟩ := hbefore
  exact ⟨fun line hline => h.inner line (List.mem_append_left more hline), h.ended.left_of_append⟩

/-- A line of the session adds at most one command. -/
theorem Session.step_commands (flags : Flags) (system : System) (s : Session) (line : List Byte) :
    (s.step flags system line).commands.length ≤ s.commands.length + 1 := by
  have hcall (command : List Byte) : (s.call flags system command).commands.length ≤ s.commands.length + 1 := by
    unfold Session.call
    split_ifs
    · exact Nat.le_succ _
    · exact (List.length_append ..).le
  unfold Session.step Session.stepKind
  split_ifs
  · exact Nat.le_succ _
  split
  · exact Nat.le_succ _
  · split
    · exact Nat.le_succ _
    · exact Nat.le_succ _
  · exact Nat.le_succ _
  · exact Nat.le_succ _
  · exact Nat.le_succ _
  · exact Nat.le_succ _
  · exact Nat.le_succ _
  · exact Nat.le_succ _
  · split
    · exact hcall _
    · exact Nat.le_succ _

/-- Within the limits of the code, the commands that are passed to `system()` are those of the script. -/
theorem executes_within {flags : Flags} {system : System} {script : List Byte}
    (h : Within flags system (physicalLines script)) : Executes flags system script := by
  have hlines := areLines_physicalLines script
  have hscript : (physicalLines script).flatten = script := List.flatten_splitBy _ script
  refine ⟨?_, fun before line hbefore => ?_⟩
  · conv_lhs => rw [← hscript]
    exact main_commands h hlines
  · have hpre : before <+: physicalLines script := (List.prefix_append before [line]).trans hbefore
    rw [main_commands (h.of_start hbefore) (hlines.of_start hbefore), main_commands (h.of_start hpre) (hlines.of_start hpre),
      joinLines_append]
    cases (joinLines before).add_cases (content line) with
    | inl hsame =>
      rw [hsame]
      exact Nat.le_succ _
    | inr hnew =>
      obtain ⟨l, hnew⟩ := hnew
      rw [hnew, Session.run_append]
      exact Session.step_commands flags system _ l

set_option maxRecDepth 8192 in
theorem executes_one : Executes ⟨false, false, false⟩ (fun _ => 0) [0x61, 0x0A] := by
  have hphysical : physicalLines [0x61, 0x0A] = [[0x61, 0x0A]] := by decide
  have hlogical : (joinLines [[0x61, 0x0A]]).lines = [[0x61]] := by decide
  have hexpanded (store : Store) : expanded false store [0x61] = ([0x61], true) := by
    rw [expanded_literal (by decide), expanded_nil]
    rfl
  refine executes_within ⟨fun before line hbefore _ => ?_, fun before line hbefore _ => ?_⟩
  · rw [hphysical] at hbefore
    obtain rfl := List.mem_singleton.mp (hbefore.subset (List.mem_append_right before (List.mem_singleton.mpr rfl)))
    exact ⟨by decide, by decide, fun h => absurd h (by decide)⟩
  · rw [hphysical, hlogical] at hbefore
    obtain rfl := List.mem_singleton.mp (hbefore.subset (List.mem_append_right before (List.mem_singleton.mpr rfl)))
    have hkind : kind (List.dropWhile isSpace [0x61]) = .command := by decide
    have htext : List.dropWhile isSpace ([0x61] : List Byte) = [0x61] := by decide
    refine ⟨by decide, fun equal p h => absurd (hkind.symm.trans h) Kind.noConfusion, fun _ _ => ?_⟩
    rw [htext]
    refine ⟨fun rest name after hrest => ?_, ?_⟩
    · have hlength := hrest.length_le
      rw [List.length_cons, List.length_cons, List.length_singleton] at hlength
      omega
    · rw [hexpanded]
      decide

/-- A comment one byte longer than the buffer, and the line end -/
def longComment : List Byte := 0x3B :: (List.replicate 1022 0x78 ++ [0x61, 0x0A])

/-- The last byte of the comment is executed as a command. -/
theorem not_executes : ¬Executes ⟨false, false, false⟩ (fun _ => 0) longComment := by
  intro h
  have hcommands : (main ⟨false, false, false⟩ (fun _ => 0) longComment).commands = [[0x61]] := by decide +kernel
  have hlines : logicalLines longComment = [] := by decide +kernel
  have hnone := h.commands
  rw [hcommands, hlines] at hnone
  exact absurd hnone (List.cons_ne_nil _ _)

end ValidcTools.Batch
