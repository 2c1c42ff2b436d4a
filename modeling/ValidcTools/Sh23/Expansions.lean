import ValidcTools.Sh23.Positions
import ValidcTools.Sh23.Variables

/-! Parameter expansions: how they are parsed, and the arguments that become of them. -/
namespace ValidcTools.Sh23

/-! ## Parsing -/

inductive SpecialParameter
  | star | at | hash | question | bang | dash | dollar | zero
deriving DecidableEq

/-- The kinds of expansion that take another word for the value -/
inductive DefaultType
  | useDefault | assign | errorIfUnset | alternative
deriving DecidableEq

/-- `Expansion`; the tokens other than TOKEN_PARAM become an `ε`. -/
inductive Expansion (ε : Type)
  | parameter (name : List Byte)
  | special (param : SpecialParameter)
  | default (type : DefaultType) (var defaultValue : List Byte) (isColon : Bool)
  | length (var : List Byte)
  | pattern (ofPrefix isLong : Bool) (var pattern : List Byte)
  | other (e : ε)

variable {ε σ : Type}

/-- The special parameter of a character, as the `switch` of `parse_expansion` takes those of its string -/
def specialParameter (c : Byte) : Option SpecialParameter :=
  if c = '*' then some .star
  else if c = '@' then some .at
  else if c = '#' then some .hash
  else if c = '?' then some .question
  else if c = '!' then some .bang
  else if c = '-' then some .dash
  else if c = '0' then some .zero
  else none

/-- An expansion with an operator, and what follows the operator up to the closing brace -/
def operation (var : List Byte) (isColon : Bool) (op : Byte) (rest : List Byte) : Expansion ε :=
  let isLong := decide (op = '%' ∨ op = '#') && decide (rest.head? = some op)
  let text := if isLong then rest.tail else rest
  let word := if text.getLast? = some 0x7D then text.dropLast else text
  if op = '-' then .default .useDefault var word isColon
  else if op = '=' then .default .assign var word isColon
  else if op = '?' then .default .errorIfUnset var word isColon
  else if op = '+' then .default .alternative var word isColon
  else .pattern (op = '#') isLong var word

/-- `parse_expansion` of a TOKEN_PARAM, behind its opening brace. A variable name has 255 bytes at most. -/
def parseParamBody : List Byte → Option (Expansion ε)
  | [] => none
  | c :: rest =>
    if c = '#' then if rest.getLast? = some 0x7D then some (.length rest.dropLast) else none
    else if (specialParameter c).isSome ∧ (rest.head? = some 0x7D ∨ isDigit c) then
      if rest.head? = some 0x7D then (specialParameter c).map .special else none
    else
      let ends (c : Byte) : Bool := (0x7D :: lit ":-=?+%#").contains c
      let var := ((c :: rest).takeWhile (!ends ·)).take 255
      let after := (c :: rest).dropWhile (!ends ·)
      let isColon := decide (after.head? = some 0x3A)
      match if isColon then after.tail else after with
      | [] => none
      | op :: word =>
        if op ∈ lit "-=?+%#" then some (operation var isColon op word)
        else if op = 0x7D then some (.parameter var)
        else none

/-- `parse_expansion`, given what the other tokens become -/
def parseExpansion (other : Token → Option ε) (token : Token) : Option (Expansion ε) :=
  if token.type = .param then
    if ([0x24, 0x7B] : List Byte).isPrefixOf token.text then parseParamBody (token.text.drop 2) else none
  else (other token).map .other

/-! ## Arguments -/

/-- `atoi` -/
def atoiText (text : List Byte) : ℤ :=
  let signed := text.dropWhile isSpace
  let negative := signed.head? = some (0x2D : Byte)
  let digits := (if negative ∨ signed.head? = some (0x2B : Byte) then signed.tail else signed).takeWhile isDigit
  let long : ℤ := if negative then max (-(decimal digits : ℤ)) (-2 ^ 63) else min (decimal digits) (2 ^ 63 - 1)
  -- the cast to `int` wraps
  long.bmod (2 ^ 32)

/-- What `expand_string` leaves to the rest of the shell: the expansions that are no EXPANSION_PARAMETER -/
structure Expander (ε σ : Type) where
  vars : σ → VariableStore
  expand : Expansion ε → σ → List Byte × σ

/-- EXPANSION_PARAMETER in `expand_string`: a positional parameter -/
def parameterValue (store : VariableStore) (name : List Byte) : List Byte :=
  let index := atoiText name
  if 1 ≤ index ∧ index ≤ store.positionalParams.length then store.positionalParams[(index - 1).toNat]?.getD [] else []

namespace Expander

/-- The value of one expansion in `expand_string` -/
def value (x : Expander ε σ) (world : σ) : Expansion ε → List Byte × σ
  | .parameter name => (parameterValue (x.vars world) name, world)
  | exp => x.expand exp world

/-- `expand_string` -/
def expandString (x : Expander ε σ) (input : List Byte) (expansions : List (Expansion ε)) (world : σ) : List Byte × σ :=
  if expansions.isEmpty then (input, world)
  else expansions.foldl (fun r exp => (r.1 ++ (x.value r.2 exp).1, (x.value r.2 exp).2)) ([], world)

/-- The words one after another, each with all the expansions -/
def expandWords (x : Expander ε σ) (expansions : List (Expansion ε)) : List (List Byte) → σ → List (List Byte) × σ
  | [], world => ([], world)
  | word :: words, world =>
    let (arg, world) := x.expandString word expansions world
    let (args, world) := x.expandWords expansions words world
    (arg :: args, world)

/-- The arguments that `exec_simple_command` builds -/
def arguments (x : Expander ε σ) (c : SimpleCommand (Expansion ε)) (world : σ) : List (List Byte) × σ :=
  x.expandWords c.expansions (c.command.toList ++ c.suffix) world

variable {x : Expander ε σ} {world : σ}

theorem expandWords_length (expansions : List (Expansion ε)) (words : List (List Byte)) (world : σ) :
    (x.expandWords expansions words world).1.length = words.length := by
  induction words generalizing world with
  | nil => rfl
  | cons word words ih => exact congrArg (· + 1) (ih _)

theorem expandWords_nil (words : List (List Byte)) (world : σ) : x.expandWords [] words world = (words, world) := by
  induction words with
  | nil => rfl
  | cons word words ih =>
    unfold expandWords expandString
    simp [ih]

end Expander

/-! ## Words and parameters -/

/-- A digit from 1 to 9, or a name -/
def isParameterName (name : List Byte) : Bool :=
  isValidName name || decide (name.length = 1) && name.all fun c => isDigit c && c != '0'

/-- A token behind the command word: a word, or a parameter in braces -/
inductive Arg
  | word (text : List Byte)
  | param (name : {name : List Byte // isParameterName name = true})

namespace Arg

def token : Arg → Token
  | .word text => ⟨.word, text⟩
  | .param name => ⟨.param, 0x24 :: 0x7B :: (name.1 ++ [0x7D])⟩

/-- What the argument should be -/
def value (store : VariableStore) : Arg → List Byte
  | .word text => text
  | .param name => (store.getVariable name.1).getD []

def IsWord : Arg → Prop
  | .word _ => True
  | .param _ => False

/-- The words, which become the suffix -/
def words : List Arg → List (List Byte)
  | [] => []
  | .word text :: args => text :: words args
  | .param _ :: args => words args

/-- The expansions, which are kept apart -/
def expansions : List Arg → List (Expansion ε)
  | [] => []
  | .word _ :: args => expansions args
  | .param name :: args => .parameter (name.1.take 255) :: expansions args

theorem length_words_le (args : List Arg) : (words args).length ≤ args.length := by
  induction args with
  | nil => exact le_rfl
  | cons arg args ih => cases arg <;> simp [words] <;> omega

/-- Only words are as many as their words. -/
theorem length_words_iff (args : List Arg) : (words args).length = args.length ↔ ∀ arg ∈ args, arg.IsWord := by
  induction args with
  | nil => simp [words]
  | cons arg args ih =>
    cases arg with
    | word text => simpa [words, IsWord] using ih
    | param name =>
      have := length_words_le args
      simp only [words, List.length_cons, List.mem_cons, forall_eq_or_imp, IsWord, false_and, iff_false]
      omega

theorem words_eq (store : VariableStore) {args : List Arg} (h : ∀ arg ∈ args, arg.IsWord) :
    words args = args.map (value store) ∧ expansions (ε := ε) args = [] := by
  induction args with
  | nil => exact ⟨rfl, rfl⟩
  | cons arg args ih =>
    obtain ⟨harg, hargs⟩ := List.forall_mem_cons.mp h
    cases arg with
    | word text => simpa [words, value, expansions] using ih hargs
    | param name => exact harg.elim

end Arg

/-! ## The command that is parsed -/

/-- The bytes of names and of the digits from 1 to 9 -/
theorem nameByte_plain (c : Byte) (h : (isAlnum c || decide (c = '_')) = true) :
    (0x7D :: lit ":-=?+%#").contains c = false ∧ c ≠ '#' ∧ ((specialParameter c).isSome → c = '0') := by
  revert h
  exact forall_byte (P := fun c => (isAlnum c || decide (c = '_')) = true →
    (0x7D :: lit ":-=?+%#").contains c = false ∧ c ≠ '#' ∧ ((specialParameter c).isSome → c = '0')) (by decide) c

theorem isParameterName_bytes {name : List Byte} (h : isParameterName name = true) :
    (∀ c ∈ name, (isAlnum c || decide (c = '_')) = true) ∧ name.head?.any (fun c => c != (0x30 : Byte)) = true := by
  unfold isParameterName at h
  obtain h | h := Bool.or_eq_true_iff.mp h
  · obtain ⟨hhead, hall⟩ := Bool.and_eq_true_iff.mp h
    refine ⟨List.all_eq_true.mp hall, ?_⟩
    obtain ⟨c, hc, hdigit⟩ := (Option.any_eq_true _ _).mp hhead
    rw [hc, Option.any_some, bne_iff_ne]
    rintro rfl
    exact absurd hdigit (by decide)
  · obtain ⟨hlength, hall⟩ := Bool.and_eq_true_iff.mp h
    obtain ⟨c, rfl⟩ := List.length_eq_one_iff.mp (of_decide_eq_true hlength)
    obtain ⟨hdigit, hzero⟩ := Bool.and_eq_true_iff.mp (List.all_eq_true.mp hall c List.mem_cons_self)
    refine ⟨fun b hb => ?_, hzero⟩
    obtain rfl := List.mem_singleton.mp hb
    rw [isAlnum, hdigit, Bool.true_or, Bool.true_or]

/-- A parameter in braces is an EXPANSION_PARAMETER. -/
theorem parseExpansion_param (other : Token → Option ε) (name : {name : List Byte // isParameterName name = true}) :
    parseExpansion other (Arg.param name).token = some (.parameter (name.1.take 255)) := by
  obtain ⟨hbytes, hhead⟩ := isParameterName_bytes name.2
  have hnot : ∀ c ∈ name.1, (!(0x7D :: lit ":-=?+%#").contains c) = true := fun c hc => by
    rw [(nameByte_plain c (hbytes c hc)).1, Bool.not_false]
  cases hname : name.1 with
  | nil => simp [hname] at hhead
  | cons c rest =>
    rw [hname] at hbytes hhead hnot
    obtain ⟨-, hhash, hspecial⟩ := nameByte_plain c (hbytes c List.mem_cons_self)
    have hzero : c ≠ (0x30 : Byte) := by simpa using hhead
    have htake : (c :: (rest ++ [0x7D])).takeWhile (fun b => !(0x7D :: lit ":-=?+%#").contains b) = c :: rest := by
      rw [← List.cons_append, List.takeWhile_append_of_pos hnot]
      simp
    have hdrop : (c :: (rest ++ [0x7D])).dropWhile (fun b => !(0x7D :: lit ":-=?+%#").contains b) = [0x7D] := by
      rw [← List.cons_append, List.dropWhile_append_of_pos hnot]
      simp
    have htoken : (Arg.param name).token = ⟨.param, 0x24 :: 0x7B :: (c :: rest ++ [0x7D])⟩ := by rw [Arg.token, hname]
    rw [htoken]
    unfold parseExpansion
    rw [if_pos rfl, if_pos (by simp [List.isPrefixOf])]
    simp only [List.drop_succ_cons, List.drop_zero, List.cons_append]
    unfold parseParamBody
    dsimp only
    rw [if_neg hhash, if_neg fun h => hzero (hspecial h.1)]
    simp only [htake, hdrop]
    rw [if_neg (by decide)]
    simp only
    rw [if_neg (by decide), if_pos trivial]

section
variable {ts : List Token} {other : Token → Option ε} {n : ℕ}

theorem peek_of_drop {p : ℕ} (line : ℤ) {token : Token} {rest : List Token} (h : ts.drop p = token :: rest) :
    peek ts ⟨p, line⟩ = some token ∧ ts.drop (p + 1) = rest := by
  refine ⟨?_, ?_⟩
  · have hget : ts[p]? = some token := by
      rw [← List.head?_drop, h]
      rfl
    simpa [peek] using hget
  · rw [← List.drop_drop, h]
    rfl

/-- The words go to the suffix and the parameters to the expansions. -/
theorem parseSuffix_args (args : List Arg) (node : SimpleCommand (Expansion ε)) {p : ℕ} (line : ℤ) (h : ts.drop p = args.map Arg.token)
    (hn : args.length < n) :
    parseSuffix ts (parseExpansion other) node n ⟨p, line⟩ =
      some (some { node with suffix := node.suffix ++ Arg.words args, expansions := node.expansions ++ Arg.expansions args },
        ⟨(p + args.length : ℕ), line⟩) := by
  induction args generalizing node p n with
  | nil =>
    obtain ⟨n, rfl⟩ := Nat.exists_eq_add_one_of_ne_zero (Nat.ne_of_gt hn)
    have hpeek : peek ts ⟨p, line⟩ = none := by
      have hend : ts[p]? = none := by
        rw [← List.head?_drop, h]
        rfl
      simpa [peek] using hend
    unfold parseSuffix
    rw [Parse.bind_apply, peekToken_apply, Option.bind_some, hpeek]
    simp [Arg.words, Arg.expansions]
  | cons arg args ih =>
    obtain ⟨n, rfl⟩ := Nat.exists_eq_add_one_of_ne_zero (Nat.ne_of_gt (Nat.zero_lt_of_lt hn))
    obtain ⟨hpeek, hrest⟩ := peek_of_drop line h
    have hless : args.length < n := Nat.lt_of_succ_lt_succ hn
    have hnext : (⟨(p : ℤ) + 1, line⟩ : ParserState) = ⟨((p + 1 : ℕ) : ℤ), line⟩ := by simp
    have hend : p + 1 + args.length = p + (args.length + 1) := by omega
    unfold parseSuffix
    rw [Parse.bind_apply, peekToken_apply, Option.bind_some, hpeek]
    cases arg with
    | word text =>
      have htype : (Arg.word text).token.type = .word := rfl
      have hconsume := consume_of_peek hpeek (by rw [htype]; decide)
      dsimp only
      rw [if_pos htype, Parse.bind_apply, consumeToken_apply, hconsume, Option.bind_some, hnext, ih _ hrest hless]
      simp [Arg.words, Arg.expansions, Arg.token, hend]
    | param name =>
      have htype : (Arg.param name).token.type = .param := rfl
      have hconsume := consume_of_peek hpeek (by rw [htype]; decide)
      dsimp only
      rw [if_neg (by rw [htype]; decide), if_neg (by rw [htype]; decide), if_pos (by rw [htype]; decide), Parse.bind_apply, consumeToken_apply, hconsume, Option.bind_some]
      have hparse := parseExpansion_param other name
      rw [hparse]
      dsimp only
      rw [hnext, ih _ hrest hless]
      simp [Arg.words, Arg.expansions, hend]

/-- The command word, and the rest as above -/
theorem parseSimpleCommand_args {command : List Byte} (hcommand : command ≠ lit "break" ∧ command ≠ lit "continue") (args : List Arg)
    (line : ℤ) (hn : args.length < n) :
    parseSimpleCommand (⟨.word, command⟩ :: args.map Arg.token) (parseExpansion other) n ⟨0, line⟩ =
      some (some ⟨[], some command, Arg.words args, Arg.expansions args, [], false, 0, 0⟩, ⟨(1 + args.length : ℕ), line⟩) := by
  obtain ⟨n, rfl⟩ := Nat.exists_eq_add_one_of_ne_zero (Nat.ne_of_gt (Nat.zero_lt_of_lt hn))
  have hpeek : peek (⟨.word, command⟩ :: args.map Arg.token) ⟨0, line⟩ = some ⟨.word, command⟩ := rfl
  have hconsume := consume_of_peek hpeek (show TokenType.word ≠ .newline by decide)
  have hassigns : parsePrefix (⟨.word, command⟩ :: args.map Arg.token) (.empty : SimpleCommand (Expansion ε)) (n + 1) ⟨0, line⟩ =
      some (some .empty, ⟨0, line⟩) := by
    unfold parsePrefix
    rw [Parse.bind_apply, peekToken_apply, Option.bind_some, hpeek]
    rfl
  have hfilter : (some ⟨.word, command⟩ : Option Token).filter (·.type = .word) = some ⟨.word, command⟩ := rfl
  have hword : parseCommandWord (⟨.word, command⟩ :: args.map Arg.token) (.empty : SimpleCommand (Expansion ε)) ⟨0, line⟩ =
      some (⟨[], some command, [], [], [], false, 0, 0⟩, ⟨(1 : ℕ), line⟩) := by
    unfold parseCommandWord
    rw [Parse.bind_apply, peekToken_apply, Option.bind_some, hpeek, hfilter]
    dsimp only
    rw [Parse.bind_apply, consumeToken_apply, Option.bind_some, hconsume, if_neg (by simp [hcommand])]
    rfl
  have hsuffix := @parseSuffix_args ε (⟨.word, command⟩ :: args.map Arg.token) other (n + 1) args
    ⟨[], some command, [], [], [], false, 0, 0⟩ 1 line rfl hn
  unfold parseSimpleCommand
  rw [Parse.bind_apply, hassigns, Option.bind_some]
  dsimp only
  rw [Parse.bind_apply, hword, Option.bind_some, Parse.bind_apply, hsuffix, Option.bind_some]
  dsimp only
  rw [if_neg (by simp)]
  rfl

end

/-- The arguments are the command word and one entry for each token, in order. -/
def KeepsPlaces (x : Expander ε σ) (other : Token → Option ε) (command : List Byte) (args : List Arg) (line : ℤ) (world : σ) : Prop :=
  ∃ node s' bound, (∀ n ≥ bound,
    parseSimpleCommand (⟨.word, command⟩ :: args.map Arg.token) (parseExpansion other) n ⟨0, line⟩ = some (some node, s')) ∧
    (x.arguments node world).1 = command :: args.map (Arg.value (x.vars world))

/-- An argument for each token is one for each word. -/
theorem isWord_of_keepsPlaces {x : Expander ε σ} {other : Token → Option ε} {command : List Byte}
    (hcommand : command ≠ lit "break" ∧ command ≠ lit "continue") {args : List Arg} {line : ℤ} {world : σ}
    (h : KeepsPlaces x other command args line world) : ∀ arg ∈ args, arg.IsWord := by
  obtain ⟨node, s', bound, hparse, hargs⟩ := h
  have hnode := hparse (max bound (args.length + 1)) (le_max_left ..)
  rw [parseSimpleCommand_args hcommand args line (by omega)] at hnode
  obtain ⟨hnode, -⟩ := Prod.mk.inj (Option.some.inj hnode)
  rw [← Option.some.inj hnode] at hargs
  have hlength := congrArg List.length hargs
  rw [Expander.arguments, Expander.expandWords_length] at hlength
  rw [← Arg.length_words_iff]
  simpa using hlength

/-- Arguments keep their places exactly where there is no parameter among them. -/
theorem keepsPlaces_iff (x : Expander ε σ) (other : Token → Option ε) {command : List Byte}
    (hcommand : command ≠ lit "break" ∧ command ≠ lit "continue") (args : List Arg) (line : ℤ) (world : σ) :
    KeepsPlaces x other command args line world ↔ ∀ arg ∈ args, arg.IsWord := by
  constructor
  · exact isWord_of_keepsPlaces hcommand
  · intro h
    obtain ⟨hwords, hnone⟩ := Arg.words_eq (ε := ε) (x.vars world) h
    refine ⟨_, _, args.length + 1, fun n hn => parseSimpleCommand_args hcommand args line hn, ?_⟩
    rw [Expander.arguments, hnone, Expander.expandWords_nil, hwords]
    rfl

/-- A shell with the variables only -/
def variablesOnly : Expander Unit VariableStore := ⟨id, fun _ world => ([], world)⟩

theorem keepsPlaces_one :
    KeepsPlaces variablesOnly (fun _ => none) (lit "./c") [.word (lit "x")] 1 (.create none 1) := by
  have hcommand : lit "./c" ≠ lit "break" ∧ lit "./c" ≠ lit "continue" := by decide
  refine (keepsPlaces_iff variablesOnly _ hcommand _ 1 _).mpr fun arg harg => ?_
  obtain rfl := List.mem_singleton.mp harg
  trivial

/-- `./c ${1}` with the parameter `a`: the command word becomes `a`, and there is no argument. -/
theorem param_replaces_command :
    let store : VariableStore := { VariableStore.create none 1 with positionalParams := [lit "a"] }
    let node : SimpleCommand (Expansion Unit) := ⟨[], some (lit "./c"), [], [.parameter (lit "1")], [], false, 0, 0⟩
    parseSimpleCommand [⟨.word, lit "./c"⟩, (Arg.param ⟨lit "1", by decide⟩).token] (parseExpansion fun _ => none) 3 ⟨0, 1⟩ =
        some (some node, ⟨2, 1⟩) ∧
      (variablesOnly.arguments node store).1 = [lit "a"] ∧
      ¬KeepsPlaces variablesOnly (fun _ => none) (lit "./c") [.param ⟨lit "1", by decide⟩] 1 store := by
  have hcommand : lit "./c" ≠ lit "break" ∧ lit "./c" ≠ lit "continue" := by decide
  refine ⟨?_, ?_, fun h => ?_⟩
  · exact parseSimpleCommand_args hcommand [.param ⟨lit "1", by decide⟩] 1 (by decide)
  · rfl
  · exact isWord_of_keepsPlaces hcommand h _ List.mem_cons_self

end ValidcTools.Sh23
