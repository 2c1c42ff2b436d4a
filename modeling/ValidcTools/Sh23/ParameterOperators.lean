import ValidcTools.Sh23.Expansions

/-! The operators `-`, `=`, `?` and `+` of a parameter expansion, beside what POSIX says of them. -/
namespace ValidcTools.Sh23

/-! ## The functions of the store -/

/-- Where a text lies that such a function returns: in the variable, in the word of the expansion, or in a literal
of the program. -/
inductive Origin
  | variable | word | literal
deriving DecidableEq

namespace VariableStore

/-- `variable_store_default_value`; the parser always gives a word. -/
def defaultValue (store : VariableStore) (name word : List Byte) : Option (List Byte × Origin) :=
  (store.getVariable name).map fun value => if value = [] then (word, .word) else (value, .variable)

/-- Where the text of `assignDefault` lies -/
def assignDefaultOrigin (store : VariableStore) (name : List Byte) : Option Origin :=
  (store.getVariable name).map fun value =>
    if value ≠ [] then .variable
    else if isSpecialVariable name then .word
    else if ((findVariableIndex store.vars name).bind (store.vars[·]?)).any Variable.readOnly then .literal
    else .word

/-- `variable_store_indicate_error`: `some none` is the call of `exit(1)`. -/
def indicateError (store : VariableStore) (name : List Byte) : Option (Option (List Byte × Origin)) :=
  (store.getVariable name).map fun value => if value = [] then none else some (value, .variable)

/-- `variable_store_alternative_value` -/
def alternativeValue (store : VariableStore) (name word : List Byte) : Option (List Byte × Origin) :=
  (store.getVariable name).map fun value => if value ≠ [] then (word, .word) else ([], .literal)

end VariableStore

/-! ## The expansion -/

/-- What `expand_string` makes of one such expansion: the text, and the origin of the text that it frees. -/
inductive Expanded
  | text (text : List Byte) (store : VariableStore) (freed : Origin)
  | exited (status : ℤ)

/-- The cases of `expand_string` for the operators. None of them is given the flag of the colon. -/
def expandOperator (store : VariableStore) (type : DefaultType) (var defaultValue : List Byte) : Option Expanded :=
  match type with
  | .useDefault => (store.defaultValue var defaultValue).map fun r => .text r.1 store r.2
  | .assign =>
    (store.assignDefault var (some defaultValue)).2.bind fun text => (store.assignDefaultOrigin var).map fun origin =>
      .text text (store.assignDefault var (some defaultValue)).1 origin
  | .errorIfUnset =>
    (store.indicateError var).map fun r => (r.map fun r => Expanded.text r.1 store r.2).getD (.exited 1)
  | .alternative => (store.alternativeValue var defaultValue).map fun r => .text r.1 store r.2

def operatorByte : DefaultType → Byte
  | .useDefault => '-'
  | .assign => '='
  | .errorIfUnset => '?'
  | .alternative => '+'

/-- `${name op word}`, with or without a colon -/
def operatorToken (type : DefaultType) (isColon : Bool) (name word : List Byte) : Token :=
  ⟨.param, 0x24 :: 0x7B :: (name ++ ((if isColon then [(0x3A : Byte)] else []) ++ operatorByte type :: (word ++ [0x7D])))⟩

/-- The token parsed by `parse_expansion` and expanded by `expand_string` -/
def expandToken (store : VariableStore) (token : Token) : Option Expanded :=
  match parseExpansion (fun _ => (none : Option Empty)) token with
  | some (.default type var defaultValue _) => expandOperator store type var defaultValue
  | _ => none

/-! ## POSIX -/

inductive Posix
  | substitute (text : List Byte)
  | assign (text : List Byte)
  | failure

/-- With a colon the test is for an unset or empty variable, without it for an unset one. -/
def isAbsent (isColon : Bool) (entry : Option Entry) : Bool := entry.all fun e => isColon && e.value.isEmpty

/-- What the expansion stands for -/
def posix (type : DefaultType) (isColon : Bool) (entry : Option Entry) (word : List Byte) : Posix :=
  let value := (entry.map Entry.value).getD []
  match type with
  | .useDefault => .substitute (if isAbsent isColon entry then word else value)
  | .assign =>
    if isAbsent isColon entry then if entry.any Entry.readOnly then .failure else .assign word else .substitute value
  | .errorIfUnset => if isAbsent isColon entry then .failure else .substitute value
  | .alternative => .substitute (if isAbsent isColon entry then [] else word)

/-- The store with these variables, and the rest as it was -/
def HasVars (store store' : VariableStore) (m : VarMap) : Prop :=
  varMap store'.vars = m ∧ { store' with vars := store.vars } = store

/-- The result is the one that POSIX names, and what is freed is no text of the store or of the program. -/
def Meets (store : VariableStore) (name : List Byte) : Posix → Option Expanded → Prop
  | .substitute text, some (.text text' store' freed) =>
    text' = text ∧ HasVars store store' (varMap store.vars) ∧ freed = .word
  | .assign text, some (.text text' store' freed) =>
    text' = text ∧ HasVars store store' ((varMap store.vars).set name text) ∧ freed = .word
  | .failure, some (.exited status) => status ≠ 0
  | _, _ => False

def MeetsPosix (store : VariableStore) (type : DefaultType) (isColon : Bool) (name word : List Byte) : Prop :=
  Meets store name (posix type isColon (varMap store.vars name) word) (expandToken store (operatorToken type isColon name word))

/-- When the code goes the way that POSIX names -/
def OperatorFits (type : DefaultType) (isColon : Bool) (entry : Option Entry) (word : List Byte) : Prop :=
  match type with
  | .useDefault => entry = none ∨ ((∃ e ∈ entry, e.value = []) ∧ (isColon = true ∨ word = []))
  | .assign =>
    entry = none ∨ ((∃ e ∈ entry, e.value = [] ∧ e.readOnly = false) ∧ (isColon = true ∨ word = []))
  | .errorIfUnset => entry = none ∨ ((∃ e ∈ entry, e.value = []) ∧ isColon = true)
  | .alternative => ∃ e ∈ entry, e.value ≠ []

/-! ## The parser -/

theorem isValidName_bytes {name : List Byte} (h : isValidName name = true) :
    (∀ c ∈ name, (isAlnum c || decide (c = '_')) = true) ∧ ∃ c rest, name = c :: rest ∧ isDigit c = false := by
  obtain ⟨hhead, hall⟩ := Bool.and_eq_true_iff.mp h
  refine ⟨List.all_eq_true.mp hall, ?_⟩
  obtain ⟨c, hc, hdigit⟩ := (Option.any_eq_true _ _).mp hhead
  cases name with
  | nil => cases hc
  | cons d rest =>
    obtain rfl := Option.some.inj hc
    exact ⟨d, rest, rfl, by simpa using hdigit⟩

theorem operation_operatorByte (var : List Byte) (isColon : Bool) (type : DefaultType) (word : List Byte) :
    operation var isColon (operatorByte type) (word ++ [0x7D]) = (.default type var word isColon : Expansion Empty) := by
  have hlong : decide (operatorByte type = '%' ∨ operatorByte type = '#') = false := by
    cases type <;> decide
  have hbrace : (word ++ [(0x7D : Byte)]).getLast? = some 0x7D := List.getLast?_concat
  unfold operation
  simp only [hlong, Bool.false_and, Bool.false_eq_true, if_false]
  rw [if_pos hbrace, List.dropLast_concat]
  cases type <;> rfl

theorem operatorByte_mem (type : DefaultType) : operatorByte type ∈ lit "-=?+%#" ∧
    (0x7D :: lit ":-=?+%#").contains (operatorByte type) = true ∧ operatorByte type ≠ (0x3A : Byte) := by
  cases type <;> decide

/-- The parser takes the expansion apart at its operator. -/
theorem parseExpansion_operatorToken (type : DefaultType) (isColon : Bool) {name : List Byte}
    (hname : isValidName name = true) (hlen : name.length ≤ 255) (word : List Byte) :
    parseExpansion (fun _ => (none : Option Empty)) (operatorToken type isColon name word) =
      some (.default type name word isColon) := by
  obtain ⟨hbytes, c, rest, hcons, hdigit⟩ := isValidName_bytes hname
  obtain ⟨hop, hends, hcolon⟩ := operatorByte_mem type
  have hplain : ∀ b ∈ name, (!(0x7D :: lit ":-=?+%#").contains b) = true := fun b hb => by
    rw [(nameByte_plain b (hbytes b hb)).1, Bool.not_false]
  obtain ⟨-, hhash, hspecial⟩ := nameByte_plain c (hbytes c (hcons ▸ List.mem_cons_self))
  have hzero : ¬(specialParameter c).isSome = true := by
    intro h
    rw [hspecial h] at hdigit
    exact absurd hdigit (by decide)
  set tail := (if isColon then [(0x3A : Byte)] else []) ++ operatorByte type :: (word ++ [0x7D]) with htail
  have hstop : ∃ b u, tail = b :: u ∧ (!(0x7D :: lit ":-=?+%#").contains b) = false := by
    cases isColon with
    | true => exact ⟨0x3A, _, rfl, by decide⟩
    | false => exact ⟨operatorByte type, _, rfl, by rw [hends]; rfl⟩
  obtain ⟨b, u, hb, hbstop⟩ := hstop
  have htake : (name ++ tail).takeWhile (fun b => !(0x7D :: lit ":-=?+%#").contains b) = name := by
    rw [List.takeWhile_append_of_pos hplain, hb, List.takeWhile_cons_of_neg (by rw [hbstop]; exact Bool.false_ne_true),
      List.append_nil]
  have hdrop : (name ++ tail).dropWhile (fun b => !(0x7D :: lit ":-=?+%#").contains b) = tail := by
    rw [List.dropWhile_append_of_pos hplain, hb, List.dropWhile_cons_of_neg (by rw [hbstop]; exact Bool.false_ne_true)]
  have hflag : decide (tail.head? = some (0x3A : Byte)) = isColon := by
    cases isColon with
    | true => rfl
    | false =>
      have hhead : tail.head? = some (operatorByte type) := rfl
      exact decide_eq_false fun heq => hcolon (Option.some.inj (hhead.symm.trans heq))
  have hafter : (if isColon then tail.tail else tail) = operatorByte type :: (word ++ [0x7D]) := by
    cases isColon <;> rfl
  unfold parseExpansion operatorToken
  rw [if_pos rfl, if_pos (by simp [List.isPrefixOf])]
  simp only [List.drop_succ_cons, List.drop_zero]
  rw [← htail]
  have hbody : name ++ tail = c :: (rest ++ tail) := by rw [hcons, List.cons_append]
  rw [hbody] at htake hdrop ⊢
  unfold parseParamBody
  dsimp only
  rw [if_neg hhash, if_neg fun h => hzero h.1]
  simp only [htake, hdrop, hflag, hafter, List.take_of_length_le hlen]
  rw [if_pos hop, operation_operatorByte]

/-! ## The table -/

theorem setVariable_rest (store : VariableStore) (name value : List Byte) :
    { store.setVariable name value with vars := store.vars } = store := by
  unfold VariableStore.setVariable VariableStore.change
  split
  · rfl
  · split
    · split <;> rfl
    · rfl

section

variable {store : VariableStore} {name : List Byte} (hname : isValidName name = true)

include hname

theorem expandOperator_useDefault (word : List Byte) :
    expandOperator store .useDefault name word = some (if (varMap store.vars).get name = [] then .text word store .word
      else .text ((varMap store.vars).get name) store .variable) := by
  unfold expandOperator VariableStore.defaultValue
  simp only [getVariable_eq store hname, Option.map_some]
  split_ifs <;> rfl

theorem expandOperator_errorIfUnset (word : List Byte) :
    expandOperator store .errorIfUnset name word = some (if (varMap store.vars).get name = [] then .exited 1
      else .text ((varMap store.vars).get name) store .variable) := by
  unfold expandOperator VariableStore.indicateError
  simp only [getVariable_eq store hname, Option.map_some]
  split_ifs <;> rfl

theorem expandOperator_alternative (word : List Byte) :
    expandOperator store .alternative name word = some (if (varMap store.vars).get name = [] then .text [] store .literal
      else .text word store .word) := by
  unfold expandOperator VariableStore.alternativeValue
  simp only [getVariable_eq store hname, Option.map_some, Ne, ite_not]
  split_ifs <;> rfl

theorem assignDefault_text (word : List Byte) :
    (store.assignDefault name (some word)).2 = some (if (varMap store.vars).get name = [] then
      if ((varMap store.vars).entry name).readOnly then [] else word else (varMap store.vars).get name) ∧
    store.assignDefaultOrigin name = some (if (varMap store.vars).get name = [] then
      if ((varMap store.vars).entry name).readOnly then .literal else .word else .variable) := by
  have hfind : (findVariableIndex store.vars name).bind (store.vars[·]?) = KeyedList.find Variable.name store.vars name :=
    KeyedList.index_bind ..
  have hreadOnly := readOnly_entry store.vars name
  rw [← hfind] at hreadOnly
  unfold VariableStore.assignDefault VariableStore.assignDefaultOrigin
  rw [getVariable_eq store hname, not_special hname]
  simp only [Option.map_some, Ne, ite_not, Bool.false_eq_true, if_false]
  constructor
  · split_ifs with hvalue hro
    · cases hidx : findVariableIndex store.vars name with
      | none =>
        rw [hidx, Option.bind_none, Option.any_none] at hreadOnly
        exact absurd (hreadOnly.trans hro) Bool.false_ne_true
      | some i =>
        rw [hidx, Option.bind_some] at hreadOnly
        simp only
        rw [if_pos (hreadOnly.trans hro)]
    · cases hidx : findVariableIndex store.vars name with
      | none => rfl
      | some i =>
        rw [hidx, Option.bind_some] at hreadOnly
        simp only
        rw [if_neg (hreadOnly ▸ hro)]
        rfl
    · rfl
  · rw [hreadOnly]

theorem expandOperator_assign (word : List Byte) :
    expandOperator store .assign name word = some (if (varMap store.vars).get name = [] then
        .text (if ((varMap store.vars).entry name).readOnly then [] else word) (store.setVariable name word)
          (if ((varMap store.vars).entry name).readOnly then .literal else .word)
      else .text ((varMap store.vars).get name) store .variable) := by
  unfold expandOperator
  simp only [(assignDefault_text hname word).1, (assignDefault_text hname word).2, assignDefault_eq store hname,
    Option.bind_some, Option.map_some, Option.getD_some]
  split_ifs <;> rfl

end

theorem hasVars_self (store : VariableStore) : HasVars store store (varMap store.vars) := ⟨rfl, rfl⟩

theorem hasVars_setVariable {store : VariableStore} (hd : KeyedList.Distinct Variable.name store.vars) {name : List Byte}
    (hname : isValidName name = true) (word : List Byte) :
    HasVars store (store.setVariable name word) ((varMap store.vars).set name word) :=
  ⟨(setVariable_refines hd hname word).2, setVariable_rest store name word⟩

/-- Setting an empty variable to the empty text changes nothing. -/
theorem set_nil_eq {m : VarMap} {name : List Byte} {e : Entry} (he : m name = some e) (hvalue : e.value = []) :
    m.set name [] = m := by
  have hentry : m.entry name = e := by rw [VarMap.entry, he, Option.getD_some]
  unfold VarMap.set
  split_ifs
  · rfl
  · rw [hentry, ← hvalue, Function.update_eq_self_iff, he]

/-- The expansion is that of POSIX exactly when the variable is unset, or empty with a colon or an empty word, which
for `=` must not be read-only and for `?` have the colon; for `+` exactly when the variable is not empty. -/
theorem meetsPosix_iff {store : VariableStore} (hd : KeyedList.Distinct Variable.name store.vars) {name : List Byte}
    (hname : isValidName name = true) (hlen : name.length ≤ 255) (word : List Byte) (type : DefaultType)
    (isColon : Bool) : MeetsPosix store type isColon name word ↔ OperatorFits type isColon (varMap store.vars name) word := by
  have hset := hasVars_setVariable hd hname word
  unfold MeetsPosix expandToken
  rw [parseExpansion_operatorToken type isColon hname hlen]
  simp only
  cases hentry : varMap store.vars name with
  | none =>
    have hget : (varMap store.vars).get name = [] := by rw [VarMap.get, hentry]; rfl
    have hro : ((varMap store.vars).entry name).readOnly = false := by rw [VarMap.entry, hentry]; rfl
    cases type with
    | useDefault => simp [expandOperator_useDefault hname, hget, posix, isAbsent, Meets, OperatorFits, hasVars_self]
    | assign => simp [expandOperator_assign hname, hget, hro, posix, isAbsent, Meets, OperatorFits, hset]
    | errorIfUnset => simp [expandOperator_errorIfUnset hname, hget, posix, isAbsent, Meets, OperatorFits]
    | alternative => simp [expandOperator_alternative hname, hget, posix, isAbsent, Meets, OperatorFits]
  | some e =>
    have hget : (varMap store.vars).get name = e.value := by rw [VarMap.get, hentry]; rfl
    have hro : ((varMap store.vars).entry name).readOnly = e.readOnly := by rw [VarMap.entry, hentry]; rfl
    by_cases hvalue : e.value = []
    · have hnil := set_nil_eq hentry hvalue
      cases type with
      | useDefault =>
        cases isColon <;> simp [expandOperator_useDefault hname, hget, hvalue, posix, isAbsent, Meets, OperatorFits, hasVars_self]
      | assign =>
        cases hreadOnly : e.readOnly with
        | true => cases isColon <;>
            simp [expandOperator_assign hname, hget, hvalue, hro, hreadOnly, posix, isAbsent, Meets, OperatorFits]
        | false =>
          cases isColon with
          | true => simp [expandOperator_assign hname, hget, hvalue, hro, hreadOnly, posix, isAbsent, Meets, OperatorFits, hset]
          | false =>
            -- the empty text is assigned where nothing should be
            have hsame : word = [] → HasVars store (store.setVariable name word) (varMap store.vars) := by
              rintro rfl
              rwa [hnil] at hset
            simpa [expandOperator_assign hname, hget, hvalue, hro, hreadOnly, posix, isAbsent, Meets, OperatorFits] using hsame
      | errorIfUnset =>
        cases isColon <;> simp [expandOperator_errorIfUnset hname, hget, hvalue, posix, isAbsent, Meets, OperatorFits]
      | alternative =>
        cases isColon <;> simp [expandOperator_alternative hname, hget, hvalue, posix, isAbsent, Meets, OperatorFits]
    · cases type with
      | useDefault => simp [expandOperator_useDefault hname, hget, hvalue, posix, isAbsent, Meets, OperatorFits]
      | assign => simp [expandOperator_assign hname, hget, hvalue, posix, isAbsent, Meets, OperatorFits]
      | errorIfUnset => simp [expandOperator_errorIfUnset hname, hget, hvalue, posix, isAbsent, Meets, OperatorFits]
      | alternative =>
        simp [expandOperator_alternative hname, hget, hvalue, posix, isAbsent, Meets, OperatorFits, hasVars_self]

/-- `v` is set to the empty text. -/
def emptyVariable : VariableStore := { VariableStore.create none 1 with vars := [variableCreate (lit "v") []] }

theorem meetsPosix_iff_emptyVariable :
    MeetsPosix emptyVariable .useDefault true (lit "v") (lit "w") ↔
      OperatorFits .useDefault true (varMap emptyVariable.vars (lit "v")) (lit "w") := by
  have hd : KeyedList.Distinct Variable.name emptyVariable.vars := List.nodup_singleton _
  exact meetsPosix_iff hd (by decide) (by decide) (lit "w") .useDefault true

/-- `${v-w}` is the word, although the variable is set. -/
theorem not_meetsPosix : ¬MeetsPosix emptyVariable .useDefault false (lit "v") (lit "w") := by
  have hname : isValidName (lit "v") = true := by decide
  unfold MeetsPosix expandToken
  rw [parseExpansion_operatorToken .useDefault false hname (by decide)]
  simp only
  rw [expandOperator_useDefault hname]
  rintro ⟨htext, -, -⟩
  exact absurd htext (by decide)

end ValidcTools.Sh23
