import ValidcTools.Sh23.Parser
import ValidcTools.Lib.KeyedList

/-! The variables of the shell in `variables.c`, as a finite map with read-only entries. -/
namespace ValidcTools.Sh23

structure Variable where
  name : List Byte
  value : List Byte
  exported : Bool
  readOnly : Bool
deriving DecidableEq

structure VariableStore where
  vars : List Variable
  positionalParams : List (List Byte)
  statusStr : List Byte
  pid : ℤ
  shellName : List Byte
  lastBgPid : ℤ
  options : List Byte
deriving DecidableEq

/-- `variable_create` -/
def variableCreate (name value : List Byte) : Variable := ⟨name, value, false, false⟩

/-- `find_variable_index` -/
def findVariableIndex (vars : List Variable) (name : List Byte) : Option ℕ := vars.findIdx? fun v => decide (v.name = name)

/-- `is_special_variable` -/
def isSpecialVariable (name : List Byte) : Bool := ["?", "#", "$", "!", "0", "@", "*", "-"].any fun s => lit s == name

namespace VariableStore

/-- `variable_store_create` -/
def create (shellName : Option (List Byte)) (pid : ℤ) : VariableStore :=
  ⟨[], [], lit "0", pid, shellName.getD (lit "myshell"), 0, lit "i"⟩

/-- The variable of a name changed in place, or a new one appended. A read-only variable is changed only by
a change that is no assignment. -/
def change (store : VariableStore) (name : List Byte) (refuses : Variable → Bool) (f : Variable → Variable)
    (new : Variable) : VariableStore :=
  if isSpecialVariable name then store
  else
    match findVariableIndex store.vars name with
    | some idx =>
      if store.vars[idx]?.any refuses then store else { store with vars := store.vars.modify idx f }
    | none => { store with vars := store.vars ++ [new] }

/-- `variable_store_set_variable` -/
def setVariable (store : VariableStore) (name value : List Byte) : VariableStore :=
  store.change name Variable.readOnly (fun v => { v with value := value }) (variableCreate name value)

/-- `variable_store_export_variable` -/
def exportVariable (store : VariableStore) (name : List Byte) : VariableStore :=
  store.change name (fun _ => false) (fun v => { v with exported := true }) { variableCreate name [] with exported := true }

/-- `variable_store_make_readonly` -/
def makeReadonly (store : VariableStore) (name : List Byte) : VariableStore :=
  store.change name (fun _ => false) (fun v => { v with readOnly := true }) { variableCreate name [] with readOnly := true }

/-- `variable_store_unset_variable` -/
def unsetVariable (store : VariableStore) (name : List Byte) : VariableStore :=
  if isSpecialVariable name then store
  else
    match findVariableIndex store.vars name with
    | some idx =>
      if store.vars[idx]?.any Variable.readOnly then store else { store with vars := store.vars.eraseIdx idx }
    | none => store

/-- The positional parameters with a blank between two of them -/
def joined : List (List Byte) → List Byte
  | [] => []
  | [param] => param
  | param :: params => param ++ ( ' ' : Byte) :: joined params

/-- `variable_store_get_variable`: `none` is a text that was freed before it is returned. -/
def getVariable (store : VariableStore) (name : List Byte) : Option (List Byte) :=
  if name = lit "?" then some store.statusStr
  else if name = lit "#" then some (lit (toString store.positionalParams.length))
  else if name = lit "$" then some (lit (toString store.pid))
  else if name = lit "!" then some (if store.lastBgPid = 0 then [] else lit (toString store.lastBgPid))
  else if name = lit "0" then some store.shellName
  else if name = lit "@" ∨ name = lit "*" then if store.positionalParams = [] then some [] else none
  else if name = lit "-" then some store.options
  else if name.head?.any fun c => isDigit c && c != '0' then
    some (store.positionalParams[atoi (name.takeWhile isDigit) - 1]?.getD [])
  else some ((((findVariableIndex store.vars name).bind (store.vars[·]?)).map Variable.value).getD [])

/-- `variable_store_assign_default`, with the text it returns: `none` as above. The value of a variable that
exists is replaced here, not by `variable_store_set_variable`. -/
def assignDefault (store : VariableStore) (name : List Byte) (word : Option (List Byte)) :
    VariableStore × Option (List Byte) :=
  match store.getVariable name with
  | none => (store, none)
  | some value =>
    if value ≠ [] then (store, some value)
    else if isSpecialVariable name then (store, some (word.getD []))
    else
      match findVariableIndex store.vars name with
      | some idx =>
        if store.vars[idx]?.any Variable.readOnly then (store, some [])
        else ({ store with vars := store.vars.modify idx fun v => { v with value := word.getD [] } },
          some (word.getD []))
      | none => (store.setVariable name (word.getD []), some (word.getD []))

/-! ## Operations one after another -/

inductive Op
  | set (name value : List Byte)
  | exportName (name : List Byte)
  | unset (name : List Byte)
  | makeReadonly (name : List Byte)
  | assignDefault (name : List Byte) (word : Option (List Byte))

def Op.name : Op → List Byte
  | .set name _ | .exportName name | .unset name | .makeReadonly name | .assignDefault name _ => name

def step (store : VariableStore) : Op → VariableStore
  | .set name value => store.setVariable name value
  | .exportName name => store.exportVariable name
  | .unset name => store.unsetVariable name
  | .makeReadonly name => store.makeReadonly name
  | .assignDefault name word => (store.assignDefault name word).1

def run (store : VariableStore) (ops : List Op) : VariableStore := ops.foldl step store

end VariableStore

/-! ## The map of variables -/

structure Entry where
  value : List Byte
  exported : Bool
  readOnly : Bool
deriving DecidableEq

/-- What the variables are for: a map from names to values with their flags. -/
abbrev VarMap := List Byte → Option Entry

namespace VarMap

/-- The value, or the empty text -/
def get (m : VarMap) (name : List Byte) : List Byte := ((m name).map Entry.value).getD []

/-- The entry of the name, or the empty one -/
def entry (m : VarMap) (name : List Byte) : Entry := (m name).getD ⟨[], false, false⟩

def set (m : VarMap) (name value : List Byte) : VarMap :=
  if (m.entry name).readOnly then m else Function.update m name (some { m.entry name with value := value })

def step (m : VarMap) : VariableStore.Op → VarMap
  | .set name value => m.set name value
  | .exportName name => Function.update m name (some { m.entry name with exported := true })
  | .unset name => if (m.entry name).readOnly then m else Function.update m name none
  | .makeReadonly name => Function.update m name (some { m.entry name with readOnly := true })
  | .assignDefault name word => if m.get name = [] then m.set name (word.getD []) else m

/-- A read-only entry keeps its value, and stays read-only. -/
theorem step_readOnly {m : VarMap} {name : List Byte} {e : Entry} (he : m name = some e) (hr : e.readOnly = true)
    (op : VariableStore.Op) : ∃ e', m.step op name = some e' ∧ e'.value = e.value ∧ e'.readOnly = true := by
  have hentry : m.entry name = e := by rw [entry, he, Option.getD_some]
  have hguard (n : List Byte) (new : Option Entry) : (if (m.entry n).readOnly then m else Function.update m n new) name = some e := by
    by_cases hn : name = n
    · rw [← hn, hentry, if_pos hr, he]
    · split_ifs
      · exact he
      · exact (Function.update_of_ne hn _ _).trans he
  have hupdate (n : List Byte) (f : Entry → Entry) (hv : (f e).value = e.value) (hro : (f e).readOnly = true) :
      ∃ e', Function.update m n (some (f (m.entry n))) name = some e' ∧ e'.value = e.value ∧ e'.readOnly = true := by
    by_cases hn : name = n
    · subst hn
      exact ⟨f e, by rw [hentry, Function.update_self], hv, hro⟩
    · exact ⟨e, (Function.update_of_ne hn _ _).trans he, rfl, hr⟩
  cases op with
  | set n v => exact ⟨e, hguard n _, rfl, hr⟩
  | exportName n => exact hupdate n (fun e => { e with exported := true }) rfl hr
  | unset n => exact ⟨e, hguard n _, rfl, hr⟩
  | makeReadonly n => exact hupdate n (fun e => { e with readOnly := true }) rfl rfl
  | assignDefault n word =>
    refine ⟨e, ?_, rfl, hr⟩
    rw [step]
    split_ifs
    · exact hguard n _
    · exact he

theorem run_readOnly (ops : List VariableStore.Op) {m : VarMap} {name : List Byte} {e : Entry} (he : m name = some e)
    (hr : e.readOnly = true) : ∃ e', ops.foldl step m name = some e' ∧ e'.value = e.value ∧ e'.readOnly = true := by
  induction ops generalizing m e with
  | nil => exact ⟨e, he, rfl, hr⟩
  | cons op ops ih =>
    obtain ⟨e₁, he₁, hv₁, hr₁⟩ := step_readOnly he hr op
    obtain ⟨e', he', hv', hr'⟩ := ih he₁ hr₁
    exact ⟨e', he', hv'.trans hv₁, hr'⟩

end VarMap

/-! ## The store as the map -/

def Variable.entry (v : Variable) : Entry := ⟨v.value, v.exported, v.readOnly⟩

def varMap (vars : List Variable) : VarMap := fun name => (KeyedList.find Variable.name vars name).map Variable.entry

theorem not_special {name : List Byte} (h : isValidName name = true) : isSpecialVariable name = false := by
  refine Bool.eq_false_iff.mpr fun hs => ?_
  obtain ⟨s, hmem, heq⟩ := List.any_eq_true.mp hs
  obtain rfl := eq_of_beq heq
  have hall : ∀ s ∈ ["?", "#", "$", "!", "0", "@", "*", "-"], isValidName (lit s) = false := by decide
  exact Bool.false_ne_true ((hall s hmem).symm.trans h)

/-- An identifier is neither a special nor a positional parameter. -/
theorem getVariable_eq (store : VariableStore) {name : List Byte} (h : isValidName name = true) :
    store.getVariable name = some ((varMap store.vars).get name) := by
  have hspecial := not_special h
  have hne (s : String) (hs : s ∈ ["?", "#", "$", "!", "0", "@", "*", "-"]) : name ≠ lit s := by
    rintro rfl
    exact Bool.eq_false_iff.mp hspecial (List.any_eq_true.mpr ⟨s, hs, beq_self_eq_true _⟩)
  have hdigit : (name.head?.any fun c => isDigit c && c != '0') = false := by
    cases name with
    | nil => rfl
    | cons c name =>
      have hc : isDigit c = false := by
        simp only [isValidName, List.head?_cons, Option.any_some, Bool.and_eq_true, Bool.not_eq_true'] at h
        exact h.1
      rw [List.head?_cons, Option.any_some, hc, Bool.false_and]
  unfold VariableStore.getVariable
  rw [if_neg (hne "?" (by simp)), if_neg (hne "#" (by simp)), if_neg (hne "$" (by simp)), if_neg (hne "!" (by simp)),
    if_neg (hne "0" (by simp)), if_neg (not_or.mpr ⟨hne "@" (by simp), hne "*" (by simp)⟩), if_neg (hne "-" (by simp)),
    if_neg (Bool.eq_false_iff.mp hdigit)]
  rw [show findVariableIndex store.vars name = KeyedList.index Variable.name store.vars name from rfl, KeyedList.index_bind]
  unfold VarMap.get varMap
  rw [Option.map_map]
  rfl

theorem readOnly_entry (vars : List Variable) (name : List Byte) :
    (KeyedList.find Variable.name vars name).any Variable.readOnly = ((varMap vars).entry name).readOnly := by
  unfold VarMap.entry varMap
  cases KeyedList.find Variable.name vars name <;> rfl

/-- Where the value is empty, the second path to it writes what the first one does. -/
theorem assignDefault_eq (store : VariableStore) {name : List Byte} (hname : isValidName name = true) (word : Option (List Byte)) :
    (store.assignDefault name word).1 =
      if (varMap store.vars).get name = [] then store.setVariable name (word.getD []) else store := by
  unfold VariableStore.assignDefault
  rw [getVariable_eq store hname, not_special hname]
  dsimp only
  by_cases hvalue : (varMap store.vars).get name = []
  · rw [if_neg (not_not.mpr hvalue), if_neg Bool.false_ne_true, if_pos hvalue]
    cases hidx : findVariableIndex store.vars name with
    | none => rfl
    | some i =>
      unfold VariableStore.setVariable VariableStore.change
      rw [not_special hname, if_neg Bool.false_ne_true, hidx]
      dsimp only
      split_ifs <;> rfl
  · rw [if_pos hvalue, if_neg hvalue]

section
variable {store : VariableStore} {name : List Byte} (hd : KeyedList.Distinct Variable.name store.vars)
  (hname : isValidName name = true)
include hd hname

/-- A change in place -/
theorem change_some {v : Variable} (hv : KeyedList.find Variable.name store.vars name = some v) {f : Variable → Variable}
    (hf : (f v).name = v.name) (refuses : Variable → Bool) (new : Variable) :
    KeyedList.Distinct Variable.name (store.change name refuses f new).vars ∧
      varMap (store.change name refuses f new).vars =
        if refuses v then varMap store.vars else Function.update (varMap store.vars) name (some (f v).entry) := by
  obtain ⟨i, hidx, hi⟩ := KeyedList.exists_index hv
  have hindex : findVariableIndex store.vars name = some i := hidx
  obtain ⟨-, rfl⟩ := KeyedList.find_eq_some hv
  unfold VariableStore.change
  rw [not_special hname, if_neg Bool.false_ne_true]
  simp only [hindex, hi, Option.any_some]
  split_ifs with hr
  · exact ⟨hd, rfl⟩
  · refine ⟨hd.modify hi hf, ?_⟩
    funext k
    unfold varMap
    rw [KeyedList.find_modify hd hi hf]
    by_cases hk : v.name = k
    · rw [if_pos hk, hk, Function.update_self, Option.map_some]
    · rw [if_neg hk, Function.update_of_ne (Ne.symm hk)]

/-- A new variable -/
theorem change_none (hv : KeyedList.find Variable.name store.vars name = none) (refuses : Variable → Bool)
    (f : Variable → Variable) {new : Variable} (hnew : new.name = name) :
    KeyedList.Distinct Variable.name (store.change name refuses f new).vars ∧
      varMap (store.change name refuses f new).vars = Function.update (varMap store.vars) name (some new.entry) := by
  have hindex : findVariableIndex store.vars name = none := KeyedList.index_eq_none_iff.mpr hv
  unfold VariableStore.change
  rw [not_special hname, if_neg Bool.false_ne_true]
  simp only [hindex]
  subst hnew
  refine ⟨hd.push (KeyedList.find_eq_none_iff.mp hv), ?_⟩
  funext k
  unfold varMap
  rw [KeyedList.find_push hv]
  by_cases hk : new.name = k
  · rw [if_pos hk, hk, Function.update_self, Option.map_some]
  · rw [if_neg hk, Function.update_of_ne (Ne.symm hk)]

/-- A change of the store is one of the entry. -/
theorem change_entry (refuses : Variable → Bool) (f : Variable → Variable) (new : Variable) (g : Entry → Entry)
    (hf : ∀ v, (f v).name = v.name) (hnew : new.name = name) (hg : ∀ v, (f v).entry = g v.entry)
    (hnewg : new.entry = g ⟨[], false, false⟩) :
    KeyedList.Distinct Variable.name (store.change name refuses f new).vars ∧
      varMap (store.change name refuses f new).vars =
        if (KeyedList.find Variable.name store.vars name).any refuses then varMap store.vars
        else Function.update (varMap store.vars) name (some (g ((varMap store.vars).entry name))) := by
  cases hv : KeyedList.find Variable.name store.vars name with
  | some v =>
    have hentry : (varMap store.vars).entry name = v.entry := by rw [VarMap.entry, varMap, hv, Option.map_some, Option.getD_some]
    rw [hentry, ← hg]
    exact change_some hd hname hv (hf v) refuses new
  | none =>
    have hentry : (varMap store.vars).entry name = ⟨[], false, false⟩ := by rw [VarMap.entry, varMap, hv]; rfl
    rw [hentry, ← hnewg]
    exact change_none hd hname hv refuses f hnew

theorem setVariable_refines (value : List Byte) :
    KeyedList.Distinct Variable.name (store.setVariable name value).vars ∧
      varMap (store.setVariable name value).vars = (varMap store.vars).set name value := by
  rw [VarMap.set, ← readOnly_entry]
  exact change_entry hd hname _ _ _ (fun e => { e with value := value }) (fun _ => rfl) rfl (fun _ => rfl) rfl

theorem unsetVariable_refines :
    KeyedList.Distinct Variable.name (store.unsetVariable name).vars ∧
      varMap (store.unsetVariable name).vars = (varMap store.vars).step (.unset name) := by
  rw [VarMap.step, ← readOnly_entry]
  unfold VariableStore.unsetVariable
  rw [not_special hname, if_neg Bool.false_ne_true]
  cases hv : KeyedList.find Variable.name store.vars name with
  | some v =>
    obtain ⟨i, hidx, hi⟩ := KeyedList.exists_index hv
    have hindex : findVariableIndex store.vars name = some i := hidx
    obtain ⟨-, rfl⟩ := KeyedList.find_eq_some hv
    simp only [hindex, hi, Option.any_some]
    split_ifs with hr
    · exact ⟨hd, rfl⟩
    · refine ⟨hd.eraseIdx hi, ?_⟩
      funext k
      unfold varMap
      rw [KeyedList.find_eraseIdx hd hi]
      by_cases hk : v.name = k
      · rw [if_pos hk, hk, Function.update_self, Option.map_none]
      · rw [if_neg hk, Function.update_of_ne (Ne.symm hk)]
  | none =>
    have hindex : findVariableIndex store.vars name = none := KeyedList.index_eq_none_iff.mpr hv
    simp only [hindex, Option.any_none, Bool.false_eq_true, if_false]
    refine ⟨hd, (Function.update_eq_self_iff.mpr ?_).symm⟩
    rw [varMap, hv, Option.map_none]

end

theorem step_refines {store : VariableStore} (hd : KeyedList.Distinct Variable.name store.vars) (op : VariableStore.Op)
    (hop : isValidName op.name = true) :
    KeyedList.Distinct Variable.name (store.step op).vars ∧ varMap (store.step op).vars = (varMap store.vars).step op := by
  cases op with
  | set name value => exact setVariable_refines hd hop value
  | exportName name =>
    have h := change_entry hd hop (fun _ => false) (fun v => { v with exported := true })
      { variableCreate name [] with exported := true } (fun e => { e with exported := true }) (fun _ => rfl) rfl (fun _ => rfl) rfl
    rwa [Option.any_false, if_neg Bool.false_ne_true] at h
  | makeReadonly name =>
    have h := change_entry hd hop (fun _ => false) (fun v => { v with readOnly := true })
      { variableCreate name [] with readOnly := true } (fun e => { e with readOnly := true }) (fun _ => rfl) rfl (fun _ => rfl) rfl
    rwa [Option.any_false, if_neg Bool.false_ne_true] at h
  | unset name => exact unsetVariable_refines hd hop
  | assignDefault name word =>
    have hname : isValidName name = true := hop
    rw [VariableStore.step, assignDefault_eq store hname, VarMap.step]
    split_ifs with hvalue
    · exact setVariable_refines hd hname (word.getD [])
    · exact ⟨hd, rfl⟩

/-- Over every sequence of operations on identifiers the store is a map, in which a read-only entry keeps its value
and its place. -/
theorem run_refines (store : VariableStore) (hd : KeyedList.Distinct Variable.name store.vars) (ops : List VariableStore.Op)
    (hops : ∀ op ∈ ops, isValidName op.name = true) :
    KeyedList.Distinct Variable.name (store.run ops).vars ∧
      varMap (store.run ops).vars = ops.foldl VarMap.step (varMap store.vars) ∧
      (∀ name, isValidName name = true → (store.run ops).getVariable name = some ((varMap (store.run ops).vars).get name)) ∧
      ∀ name e, varMap store.vars name = some e → e.readOnly = true →
        ∃ e', varMap (store.run ops).vars name = some e' ∧ e'.value = e.value ∧ e'.readOnly = true := by
  have hrun : KeyedList.Distinct Variable.name (store.run ops).vars ∧
      varMap (store.run ops).vars = ops.foldl VarMap.step (varMap store.vars) := by
    induction ops generalizing store with
    | nil => exact ⟨hd, rfl⟩
    | cons op ops ih =>
      obtain ⟨hd', hmap⟩ := step_refines hd op (hops op List.mem_cons_self)
      have h := ih (store.step op) hd' fun o ho => hops o (List.mem_cons_of_mem _ ho)
      rwa [hmap] at h
  obtain ⟨hdistinct, hmap⟩ := hrun
  refine ⟨hdistinct, hmap, fun name hname => getVariable_eq _ hname, fun name e he hr => ?_⟩
  rw [hmap]
  exact VarMap.run_readOnly ops he hr

theorem run_refines_readonly :
    ((VariableStore.create none 1).run [.set (lit "a") (lit "1"), .makeReadonly (lit "a"), .set (lit "a") (lit "2")]).getVariable
      (lit "a") = some (lit "1") := by
  obtain ⟨-, hmap, hget, -⟩ := run_refines (.create none 1) List.nodup_nil
    [.set (lit "a") (lit "1"), .makeReadonly (lit "a"), .set (lit "a") (lit "2")] (by decide)
  rw [hget (lit "a") (by decide), hmap]
  decide

/-- An entry that is read-only is still exported. -/
theorem readOnly_exported :
    varMap ((VariableStore.create none 1).run [.makeReadonly (lit "a")]).vars (lit "a") = some ⟨[], false, true⟩ ∧
      varMap ((VariableStore.create none 1).run [.makeReadonly (lit "a"), .exportName (lit "a")]).vars (lit "a") =
        some ⟨[], true, true⟩ := by
  decide

end ValidcTools.Sh23
