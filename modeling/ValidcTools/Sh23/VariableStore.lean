import ValidcTools.Sh23.Variables

/-! The variables of `variable_store.c`: a map whose read-only entries are replaced and removed like any other. -/
namespace ValidcTools.Sh23

/-! ## Arrays -/

/-- Each of `n` elements from `i` on is overwritten with the next. -/
def shiftDown {α : Type} (data : List α) (i : ℕ) : ℕ → List α
  | 0 => data
  | n + 1 => shiftDown ((data[i + 1]?.map (data.set i)).getD data) (i + 1) n

/-- `PREFIXappend` -/
def arrayAppend {α : Type} (data : List α) (element : α) : ℤ × List α := (0, data ++ [element])

/-- `PREFIXset` -/
def arraySet {α : Type} (data : List α) (index : ℕ) (element : α) : ℤ × List α :=
  if index ≥ data.length then (-1, data) else (0, data.set index element)

/-- `PREFIXremove` -/
def arrayRemove {α : Type} (data : List α) (index : ℕ) : ℤ × List α :=
  if index ≥ data.length then (-1, data) else (0, (shiftDown data index (data.length - 1 - index)).dropLast)

/-- `PREFIXfind_with_compare` -/
def arrayFindWithCompare {α β : Type} (data : List α) (key : β) (compare : α → β → Bool) : Option ℕ :=
  data.findIdx? fun x => compare x key

theorem shiftDown_append {α : Type} (a : List α) (x : α) (b : List α) :
    (shiftDown (a ++ x :: b) a.length b.length).dropLast = a ++ b := by
  induction b generalizing a x with
  | nil => rw [List.length_nil, shiftDown, List.dropLast_concat, List.append_nil]
  | cons y b ih =>
    have hnext : (a ++ x :: y :: b)[a.length + 1]? = some y := by simp
    have hset : (a ++ x :: y :: b).set a.length y = (a ++ [y]) ++ y :: b := by simp
    rw [List.length_cons, shiftDown, hnext, Option.map_some, Option.getD_some, hset]
    have h := ih (a ++ [y]) y
    rw [List.length_append, List.length_singleton] at h
    rw [h, List.append_assoc, List.singleton_append]

theorem arrayRemove_eq {α : Type} {data : List α} {index : ℕ} (h : index < data.length) :
    arrayRemove data index = (0, data.eraseIdx index) := by
  obtain ⟨a, b, heq, rfl⟩ := KeyedList.exists_eq_append (List.getElem?_eq_getElem h)
  generalize data[a.length] = x at heq
  subst heq
  have hlength : (a ++ x :: b).length - 1 - a.length = b.length := by
    rw [List.length_append, List.length_cons]
    omega
  rw [arrayRemove, if_neg (Nat.not_le.mpr h), hlength, shiftDown_append, KeyedList.eraseIdx_append_cons]

/-! ## The store -/

/-- `VariableStore` as `variable_store.c` declares it -/
structure VariableTable where
  vars : List Variable
  positionalParams : List Variable
  statusStr : List Byte
  pid : ℤ
  shellName : List Byte
  lastBgPid : ℤ
  options : List Byte
deriving DecidableEq

/-- `compare_variable_name`, where it gives 0 -/
def compareVariableName (v : Variable) (name : List Byte) : Bool := decide (v.name = name)

/-- `compare_variable_name_cstr`, where it gives 0: a `String` is compared up to its NUL as well. -/
def compareVariableNameCstr (v : Variable) (name : List Byte) : Bool := decide (v.name = name)

namespace VariableTable

def create (shellName : List Byte) (pid : ℤ) : VariableTable := ⟨[], [], lit "0", pid, shellName, 0, []⟩

section
variable (compare : Variable → List Byte → Bool) (t : VariableTable) (name : List Byte)

/-- `variable_store_add` and `variable_store_add_cstr`: a new variable in the place of the old one -/
def addWith (value : List Byte) (exported readOnly : Bool) : ℤ × VariableTable :=
  match arrayFindWithCompare t.vars name compare with
  | some index =>
    let (status, vars) := arraySet t.vars index ⟨name, value, exported, readOnly⟩
    (status, { t with vars := vars })
  | none =>
    let (status, vars) := arrayAppend t.vars ⟨name, value, exported, readOnly⟩
    (status, { t with vars := vars })

/-- `variable_store_remove` and `variable_store_remove_cstr` -/
def removeWith : ℤ × VariableTable :=
  match arrayFindWithCompare t.vars name compare with
  | some index =>
    let (status, vars) := arrayRemove t.vars index
    (status, { t with vars := vars })
  | none => (-1, t)

/-- The setters of the flags, which change a variable in place -/
def setWith (f : Variable → Variable) : ℤ × VariableTable :=
  match arrayFindWithCompare t.vars name compare with
  | some index => (0, { t with vars := t.vars.modify index f })
  | none => (-1, t)

end

section
variable (t : VariableTable) (name : List Byte)

/-- `variable_store_add` -/
def add (value : List Byte) (exported readOnly : Bool) : ℤ × VariableTable :=
  t.addWith compareVariableName name value exported readOnly

/-- `variable_store_add_cstr` -/
def addCstr (value : List Byte) (exported readOnly : Bool) : ℤ × VariableTable :=
  t.addWith compareVariableNameCstr name value exported readOnly

/-- `variable_store_remove` -/
def remove : ℤ × VariableTable := t.removeWith compareVariableName name

/-- `variable_store_remove_cstr` -/
def removeCstr : ℤ × VariableTable := t.removeWith compareVariableNameCstr name

/-- `variable_store_set_exported` -/
def setExported (exported : Bool) : ℤ × VariableTable :=
  t.setWith compareVariableName name fun v => { v with exported := exported }

/-- `variable_store_set_exported_cstr` -/
def setExportedCstr (exported : Bool) : ℤ × VariableTable :=
  t.setWith compareVariableNameCstr name fun v => { v with exported := exported }

/-- `variable_store_set_read_only` -/
def setReadOnly (readOnly : Bool) : ℤ × VariableTable :=
  t.setWith compareVariableName name fun v => { v with readOnly := readOnly }

/-- `variable_store_set_read_only_cstr` -/
def setReadOnlyCstr (readOnly : Bool) : ℤ × VariableTable :=
  t.setWith compareVariableNameCstr name fun v => { v with readOnly := readOnly }

/-- `variable_store_get_variable` -/
def getVariable : Option Variable := (arrayFindWithCompare t.vars name compareVariableName).bind (t.vars[·]?)

/-- `variable_store_get_value` -/
def getValue : Option (List Byte) := (t.getVariable name).map Variable.value

end

/-- `variable_store_clear`: the shell's name and its process stay. -/
def clear (t : VariableTable) : ℤ × VariableTable :=
  (0, { t with vars := [], positionalParams := [], statusStr := lit "0", lastBgPid := 0, options := [] })

/-! ## Operations one after another -/

inductive Op
  | add (name value : List Byte) (exported readOnly : Bool)
  | addCstr (name value : List Byte) (exported readOnly : Bool)
  | remove (name : List Byte)
  | removeCstr (name : List Byte)
  | setExported (name : List Byte) (exported : Bool)
  | setExportedCstr (name : List Byte) (exported : Bool)
  | setReadOnly (name : List Byte) (readOnly : Bool)
  | setReadOnlyCstr (name : List Byte) (readOnly : Bool)
  | clear
deriving DecidableEq

def step (t : VariableTable) : Op → VariableTable
  | .add name value exported readOnly => (t.add name value exported readOnly).2
  | .addCstr name value exported readOnly => (t.addCstr name value exported readOnly).2
  | .remove name => (t.remove name).2
  | .removeCstr name => (t.removeCstr name).2
  | .setExported name exported => (t.setExported name exported).2
  | .setExportedCstr name exported => (t.setExportedCstr name exported).2
  | .setReadOnly name readOnly => (t.setReadOnly name readOnly).2
  | .setReadOnlyCstr name readOnly => (t.setReadOnlyCstr name readOnly).2
  | .clear => t.clear.2

def run (t : VariableTable) (ops : List Op) : VariableTable := ops.foldl step t

end VariableTable

/-! ## What each operation does to the map -/

/-- The value that a name is to have after an operation, from that before it -/
def lastAdded (name : List Byte) (old : Option (List Byte)) : VariableTable.Op → Option (List Byte)
  | .add n value _ _ | .addCstr n value _ _ => if n = name then some value else old
  | .remove n | .removeCstr n => if n = name then none else old
  | .clear => none
  | _ => old

section
variable {t : VariableTable} (hd : KeyedList.Distinct Variable.name t.vars) (name : List Byte)

theorem findWithCompare_eq (vars : List Variable) :
    arrayFindWithCompare vars name compareVariableName = KeyedList.index Variable.name vars name := rfl

theorem getVariable_find : t.getVariable name = KeyedList.find Variable.name t.vars name := by
  rw [VariableTable.getVariable, findWithCompare_eq, KeyedList.index_bind]

include hd

theorem addWith_spec (value : List Byte) (exported readOnly : Bool) :
    KeyedList.Distinct Variable.name (t.addWith compareVariableName name value exported readOnly).2.vars ∧
      ∀ k, KeyedList.find Variable.name (t.addWith compareVariableName name value exported readOnly).2.vars k =
        if name = k then some ⟨name, value, exported, readOnly⟩ else KeyedList.find Variable.name t.vars k := by
  unfold VariableTable.addWith
  rw [findWithCompare_eq]
  cases hidx : KeyedList.index Variable.name t.vars name with
  | some i =>
    obtain ⟨v, hi, rfl⟩ := KeyedList.index_eq_some hidx
    obtain ⟨hlt, -⟩ := List.getElem?_eq_some_iff.mp hi
    dsimp only
    rw [arraySet, if_neg (Nat.not_le.mpr hlt), List.set_eq_modify]
    exact ⟨hd.modify hi rfl, KeyedList.find_modify hd hi rfl⟩
  | none =>
    have hnone := KeyedList.index_eq_none_iff.mp hidx
    exact ⟨hd.push (x := (⟨name, value, exported, readOnly⟩ : Variable)) (KeyedList.find_eq_none_iff.mp hnone),
      KeyedList.find_push (x := (⟨name, value, exported, readOnly⟩ : Variable)) hnone⟩

theorem removeWith_spec :
    KeyedList.Distinct Variable.name (t.removeWith compareVariableName name).2.vars ∧
      ∀ k, KeyedList.find Variable.name (t.removeWith compareVariableName name).2.vars k =
        if name = k then none else KeyedList.find Variable.name t.vars k := by
  unfold VariableTable.removeWith
  rw [findWithCompare_eq]
  cases hidx : KeyedList.index Variable.name t.vars name with
  | some i =>
    obtain ⟨v, hi, rfl⟩ := KeyedList.index_eq_some hidx
    obtain ⟨hlt, -⟩ := List.getElem?_eq_some_iff.mp hi
    dsimp only
    rw [arrayRemove_eq hlt]
    exact ⟨hd.eraseIdx hi, KeyedList.find_eraseIdx hd hi⟩
  | none =>
    refine ⟨hd, fun k => ?_⟩
    split_ifs with hk
    · exact hk ▸ KeyedList.index_eq_none_iff.mp hidx
    · rfl

/-- The setters change flags only. -/
theorem setWith_spec {f : Variable → Variable} (hf : ∀ v, (f v).name = v.name) (hvalue : ∀ v, (f v).value = v.value) :
    KeyedList.Distinct Variable.name (t.setWith compareVariableName name f).2.vars ∧
      ∀ k, (KeyedList.find Variable.name (t.setWith compareVariableName name f).2.vars k).map Variable.value =
        (KeyedList.find Variable.name t.vars k).map Variable.value := by
  unfold VariableTable.setWith
  rw [findWithCompare_eq]
  cases hidx : KeyedList.index Variable.name t.vars name with
  | some i =>
    obtain ⟨v, hi, rfl⟩ := KeyedList.index_eq_some hidx
    refine ⟨hd.modify hi (hf v), fun k => ?_⟩
    rw [KeyedList.find_modify hd hi (hf v)]
    split_ifs with hk
    · rw [← hk, KeyedList.find_of_index hidx hi, Option.map_some, Option.map_some, hvalue]
    · rfl
  | none => exact ⟨hd, fun k => rfl⟩

/-- Each operation keeps the names apart, and changes the value of the one name it is about. -/
theorem step_spec (op : VariableTable.Op) :
    KeyedList.Distinct Variable.name (t.step op).vars ∧
      (t.step op).getValue name = lastAdded name (t.getValue name) op := by
  have hvalue (t : VariableTable) : t.getValue name = (KeyedList.find Variable.name t.vars name).map Variable.value := by
    rw [VariableTable.getValue, getVariable_find]
  have hadd (n value : List Byte) (exported readOnly : Bool) :
      KeyedList.Distinct Variable.name (t.add n value exported readOnly).2.vars ∧
        (t.add n value exported readOnly).2.getValue name = if n = name then some value else t.getValue name := by
    obtain ⟨hdistinct, hfind⟩ := addWith_spec hd n value exported readOnly
    refine ⟨hdistinct, ?_⟩
    rw [hvalue, hvalue, VariableTable.add, hfind]
    split_ifs <;> rfl
  have hremove (n : List Byte) : KeyedList.Distinct Variable.name (t.remove n).2.vars ∧
      (t.remove n).2.getValue name = if n = name then none else t.getValue name := by
    obtain ⟨hdistinct, hfind⟩ := removeWith_spec hd n
    refine ⟨hdistinct, ?_⟩
    rw [hvalue, hvalue, VariableTable.remove, hfind]
    split_ifs <;> rfl
  have hset (n : List Byte) {f : Variable → Variable} (hf : ∀ v, (f v).name = v.name) (hv : ∀ v, (f v).value = v.value) :
      KeyedList.Distinct Variable.name (t.setWith compareVariableName n f).2.vars ∧
        (t.setWith compareVariableName n f).2.getValue name = t.getValue name := by
    obtain ⟨hdistinct, hfind⟩ := setWith_spec hd n hf hv
    exact ⟨hdistinct, by rw [hvalue, hvalue, hfind]⟩
  cases op with
  | add n value exported readOnly => exact hadd n value exported readOnly
  | addCstr n value exported readOnly => exact hadd n value exported readOnly
  | remove n => exact hremove n
  | removeCstr n => exact hremove n
  | setExported n exported => exact hset n (fun _ => rfl) fun _ => rfl
  | setExportedCstr n exported => exact hset n (fun _ => rfl) fun _ => rfl
  | setReadOnly n readOnly => exact hset n (fun _ => rfl) fun _ => rfl
  | setReadOnlyCstr n readOnly => exact hset n (fun _ => rfl) fun _ => rfl
  | clear => exact ⟨List.nodup_nil, rfl⟩

end

/-! ## Read-only variables -/

namespace VariableTable

/-- No variable that is read-only is removed or given another value, but by `clear`. -/
def KeepsReadOnly (t : VariableTable) (op : Op) : Prop :=
  op ≠ .clear → ∀ name v, t.getVariable name = some v → v.readOnly = true → (t.step op).getValue name = some v.value

/-- The operation neither adds another value under the name of a read-only variable nor removes one. -/
def RespectsReadOnly (t : VariableTable) : Op → Prop
  | .add name value _ _ | .addCstr name value _ _ => ∀ v, t.getVariable name = some v → v.readOnly = true → v.value = value
  | .remove name | .removeCstr name => ∀ v, t.getVariable name = some v → v.readOnly = false
  | _ => True

/-- The condition holds at each step of a run. -/
def Along (P : VariableTable → Op → Prop) (t : VariableTable) : List Op → Prop
  | [] => True
  | op :: ops => P t op ∧ Along P (t.step op) ops

theorem keepsReadOnly_iff {t : VariableTable} (hd : KeyedList.Distinct Variable.name t.vars) (op : Op) :
    t.KeepsReadOnly op ↔ t.RespectsReadOnly op := by
  have hstep (name : List Byte) {v : Variable} (hv : t.getVariable name = some v) :
      (t.step op).getValue name = lastAdded name (some v.value) op := by
    rw [(step_spec hd name op).2, getValue, hv, Option.map_some]
  have hadd (n value : List Byte) (hop : ∀ name old, lastAdded name old op = if n = name then some value else old) :
      (∀ name v, t.getVariable name = some v → v.readOnly = true → (t.step op).getValue name = some v.value) ↔
        ∀ v, t.getVariable n = some v → v.readOnly = true → v.value = value := by
    refine ⟨fun h v hv hr => ?_, fun h name v hv hr => ?_⟩
    · have := h n v hv hr
      rw [hstep n hv, hop, if_pos rfl] at this
      exact (Option.some.inj this).symm
    · rw [hstep name hv, hop]
      split_ifs with hn
      · subst hn
        rw [h v hv hr]
      · rfl
  have hremove (n : List Byte) (hop : ∀ name old, lastAdded name old op = if n = name then none else old) :
      (∀ name v, t.getVariable name = some v → v.readOnly = true → (t.step op).getValue name = some v.value) ↔
        ∀ v, t.getVariable n = some v → v.readOnly = false := by
    refine ⟨fun h v hv => Bool.eq_false_iff.mpr fun hr => ?_, fun h name v hv hr => ?_⟩
    · have := h n v hv hr
      rw [hstep n hv, hop, if_pos rfl] at this
      exact Option.some_ne_none _ this.symm
    · rw [hstep name hv, hop, if_neg]
      rintro rfl
      exact Bool.false_ne_true ((h v hv).symm.trans hr)
  have hkeep (hop : ∀ name old, lastAdded name old op = old) : t.KeepsReadOnly op :=
    fun _ name v hv _ => by rw [hstep name hv, hop]
  cases op with
  | add n value exported readOnly => exact (forall_prop_of_true Op.noConfusion).trans (hadd n value fun _ _ => rfl)
  | addCstr n value exported readOnly => exact (forall_prop_of_true Op.noConfusion).trans (hadd n value fun _ _ => rfl)
  | remove n => exact (forall_prop_of_true Op.noConfusion).trans (hremove n fun _ _ => rfl)
  | removeCstr n => exact (forall_prop_of_true Op.noConfusion).trans (hremove n fun _ _ => rfl)
  | clear => exact iff_of_true (fun h => absurd rfl h) trivial
  | _ => exact iff_of_true (hkeep fun _ _ => rfl) trivial

end VariableTable

end ValidcTools.Sh23
