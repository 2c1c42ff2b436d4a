import ValidcTools.Batch.Variables
import ValidcTools.Lib.KeyedList

/-! The variables as a finite map from names to values. -/
namespace ValidcTools.Batch

/-- What the variables are for: the value of each name that has one. -/
abbrev Store := List Byte → Option (List Byte)

def lookup (vars : Vars) : Store := fun name => (KeyedList.find Variable.name vars name).map Variable.value

/-- The array holds a finite map. -/
structure FiniteMap (vars : Vars) : Prop where
  distinct : KeyedList.Distinct Variable.name vars
  few : vars.length ≤ MAX_VARS
  named : ∀ v ∈ vars, v.name ≠ [] ∧ ∀ c ∈ v.name, isValidVarChar c = true

theorem finiteMap_nil : FiniteMap [] := ⟨List.nodup_nil, Nat.zero_le _, fun _ h => absurd h List.not_mem_nil⟩

/-! ## Single operations -/

theorem varFind_eq (vars : Vars) (name : List Byte) : varFind vars name = KeyedList.index Variable.name vars name := rfl

theorem varFind_eq_some {vars : Vars} {name : List Byte} {idx : ℕ} (h : varFind vars name = some idx) :
    ∃ v, vars[idx]? = some v ∧ v.name = name := KeyedList.index_eq_some h

theorem varFind_eq_none {vars : Vars} {name : List Byte} (h : varFind vars name = none) :
    KeyedList.find Variable.name vars name = none := KeyedList.index_eq_none_iff.mp h

theorem lookup_eq_of_varFind {vars : Vars} {name : List Byte} {idx : ℕ} {v : Variable}
    (h : varFind vars name = some idx) (hv : vars[idx]? = some v) : lookup vars name = some v.value := by
  unfold lookup
  rw [KeyedList.find_of_index h hv]
  rfl

/-- The value that an assignment leaves. -/
def assigned (old : Option (List Byte)) (isAppend : Bool) (piece : List Byte) : List Byte :=
  ((if isAppend then old.getD [] else []) ++ piece).take (MAX_VAR_VALUE - 1)

/-- What `var_ensure` leaves when it finds a place for the name. -/
structure Ensured (vars vars' : Vars) (name : List Byte) (v : Variable) : Prop where
  name_eq : v.name = name
  value_eq : v.value = (lookup vars name).getD []
  distinct : KeyedList.Distinct Variable.name vars'
  few : vars'.length ≤ MAX_VARS
  others : ∀ k ≠ name, KeyedList.find Variable.name vars' k = KeyedList.find Variable.name vars k
  members : ∀ w ∈ vars', w ∈ vars ∨ w = v

theorem varEnsure_some {vars : Vars} (h : FiniteMap vars) {name : List Byte} (hname : name.length < MAX_VAR_NAME)
    {idx : ℕ} (hidx : (varEnsure vars name).2 = some idx) :
    ∃ v, (varEnsure vars name).1[idx]? = some v ∧ Ensured vars (varEnsure vars name).1 name v := by
  unfold varEnsure at hidx ⊢
  cases hfind : varFind vars name with
  | some found =>
    rw [hfind] at hidx
    obtain rfl := Option.some.inj hidx
    obtain ⟨v, hv, hvname⟩ := varFind_eq_some hfind
    refine ⟨v, hv, hvname, ?_, h.distinct, h.few, fun _ _ => rfl, fun w hw => Or.inl hw⟩
    rw [lookup_eq_of_varFind hfind hv]
    rfl
  | none =>
    rw [hfind] at hidx
    dsimp only at hidx ⊢
    by_cases hfull : vars.length ≥ MAX_VARS
    · rw [if_pos hfull] at hidx
      cases hidx
    · rw [if_neg hfull] at hidx ⊢
      obtain rfl := Option.some.inj hidx
      have hnew : (Variable.named name).name = name := List.take_of_length_le (Nat.le_pred_of_lt hname)
      have hnone : KeyedList.find Variable.name vars (Variable.named name).name = none := by
        rw [hnew]
        exact varFind_eq_none hfind
      refine ⟨Variable.named name, List.getElem?_concat_length, hnew, ?_, ?_, ?_, ?_, ?_⟩
      · unfold lookup
        rw [varFind_eq_none hfind]
        rfl
      · exact h.distinct.push (KeyedList.find_eq_none_iff.mp hnone)
      · rw [List.length_append]
        exact not_le.mp hfull
      · intro k hk
        rw [KeyedList.find_push hnone, if_neg fun heq => hk (heq.symm.trans hnew)]
      · intro w hw
        exact (List.mem_append.mp hw).imp_right List.mem_singleton.mp

/-- An assignment that succeeds changes the one variable. -/
theorem lookup_assign {vars : Vars} (h : FiniteMap vars) {name : List Byte} (hname : name.length < MAX_VAR_NAME)
    {isAppend : Bool} {piece : List Byte} (hstatus : (assign vars name isAppend piece).status = 0) :
    lookup (assign vars name isAppend piece).vars =
      Function.update (lookup vars) name (some (assigned (lookup vars name) isAppend piece)) := by
  unfold assign at hstatus ⊢
  dsimp only at hstatus ⊢
  cases hidx : (varEnsure vars name).2 with
  | none =>
    rw [hidx] at hstatus
    exact absurd hstatus (show (-1 : ℤ) ≠ 0 by decide)
  | some idx =>
    obtain ⟨v, hv, hensured⟩ := varEnsure_some h hname hidx
    funext k
    change (KeyedList.find Variable.name ((varEnsure vars name).1.modify idx _) k).map Variable.value = _
    rw [KeyedList.find_modify hensured.distinct hv rfl, hensured.name_eq]
    by_cases hk : name = k
    · subst hk
      rw [if_pos rfl, Function.update_self, Option.map_some]
      refine congrArg some ?_
      unfold assigned
      cases isAppend with
      | true =>
        rw [← hensured.value_eq]
        rfl
      | false => rfl
    · rw [if_neg hk, Function.update_of_ne (Ne.symm hk), hensured.others k (Ne.symm hk)]
      rfl

theorem assign_failed {vars : Vars} {name : List Byte} {isAppend : Bool} {piece : List Byte}
    (hstatus : (assign vars name isAppend piece).status ≠ 0) : (assign vars name isAppend piece).vars = vars := by
  have hensure : (varEnsure vars name).2 = none → (varEnsure vars name).1 = vars := by
    unfold varEnsure
    cases varFind vars name with
    | some idx => exact fun hidx => absurd hidx (Option.some_ne_none idx)
    | none =>
      dsimp only
      split_ifs
      · exact fun _ => rfl
      · exact fun hidx => nomatch hidx
  unfold assign at hstatus ⊢
  dsimp only at hstatus ⊢
  cases hidx : (varEnsure vars name).2 with
  | none => exact hensure hidx
  | some idx =>
    rw [hidx] at hstatus
    exact absurd rfl hstatus

theorem FiniteMap.assign {vars : Vars} (h : FiniteMap vars) {name : List Byte} (hname : name.length < MAX_VAR_NAME)
    (hne : name ≠ []) (hvalid : ∀ c ∈ name, isValidVarChar c = true) (isAppend : Bool) (piece : List Byte) :
    FiniteMap (Batch.assign vars name isAppend piece).vars := by
  by_cases hstatus : (Batch.assign vars name isAppend piece).status = 0
  · unfold Batch.assign at hstatus ⊢
    dsimp only at hstatus ⊢
    cases hidx : (varEnsure vars name).2 with
    | none =>
      rw [hidx] at hstatus
      exact absurd hstatus (show (-1 : ℤ) ≠ 0 by decide)
    | some idx =>
      obtain ⟨v, hv, hensured⟩ := varEnsure_some h hname hidx
      have hnamed : ∀ w ∈ (varEnsure vars name).1, w.name ≠ [] ∧ ∀ c ∈ w.name, isValidVarChar c = true := by
        intro w hw
        cases hensured.members w hw with
        | inl hmem => exact h.named w hmem
        | inr heq =>
          rw [heq, hensured.name_eq]
          exact ⟨hne, hvalid⟩
      refine ⟨hensured.distinct.modify hv rfl, (List.length_modify _ _ _).trans_le hensured.few, ?_⟩
      dsimp only
      obtain ⟨a, b, heq, rfl⟩ := KeyedList.exists_eq_append hv
      rw [heq] at hnamed ⊢
      rw [KeyedList.modify_append_cons]
      intro w hw
      cases List.mem_append.mp hw with
      | inl ha => exact hnamed w (List.mem_append_left _ ha)
      | inr hb =>
        cases List.mem_cons.mp hb with
        | inl hw => exact hw ▸ hnamed v (List.mem_append_right a List.mem_cons_self)
        | inr hb => exact hnamed w (List.mem_append_right a (List.mem_cons_of_mem v hb))
  · rw [assign_failed hstatus]
    exact h

theorem removeAt_eq (vars : Vars) (idx : ℕ) : removeAt vars idx = KeyedList.swapRemove vars idx := by
  unfold removeAt KeyedList.swapRemove
  cases vars.getLast? with
  | none => rfl
  | some last => rfl

theorem lookup_removeAt {vars : Vars} (h : FiniteMap vars) {name : List Byte} {idx : ℕ}
    (hidx : varFind vars name = some idx) : lookup (removeAt vars idx) = Function.update (lookup vars) name none := by
  obtain ⟨v, hv, rfl⟩ := varFind_eq_some hidx
  rw [removeAt_eq]
  funext k
  unfold lookup
  rw [KeyedList.find_swapRemove h.distinct hv k]
  by_cases hk : v.name = k
  · rw [if_pos hk, hk, Function.update_self]
    rfl
  · rw [if_neg hk, Function.update_of_ne (Ne.symm hk)]

theorem FiniteMap.removeAt {vars : Vars} (h : FiniteMap vars) {name : List Byte} {idx : ℕ}
    (hidx : varFind vars name = some idx) : FiniteMap (Batch.removeAt vars idx) := by
  obtain ⟨v, hv, -⟩ := varFind_eq_some hidx
  have hlength := KeyedList.length_swapRemove hv
  have hfew := h.few
  rw [removeAt_eq]
  refine ⟨h.distinct.swapRemove hv, by omega, ?_⟩
  obtain ⟨a, b, rfl, rfl⟩ := KeyedList.exists_eq_append hv
  intro w hw
  have hmem := (KeyedList.swapRemove_perm a b v).mem_iff.mp hw
  refine h.named w (List.mem_append.mpr ?_)
  exact (List.mem_append.mp hmem).imp_right (List.mem_cons_of_mem v)

end ValidcTools.Batch
