import Mathlib

/-! Lists of records with distinct keys: what is found under a key, and how a push, a change in place
and a removal, by a shift or by moving the last record, change it. -/
namespace KeyedList

variable {α κ : Type*} {key : α → κ} {l : List α}

/-! ## Distinct keys -/

/-- No two records have the same key. -/
def Distinct (key : α → κ) (l : List α) : Prop := (l.map key).Nodup

/-- The last record takes the place of the removed one. -/
def swapRemove (l : List α) (i : ℕ) : List α :=
  match l.getLast? with
  | none => []
  | some last => (l.set i last).dropLast

/-- A list around one of its records. -/
theorem exists_eq_append {i : ℕ} {x : α} (hi : l[i]? = some x) : ∃ a b, l = a ++ x :: b ∧ a.length = i := by
  obtain ⟨hlt, rfl⟩ := List.getElem?_eq_some_iff.mp hi
  refine ⟨l.take i, l.drop (i + 1), ?_, List.length_take_of_le hlt.le⟩
  rw [← List.drop_eq_getElem_cons hlt, List.take_append_drop]

theorem modify_append_cons (a b : List α) (x : α) (f : α → α) :
    (a ++ x :: b).modify a.length f = a ++ f x :: b := by
  induction a with
  | nil => rfl
  | cons y a ih => exact congrArg (y :: ·) ih

theorem eraseIdx_append_cons (a b : List α) (x : α) : (a ++ x :: b).eraseIdx a.length = a ++ b := by
  induction a with
  | nil => rfl
  | cons y a ih => exact congrArg (y :: ·) ih

theorem swapRemove_perm (a b : List α) (x : α) : (swapRemove (a ++ x :: b) a.length).Perm (a ++ b) := by
  unfold swapRemove
  cases List.eq_nil_or_concat' b with
  | inl hb =>
    subst hb
    rw [List.getLast?_concat, List.append_nil]
    simp
  | inr hb =>
    obtain ⟨c, last, rfl⟩ := hb
    have hlast : (a ++ x :: (c ++ [last])).getLast? = some last := by
      rw [← List.cons_append, ← List.append_assoc, List.getLast?_concat]
    have hset : (a ++ x :: (c ++ [last])).set a.length last = (a ++ last :: c) ++ [last] := by
      simp
    rw [hlast]
    dsimp only
    rw [hset, List.dropLast_concat]
    exact (List.perm_append_singleton last c).symm.append_left a

theorem length_swapRemove {i : ℕ} {x : α} (hi : l[i]? = some x) : (swapRemove l i).length + 1 = l.length := by
  obtain ⟨a, b, rfl, rfl⟩ := exists_eq_append hi
  rw [(swapRemove_perm a b x).length_eq]
  simp only [List.length_append, List.length_cons]
  omega

theorem distinct_append_cons {a b : List α} {x : α} :
    Distinct key (a ++ x :: b) ↔ (∀ y ∈ a ++ b, key y ≠ key x) ∧ Distinct key (a ++ b) := by
  unfold Distinct
  rw [List.map_append, List.map_cons, List.nodup_middle, List.nodup_cons, ← List.map_append]
  simp only [List.mem_map, not_exists, not_and, ne_eq]

theorem Distinct.push (h : Distinct key l) {x : α} (hx : ∀ y ∈ l, key y ≠ key x) : Distinct key (l ++ [x]) :=
  distinct_append_cons.mpr ⟨fun y hy => hx y (by rwa [List.append_nil] at hy), by rwa [List.append_nil]⟩

theorem Distinct.modify (h : Distinct key l) {i : ℕ} {x : α} (hi : l[i]? = some x) {f : α → α} (hf : key (f x) = key x) :
    Distinct key (l.modify i f) := by
  obtain ⟨a, b, rfl, rfl⟩ := exists_eq_append hi
  rw [modify_append_cons]
  rw [distinct_append_cons] at h ⊢
  rwa [hf]

theorem Distinct.swapRemove (h : Distinct key l) {i : ℕ} {x : α} (hi : l[i]? = some x) :
    Distinct key (swapRemove l i) := by
  obtain ⟨a, b, rfl, rfl⟩ := exists_eq_append hi
  exact ((swapRemove_perm a b x).map key).nodup_iff.mpr (distinct_append_cons.mp h).2

theorem Distinct.eraseIdx (h : Distinct key l) {i : ℕ} {x : α} (hi : l[i]? = some x) : Distinct key (l.eraseIdx i) := by
  obtain ⟨a, b, rfl, rfl⟩ := exists_eq_append hi
  rw [eraseIdx_append_cons]
  exact (distinct_append_cons.mp h).2

theorem Distinct.of_map {f : α → α} (hf : ∀ x, key (f x) = key x) : Distinct key (l.map f) ↔ Distinct key l := by
  unfold Distinct
  rw [List.map_map, show key ∘ f = key from funext hf]

/-- Records that are changed or left out, each by itself -/
theorem Distinct.filterMap {g : α → Option α} (hg : ∀ x y, g x = some y → key y = key x) (h : Distinct key l) :
    Distinct key (l.filterMap g) := by
  induction l with
  | nil => exact h
  | cons x l ih =>
    obtain ⟨hx, hl⟩ := List.nodup_cons.mp h
    cases hgx : g x with
    | none =>
      rw [List.filterMap_cons_none hgx]
      exact ih hl
    | some y =>
      rw [List.filterMap_cons_some hgx]
      refine List.nodup_cons.mpr ⟨fun hmem => hx ?_, ih hl⟩
      obtain ⟨z, hz, hzy⟩ := List.mem_map.mp hmem
      obtain ⟨w, hw, hwz⟩ := List.mem_filterMap.mp hz
      rw [hg x y hgx, hg w z hwz] at hzy
      exact List.mem_map.mpr ⟨w, hw, hzy⟩

/-! ## How many there are -/

theorem countP_eraseIdx {i : ℕ} {x : α} (hi : l[i]? = some x) (q : α → Bool) :
    (l.eraseIdx i).countP q + (if q x then 1 else 0) = l.countP q := by
  obtain ⟨a, b, rfl, rfl⟩ := exists_eq_append hi
  rw [eraseIdx_append_cons]
  simp only [List.countP_append, List.countP_cons]
  omega

/-! ## What is found -/

variable [DecidableEq κ]

/-- The first record with the key. -/
def find (key : α → κ) (l : List α) (k : κ) : Option α := l.find? fun x => decide (key x = k)

theorem find_eq_some {k : κ} {x : α} (h : find key l k = some x) : x ∈ l ∧ key x = k := by
  have hfound : l.find? (fun x => decide (key x = k)) = some x := h
  refine ⟨List.mem_of_find?_eq_some hfound, ?_⟩
  have hkey := List.find?_some hfound
  exact of_decide_eq_true hkey

theorem find_eq_none_iff {k : κ} : find key l k = none ↔ ∀ x ∈ l, key x ≠ k := by
  unfold find
  simp

theorem find_eq_some_iff (h : Distinct key l) {k : κ} {x : α} : find key l k = some x ↔ x ∈ l ∧ key x = k := by
  refine ⟨find_eq_some, fun hx => ?_⟩
  obtain ⟨hmem, hkey⟩ := hx
  cases hfind : find key l k with
  | none => exact absurd hkey (find_eq_none_iff.mp hfind x hmem)
  | some y =>
    obtain ⟨hy, hykey⟩ := find_eq_some hfind
    exact congrArg some (List.inj_on_of_nodup_map h hy hmem (hykey.trans hkey.symm))

/-- Two lists of the same records have the same under each key. -/
theorem find_perm {l' : List α} (h : Distinct key l) (hperm : l.Perm l') (k : κ) : find key l k = find key l' k := by
  have h' : Distinct key l' := (hperm.map key).nodup_iff.mp h
  refine Option.ext fun x => ?_
  rw [find_eq_some_iff h, find_eq_some_iff h', hperm.mem_iff]

theorem find_append_cons (a b : List α) (x : α) (k : κ) :
    find key (a ++ x :: b) k = (find key a k).or (if key x = k then some x else find key b k) := by
  unfold find
  rw [List.find?_append, List.find?_cons]
  by_cases hk : key x = k
  · simp [hk]
  · simp [hk]

theorem find_push {x : α} (hx : find key l (key x) = none) (k : κ) :
    find key (l ++ [x]) k = if key x = k then some x else find key l k := by
  rw [find_append_cons]
  split_ifs with hk
  · rw [← hk, hx, Option.none_or]
  · exact Option.or_none

theorem find_modify (h : Distinct key l) {i : ℕ} {x : α} (hi : l[i]? = some x) {f : α → α} (hf : key (f x) = key x)
    (k : κ) : find key (l.modify i f) k = if key x = k then some (f x) else find key l k := by
  obtain ⟨a, b, rfl, rfl⟩ := exists_eq_append hi
  rw [modify_append_cons, find_append_cons, find_append_cons, hf]
  split_ifs with hk
  · have hnone : find key a k = none := by
      refine find_eq_none_iff.mpr fun y hy => ?_
      rw [← hk]
      exact (distinct_append_cons.mp h).1 y (List.mem_append_left b hy)
    rw [hnone, Option.none_or]
  · rfl

theorem find_eraseIdx (h : Distinct key l) {i : ℕ} {x : α} (hi : l[i]? = some x) (k : κ) :
    find key (l.eraseIdx i) k = if key x = k then none else find key l k := by
  obtain ⟨a, b, rfl, rfl⟩ := exists_eq_append hi
  rw [eraseIdx_append_cons, find_append_cons]
  split_ifs with hk
  · refine find_eq_none_iff.mpr fun y hy => ?_
    rw [← hk]
    exact (distinct_append_cons.mp h).1 y hy
  · exact List.find?_append

theorem find_swapRemove (h : Distinct key l) {i : ℕ} {x : α} (hi : l[i]? = some x) (k : κ) :
    find key (swapRemove l i) k = if key x = k then none else find key l k := by
  have hdistinct := h.swapRemove hi
  obtain ⟨a, b, rfl, rfl⟩ := exists_eq_append hi
  rw [find_perm hdistinct (swapRemove_perm a b x), find_append_cons]
  split_ifs with hk
  · refine find_eq_none_iff.mpr fun y hy => ?_
    rw [← hk]
    exact (distinct_append_cons.mp h).1 y hy
  · exact List.find?_append

/-! ## Changes as functions of the key -/

theorem find_map {f : α → α} (hf : ∀ x, key (f x) = key x) (k : κ) : find key (l.map f) k = (find key l k).map f := by
  unfold find
  rw [List.find?_map]
  congr 2
  exact funext fun x => by rw [Function.comp_apply, hf]

/-- With distinct keys, a change at a place is a change of the record with the key that is there. -/
theorem Distinct.modify_eq_map (h : Distinct key l) {i : ℕ} {x : α} (hi : l[i]? = some x) (f : α → α) :
    l.modify i f = l.map fun y => if key y = key x then f y else y := by
  obtain ⟨a, b, rfl, rfl⟩ := exists_eq_append hi
  have hne := (distinct_append_cons.mp h).1
  have hsame (c : List α) (hc : ∀ y ∈ c, key y ≠ key x) : c.map (fun y => if key y = key x then f y else y) = c := by
    conv_rhs => rw [← List.map_id c]
    exact List.map_congr_left fun y hy => if_neg (hc y hy)
  rw [modify_append_cons, List.map_append, List.map_cons, if_pos rfl, hsame a fun y hy => hne y (List.mem_append_left b hy),
    hsame b fun y hy => hne y (List.mem_append_right a hy)]

theorem Distinct.eraseIdx_eq_filter (h : Distinct key l) {i : ℕ} {x : α} (hi : l[i]? = some x) :
    l.eraseIdx i = l.filter fun y => decide (key y ≠ key x) := by
  obtain ⟨a, b, rfl, rfl⟩ := exists_eq_append hi
  have hne := (distinct_append_cons.mp h).1
  have hsame (c : List α) (hc : ∀ y ∈ c, key y ≠ key x) : c.filter (fun y => decide (key y ≠ key x)) = c :=
    List.filter_eq_self.mpr fun y hy => decide_eq_true (hc y hy)
  rw [eraseIdx_append_cons, List.filter_append, List.filter_cons_of_neg (by simp),
    hsame a fun y hy => hne y (List.mem_append_left b hy), hsame b fun y hy => hne y (List.mem_append_right a hy)]

/-- The first place with the key of a record is the place of the record. -/
theorem Distinct.findIdx_eq (h : Distinct key l) {i : ℕ} {x : α} (hi : l[i]? = some x) :
    l.findIdx (fun y => decide (key y = key x)) = i := by
  obtain ⟨a, b, rfl, rfl⟩ := exists_eq_append hi
  refine (List.findIdx_eq (List.getElem?_eq_some_iff.mp hi).1).mpr ⟨by simp, fun j hj => ?_⟩
  rw [List.getElem_append_left hj]
  exact decide_eq_false ((distinct_append_cons.mp h).1 _ (List.mem_append_left b (List.getElem_mem hj)))

theorem find_filterMap {g : α → Option α} (hg : ∀ x y, g x = some y → key y = key x) (h : Distinct key l) (k : κ) :
    find key (l.filterMap g) k = (find key l k).bind g := by
  refine Option.ext fun y => ?_
  rw [find_eq_some_iff (h.filterMap hg), List.mem_filterMap, Option.bind_eq_some_iff]
  constructor
  · rintro ⟨⟨x, hx, hgx⟩, hk⟩
    exact ⟨x, (find_eq_some_iff h).mpr ⟨hx, (hg x y hgx).symm.trans hk⟩, hgx⟩
  · rintro ⟨x, hx, hgx⟩
    obtain ⟨hmem, hk⟩ := find_eq_some hx
    exact ⟨⟨x, hmem, hgx⟩, (hg x y hgx).trans hk⟩

/-! ## Where it is found -/

/-- The index of the first record with the key -/
def index (key : α → κ) (l : List α) (k : κ) : Option ℕ := l.findIdx? fun x => decide (key x = k)

theorem index_eq_some {k : κ} {i : ℕ} (h : index key l k = some i) : ∃ x, l[i]? = some x ∧ key x = k := by
  obtain ⟨hlt, hkey, -⟩ := List.findIdx?_eq_some_iff_getElem.mp h
  exact ⟨l[i], List.getElem?_eq_getElem hlt, of_decide_eq_true hkey⟩

/-- The index and the key lead to the same record. -/
theorem index_bind (l : List α) (k : κ) : (index key l k).bind (l[·]?) = find key l k := by
  unfold index find
  induction l with
  | nil => rfl
  | cons x l ih =>
    rw [List.findIdx?_cons, List.find?_cons]
    by_cases hx : key x = k
    · simp [hx]
    · simp only [hx, decide_false, Bool.false_eq_true, if_false]
      rw [← ih]
      cases List.findIdx? (fun x => decide (key x = k)) l with
      | none => rfl
      | some i => rfl

theorem find_of_index {k : κ} {i : ℕ} {x : α} (h : index key l k = some i) (hx : l[i]? = some x) : find key l k = some x := by
  rw [← index_bind, h, Option.bind_some, hx]

theorem exists_index {k : κ} {x : α} (h : find key l k = some x) : ∃ i, index key l k = some i ∧ l[i]? = some x := by
  rwa [← index_bind, Option.bind_eq_some_iff] at h

theorem index_eq_none_iff {k : κ} : index key l k = none ↔ find key l k = none := by
  refine ⟨fun h => by rw [← index_bind, h, Option.bind_none], fun h => ?_⟩
  cases hi : index key l k with
  | none => rfl
  | some i =>
    obtain ⟨x, hx, -⟩ := index_eq_some hi
    exact absurd ((find_of_index hi hx).symm.trans h) (Option.some_ne_none x)

end KeyedList
