import ValidcTools.Ed.Ranges

/-! The search for a line that matches, from the current line around the buffer. -/
namespace ValidcTools.Ed

/-! ## The order of the lines -/

/-- The `i`th of `n` lines that a search visits: from the one behind the line `current` up to that line itself, and in
the other direction. -/
def nearest (forward : Bool) (n current i : ℕ) : ℕ := if forward then (current + 1 + i) % n else (current + n - 1 - i) % n

section
variable {n current : ℕ}

theorem range_split {m : ℕ} (h : m ≤ n) : List.range n = List.range m ++ List.range' m (n - m) := by
  have happend : List.range' 0 m ++ List.range' (0 + m) (n - m) = List.range' 0 (m + (n - m)) := List.range'_append_1
  rw [Nat.zero_add, Nat.add_sub_cancel' h] at happend
  rw [List.range_eq_range', List.range_eq_range', happend]

theorem map_nearest_forward (h : current < n) : (List.range n).map (nearest true n current) =
    List.range' (current + 1) (n - (current + 1)) ++ List.range (current + 1) := by
  refine List.ext_getElem ?_ fun i hi _ => ?_
  · rw [List.length_map, List.length_append, List.length_range', List.length_range, List.length_range]
    omega
  · rw [List.length_map, List.length_range] at hi
    rw [List.getElem_map, List.getElem_range, List.getElem_append]
    change (current + 1 + i) % n = _
    split
    · rename_i hlt
      rw [List.length_range'] at hlt
      rw [List.getElem_range', Nat.one_mul, Nat.mod_eq_of_lt (by omega)]
    · rename_i hge
      rw [List.length_range'] at hge
      have hwrap : current + 1 + i = n + (i - (n - (current + 1))) := by omega
      simp only [List.getElem_range, List.length_range']
      rw [hwrap, Nat.add_mod_left, Nat.mod_eq_of_lt (by omega)]

theorem map_nearest_backward (h : current < n) : (List.range n).map (nearest false n current) =
    (List.range current).reverse ++ (List.range' current (n - current)).reverse := by
  refine List.ext_getElem ?_ fun i hi _ => ?_
  · rw [List.length_map, List.length_append, List.length_reverse, List.length_reverse, List.length_range', List.length_range,
      List.length_range]
    omega
  · rw [List.length_map, List.length_range] at hi
    rw [List.getElem_map, List.getElem_range, List.getElem_append]
    change (current + n - 1 - i) % n = _
    split
    · rename_i hlt
      rw [List.length_reverse, List.length_range] at hlt
      have hwrap : current + n - 1 - i = n + (current - 1 - i) := by omega
      rw [List.getElem_reverse, List.getElem_range, List.length_range, hwrap, Nat.add_mod_left, Nat.mod_eq_of_lt (by omega)]
    · rename_i hge
      rw [List.length_reverse, List.length_range] at hge
      simp only [List.getElem_reverse, List.getElem_range', List.length_range', List.length_reverse, List.length_range]
      rw [Nat.mod_eq_of_lt (by omega)]
      omega

/-- Every line is visited once. -/
theorem map_nearest_perm (forward : Bool) (h : current < n) : ((List.range n).map (nearest forward n current)).Perm (List.range n) := by
  cases forward with
  | true =>
    rw [map_nearest_forward h, range_split h]
    exact List.perm_append_comm
  | false =>
    rw [map_nearest_backward h, range_split h.le]
    exact (List.reverse_perm _).append (List.reverse_perm _)

end

/-! ## The search -/

namespace Editor

section
variable {ed : Editor} {pat : CString}

/-- What `bre_match` says of the line with this index -/
def lineOk (ed : Editor) (pat : CString) (i : ℕ) : Option (Except Fault Bool) := ed.lines[i]?.map fun line => breOk line.text pat

theorem firstMatch_of_first {idx : ℕ} {visited rest : List ℕ} (hvisited : ∀ j ∈ visited, ed.lineOk pat j = some (.ok false))
    (hidx : ed.lineOk pat idx = some (.ok true)) : ed.firstMatch pat (visited ++ idx :: rest) = .ok (idx + 1) := by
  induction visited with
  | nil =>
    obtain ⟨line, hline, hok⟩ := Option.map_eq_some_iff.mp hidx
    simp only [List.nil_append, firstMatch, hline, hok]
  | cons j visited ih =>
    obtain ⟨line, hline, hok⟩ := Option.map_eq_some_iff.mp (hvisited j List.mem_cons_self)
    simp only [List.cons_append, firstMatch, hline, hok]
    exact ih fun i hi => hvisited i (List.mem_cons_of_mem _ hi)

theorem firstMatch_eq_zero_iff {idxs : List ℕ} (hidxs : ∀ i ∈ idxs, i < ed.lines.length) :
    ed.firstMatch pat idxs = .ok 0 ↔ ∀ i ∈ idxs, ed.lineOk pat i = some (.ok false) := by
  induction idxs with
  | nil => simp [firstMatch]
  | cons idx idxs ih =>
    have hlt := hidxs idx List.mem_cons_self
    have hget := List.getElem?_eq_getElem hlt
    rw [List.forall_mem_cons, ← ih fun i hi => hidxs i (List.mem_cons_of_mem _ hi), lineOk, hget, Option.map_some]
    simp only [firstMatch, hget]
    cases breOk ed.lines[idx].text pat with
    | error f => simp
    | ok b =>
      cases b with
      | false => simp
      | true =>
        refine iff_of_false (fun h => ?_) (by simp)
        have := Except.ok.inj h
        omega

/-- A search that has no result has met a line that the matcher cannot tell. -/
theorem firstMatch_error {idxs : List ℕ} {f : Fault} (hidxs : ∀ i ∈ idxs, i < ed.lines.length)
    (h : ed.firstMatch pat idxs = .error f) : ∃ i ∈ idxs, ed.lineOk pat i = some (.error f) := by
  induction idxs with
  | nil => cases h
  | cons idx idxs ih =>
    have hlt := hidxs idx List.mem_cons_self
    have hget := List.getElem?_eq_getElem hlt
    simp only [firstMatch, hget] at h
    cases hok : breOk ed.lines[idx].text pat with
    | error e =>
      rw [hok] at h
      cases h
      exact ⟨idx, List.mem_cons_self, by rw [lineOk, hget, Option.map_some, hok]⟩
    | ok b =>
      rw [hok] at h
      cases b with
      | true => cases h
      | false =>
        obtain ⟨i, hi, herr⟩ := ih (fun i hi => hidxs i (List.mem_cons_of_mem _ hi)) h
        exact ⟨i, List.mem_cons_of_mem _ hi, herr⟩

theorem searchPattern_eq {pattern : List Byte} {forward : Bool} {current : ℕ} (hcurrent : ed.currentLine = current)
    (hlt : current < ed.lines.length) (hshort : pattern.length < maxLine) : ed.searchPattern pattern forward =
      ed.firstMatch (.ofBytes pattern) ((List.range ed.lines.length).map (nearest forward ed.lines.length current)) := by
  have hne : ed.lines ≠ [] := List.length_pos_iff.mp (by omega)
  unfold searchPattern
  rw [if_neg hne, if_neg (by omega), hcurrent]
  dsimp only
  rw [if_pos (Int.natCast_nonneg _), Int.toNat_natCast]
  cases forward with
  | true => rw [map_nearest_forward hlt, if_pos rfl]
  | false => rw [map_nearest_backward hlt, if_neg Bool.false_ne_true]

end

/-- Among the lines in the order of the search the `i`th is the first that matches. -/
def FirstToMatch (ed : Editor) (pat : CString) (forward : Bool) (current i : ℕ) : Prop :=
  ed.lineOk pat (nearest forward ed.lines.length current i) = some (.ok true) ∧
    ∀ j < i, ed.lineOk pat (nearest forward ed.lines.length current j) = some (.ok false)

/-- `search_pattern` finds the nearest line that matches, or 0 when no line matches; it has no result only where the
matcher has none. -/
theorem searchPattern_nearest (ed : Editor) (pattern : List Byte) (forward : Bool) {current : ℕ}
    (hcurrent : ed.currentLine = current) (hlt : current < ed.lines.length) (hshort : pattern.length < maxLine) :
    (∀ i < ed.lines.length, ed.FirstToMatch (.ofBytes pattern) forward current i →
      ed.searchPattern pattern forward = .ok (nearest forward ed.lines.length current i + 1)) ∧
    (ed.searchPattern pattern forward = .ok 0 ↔ ∀ line ∈ ed.lines, breOk line.text (.ofBytes pattern) = .ok false) ∧
    ∀ f, ed.searchPattern pattern forward = .error f → ∃ line ∈ ed.lines, breOk line.text (.ofBytes pattern) = .error f := by
  have hmem : ∀ i, i ∈ (List.range ed.lines.length).map (nearest forward ed.lines.length current) ↔ i < ed.lines.length := by
    intro i
    rw [(map_nearest_perm forward hlt).mem_iff, List.mem_range]
  rw [searchPattern_eq hcurrent hlt hshort]
  refine ⟨fun i hi hfirst => ?_, ?_, fun f hf => ?_⟩
  · have hsplit : List.range ed.lines.length = List.range i ++ i :: List.range' (i + 1) (ed.lines.length - (i + 1)) := by
      have hlen : ed.lines.length - i = ed.lines.length - (i + 1) + 1 := by omega
      rw [range_split hi.le, hlen, List.range'_succ]
    rw [hsplit, List.map_append, List.map_cons]
    refine firstMatch_of_first (fun j hj => ?_) hfirst.1
    obtain ⟨k, hk, rfl⟩ := List.mem_map.mp hj
    exact hfirst.2 k (List.mem_range.mp hk)
  · rw [firstMatch_eq_zero_iff fun i hi => (hmem i).mp hi]
    constructor
    · intro hall line hline
      obtain ⟨i, hi, rfl⟩ := List.mem_iff_getElem.mp hline
      have hok := hall i ((hmem i).mpr hi)
      rw [lineOk, List.getElem?_eq_getElem hi, Option.map_some] at hok
      exact Option.some.inj hok
    · intro hall i hi
      have hlt := (hmem i).mp hi
      rw [lineOk, List.getElem?_eq_getElem hlt, Option.map_some, hall _ (List.getElem_mem hlt)]
  · obtain ⟨i, hi, herr⟩ := firstMatch_error (fun i hi => (hmem i).mp hi) hf
    obtain ⟨line, hline, hok⟩ := Option.map_eq_some_iff.mp herr
    exact ⟨line, List.mem_of_getElem? hline, hok⟩

/-- From line 1 of `a`, `b`, `a` the search for `a` comes to line 3. -/
theorem searchPattern_nearest_a : ∃ ed : Editor, ed.texts = ["a", "b", "a"].map .lit ∧ ed.currentLine = 0 ∧
    ed.searchPattern (asciiBytes "a") true = .ok 3 := by
  let ed : Editor := { lines := newLines 0 (["a", "b", "a"].map .lit), currentLine := 0 }
  have hfirst : ed.FirstToMatch (.ofBytes (asciiBytes "a")) true 0 1 := by
    refine ⟨by decide, fun j hj => ?_⟩
    obtain rfl : j = 0 := by omega
    decide
  exact ⟨ed, by decide, rfl, (searchPattern_nearest ed (asciiBytes "a") true rfl (by decide) (by decide)).1 1 (by decide) hfirst⟩

end Editor

end ValidcTools.Ed
