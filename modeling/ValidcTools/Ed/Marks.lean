import ValidcTools.Ed.Identity

/-! Whether the marks follow their lines through the commands that change the buffer. -/
namespace ValidcTools.Ed
open Outcome

/-- A mark on a line names that line afterwards, wherever it is; where the line is gone, it is unset. -/
def Follows (lines : List Line) (marks : Marks) (lines' : List Line) (marks' : Marks) : Prop :=
  ∀ m l, Cells.get? lines (marks m) = some l →
    if l.id ∈ lines'.map Line.id then (Cells.get? lines' (marks' m)).map Line.id = some l.id
    else marks' m = -1

instance (lines lines' : List Line) (marks marks' : Marks) : Decidable (Follows lines marks lines' marks') :=
  decidable_of_iff (∀ m, ∀ l ∈ Cells.get? lines (marks m),
    if l.id ∈ lines'.map Line.id then (Cells.get? lines' (marks' m)).map Line.id = some l.id
    else marks' m = -1) Iff.rfl

section

variable {lines lines' new : List Line} {marks marks' : Marks}

theorem get?_eq_some {i : ℤ} {l : Line} (h : Cells.get? lines i = some l) :
    ∃ j : ℕ, i = j ∧ j < lines.length ∧ lines[j]? = some l := by
  unfold Cells.get? at h
  split_ifs at h with h0
  obtain ⟨j, rfl⟩ := Int.eq_ofNat_of_zero_le h0
  obtain ⟨hj, -⟩ := List.getElem?_eq_some_iff.mp h
  exact ⟨j, rfl, hj, h⟩

theorem id_mem_of_getElem? {j : ℕ} {l : Line} (h : lines[j]? = some l) : l.id ∈ lines.map Line.id :=
  List.mem_map_of_mem (List.mem_of_getElem? h)

/-- It is enough that the mark names the line. -/
theorem follows_of_getElem?
    (h : ∀ (m : Fin 26) (j : ℕ) (l : Line), marks m = j → j < lines.length → lines[j]? = some l →
      ∃ (j' : ℕ) (l' : Line), marks' m = j' ∧ lines'[j']? = some l' ∧ l'.id = l.id) :
    Follows lines marks lines' marks' := by
  intro m l hl
  obtain ⟨j, hj, hlt, hget⟩ := get?_eq_some hl
  obtain ⟨j', l', hj', hget', hid⟩ := h m j l hj hlt hget
  rw [if_pos (hid ▸ id_mem_of_getElem? hget'), hj', Cells.get?_natCast, hget', Option.map_some, hid]

theorem Told.index_unique {fresh i j : ℕ} {l l' : Line} (h : Told fresh lines)
    (hi : lines[i]? = some l) (hj : lines[j]? = some l') (hid : l.id = l'.id) : i = j := by
  have hlt : i < (lines.map Line.id).length := by
    obtain ⟨hi', -⟩ := List.getElem?_eq_some_iff.mp hi
    rwa [List.length_map]
  apply (List.getElem?_inj hlt h.nodup).mp
  rw [List.getElem?_map, List.getElem?_map, hi, hj, Option.map_some, Option.map_some, hid]

theorem follows_of_ids (hids : lines'.map Line.id = lines.map Line.id) : Follows lines marks lines' marks := by
  apply follows_of_getElem?
  intro m j l hj hlt hget
  have hget' := congrArg (fun ids => ids[j]?) hids
  simp only [List.getElem?_map, hget, Option.map_some] at hget'
  obtain ⟨l', hl', hid⟩ := Option.map_eq_some_iff.mp hget'
  exact ⟨j, l', hj, hl', hid⟩

theorem follows_insertedAt (new : List Line) (marks : Marks) {pos : ℕ} (hpos : pos ≤ lines.length) :
    Follows lines marks (insertedAt lines pos new) (updateMarksAfterInsert marks pos new.length) := by
  apply follows_of_getElem?
  intro m j l hj hlt hget
  refine ⟨if pos ≤ j then j + new.length else j, l, ?_, ?_, rfl⟩
  · unfold updateMarksAfterInsert
    rw [hj]
    split_ifs <;> omega
  · rw [getElem?_insertedAt hpos]
    split_ifs with h1 h2 h3 h4 h5
    · omega
    · omega
    · rw [Nat.add_sub_cancel, hget]
    · exact hget
    · omega
    · omega

theorem updateMarksAfterInsert_zero (pos : ℤ) : updateMarksAfterInsert marks pos 0 = marks := by
  funext m
  unfold updateMarksAfterInsert
  split_ifs <;> omega

theorem follows_without (marks : Marks) {fresh start k : ℕ} (h : Told fresh lines) (hle : start + k ≤ lines.length) :
    Follows lines marks (without lines start k) (updateMarksAfterDelete marks start k) := by
  intro m l hl
  obtain ⟨j, hj, hlt, hget⟩ := get?_eq_some hl
  unfold updateMarksAfterDelete
  rw [hj]
  by_cases hgone : start ≤ j ∧ j < start + k
  · have hmem : l.id ∉ (without lines start k).map Line.id := by
      intro hmem
      obtain ⟨l', hl', hid⟩ := List.mem_map.mp hmem
      obtain ⟨i, hi⟩ := List.mem_iff_getElem?.mp hl'
      rw [getElem?_without (by omega)] at hi
      split_ifs at hi with hlow
      · have heq := h.index_unique hi hget hid
        omega
      · have heq := h.index_unique hi hget hid
        omega
    rw [if_neg hmem, if_neg (by omega), if_pos (by omega)]
  · have hkept : (without lines start k)[if j < start then j else j - k]? = some l := by
      rw [getElem?_without (by omega)]
      split_ifs with h1 h2
      · exact hget
      · omega
      · rw [Nat.sub_add_cancel (by omega), hget]
    have hmark : (if (j : ℤ) < 0 then (j : ℤ) else if (start : ℤ) ≤ j ∧ (j : ℤ) < start + k then -1
        else if (start : ℤ) + k ≤ j then (j : ℤ) - k else j) = ((if j < start then j else j - k : ℕ) : ℤ) := by
      split_ifs <;> omega
    rw [if_pos (id_mem_of_getElem? hkept), hmark, Cells.get?_natCast, hkept, Option.map_some]

/-- The marks that `move_range` computes name the lines they have named, or no line if they have not. -/
theorem get?_movedTo {range : AddressRange} {dest : ℤ} {start k pos : ℕ} (hs : range.start = start)
    (hk : range.count = k) (hdest : ¬ (range.start ≤ dest ∧ dest ≤ range.stop))
    (hpos : World.adjustedDest range dest + 1 = pos) (hle : start + k ≤ lines.length)
    (hposle : pos + k ≤ lines.length) (m : Fin 26) :
    Cells.get? (movedTo lines start k pos) (World.moveMarks marks range dest m) = Cells.get? lines (marks m) := by
  have hcount : range.count = range.stop - range.start + 1 := rfl
  have hadj : World.adjustedDest range dest = if dest > range.stop then dest - range.count else dest := rfl
  have hmoved : ((lines.drop start).take k).length = k := by
    rw [List.length_take, List.length_drop]
    omega
  have hlen := length_without hle
  by_cases hset : 0 ≤ marks m
  · obtain ⟨j, hj⟩ := Int.eq_ofNat_of_zero_le hset
    have hmark : World.moveMarks marks range dest m =
        ((if start ≤ j ∧ j < start + k then pos + (j - start)
          else if j < start then if j < pos then j else j + k
          else if j < pos + k then j - k else j : ℕ) : ℤ) := by
      unfold World.moveMarks
      dsimp only
      rw [hj, hpos, hs, hk]
      split_ifs at hadj ⊢ <;> omega
    rw [hmark, hj, Cells.get?_natCast, Cells.get?_natCast]
    unfold movedTo
    rw [getElem?_insertedAt (by omega), hmoved]
    by_cases h1 : start ≤ j ∧ j < start + k
    · rw [if_pos h1, if_neg (by omega), if_pos (by omega), Nat.add_sub_cancel_left,
        List.getElem?_take_of_lt (by omega), List.getElem?_drop, Nat.add_sub_cancel' h1.1]
    · rw [if_neg h1]
      by_cases h2 : j < start
      · rw [if_pos h2]
        by_cases h3 : j < pos
        · rw [if_pos h3, if_pos h3, getElem?_without (by omega), if_pos h2]
        · rw [if_neg h3, if_neg (by omega), if_neg (by omega), Nat.add_sub_cancel,
            getElem?_without (by omega), if_pos h2]
      · rw [if_neg h2]
        by_cases h3 : j < pos + k
        · rw [if_pos h3, if_pos (by omega), getElem?_without (by omega), if_neg (by omega),
            Nat.sub_add_cancel (by omega)]
        · rw [if_neg h3, if_neg (by omega), if_neg h3, getElem?_without (by omega), if_neg (by omega),
            Nat.sub_add_cancel (by omega)]
  · have hmark : World.moveMarks marks range dest m = marks m := if_pos (not_le.mp hset)
    rw [hmark, Cells.get?, Cells.get?, if_neg hset, if_neg hset]

theorem follows_movedTo {range : AddressRange} {dest : ℤ} {start k pos : ℕ} (hs : range.start = start)
    (hk : range.count = k) (hdest : ¬ (range.start ≤ dest ∧ dest ≤ range.stop))
    (hpos : World.adjustedDest range dest + 1 = pos) (hle : start + k ≤ lines.length)
    (hposle : pos + k ≤ lines.length) :
    Follows lines marks (movedTo lines start k pos) (World.moveMarks marks range dest) := by
  intro m l hl
  have hget := (get?_movedTo hs hk hdest hpos hle hposle m).trans hl
  obtain ⟨j, -, -, hj⟩ := get?_eq_some hget
  rw [if_pos (id_mem_of_getElem? hj), hget, Option.map_some]

theorem moveMarks_of_count_zero {range : AddressRange} {dest : ℤ} (hk : range.count = 0) :
    World.moveMarks marks range dest = marks := by
  have hcount : range.count = range.stop - range.start + 1 := rfl
  funext m
  unfold World.moveMarks
  dsimp only
  split_ifs <;> omega

/-! ## Marks that are left alone -/

theorem Follows.names {m : Fin 26} {j j' : ℕ} {l l' : Line} (h : Follows lines marks lines' marks')
    (hj : marks m = j) (hget : lines[j]? = some l) (hj' : lines'[j']? = some l') (hid : l'.id = l.id) :
    (Cells.get? lines' (marks' m)).map Line.id = some l.id := by
  have hm := h m l (by rw [hj, Cells.get?_natCast, hget])
  rwa [if_pos (hid ▸ id_mem_of_getElem? hj')] at hm

/-- Lines are inserted and the marks stay. -/
theorem follows_insertedAt_iff (marks : Marks) {fresh pos : ℕ} (h : Told fresh lines) (hpos : pos ≤ lines.length)
    (hnew : ∀ l ∈ new, fresh ≤ l.id) (hne : new ≠ []) :
    Follows lines marks (insertedAt lines pos new) marks ↔
      ∀ m, 0 ≤ marks m → marks m < lines.length → marks m < pos := by
  have hk := List.length_pos_iff.mpr hne
  constructor
  · intro hf m h0 hlt
    by_contra hge
    obtain ⟨j, hj⟩ := Int.eq_ofNat_of_zero_le h0
    obtain ⟨l, hget⟩ : ∃ l, lines[j]? = some l := ⟨_, List.getElem?_eq_getElem (by omega)⟩
    have hmoved : (insertedAt lines pos new)[j + new.length]? = some l := by
      rw [getElem?_insertedAt hpos, if_neg (by omega), if_neg (by omega), Nat.add_sub_cancel, hget]
    have hnames := hf.names hj hget hmoved rfl
    rw [hj, Cells.get?_natCast, getElem?_insertedAt hpos, if_neg (by omega)] at hnames
    obtain ⟨l', hl', hid⟩ := Option.map_eq_some_iff.mp hnames
    split_ifs at hl' with hin
    · have hge' := hnew l' (List.mem_of_getElem? hl')
      have hlt' := h.below l (List.mem_of_getElem? hget)
      omega
    · have heq := h.index_unique hl' hget hid
      omega
  · intro hall
    apply follows_of_getElem?
    intro m j l hj hlt hget
    have hlow := hall m (by omega) (by omega)
    exact ⟨j, l, hj, by rw [getElem?_insertedAt hpos, if_pos (by omega), hget], rfl⟩

/-- Lines are removed and the marks stay. -/
theorem follows_without_iff (marks : Marks) {fresh start k : ℕ} (h : Told fresh lines) (hle : start + k ≤ lines.length)
    (hk : 0 < k) :
    Follows lines marks (without lines start k) marks ↔
      ∀ m, 0 ≤ marks m → marks m < lines.length → marks m < start := by
  constructor
  · intro hf m h0 hlt
    by_contra hge
    obtain ⟨j, hj⟩ := Int.eq_ofNat_of_zero_le h0
    obtain ⟨l, hget⟩ : ∃ l, lines[j]? = some l := ⟨_, List.getElem?_eq_getElem (by omega)⟩
    have hm := hf m l (by rw [hj, Cells.get?_natCast, hget])
    split_ifs at hm
    · obtain ⟨l', hl', hid⟩ := Option.map_eq_some_iff.mp hm
      rw [hj, Cells.get?_natCast, getElem?_without (by omega), if_neg (by omega)] at hl'
      have heq := h.index_unique hl' hget hid
      omega
    · omega
  · intro hall
    apply follows_of_getElem?
    intro m j l hj hlt hget
    have hlow := hall m (by omega) (by omega)
    exact ⟨j, l, hj, by rw [getElem?_without (by omega), if_pos (by omega), hget], rfl⟩

/-- The last lines are dropped and the marks on lines stay. -/
theorem follows_take_iff {n : ℕ}
    (hmarks : ∀ m, marks m < lines.length → marks' m = marks m) :
    Follows lines marks (lines.take n) marks' ↔
      ∀ m, 0 ≤ marks m → marks m < lines.length → marks m < n := by
  constructor
  · intro hf m h0 hlt
    by_contra hge
    obtain ⟨j, hj⟩ := Int.eq_ofNat_of_zero_le h0
    obtain ⟨l, hget⟩ : ∃ l, lines[j]? = some l := ⟨_, List.getElem?_eq_getElem (by omega)⟩
    have hm := hf m l (by rw [hj, Cells.get?_natCast, hget])
    rw [hmarks m hlt, hj, Cells.get?_natCast, List.getElem?_eq_none (by rw [List.length_take]; omega)] at hm
    split_ifs at hm
    cases hm
  · intro hall
    apply follows_of_getElem?
    intro m j l hj hlt hget
    have hlow := hall m (by omega) (by omega)
    exact ⟨j, l, by rw [hmarks m (by omega), hj], by rw [List.getElem?_take_of_lt (by omega), hget], rfl⟩

/-- Other lines take the place of all. -/
theorem follows_same_marks_iff :
    Follows lines marks lines' marks ↔ ∀ m l, Cells.get? lines (marks m) = some l →
      (Cells.get? lines' (marks m)).map Line.id = some l.id := by
  constructor
  · intro hf m l hl
    have hm := hf m l hl
    split_ifs at hm
    · exact hm
    · obtain ⟨j, hj, -, -⟩ := get?_eq_some hl
      omega
  · intro hall m l hl
    have hm := hall m l hl
    obtain ⟨l', hl', hid⟩ := Option.map_eq_some_iff.mp hm
    obtain ⟨j, -, -, hget⟩ := get?_eq_some hl'
    rw [if_pos (hid ▸ id_mem_of_getElem? hget), hm]

theorem Follows.of_ids_left {lines1 : List Line} (hids : lines1.map Line.id = lines.map Line.id)
    (h : Follows lines marks lines' marks') : Follows lines1 marks lines' marks' := by
  intro m l hl
  obtain ⟨j, hj, -, hget⟩ := get?_eq_some hl
  have hget' := congrArg (fun ids => ids[j]?) hids
  simp only [List.getElem?_map, hget, Option.map_some] at hget'
  obtain ⟨l', hl', hid⟩ := Option.map_eq_some_iff.mp hget'.symm
  have hm := h m l' (by rw [hj, Cells.get?_natCast, hl'])
  rwa [hid] at hm

theorem Follows.trans {lines1 : List Line} {marks1 : Marks}
    (h1 : Follows lines marks lines1 marks1) (h2 : Follows lines1 marks1 lines' marks')
    (hgone : ∀ l ∈ lines, l.id ∉ lines1.map Line.id → l.id ∉ lines'.map Line.id)
    (hunset : ∀ m, marks1 m = -1 → marks' m = -1) : Follows lines marks lines' marks' := by
  intro m l hl
  have hm := h1 m l hl
  obtain ⟨j, -, -, hget⟩ := get?_eq_some hl
  split_ifs at hm with hmem
  · obtain ⟨l1, hl1, hid⟩ := Option.map_eq_some_iff.mp hm
    have hm2 := h2 m l1 hl1
    rwa [hid] at hm2
  · rw [if_neg (hgone l (List.mem_of_getElem? hget) hmem)]
    exact hunset m hm

end

/-! ## The commands -/

/-- The commands `a`, `i`, `c`, `d`, `m`, `t`, `r`, `j`, `s` and `u`. -/
def Call.changesLines : Call → Bool
  | .appendLine _ | .insertLine _ | .changeRange _ | .deleteRange _ | .moveRange _ _ | .copyRange _ _
  | .readFileAtAddress _ _ | .joinRange _ | .substituteRange _ _ _ _ | .undo => true
  | _ => false

/-- When a command leaves every mark on its line. -/
def MarksCondition (c : Call) (s : State) : Prop :=
  match c with
  -- A line without a byte is inserted, and the marks are not moved.
  | .readFileAtAddress addr name => ∀ bytes, s.files.content name = some bytes →
      byteCount (fileLines bytes) = 0 → fileLines bytes ≠ [] →
        ∀ m, 0 ≤ s.ed.marks m → s.ed.marks m < s.ed.numLines → s.ed.marks m ≤ addr
  -- A reversed range drops lines at the end.
  | .copyRange range dest => range.count < 0 → dest ≤ s.ed.numLines →
      ∀ m, 0 ≤ s.ed.marks m → s.ed.marks m < s.ed.numLines → s.ed.marks m < s.ed.numLines + range.count
  | .joinRange range => range.start < range.stop →
      ∀ m, 0 ≤ s.ed.marks m → s.ed.marks m < s.ed.numLines → s.ed.marks m ≤ range.start
  | .undo => s.ed.undoValid = true →
      ∀ m l, Cells.get? s.ed.lines (s.ed.marks m) = some l →
        (Cells.get? s.ed.undoLines (s.ed.marks m)).map Line.id = some l.id
  | _ => True

namespace World

variable {w w' : World}

/-- Every mark follows its line. -/
def MarksFollow (w w' : World) : Prop := Follows w.ed.lines w.ed.marks w'.ed.lines w'.ed.marks

theorem marksFollow_of_same (hlines : w'.ed.lines = w.ed.lines) (hmarks : w'.ed.marks = w.ed.marks) :
    w.MarksFollow w' := by
  unfold MarksFollow
  rw [hlines, hmarks]
  exact follows_of_ids rfl

theorem marksFollow_insertLine {addr : ℤ} (h0 : 0 ≤ addr) (hrun : w.insertLine addr = running w') :
    w.MarksFollow w' := by
  rcases insertLine_running h0 hrun with ⟨-, rfl⟩ | ⟨-, hle, rfl⟩
  · exact marksFollow_of_same rfl rfl
  · have hpos : addr.toNat ≤ w.ed.lines.length := by
      have hn : w.ed.numLines = w.ed.lines.length := rfl
      omega
    have hfollows := follows_insertedAt (newLines w.fresh w.readText.1) w.ed.marks hpos
    rw [length_newLines, Int.toNat_of_nonneg h0] at hfollows
    exact hfollows

theorem marksFollow_deleteRange {range : AddressRange} (h : Distinct w)
    (hrun : w.deleteRange range = running w') : w.MarksFollow w' := by
  rcases deleteRange_running hrun with ⟨-, rfl⟩ | ⟨hin, hcount, lines, rfl, rfl⟩
  · exact marksFollow_of_same rfl rfl
  · obtain ⟨hs0, hstop0, hs, hstop⟩ := AddressRange.outside_eq_false_iff.mp hin
    have hk : range.count = range.stop - range.start + 1 := rfl
    have hn : w.ed.numLines = w.ed.lines.length := rfl
    have hle : range.start.toNat + range.count.toNat ≤ w.ed.lines.length := by omega
    have hfollows := follows_without w.ed.marks h.lines hle
    rw [Int.toNat_of_nonneg hs0, Int.toNat_of_nonneg hcount] at hfollows
    exact hfollows

theorem unset_insertLine {addr : ℤ} (h0 : 0 ≤ addr) (hrun : w.insertLine addr = running w') (m : Fin 26)
    (hm : w.ed.marks m = -1) : w'.ed.marks m = -1 := by
  rcases insertLine_running h0 hrun with ⟨-, rfl⟩ | ⟨-, hle, rfl⟩
  · exact hm
  · have hneg : w.ed.marks m < 0 := by omega
    exact (if_pos hneg).trans hm

theorem ids_insertLine {addr : ℤ} (h0 : 0 ≤ addr) (hrun : w.insertLine addr = running w') {id : ℕ}
    (hid : id ∈ w'.ed.ids) : id ∈ w.ed.ids ∨ w.fresh ≤ id := by
  rcases insertLine_running h0 hrun with ⟨-, rfl⟩ | ⟨-, hle, rfl⟩
  · exact Or.inl hid
  · obtain ⟨l, hl, rfl⟩ := List.mem_map.mp hid
    have hl' : l ∈ w.ed.lines ++ newLines w.fresh w.readText.1 :=
      (Told.insertedAt_perm _ _ _).subset hl
    rcases List.mem_append.mp hl' with hold | hnew
    · exact Or.inl (List.mem_map_of_mem hold)
    · exact Or.inr (mem_newLines_id hnew).1

theorem marksFollow_changeRange {range : AddressRange} (h : Distinct w)
    (hrun : w.changeRange range = running w') : w.MarksFollow w' := by
  rcases changeRange_running hrun with ⟨-, rfl⟩ | ⟨-, w1, hdelete, hinsert⟩
  · exact marksFollow_of_same rfl rfl
  · have hfresh : w1.fresh = w.fresh := by
      rcases deleteRange_running hdelete with ⟨-, rfl⟩ | ⟨-, -, lines, -, rfl⟩ <;> rfl
    apply (marksFollow_deleteRange h hdelete).trans (marksFollow_insertLine (le_max_right _ _) hinsert)
    · intro l hl hgone hback
      rcases ids_insertLine (le_max_right _ _) hinsert hback with hmem | hge
      · exact hgone hmem
      · have hlt := h.lines.below l hl
        omega
    · exact fun m hm => unset_insertLine (le_max_right _ _) hinsert m hm

theorem marksFollow_moveRange {range : AddressRange} {dest : ℤ} (hrun : w.moveRange range dest = running w') :
    w.MarksFollow w' := by
  rcases moveRange_running hrun with ⟨m, rfl⟩ | ⟨hin, hcount, h0, hend, hself, rfl⟩
  · exact marksFollow_of_same rfl rfl
  · obtain ⟨hs0, hstop0, hs, hstop⟩ := AddressRange.outside_eq_false_iff.mp hin
    have hk : range.count = range.stop - range.start + 1 := rfl
    have hn : w.ed.numLines = w.ed.lines.length := rfl
    by_cases hzero : range.count = 0
    · have hlines : movedTo w.ed.lines range.start.toNat range.count.toNat
          (adjustedDest range dest + 1).toNat = w.ed.lines := by
        rw [hzero, Int.toNat_zero, movedTo, List.take_zero, insertedAt_nil, without_zero]
      exact marksFollow_of_same hlines (moveMarks_of_count_zero hzero)
    · have hadj : adjustedDest range dest = if dest > range.stop then dest - range.count else dest := rfl
      have hpos : adjustedDest range dest + 1 = (adjustedDest range dest + 1).toNat := by
        split_ifs at hadj <;> omega
      have hle : (adjustedDest range dest + 1).toNat + range.count.toNat ≤ w.ed.lines.length := by
        split_ifs at hadj <;> omega
      exact follows_movedTo (by omega) (by omega) hself hpos (by omega) hle

theorem marksFollow_copyRange_iff {range : AddressRange} {dest : ℤ}
    (hin : range.outside w.ed.numLines = false) (h0 : 0 ≤ dest)
    (hrun : w.copyRange range dest = running w') :
    w.MarksFollow w' ↔ MarksCondition (.copyRange range dest) w.toState := by
  obtain ⟨hs0, hstop0, hs, hstop⟩ := AddressRange.outside_eq_false_iff.mp hin
  have hk : range.count = range.stop - range.start + 1 := rfl
  have hn : w.ed.numLines = w.ed.lines.length := rfl
  rcases copyRange_running hrun with ⟨hbad, rfl⟩ | ⟨-, -, lines, hlines, rfl⟩
  · apply iff_of_true (marksFollow_of_same rfl rfl)
    intro _ hle
    rw [hin] at hbad
    rcases hbad with hout | hlow | hhigh
    · cases hout
    · omega
    · omega
  · rcases hlines with ⟨hcount, hend, rfl⟩ | ⟨hneg, hend, hle, rfl⟩
    · apply iff_of_true
      · rcases hend with hlt | ⟨-, hzero⟩
        · have hlen : (copies w.fresh ((w.ed.lines.drop range.start.toNat).take range.count.toNat)).length =
              range.count.toNat := by
            rw [length_copies, List.length_take, List.length_drop]
            omega
          have hpos : (dest + 1).toNat ≤ w.ed.lines.length := by omega
          have hfollows := follows_insertedAt
            (copies w.fresh ((w.ed.lines.drop range.start.toNat).take range.count.toNat)) w.ed.marks hpos
          rw [hlen, Int.toNat_of_nonneg (by omega), Int.toNat_of_nonneg hcount] at hfollows
          exact hfollows
        · apply marksFollow_of_same
          · change insertedAt _ _ (copies _ _) = _
            rw [hzero, Int.toNat_zero, List.take_zero]
            exact insertedAt_nil _ _
          · change updateMarksAfterInsert _ _ range.count = _
            rw [hzero, updateMarksAfterInsert_zero]
      · intro hneg
        omega
    · have hsame : ∀ m, w.ed.marks m < w.ed.lines.length →
          updateMarksAfterInsert w.ed.marks (dest + 1) range.count m = w.ed.marks m := by
        intro m hm
        unfold updateMarksAfterInsert
        split_ifs <;> omega
      have hiff := follows_take_iff (n := (w.ed.numLines + range.count).toNat) hsame
      rw [Int.toNat_of_nonneg (by omega)] at hiff
      exact hiff.trans ⟨fun hall _ _ => hall, fun hall => hall hneg hle⟩

theorem marksFollow_joinRange_iff {range : AddressRange} (h : Distinct w)
    (hrun : w.joinRange range = running w') :
    w.MarksFollow w' ↔
      (range.outside w.ed.numLines = false → MarksCondition (.joinRange range) w.toState) := by
  rcases joinRange_running hrun with ⟨hout, rfl⟩ | ⟨-, heq, rfl⟩ | ⟨hin, hlt, first, hfirst, rfl⟩
  · apply iff_of_true (marksFollow_of_same rfl rfl)
    intro hin
    rw [hin] at hout
    cases hout
  · apply iff_of_true (marksFollow_of_same rfl rfl)
    intro _ hlt
    omega
  · obtain ⟨hs0, hstop0, hs, hstop⟩ := AddressRange.outside_eq_false_iff.mp hin
    have hn : w.ed.numLines = w.ed.lines.length := rfl
    have hids : (w.ed.lines.set range.start.toNat (joined (w.linesOf range) first.id)).map Line.id =
        w.ed.lines.map Line.id := by
      rw [List.map_set]
      apply set_of_getElem?
      rw [List.getElem?_map, hfirst]
      rfl
    have htold := h.lines.of_ids hids
    have hle : range.start.toNat + 1 + (range.stop - range.start).toNat ≤
        (w.ed.lines.set range.start.toNat (joined (w.linesOf range) first.id)).length := by
      rw [List.length_set]
      omega
    have hiff := follows_without_iff w.ed.marks htold hle (by omega)
    rw [List.length_set] at hiff
    have hcond : (∀ m, 0 ≤ w.ed.marks m → w.ed.marks m < w.ed.lines.length →
        w.ed.marks m < (range.start.toNat + 1 : ℕ)) ↔
        (range.outside w.ed.numLines = false → MarksCondition (.joinRange range) w.toState) := by
      constructor
      · intro hall _ _ m h0 hm
        have hle := hall m h0 hm
        omega
      · intro hall m h0 hm
        have hle := hall hin hlt m h0 hm
        omega
    rw [← hcond, ← hiff]
    exact ⟨fun hf => hf.of_ids_left hids, fun hf => hf.of_ids_left hids.symm⟩

theorem marksFollow_undo_iff (hrun : w.undo = running w') :
    w.MarksFollow w' ↔ MarksCondition .undo w.toState := by
  rcases undo_running hrun with ⟨hinvalid, rfl⟩ | ⟨hvalid, rfl⟩
  · apply iff_of_true (marksFollow_of_same rfl rfl)
    intro hvalid
    rw [hinvalid] at hvalid
    cases hvalid
  · exact follows_same_marks_iff.trans ⟨fun hall _ => hall, fun hall => hall hvalid⟩

theorem marksFollow_readFileAtAddress_iff {addr : ℤ} {name : CString} (h : Distinct w) (h0 : -1 ≤ addr)
    (hrun : w.readFileAtAddress addr name = running w') :
    w.MarksFollow w' ↔ MarksCondition (.readFileAtAddress addr name) w.toState := by
  have hn : w.ed.numLines = w.ed.lines.length := rfl
  rcases readFileAtAddress_running h0 hrun with ⟨hnone, rfl⟩ | ⟨bytes, hbytes, hle, lines, hlines, rfl⟩
  · apply iff_of_true (marksFollow_of_same rfl rfl)
    intro bytes hbytes
    rw [show w.toState.files.content name = none from hnone] at hbytes
    cases hbytes
  · have hcond : MarksCondition (.readFileAtAddress addr name) w.toState ↔
        (byteCount (fileLines bytes) = 0 → fileLines bytes ≠ [] →
          ∀ m, 0 ≤ w.ed.marks m → w.ed.marks m < w.ed.numLines → w.ed.marks m ≤ addr) :=
      ⟨fun hall => hall bytes hbytes, fun hall bytes' hbytes' => by
        obtain rfl := Option.some.inj (hbytes.symm.trans hbytes')
        exact hall⟩
    rw [hcond]
    split_ifs with hcount
    · apply iff_of_true
      · by_cases hnil : fileLines bytes = []
        · rw [hnil] at hcount
          exact absurd hcount (by decide)
        · have hlt := hle hnil
          have hpos : (addr + 1).toNat ≤ w.ed.lines.length := by omega
          have hfollows :=
            follows_insertedAt (newLines w.fresh ((fileLines bytes).map Prod.fst)) w.ed.marks hpos
          rw [← hlines, length_newLines, List.length_map, Int.toNat_of_nonneg (by omega)] at hfollows
          exact hfollows
      · intro hzero
        omega
    · by_cases hnil : fileLines bytes = []
      · apply iff_of_true
        · have hsame : lines = w.ed.lines := by
            rw [hlines, hnil]
            exact insertedAt_nil _ _
          exact marksFollow_of_same hsame rfl
        · exact fun _ hne => absurd hnil hne
      · have hlt := hle hnil
        have hpos : (addr + 1).toNat ≤ w.ed.lines.length := by omega
        have hne : newLines w.fresh ((fileLines bytes).map Prod.fst) ≠ [] := by
          intro hempty
          rw [newLines_eq_nil, List.map_eq_nil_iff] at hempty
          exact hnil hempty
        have hiff := follows_insertedAt_iff w.ed.marks h.lines hpos (fun l hl => (mem_newLines_id hl).1) hne
        rw [← hlines] at hiff
        apply hiff.trans
        constructor
        · intro hall _ _ m hm0 hm
          have hpos := hall m hm0 hm
          omega
        · intro hall m hm0 hm
          have hle := hall (by omega) hnil m hm0 hm
          omega

end World

/-- A command that changes the buffer leaves every mark on its line exactly under `MarksCondition`. -/
theorem marksFollow_iff {fuel : ℕ} {cmd : CString} {w w' : World} (hw : w.Reached)
    (hc : (w.ed.decode cmd).changesLines = true) (hrun : executeCommand fuel cmd w = running w') :
    w.MarksFollow w' ↔ MarksCondition (w.ed.decode cmd) w.toState := by
  cases fuel with
  | zero => cases hrun
  | succ fuel =>
    have hbounds := w.ed.decode_inBounds cmd
    have hdistinct : Distinct (w.record (.call (w.ed.decode cmd) w.toState)) :=
      ⟨hw.distinct.lines, hw.distinct.undoLines⟩
    unfold executeCommand at hrun
    -- The call that is recorded changes nothing that the condition looks at.
    generalize hw1 : w.record (.call (w.ed.decode cmd) w.toState) = w1 at hrun hdistinct
    have hstate : w1.toState = w.toState := hw1 ▸ rfl
    have hed : w1.ed = w.ed := hw1 ▸ rfl
    have hgoal : w1.MarksFollow w' ↔ MarksCondition (w.ed.decode cmd) w1.toState := by
      rw [← hed] at hbounds hc hrun ⊢
      generalize w1.ed.decode cmd = c at hbounds hc hrun ⊢
      cases c with
      | appendLine addr =>
        apply iff_of_true _ trivial
        rcases World.appendLine_running hbounds hrun with ⟨-, rfl⟩ | ⟨-, hlt, rfl⟩
        · exact World.marksFollow_of_same rfl rfl
        · have hle : -1 ≤ addr := hbounds
          have hn : w1.ed.numLines = w1.ed.lines.length := rfl
          have hpos : (addr + 1).toNat ≤ w1.ed.lines.length := by omega
          have hfollows := follows_insertedAt (newLines w1.fresh w1.readText.1) w1.ed.marks hpos
          rw [length_newLines, Int.toNat_of_nonneg (by omega)] at hfollows
          exact hfollows
      | insertLine addr => exact iff_of_true (World.marksFollow_insertLine hbounds hrun) trivial
      | changeRange range => exact iff_of_true (World.marksFollow_changeRange hdistinct hrun) trivial
      | deleteRange range => exact iff_of_true (World.marksFollow_deleteRange hdistinct hrun) trivial
      | moveRange range dest => exact iff_of_true (World.marksFollow_moveRange hrun) trivial
      | copyRange range dest => exact World.marksFollow_copyRange_iff hbounds.1 hbounds.2 hrun
      | readFileAtAddress addr name => exact World.marksFollow_readFileAtAddress_iff hdistinct hbounds.1 hrun
      | joinRange range =>
        exact (World.marksFollow_joinRange_iff hdistinct hrun).trans ⟨fun hall => hall hbounds, fun hall _ => hall⟩
      | substituteRange range pattern replacement global =>
        apply iff_of_true _ trivial
        rcases World.substituteRange_running hrun with ⟨m, rfl⟩ | ⟨-, lines, hids, rfl⟩
        · exact World.marksFollow_of_same rfl rfl
        · exact follows_of_ids hids
      | undo => exact World.marksFollow_undo_iff hrun
      | _ => cases hc
    have hsame : w1.MarksFollow w' ↔ w.MarksFollow w' := by
      unfold World.MarksFollow
      rw [hed]
    rw [← hsame, hgoal, hstate]

instance (w w' : World) : Decidable (w.MarksFollow w') := inferInstanceAs (Decidable (Follows _ _ _ _))

/-- A mark on the third line, and the first line is deleted. -/
theorem marksFollow_iff_delete : ∃ w w' : World, executeCommand 2 (.lit "1d") w = running w' ∧
    (w.MarksFollow w' ↔ MarksCondition (w.ed.decode (.lit "1d")) w.toState) := by
  have hrun : (runAll (executeCommand 2) [.lit "a", .lit "3ka"] threeLinesTyped).run?.map
      (fun w => ((w.ed.decode (.lit "1d")).changesLines, (executeCommand 2 (.lit "1d") w).run?.isSome)) =
        some (true, true) := by
    decide
  obtain ⟨w, hw, hstate⟩ := Option.map_eq_some_iff.mp hrun
  rw [Prod.mk.injEq, Option.isSome_iff_exists] at hstate
  obtain ⟨hchanges, w', hw'⟩ := hstate
  have hreached := threeLinesTyped_reached.runAll (run?_eq_some hw)
  exact ⟨w, w', run?_eq_some hw', marksFollow_iff hreached hchanges (run?_eq_some hw')⟩

/-- After `1,2j` a mark on the third of three lines is past the end. -/
theorem not_marksFollow : ∃ w w' : World, w.Reached ∧ (w.ed.decode (.lit "1,2j")).changesLines = true ∧
    executeCommand 2 (.lit "1,2j") w = running w' ∧ ¬ w.MarksFollow w' := by
  have hrun : (runAll (executeCommand 2) [.lit "a", .lit "3ka"] threeLinesTyped).run?.map
      (fun w => ((w.ed.decode (.lit "1,2j")).changesLines,
        (executeCommand 2 (.lit "1,2j") w).run?.map fun w' => decide (w.MarksFollow w'))) =
        some (true, some false) := by
    decide
  obtain ⟨w, hw, hstate⟩ := Option.map_eq_some_iff.mp hrun
  rw [Prod.mk.injEq] at hstate
  obtain ⟨w', hw', hfollow⟩ := Option.map_eq_some_iff.mp hstate.2
  exact ⟨w, w', threeLinesTyped_reached.runAll (run?_eq_some hw), hstate.1, run?_eq_some hw',
    of_decide_eq_false hfollow⟩

end ValidcTools.Ed
