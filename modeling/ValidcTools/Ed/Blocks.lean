import ValidcTools.Ed.Marks

/-! `m`, `t` and `j` on blocks of lines. -/
namespace ValidcTools.Ed
open Outcome World

/-! ## Lists -/

section
variable {α : Type}

/-- The elements from `start` to `stop` -/
def block (l : List α) (start stop : ℕ) : List α := (l.take (stop + 1)).drop start

/-- The elements from `start` to `stop` are taken out, and put in again behind the one that was at `dest`. -/
def moveBlock (l : List α) (start stop dest : ℕ) : List α :=
  if dest < start then
    l.take (dest + 1) ++ block l start stop ++ (l.take start).drop (dest + 1) ++ l.drop (stop + 1)
  else
    l.take start ++ (l.take (dest + 1)).drop (stop + 1) ++ block l start stop ++ l.drop (dest + 1)

theorem block_eq_take (l : List α) (start stop : ℕ) :
    block l start stop = (l.drop start).take (stop + 1 - start) := by
  rw [block, List.drop_take]

end

/-! ## Ranges of the buffer -/

theorem count_eq {start stop : ℕ} (hle : start ≤ stop) : AddressRange.count ⟨start, stop⟩ = (stop + 1 - start : ℕ) := by
  rw [AddressRange.count]
  push_cast
  omega

theorem outside_prepareUndo {w : World} {start stop : ℕ} (hle : start ≤ stop) (hstop : stop < w.ed.lines.length) :
    AddressRange.outside ⟨start, stop⟩ w.prepareUndo.ed.numLines = false := by
  rw [AddressRange.outside_eq_false_iff]
  change (0 : ℤ) ≤ start ∧ (0 : ℤ) ≤ stop ∧ (start : ℤ) < w.ed.lines.length ∧ (stop : ℤ) < w.ed.lines.length
  omega

theorem linesOf_eq_block (w : World) {start stop : ℕ} (hle : start ≤ stop) :
    w.linesOf ⟨start, stop⟩ = block w.ed.lines start stop := by
  rw [linesOf, count_eq hle, block_eq_take]
  rfl

/-- The position behind the line `dest` once the moved lines are gone -/
theorem movedTo_eq_moveBlock {lines : List Line} {start stop dest : ℕ} (hle : start ≤ stop) (hstop : stop < lines.length)
    (hout : dest < start ∨ stop < dest) :
    movedTo lines start (stop + 1 - start) (if dest < start then dest + 1 else dest + 1 - (stop + 1 - start)) =
      moveBlock lines start stop dest := by
  have hend : start + (stop + 1 - start) = stop + 1 := by omega
  have hlen : (lines.take start).length = start := List.length_take_of_le (by omega)
  unfold movedTo moveBlock insertedAt without
  rw [hend, ← block_eq_take]
  split_ifs with hbefore
  · rw [List.take_append_of_le_length (by omega), List.take_take, min_eq_left hbefore,
      List.drop_append_of_le_length (by omega), ← List.append_assoc]
  · have hpos : dest + 1 - (stop + 1 - start) = start + (dest - stop) := by omega
    have hbetween : start + (dest - stop) - start = dest + 1 - (stop + 1) := by omega
    have hafter : stop + 1 + (dest + 1 - (stop + 1)) = dest + 1 := by omega
    have hall : (lines.take start).take (start + (dest - stop)) = lines.take start := List.take_of_length_le (by omega)
    have hnone : (lines.take start).drop (start + (dest - stop)) = [] := List.drop_eq_nil_of_le (by omega)
    rw [hpos, List.take_append, List.drop_append, hlen, hall, hnone, hbetween, List.nil_append, List.drop_drop, hafter,
      List.drop_take]

/-! ## `move_range` -/

/-- The block `start..stop` has been moved behind the line `dest`: the buffer, the current line, and the marks. -/
structure MovedBlock (w w' : World) (start stop dest : ℕ) : Prop where
  lines : w'.ed.lines = moveBlock w.ed.lines start stop dest
  perm : w'.ed.lines.Perm w.ed.lines
  current : w'.ed.currentLine = (if dest < start then dest + (stop + 1 - start) else dest : ℕ)
  last : Cells.get? w'.ed.lines w'.ed.currentLine = w.ed.lines[stop]?
  marks : ∀ m, Cells.get? w'.ed.lines (w'.ed.marks m) = Cells.get? w.ed.lines (w.ed.marks m)

/-- The last of the moved lines -/
theorem getElem?_moveBlock_last {lines : List Line} {start stop dest : ℕ} (hle : start ≤ stop) (hstop : stop < lines.length)
    (hdest : dest < lines.length) (hout : dest < start ∨ stop < dest) :
    (moveBlock lines start stop dest)[if dest < start then dest + (stop + 1 - start) else dest]? = lines[stop]? := by
  have hend : start + (stop + 1 - start) = stop + 1 := by omega
  have hwithout : (without lines start (stop + 1 - start)).length = lines.length - (stop + 1 - start) :=
    length_without (by omega)
  have hmoved : ((lines.drop start).take (stop + 1 - start)).length = stop + 1 - start := by
    rw [List.length_take, List.length_drop]
    omega
  rw [← movedTo_eq_moveBlock hle hstop hout, movedTo]
  split_ifs with hbefore
  · rw [getElem?_insertedAt (by omega), hmoved, if_neg (by omega), if_pos (by omega), List.getElem?_take_of_lt (by omega),
      List.getElem?_drop]
    congr 1
    omega
  · rw [getElem?_insertedAt (by omega), hmoved, if_neg (by omega), if_pos (by omega), List.getElem?_take_of_lt (by omega),
      List.getElem?_drop]
    congr 1
    omega

/-- `move_range` on a range of the buffer, with a destination outside of it, is a move of the block. -/
theorem moveRange_movedBlock (w : World) {start stop dest : ℕ} (hle : start ≤ stop) (hstop : stop < w.ed.lines.length)
    (hdest : dest < w.ed.lines.length) (hout : dest < start ∨ stop < dest) :
    ∃ w', w.moveRange ⟨start, stop⟩ dest = running w' ∧ MovedBlock w w' start stop dest := by
  have hn : w.ed.numLines = w.ed.lines.length := rfl
  have hcount := count_eq hle
  have hadj : adjustedDest ⟨start, stop⟩ dest + 1 = (if dest < start then dest + 1 else dest + 1 - (stop + 1 - start) : ℕ) := by
    rw [adjustedDest, hcount]
    dsimp only
    split_ifs <;> omega
  have hself : ¬ ((start : ℤ) ≤ dest ∧ (dest : ℤ) ≤ stop) := by omega
  have hposle : (if dest < start then dest + 1 else dest + 1 - (stop + 1 - start)) + (stop + 1 - start) ≤ w.ed.lines.length := by
    split_ifs <;> omega
  have hmoved := movedTo_eq_moveBlock hle hstop hout
  have hlines : moveLines? w.ed.lines ⟨start, stop⟩ dest = some (moveBlock w.ed.lines start stop dest) :=
    (moveLines?_eq (by omega) rfl hcount hadj hposle).trans (congrArg some hmoved)
  have hinside := outside_prepareUndo hle hstop
  have hcurrent : adjustedDest ⟨start, stop⟩ dest + AddressRange.count ⟨start, stop⟩ =
      (if dest < start then dest + (stop + 1 - start) else dest : ℕ) := by
    rw [hcount]
    split_ifs at hadj ⊢ <;> omega
  have hdestok : ¬ ((dest : ℤ) < 0 ∨ w.prepareUndo.ed.numLines < dest) := by
    change ¬ ((dest : ℤ) < 0 ∨ (w.ed.lines.length : ℤ) < dest)
    omega
  refine ⟨{ w.prepareUndo with ed := { w.prepareUndo.ed with
      lines := moveBlock w.ed.lines start stop dest
      currentLine := (if dest < start then dest + (stop + 1 - start) else dest : ℕ)
      dirty := true
      marks := moveMarks w.ed.marks ⟨start, stop⟩ dest } }, ?_, rfl, ?_, rfl, ?_, fun m => ?_⟩
  · unfold moveRange
    dsimp only
    rw [hinside, if_neg Bool.false_ne_true, if_neg hdestok, if_neg hself, if_neg (by omega), hcurrent]
    change withLines (moveLines? w.ed.lines ⟨start, stop⟩ dest) _ = _
    rw [hlines, withLines_some]
    rfl
  · change (moveBlock w.ed.lines start stop dest).Perm w.ed.lines
    rw [← hmoved]
    exact Told.movedTo_perm ..
  · rw [Cells.get?_natCast]
    exact getElem?_moveBlock_last hle hstop hdest hout
  · change Cells.get? (moveBlock w.ed.lines start stop dest) (moveMarks w.ed.marks ⟨start, stop⟩ dest m) = _
    rw [← hmoved]
    exact get?_movedTo rfl hcount hself hadj (by omega) hposle m

/-- Lines 1 and 2 of four are moved behind line 4. -/
theorem moveRange_movedBlock_four : ∃ w w' : World, w.ed.texts = ["a", "b", "c", "d"].map .lit ∧
    w.moveRange ⟨0, 1⟩ 3 = running w' ∧ MovedBlock w w' 0 1 3 := by
  let w : World := { threeLinesTyped with ed := { lines := newLines 0 (["a", "b", "c", "d"].map .lit) } }
  obtain ⟨w', hrun, hmoved⟩ := moveRange_movedBlock w (by decide : 0 ≤ 1) (by decide) (by decide : 3 < 4) (by decide)
  exact ⟨w, w', by decide, hrun, hmoved⟩

/-! ## `copy_range` and `join_range` -/

/-- Copies of the block `start..stop` stand behind the line `dest`. -/
structure CopiedBlock (w w' : World) (start stop dest : ℕ) : Prop where
  lines : ∃ new, new.map Line.text = (block w.ed.lines start stop).map Line.text ∧
    w'.ed.lines = w.ed.lines.take (dest + 1) ++ new ++ w.ed.lines.drop (dest + 1)
  current : w'.ed.currentLine = (dest + (stop + 1 - start) : ℕ)

/-- One line stands for the block `start..stop`. -/
structure JoinedBlock (w w' : World) (start stop : ℕ) : Prop where
  lines : ∃ line : Line, line.text.bytes = (block w.ed.lines start stop).flatMap (·.text.bytes) ∧
    w'.ed.lines = w.ed.lines.take start ++ line :: w.ed.lines.drop (stop + 1)

theorem copyRange_copiedBlock (w : World) {start stop dest : ℕ} (hle : start ≤ stop) (hstop : stop < w.ed.lines.length)
    (hdest : dest < w.ed.lines.length) :
    ∃ w', w.copyRange ⟨start, stop⟩ dest = running w' ∧ CopiedBlock w w' start stop dest := by
  have hcount := count_eq hle
  have hlines : copyLines? w.ed.lines ⟨start, stop⟩ dest w.fresh =
      some (insertedAt w.ed.lines (dest + 1) (copies w.fresh (block w.ed.lines start stop))) := by
    rw [block_eq_take]
    exact copyLines?_eq (by omega) rfl hcount rfl (by omega) w.fresh
  have hdestok : ¬ ((dest : ℤ) < 0 ∨ w.prepareUndo.ed.numLines < dest) := by
    change ¬ ((dest : ℤ) < 0 ∨ (w.ed.lines.length : ℤ) < dest)
    omega
  refine ⟨{ w.prepareUndo with
    ed := { w.prepareUndo.ed with
      lines := insertedAt w.ed.lines (dest + 1) (copies w.fresh (block w.ed.lines start stop))
      currentLine := dest + AddressRange.count ⟨start, stop⟩
      dirty := true
      marks := updateMarksAfterInsert w.ed.marks (dest + 1) (AddressRange.count ⟨start, stop⟩) }
    fresh := w.fresh + (AddressRange.count ⟨start, stop⟩).toNat }, ?_, ⟨_, ?_, rfl⟩, ?_⟩
  · unfold copyRange
    dsimp only
    rw [outside_prepareUndo hle hstop, if_neg Bool.false_ne_true, if_neg hdestok]
    change withLines (copyLines? w.ed.lines ⟨start, stop⟩ dest w.fresh) _ = _
    rw [hlines, withLines_some]
    rfl
  · exact newLines_map_text _ _
  · change (dest : ℤ) + AddressRange.count ⟨start, stop⟩ = _
    rw [hcount]
    push_cast
    rfl

/-- The text of the joined line: no line has a NUL. -/
theorem joined_bytes (lines : List Line) (id : ℕ) : (World.joined lines id).text.bytes = lines.flatMap (·.text.bytes) := by
  refine CString.ofBytes_bytes_of_nulFree fun hzero => ?_
  obtain ⟨l, -, hl⟩ := List.mem_flatMap.mp hzero
  exact l.text.nulFree hl

theorem joinRange_joinedBlock (w : World) {start stop : ℕ} (hle : start ≤ stop) (hstop : stop < w.ed.lines.length) :
    ∃ w', w.joinRange ⟨start, stop⟩ = running w' ∧ JoinedBlock w w' start stop := by
  have hstart : start < w.ed.lines.length := by omega
  rcases hle.eq_or_lt with rfl | hlt
  · refine ⟨w.prepareUndo.setCurrent start, ?_, w.ed.lines[start], ?_, ?_⟩
    · unfold joinRange
      dsimp only
      rw [outside_prepareUndo le_rfl hstop, if_neg Bool.false_ne_true, if_pos rfl]
    · rw [block_eq_take, Nat.add_sub_cancel_left, List.drop_eq_getElem_cons hstart, List.take_succ_cons, List.take_zero]
      exact (List.append_nil _).symm
    · change w.ed.lines = _
      rw [← List.drop_eq_getElem_cons hstart, List.take_append_drop]
  · let line := World.joined (block w.ed.lines start stop) w.ed.lines[start].id
    have hremove : Cells.remove? (w.ed.lines.set start line) ((start : ℤ) + 1) ((stop : ℤ) - start) =
        some (w.ed.lines.take start ++ line :: w.ed.lines.drop (stop + 1)) := by
      have hcast : (stop : ℤ) - start = (stop - start : ℕ) := by omega
      have hlen : start + 1 + (stop - start) ≤ (w.ed.lines.set start line).length := by
        rw [List.length_set]
        omega
      have hend : start + 1 + (stop - start) = stop + 1 := by omega
      rw [hcast, ← Nat.cast_succ, Cells.remove?_eq hlen, hend, List.drop_set_of_lt (by omega),
        List.take_succ_eq_append_getElem (by rwa [List.length_set]), List.take_set_of_le le_rfl, List.getElem_set_self,
        List.append_assoc, List.singleton_append]
    refine ⟨{ w.prepareUndo with ed := { w.prepareUndo.ed with
        lines := w.ed.lines.take start ++ line :: w.ed.lines.drop (stop + 1), currentLine := start, dirty := true } },
      ?_, line, joined_bytes _ _, rfl⟩
    unfold joinRange
    dsimp only
    rw [outside_prepareUndo hle hstop, if_neg Bool.false_ne_true, if_neg (by omega), linesOf_eq_block _ hle]
    change withLines ((Cells.get? w.ed.lines start).bind fun first => (Cells.set? w.ed.lines start
      (World.joined (block w.ed.lines start stop) first.id)).bind fun lines => Cells.remove? lines (start + 1) (stop - start)) _ = _
    rw [Cells.get?_natCast, List.getElem?_eq_getElem hstart, Option.bind_some, Cells.set?_natCast hstart, Option.bind_some, hremove,
      withLines_some]

/-- `copy_range` and `join_range` on every range of the buffer, and a destination anywhere in it -/
theorem copyRange_joinRange (w : World) {start stop dest : ℕ} (hle : start ≤ stop) (hstop : stop < w.ed.lines.length)
    (hdest : dest < w.ed.lines.length) :
    (∃ w', w.copyRange ⟨start, stop⟩ dest = running w' ∧ CopiedBlock w w' start stop dest) ∧
      ∃ w', w.joinRange ⟨start, stop⟩ = running w' ∧ JoinedBlock w w' start stop :=
  ⟨copyRange_copiedBlock w hle hstop hdest, joinRange_joinedBlock w hle hstop⟩

/-- The destination splits the range. -/
theorem copyRange_joinRange_four : ∃ w w₁ w₂ : World, w.ed.texts = ["a", "b", "c", "d"].map .lit ∧
    w.copyRange ⟨0, 2⟩ 1 = running w₁ ∧ CopiedBlock w w₁ 0 2 1 ∧ w.joinRange ⟨0, 2⟩ = running w₂ ∧ JoinedBlock w w₂ 0 2 := by
  let w : World := { threeLinesTyped with ed := { lines := newLines 0 (["a", "b", "c", "d"].map .lit) } }
  obtain ⟨⟨w₁, hcopy, hcopied⟩, w₂, hjoin, hjoined⟩ := copyRange_joinRange w (by decide : 0 ≤ 2) (by decide) (by decide : 1 < 4)
  exact ⟨w, w₁, w₂, by decide, hcopy, hcopied, hjoin, hjoined⟩

end ValidcTools.Ed
