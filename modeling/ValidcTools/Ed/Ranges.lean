import ValidcTools.Ed.Dispatch

/-! The range of a command against `parse_address_range`. -/
namespace ValidcTools.Ed

/-- The commands that work on a range, by their letters. -/
inductive RangeLetter
  | p | n | l | d | c | j | s | m | t | w | W | g
deriving DecidableEq

def RangeLetter.byte : RangeLetter → Byte
  | p => ('p' : Char)
  | n => ('n' : Char)
  | l => ('l' : Char)
  | d => ('d' : Char)
  | c => ('c' : Char)
  | j => ('j' : Char)
  | s => ('s' : Char)
  | m => ('m' : Char)
  | t => ('t' : Char)
  | w => ('w' : Char)
  | W => ('W' : Char)
  | g => ('g' : Char)

theorem RangeLetter.isLetter_byte (k : RangeLetter) : isLetter k.byte = true := by
  cases k <;> decide

namespace Editor

variable (ed : Editor)

/-- The lines that a call works on. -/
def rangeOfCall : Call → Option AddressRange
  | .printRange r => some r
  | .printNumberedRange r => some r
  | .printListRange r => some r
  | .deleteRange r => some r
  | .changeRange r => some r
  | .joinRange r => some r
  | .substituteRange r _ _ _ => some r
  | .moveRange r _ => some r
  | .copyRange r _ => some r
  | .writeFile _ => some ⟨0, ed.numLines - 1⟩
  | .writeAppendFile r _ => some r
  | .global _ r _ _ => some r
  | _ => none

/-- The operands of a command are such that only its range can be rejected. -/
def OperandsOk (k : RangeLetter) (line args : List Byte) : Prop :=
  match k with
  | .s => ∃ rest pattern p replacement flags, args = ('/' : Char) :: rest ∧
      field rest = some (pattern, p) ∧ field p = some (replacement, flags) ∧ flags.all (· = 'g') = true
  | .g => ∃ rest pat p, args = ('/' : Char) :: rest ∧ field rest = some (pat, p) ∧
      p.dropWhile (fun b : Byte => b = ' ') ≠ []
  | .m | .t => ∃ operand' dest, operand line = some operand' ∧ operand' ≠ [] ∧
      ed.parseAddress operand' = .ok dest ∧ 0 ≤ dest
  | .W => operandName line ≠ none
  | _ => True

/-- A string that is an address prefix for the parser: it is accepted whole, or rejected. -/
def IsPrefix (pre : List Byte) : Prop :=
  ∀ a, parseEdAddress pre ed.current1 ed.numLines ed.marks = some a → a.rest = []

/-- The command works on the range that `parse_address_range` returns for its prefix, and is rejected
when that is invalid. -/
def OneMeaning (k : RangeLetter) (pre args : List Byte) : Prop :=
  if ed.parseAddressRange pre = ⟨-1, -1⟩ then
    ∃ msg, ed.decodeBuffer (pre ++ k.byte :: args) = .setError msg
  else ed.rangeOfCall (ed.decodeBuffer (pre ++ k.byte :: args)) = some (ed.parseAddressRange pre)

/-- No address, or `0` alone. -/
def NoAddress (a : EdAddress) : Prop := a.addr1 = 0 ∧ a.addr2 = 0

instance (a : EdAddress) : Decidable (NoAddress a) := inferInstanceAs (Decidable (_ ∧ _))

/-- The addresses that `parse_address_range` accepts. -/
def AcceptedRange (a : EdAddress) : Prop :=
  if NoAddress a then 0 < ed.numLines ∧ 0 ≤ ed.currentLine
  else a.addr1 ≤ ed.numLines ∧ a.addr1 ≤ max a.addr2 1

/-- The addresses of which a command makes the same range as `parse_address_range`. A second address 0
is line 1 for the parser, no address for most commands, and the last line for `g`. -/
def SameRange (k : RangeLetter) (a : EdAddress) : Prop :=
  match k with
  | .w =>
    0 < ed.numLines ∧
      if NoAddress a then ed.numLines = 1 ∧ ed.currentLine = 0
      else a.addr1 = 1 ∧ (a.addr2 = ed.numLines ∨ (a.addr2 = 0 ∧ ed.numLines = 1))
  | .W =>
    ed.numLines = 0 ∨
      if NoAddress a then ed.numLines = 1 ∧ ed.currentLine = 0 else a.addr1 ≤ max a.addr2 1
  | .g =>
    ed.numLines = 0 ∨
      if NoAddress a then ed.numLines = 1 ∧ ed.currentLine = 0
      else (0 < a.addr2 ∧ a.addr1 ≤ a.addr2) ∨ (a.addr2 = 0 ∧ a.addr1 = 1 ∧ ed.numLines = 1)
  | _ =>
    ed.numLines = 0 ∨
      if NoAddress a then ed.currentLine < ed.numLines else a.addr1 ≤ max a.addr2 1

/-- When a command and `parse_address_range` agree. Before a command letter a relative address at the
end of the prefix is not read, and the command is rejected. -/
def RangeCondition (k : RangeLetter) (pre : List Byte) : Prop :=
  match parseEdAddress pre ed.current1 ed.numLines ed.marks with
  | none => True
  | some a => if isRelative (lastAddress pre) then ¬ ed.AcceptedRange a else ed.SameRange k a

variable {ed}

/-- `parse_address_range` on a prefix that is accepted whole. -/
theorem parseAddressRange_eq {pre : List Byte} {a : EdAddress}
    (h : parseEdAddress pre ed.current1 ed.numLines ed.marks = some a) :
    ed.parseAddressRange pre =
      if NoAddress a then
        if 0 < ed.numLines ∧ 0 ≤ ed.currentLine then ⟨ed.currentLine, ed.currentLine⟩ else ⟨-1, -1⟩
      else if a.addr1 ≤ ed.numLines ∧ a.addr1 ≤ max a.addr2 1 then
        ⟨a.addr1 - 1, if 0 < a.addr2 then a.addr2 - 1 else 0⟩
      else ⟨-1, -1⟩ := by
  have hin := parseEdAddress_inBounds h (Int.natCast_nonneg _)
  obtain ⟨h1, h2, h3, h4, h5⟩ := hin
  unfold Editor.parseAddressRange
  rw [h]
  dsimp only
  by_cases hno : a.addr1 = 0 ∧ a.addr2 = 0
  · rw [if_pos hno, if_pos (show NoAddress a from hno)]
  · have hpos : 0 < a.addr1 := by omega
    rw [if_neg hno, if_neg (show ¬ NoAddress a from hno), if_pos hpos]
    by_cases hpos2 : 0 < a.addr2
    · have hcheck : (0 ≤ a.addr1 - 1 ∧ a.addr1 - 1 < ed.numLines ∧ 0 ≤ a.addr2 - 1 ∧
          a.addr2 - 1 < ed.numLines ∧ a.addr1 - 1 ≤ a.addr2 - 1) ↔
          a.addr1 ≤ ed.numLines ∧ a.addr1 ≤ max a.addr2 1 := by omega
      simp only [gt_iff_lt, hpos2, if_true, hcheck]
    · have hzero : a.addr2 = 0 := by omega
      have hcheck : (0 ≤ a.addr1 - 1 ∧ a.addr1 - 1 < ed.numLines ∧ 0 ≤ a.addr2 ∧
          a.addr2 < ed.numLines ∧ a.addr1 - 1 ≤ a.addr2) ↔
          a.addr1 ≤ ed.numLines ∧ a.addr1 ≤ max a.addr2 1 := by omega
      simp only [gt_iff_lt, hpos2, if_false, hcheck]
      rw [hzero]

/-- The outcome that `OneMeaning` asks for, for a range and a call. -/
def Agrees (ed : Editor) (range : AddressRange) (c : Call) : Prop :=
  if range = ⟨-1, -1⟩ then ∃ msg, c = .setError msg else ed.rangeOfCall c = some range

/-- For a call on a range, it is about the range and its check. -/
theorem agrees_onRange_iff {f : AddressRange → Call} (hf : ∀ r, ed.rangeOfCall (f r) = some r)
    (range r : AddressRange) :
    ed.Agrees range (ed.onRange r f) ↔
      if range = ⟨-1, -1⟩ then r.outside ed.numLines = true else r.outside ed.numLines = false ∧ r = range := by
  unfold Agrees onRange
  by_cases hout : r.outside ed.numLines = true
  · rw [if_pos hout]
    split_ifs
    · exact iff_of_true ⟨_, rfl⟩ hout
    · constructor
      · intro h
        cases h
      · intro h
        rw [hout] at h
        cases h.1
  · rw [if_neg hout]
    have hout' : r.outside ed.numLines = false := by simpa using hout
    split_ifs
    · constructor
      · rintro ⟨msg, h⟩
        have hr := hf r
        rw [h] at hr
        cases hr
      · intro h
        exact absurd h hout
    · rw [hf r, Option.some.injEq]
      exact ⟨fun h => ⟨hout', h⟩, fun h => h.2⟩

theorem outside_eq_true {r : AddressRange} {n : ℤ} :
    r.outside n = true ↔ r.start < 0 ∨ r.stop < 0 ∨ n ≤ r.start ∨ n ≤ r.stop := decide_eq_true_iff

theorem outside_eq_false {r : AddressRange} {n : ℤ} :
    r.outside n = false ↔ 0 ≤ r.start ∧ 0 ≤ r.stop ∧ r.start < n ∧ r.stop < n := by
  rw [← Bool.not_eq_true, outside_eq_true]
  omega

section Agreement

variable {pre : List Byte} {a : EdAddress}
  (h : parseEdAddress pre ed.current1 ed.numLines ed.marks = some a)
  {f : AddressRange → Call} (hf : ∀ r, ed.rangeOfCall (f r) = some r)

include h hf

theorem agrees_noAddress_iff (hno : NoAddress a) (r : AddressRange) :
    ed.Agrees (ed.parseAddressRange pre) (ed.onRange r f) ↔
      if 0 < ed.numLines ∧ 0 ≤ ed.currentLine then
        ed.currentLine < ed.numLines ∧ r = ⟨ed.currentLine, ed.currentLine⟩
      else r.outside ed.numLines = true := by
  rw [parseAddressRange_eq h, if_pos hno, agrees_onRange_iff hf]
  by_cases hcur : 0 < ed.numLines ∧ 0 ≤ ed.currentLine
  · rw [if_pos hcur, if_pos hcur, if_neg (by rw [AddressRange.mk.injEq]; omega), outside_eq_false]
    constructor
    · rintro ⟨hin, rfl⟩
      exact ⟨hin.2.2.1, rfl⟩
    · rintro ⟨hin, rfl⟩
      exact ⟨⟨hcur.2, hcur.2, hin, hin⟩, rfl⟩
  · rw [if_neg hcur, if_neg hcur, if_pos rfl]

theorem agrees_address_iff (hno : ¬ NoAddress a) (stop : ℤ) :
    ed.Agrees (ed.parseAddressRange pre) (ed.onRange ⟨a.addr1 - 1, stop⟩ f) ↔
      if a.addr1 ≤ ed.numLines ∧ a.addr1 ≤ max a.addr2 1 then
        stop = if 0 < a.addr2 then a.addr2 - 1 else 0
      else stop < 0 ∨ ed.numLines ≤ a.addr1 - 1 ∨ ed.numLines ≤ stop := by
  obtain ⟨h1, h2, h3, h4, h5⟩ := parseEdAddress_inBounds h (Int.natCast_nonneg _)
  have hpos : 0 < a.addr1 := by
    unfold NoAddress at hno
    omega
  rw [parseAddressRange_eq h, if_neg hno, agrees_onRange_iff hf]
  by_cases hacc : a.addr1 ≤ ed.numLines ∧ a.addr1 ≤ max a.addr2 1
  · rw [if_pos hacc, if_pos hacc, if_neg (by rw [AddressRange.mk.injEq]; omega), outside_eq_false,
      AddressRange.mk.injEq]
    dsimp only
    split_ifs <;> omega
  · rw [if_neg hacc, if_neg hacc, if_pos rfl, outside_eq_true]
    dsimp only
    omega

/-- Most commands. -/
theorem agrees_onRangeOrCurrent_iff :
    ed.Agrees (ed.parseAddressRange pre) (ed.onRangeOrCurrent a f) ↔
      (ed.numLines = 0 ∨
        if NoAddress a then ed.currentLine < ed.numLines else a.addr1 ≤ max a.addr2 1) := by
  have hn : 0 ≤ ed.numLines := Int.natCast_nonneg _
  obtain ⟨h1, h2, h3, h4, h5⟩ := parseEdAddress_inBounds h hn
  unfold onRangeOrCurrent rangeOrCurrent
  by_cases hno : NoAddress a
  · rw [if_pos hno, if_pos (show a.addr1 = 0 ∧ a.addr2 = 0 from hno)]
    by_cases hcur : 0 < ed.numLines ∧ 0 ≤ ed.currentLine
    · rw [if_pos hcur]
      dsimp only
      rw [agrees_noAddress_iff h hf hno, if_pos hcur, and_iff_left rfl]
      omega
    · rw [if_neg hcur, parseAddressRange_eq h, if_pos hno, if_neg hcur]
      apply iff_of_true
      · exact ⟨_, rfl⟩
      · omega
  · have hpos : a.addr1 > 0 := by
      unfold NoAddress at hno
      omega
    rw [if_neg hno, if_neg (show ¬ (a.addr1 = 0 ∧ a.addr2 = 0) from hno), if_pos hpos]
    dsimp only
    rw [agrees_address_iff h hf hno]
    split_ifs <;> omega

/-- `W` -/
theorem agrees_rangeOrAll_iff :
    ed.Agrees (ed.parseAddressRange pre) (ed.onRange (ed.rangeOrAll a) f) ↔
      (ed.numLines = 0 ∨
        if NoAddress a then ed.numLines = 1 ∧ ed.currentLine = 0 else a.addr1 ≤ max a.addr2 1) := by
  have hn : 0 ≤ ed.numLines := Int.natCast_nonneg _
  obtain ⟨h1, h2, h3, h4, h5⟩ := parseEdAddress_inBounds h hn
  unfold rangeOrAll
  by_cases hno : NoAddress a
  · rw [if_pos hno, if_pos (show a.addr1 = 0 ∧ a.addr2 = 0 from hno), agrees_noAddress_iff h hf hno,
      AddressRange.mk.injEq, outside_eq_true]
    dsimp only
    split_ifs <;> omega
  · have hpos : a.addr1 > 0 := by
      unfold NoAddress at hno
      omega
    rw [if_neg hno, if_neg (show ¬ (a.addr1 = 0 ∧ a.addr2 = 0) from hno), if_pos hpos,
      agrees_address_iff h hf hno]
    split_ifs <;> omega

/-- `g` -/
theorem agrees_globalRange_iff :
    ed.Agrees (ed.parseAddressRange pre) (ed.onRange (ed.globalRange a) f) ↔
      (ed.numLines = 0 ∨
        if NoAddress a then ed.numLines = 1 ∧ ed.currentLine = 0
        else (0 < a.addr2 ∧ a.addr1 ≤ a.addr2) ∨ (a.addr2 = 0 ∧ a.addr1 = 1 ∧ ed.numLines = 1)) := by
  have hn : 0 ≤ ed.numLines := Int.natCast_nonneg _
  obtain ⟨h1, h2, h3, h4, h5⟩ := parseEdAddress_inBounds h hn
  unfold globalRange
  by_cases hno : NoAddress a
  · rw [if_pos hno, if_pos (show a.addr1 = 0 ∧ a.addr2 = 0 from hno), agrees_noAddress_iff h hf hno,
      AddressRange.mk.injEq, outside_eq_true]
    dsimp only
    split_ifs <;> omega
  · have hpos : a.addr1 > 0 := by
      unfold NoAddress at hno
      omega
    rw [if_neg hno, if_neg (show ¬ (a.addr1 = 0 ∧ a.addr2 = 0) from hno), if_pos hpos,
      agrees_address_iff h hf hno]
    split_ifs <;> omega

omit hf in
/-- `w`, which always works on the whole buffer. -/
theorem agrees_writeFile_iff (filename : Option CString) :
    ed.Agrees (ed.parseAddressRange pre) (.writeFile filename) ↔
      (0 < ed.numLines ∧
        if NoAddress a then ed.numLines = 1 ∧ ed.currentLine = 0
        else a.addr1 = 1 ∧ (a.addr2 = ed.numLines ∨ (a.addr2 = 0 ∧ ed.numLines = 1))) := by
  have hn : 0 ≤ ed.numLines := Int.natCast_nonneg _
  obtain ⟨h1, h2, h3, h4, h5⟩ := parseEdAddress_inBounds h hn
  have hagrees : ed.Agrees (ed.parseAddressRange pre) (.writeFile filename) ↔
      ed.parseAddressRange pre ≠ ⟨-1, -1⟩ ∧ ed.parseAddressRange pre = ⟨0, ed.numLines - 1⟩ := by
    unfold Agrees
    split_ifs with hinv
    · constructor
      · rintro ⟨msg, hmsg⟩
        cases hmsg
      · intro hboth
        exact absurd hinv hboth.1
    · constructor
      · intro heq
        exact ⟨hinv, (Option.some.inj heq).symm⟩
      · intro hboth
        exact congrArg some hboth.2.symm
  rw [hagrees, parseAddressRange_eq h]
  by_cases hno : NoAddress a
  · rw [if_pos hno, if_pos hno]
    split_ifs
    · rw [ne_eq, AddressRange.mk.injEq, AddressRange.mk.injEq]
      omega
    · apply iff_of_false
      · exact fun hboth => hboth.1 rfl
      · omega
  · have hpos : a.addr1 > 0 := by
      unfold NoAddress at hno
      omega
    rw [if_neg hno, if_neg hno]
    split_ifs
    · rw [ne_eq, AddressRange.mk.injEq, AddressRange.mk.injEq]
      omega
    · rw [ne_eq, AddressRange.mk.injEq, AddressRange.mk.injEq]
      omega
    · apply iff_of_false
      · exact fun hboth => hboth.1 rfl
      · omega

end Agreement

/-! ## Dispatch -/

theorem destinationCall_eq {line operand' : List Byte} {dest : ℤ} (hoperand : operand line = some operand')
    (hne : operand' ≠ []) (hdest : ed.parseAddress operand' = .ok dest) (hpos : 0 ≤ dest)
    (a : EdAddress) (f : AddressRange → ℤ → Call) :
    ed.destinationCall a line f = ed.onRangeOrCurrent a fun range => f range dest := by
  have hfilter : (operand line).filter (fun p => decide (p ≠ [])) = some operand' := by
    rw [hoperand]
    simp [Option.filter, hne]
  simp only [destinationCall, hfilter, hdest, not_lt.mpr hpos, if_false]

/-- The call of a command whose prefix is read whole. -/
theorem agrees_dispatch_iff (k : RangeLetter) {pre args : List Byte} {a : EdAddress}
    (h : parseEdAddress pre ed.current1 ed.numLines ed.marks = some a)
    (hok : ed.OperandsOk k (pre ++ k.byte :: args) args) :
    ed.Agrees (ed.parseAddressRange pre)
        (ed.dispatch (pre ++ k.byte :: args) { a with rest := k.byte :: args }) ↔
      ed.SameRange k a := by
  cases k with
  | p => exact agrees_onRangeOrCurrent_iff h (fun _ => rfl)
  | n => exact agrees_onRangeOrCurrent_iff h (fun _ => rfl)
  | l => exact agrees_onRangeOrCurrent_iff h (fun _ => rfl)
  | d => exact agrees_onRangeOrCurrent_iff h (fun _ => rfl)
  | c => exact agrees_onRangeOrCurrent_iff h (fun _ => rfl)
  | j => exact agrees_onRangeOrCurrent_iff h (fun _ => rfl)
  | w => exact agrees_writeFile_iff h _
  | s =>
    obtain ⟨rest, pattern, p, replacement, flags, rfl, hpattern, hreplacement, hflags⟩ := hok
    have hcall (a : EdAddress) : ed.substituteCall a rest = ed.onRangeOrCurrent a fun range =>
        .substituteRange range (.ofBytes pattern) (.ofBytes replacement) (flags ≠ []) := by
      simp only [substituteCall, hpattern, hreplacement, hflags, if_true]
    change ed.Agrees _ (ed.substituteCall _ rest) ↔ _
    rw [hcall]
    exact agrees_onRangeOrCurrent_iff h (fun _ => rfl)
  | m =>
    obtain ⟨operand', dest, hoperand, hne, hdest, hpos⟩ := hok
    change ed.Agrees _ (ed.destinationCall _ _ _) ↔ _
    rw [destinationCall_eq hoperand hne hdest hpos]
    exact agrees_onRangeOrCurrent_iff h (fun _ => rfl)
  | t =>
    obtain ⟨operand', dest, hoperand, hne, hdest, hpos⟩ := hok
    change ed.Agrees _ (ed.destinationCall _ _ _) ↔ _
    rw [destinationCall_eq hoperand hne hdest hpos]
    exact agrees_onRangeOrCurrent_iff h (fun _ => rfl)
  | W =>
    obtain ⟨filename, hname⟩ := Option.ne_none_iff_exists'.mp hok
    have hcall (a : EdAddress) : ed.writeAppendCall a (pre ++ RangeLetter.W.byte :: args) =
        ed.onRange (ed.rangeOrAll a) fun range => .writeAppendFile range filename := by
      simp only [writeAppendCall, hname]
    change ed.Agrees _ (ed.writeAppendCall _ _) ↔ _
    rw [hcall]
    exact agrees_rangeOrAll_iff h (fun _ => rfl)
  | g =>
    obtain ⟨rest, pat, p, rfl, hpat, hne⟩ := hok
    have hcall (a : EdAddress) : ed.globalCall true a rest = ed.onRange (ed.globalRange a) fun range =>
        .global true range (.ofBytes pat) (.ofBytes (p.dropWhile fun b : Byte => b = ' ')) := by
      simp only [globalCall, hpat, hne, if_false]
    change ed.Agrees _ (ed.globalCall true _ rest) ↔ _
    rw [hcall]
    exact agrees_globalRange_iff h (fun _ => rfl)

theorem agrees_setError_iff {range : AddressRange} {c : Call} (h : ∃ msg, c = .setError msg) :
    ed.Agrees range c ↔ range = ⟨-1, -1⟩ := by
  obtain ⟨msg, rfl⟩ := h
  unfold Agrees
  split_ifs with hinv
  · exact iff_of_true ⟨msg, rfl⟩ hinv
  · apply iff_of_false
    · intro hsome
      cases hsome
    · exact hinv

theorem parseAddressRange_invalid_iff {pre : List Byte} {a : EdAddress}
    (h : parseEdAddress pre ed.current1 ed.numLines ed.marks = some a) :
    ed.parseAddressRange pre = ⟨-1, -1⟩ ↔ ¬ ed.AcceptedRange a := by
  obtain ⟨h1, h2, h3, h4, h5⟩ := parseEdAddress_inBounds h (Int.natCast_nonneg _)
  rw [parseAddressRange_eq h]
  unfold AcceptedRange
  by_cases hno : NoAddress a
  · rw [if_pos hno, if_pos hno]
    split_ifs with hcur
    · rw [AddressRange.mk.injEq]
      omega
    · exact iff_of_true rfl hcur
  · have hpos : 0 < a.addr1 := by
      unfold NoAddress at hno
      omega
    rw [if_neg hno, if_neg hno]
    split_ifs with hacc hpos2
    · rw [AddressRange.mk.injEq]
      omega
    · rw [AddressRange.mk.injEq]
      omega
    · exact iff_of_true rfl hacc

/-- A buffer of three lines. -/
def threeLines : Editor where
  lines := [⟨.lit "a", 0⟩, ⟨.lit "b", 1⟩, ⟨.lit "c", 2⟩]
  currentLine := 2

end Editor

end ValidcTools.Ed
