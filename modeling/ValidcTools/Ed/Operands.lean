import ValidcTools.Ed.Ranges

/-! Where the operand of a command is looked for. -/
namespace ValidcTools.Ed

/-! ## The first space of a line -/

theorem length_dropWhile_le {p : Byte → Bool} (l : List Byte) : (l.dropWhile p).length ≤ l.length :=
  (List.dropWhile_suffix p).length_le

theorem operand_append {u v : List Byte} (hu : ((' ' : Char) : Byte) ∉ u) :
    operand (u ++ ((' ' : Char) : Byte) :: v) = some (v.dropWhile fun b : Byte => b = ' ') := by
  have hdrop : (u ++ ((' ' : Char) : Byte) :: v).dropWhile (fun b : Byte => b ≠ ' ') =
      ((' ' : Char) : Byte) :: v := by
    rw [List.dropWhile_append_of_pos fun b hb => by simpa using ne_of_mem_of_not_mem hb hu]
    simp
  unfold operand
  rw [hdrop]

theorem operand_eq_none {l : List Byte} (h : ((' ' : Char) : Byte) ∉ l) : operand l = none := by
  have hdrop : l.dropWhile (fun b : Byte => b ≠ ' ') = [] := by
    rw [List.dropWhile_eq_nil_iff]
    intro b hb
    simpa using ne_of_mem_of_not_mem hb h
  unfold operand
  rw [hdrop]

theorem exists_first_space {l : List Byte} (h : ((' ' : Char) : Byte) ∈ l) :
    ∃ u v, l = u ++ ((' ' : Char) : Byte) :: v ∧ ((' ' : Char) : Byte) ∉ u :=
  List.eq_append_cons_of_mem h

/-- Dropping stops at a byte that is kept. -/
theorem length_le_dropWhile_append {p : Byte → Bool} {c : Byte} (hc : p c = false) (v w : List Byte) :
    (c :: w).length ≤ ((v ++ c :: w).dropWhile p).length := by
  rw [List.dropWhile_append]
  split_ifs
  · simp [hc]
  · rw [List.length_append]
    omega

theorem dropWhile_append_of_head {p : Byte → Bool} {v w : List Byte}
    (hw : ∀ c, w.head? = some c → p c = false) :
    (v ++ w).dropWhile p = v.dropWhile p ++ w := by
  rw [List.dropWhile_append]
  split_ifs with h
  · have hnil : v.dropWhile p = [] := by simpa using h
    rw [hnil, List.nil_append]
    cases w with
    | nil => rfl
    | cons c w => simp [hw c rfl]
  · rfl

/-- The commands with an operand, by their letters. -/
inductive OperandLetter
  | m | t | r | w | W | e | E | f
deriving DecidableEq

def OperandLetter.byte : OperandLetter → Byte
  | m => ('m' : Char)
  | t => ('t' : Char)
  | r => ('r' : Char)
  | w => ('w' : Char)
  | W => ('W' : Char)
  | e => ('e' : Char)
  | E => ('E' : Char)
  | f => ('f' : Char)

theorem OperandLetter.isLetter_byte (k : OperandLetter) : isLetter k.byte = true := by
  cases k <;> decide

/-- A command line: an address prefix, the letter, blanks, and the operand. -/
structure OperandLine where
  pre : List Byte
  letter : OperandLetter
  blanks : List Byte
  operand : List Byte
  blanks_ne_nil : blanks ≠ []
  isBlank_blanks : ∀ b ∈ blanks, isBlank b = true
  operand_ne_nil : operand ≠ []
  operand_head : ∀ b, operand.head? = some b → isBlank b = false

namespace OperandLine

variable (l : OperandLine)

def text : List Byte := l.pre ++ l.letter.byte :: (l.blanks ++ l.operand)

theorem letter_ne_space : l.letter.byte ≠ ((' ' : Char) : Byte) :=
  ne_of_isLetter l.letter.isLetter_byte (by decide)

/-- With a space in the prefix, too much is taken. -/
theorem operand_of_space_pre (h : ((' ' : Char) : Byte) ∈ l.pre) :
    ∃ x, Ed.operand l.text = some x ∧ l.operand.length < (skipBlanks x).length := by
  obtain ⟨u, v, hpre, hu⟩ := exists_first_space h
  refine ⟨(v ++ l.letter.byte :: (l.blanks ++ l.operand)).dropWhile fun b : Byte => b = ' ', ?_, ?_⟩
  · unfold text
    rw [hpre, List.append_assoc, List.cons_append]
    exact operand_append hu
  · have hsplit : (v ++ l.letter.byte :: (l.blanks ++ l.operand)).dropWhile (fun b : Byte => b = ' ') =
        v.dropWhile (fun b : Byte => b = ' ') ++ l.letter.byte :: (l.blanks ++ l.operand) := by
      apply dropWhile_append_of_head
      intro c hc
      obtain rfl := Option.some.inj hc
      simpa using l.letter_ne_space
    rw [hsplit]
    have hle := length_le_dropWhile_append (isBlank_of_isLetter l.letter.isLetter_byte)
      (v.dropWhile fun b : Byte => b = ' ') (l.blanks ++ l.operand)
    rw [List.length_cons, List.length_append] at hle
    exact lt_of_lt_of_le (by omega) hle

/-- Without a space before the operand, too little is taken, or nothing. -/
theorem operand_of_no_space (hpre : ((' ' : Char) : Byte) ∉ l.pre)
    (hblanks : ((' ' : Char) : Byte) ∉ l.blanks) :
    ∀ x, Ed.operand l.text = some x → x.length < l.operand.length := by
  have hfront : ((' ' : Char) : Byte) ∉ l.pre ++ l.letter.byte :: l.blanks := by
    rw [List.mem_append, List.mem_cons, not_or, not_or]
    exact ⟨hpre, l.letter_ne_space.symm, hblanks⟩
  have htext : l.text = (l.pre ++ l.letter.byte :: l.blanks) ++ l.operand := by
    simp [text]
  intro x hx
  rw [htext] at hx
  by_cases hop : ((' ' : Char) : Byte) ∈ l.operand
  · obtain ⟨u, v, hsplit, hu⟩ := exists_first_space hop
    rw [hsplit, ← List.append_assoc, operand_append (List.not_mem_append hfront hu)] at hx
    rw [← Option.some.inj hx, hsplit, List.length_append, List.length_cons]
    have hle := length_dropWhile_le (p := fun b : Byte => b = ' ') v
    omega
  · rw [operand_eq_none (List.not_mem_append hfront hop)] at hx
    cases hx

/-- Otherwise the operand is taken, after what is left of the blanks. -/
theorem operand_of_space_blanks (hpre : ((' ' : Char) : Byte) ∉ l.pre)
    (hblanks : ((' ' : Char) : Byte) ∈ l.blanks) :
    ∃ v, (l.blanks.dropWhile fun b : Byte => b ≠ ' ') = ((' ' : Char) : Byte) :: v ∧
      Ed.operand l.text = some ((v.dropWhile fun b : Byte => b = ' ') ++ l.operand) := by
  obtain ⟨u, v, hsplit, hu⟩ := exists_first_space hblanks
  refine ⟨v, ?_, ?_⟩
  · rw [hsplit, List.dropWhile_append_of_pos fun b hb => by simpa using ne_of_mem_of_not_mem hb hu]
    simp
  · have htext : l.text = (l.pre ++ l.letter.byte :: u) ++ ((' ' : Char) : Byte) :: (v ++ l.operand) := by
      simp [text, hsplit]
    have hfront : ((' ' : Char) : Byte) ∉ l.pre ++ l.letter.byte :: u := by
      rw [List.mem_append, List.mem_cons, not_or, not_or]
      exact ⟨hpre, l.letter_ne_space.symm, hu⟩
    rw [htext, operand_append hfront, dropWhile_append_of_head]
    intro c hc
    have hblank := l.operand_head c hc
    apply decide_eq_false
    rintro rfl
    cases hblank

/-- No tab stands after the first space. -/
def PlainBlanks : Prop :=
  ((' ' : Char) : Byte) ∈ l.blanks ∧
    ((('\t' : Char) : Byte)) ∉ l.blanks.dropWhile fun b : Byte => b ≠ ' '

theorem dropWhile_spaces_eq_nil_iff {v : List Byte}
    (hv : (l.blanks.dropWhile fun b : Byte => b ≠ ' ') = ((' ' : Char) : Byte) :: v) :
    (v.dropWhile fun b : Byte => b = ' ') = [] ↔
      ((('\t' : Char) : Byte)) ∉ l.blanks.dropWhile fun b : Byte => b ≠ ' ' := by
  rw [hv, List.dropWhile_eq_nil_iff, List.mem_cons, not_or]
  constructor
  · intro h
    refine ⟨by decide, fun htab => ?_⟩
    exact absurd (h _ htab) (by decide)
  · rintro ⟨-, htab⟩ b hb
    have hmem : b ∈ l.blanks := by
      apply (List.dropWhile_suffix fun b : Byte => b ≠ ' ').subset
      rw [hv]
      exact List.mem_cons_of_mem _ hb
    have hblank : b = ' ' ∨ b = '\t' := of_decide_eq_true (l.isBlank_blanks b hmem)
    rcases hblank with rfl | rfl
    · rfl
    · exact absurd hb htab

/-- The operand is taken as it is exactly when the first space of the line is the last blank before it
but for other spaces. -/
theorem operand_eq_iff :
    Ed.operand l.text = some l.operand ↔ ((' ' : Char) : Byte) ∉ l.pre ∧ l.PlainBlanks := by
  by_cases hpre : ((' ' : Char) : Byte) ∈ l.pre
  · apply iff_of_false
    · intro h
      obtain ⟨x, hx, hlen⟩ := l.operand_of_space_pre hpre
      rw [h] at hx
      obtain rfl := Option.some.inj hx
      exact absurd hlen (not_lt.mpr (length_dropWhile_le _))
    · exact fun h => h.1 hpre
  · by_cases hblanks : ((' ' : Char) : Byte) ∈ l.blanks
    · obtain ⟨v, hv, hoperand⟩ := l.operand_of_space_blanks hpre hblanks
      rw [hoperand, Option.some.injEq, List.append_left_eq_self, l.dropWhile_spaces_eq_nil_iff hv]
      exact ⟨fun h => ⟨hpre, hblanks, h⟩, fun h => h.2.2⟩
    · apply iff_of_false
      · intro h
        exact absurd (l.operand_of_no_space hpre hblanks _ h) (lt_irrefl _)
      · exact fun h => hblanks h.2.1

/-- After more blanks are skipped, the operand is what is left exactly when the first space of the line
is among the blanks before it. -/
theorem skipBlanks_operand_eq_iff :
    (Ed.operand l.text).map skipBlanks = some l.operand ↔
      ((' ' : Char) : Byte) ∉ l.pre ∧ ((' ' : Char) : Byte) ∈ l.blanks := by
  by_cases hpre : ((' ' : Char) : Byte) ∈ l.pre
  · apply iff_of_false
    · intro h
      obtain ⟨x, hx, hlen⟩ := l.operand_of_space_pre hpre
      rw [hx, Option.map_some, Option.some.injEq] at h
      rw [h] at hlen
      exact absurd hlen (lt_irrefl _)
    · exact fun h => h.1 hpre
  · by_cases hblanks : ((' ' : Char) : Byte) ∈ l.blanks
    · apply iff_of_true
      · obtain ⟨v, hv, hoperand⟩ := l.operand_of_space_blanks hpre hblanks
        have hall : ∀ b ∈ v.dropWhile fun b : Byte => b = ' ', isBlank b = true := by
          intro b hb
          apply l.isBlank_blanks
          apply (List.dropWhile_suffix fun b : Byte => b ≠ ' ').subset
          rw [hv]
          exact List.mem_cons_of_mem _ ((List.dropWhile_suffix _).subset hb)
        rw [hoperand, Option.map_some]
        unfold skipBlanks
        rw [dropWhile_append_of_head l.operand_head, List.dropWhile_eq_nil_iff.mpr hall,
          List.nil_append]
      · exact ⟨hpre, hblanks⟩
    · apply iff_of_false
      · intro h
        obtain ⟨x, hx, hskip⟩ := Option.map_eq_some_iff.mp h
        have hlen := l.operand_of_no_space hpre hblanks x hx
        rw [← hskip] at hlen
        exact absurd hlen (not_lt.mpr (length_dropWhile_le _))
      · exact fun h => hblanks h.2

end OperandLine

/-! ## File names -/

theorem operand_subset {line x : List Byte} (h : operand line = some x) : x ⊆ line := by
  unfold operand at h
  cases hd : line.dropWhile fun b : Byte => b ≠ ' ' with
  | nil =>
    rw [hd] at h
    cases h
  | cons c v =>
    rw [hd] at h
    obtain rfl := Option.some.inj h
    have hv : v ⊆ line := by
      have hsub : (line.dropWhile fun b : Byte => b ≠ ' ') ⊆ line := (List.dropWhile_suffix _).subset
      rw [hd] at hsub
      exact fun b hb => hsub (List.mem_cons_of_mem c hb)
    exact fun b hb => hv ((List.dropWhile_suffix _).subset hb)

theorem operandName_eq_some_iff {line x : List Byte} (hline : (0 : Byte) ∉ line)
    (hx : (0 : Byte) ∉ x) (hne : x ≠ []) :
    operandName line = some (.ofBytes x) ↔ operand line = some x := by
  unfold operandName
  constructor
  · intro h
    obtain ⟨y, hfilter, heq⟩ := Option.map_eq_some_iff.mp h
    obtain ⟨hy, -⟩ := Option.filter_eq_some_iff.mp hfilter
    have hbytes := congrArg CString.bytes heq
    rw [CString.ofBytes_bytes_of_nulFree hx,
      CString.ofBytes_bytes_of_nulFree fun h0 => hline (operand_subset hy h0)] at hbytes
    rw [hy, hbytes]
  · intro h
    rw [h]
    simp [Option.filter, hne]

/-- The file name that a command is given. -/
def nameOf : OperandLetter → Call → Option CString
  | .r, .readFileAtAddress _ f => some f
  | .w, .writeFile f => f
  | .W, .writeAppendFile _ f => some f
  | .e, .editFile f => f
  | .E, .forcedEditFile f => f
  | .f, .file f => f
  | _, _ => none

/-- The destination of an `m` or `t`. -/
def destOf : Call → Option ℤ
  | .moveRange _ dest => some dest
  | .copyRange _ dest => some dest
  | _ => none

namespace Editor

variable (ed : Editor)

/-- What `parse_address` leaves over. -/
def addressRest (addr : List Byte) : List Byte :=
  match skipBlanks addr with
  | [] => []
  | delim :: p =>
    if delim = '/' ∨ delim = '?' then
      let pattern := p.takeWhile (· ≠ delim)
      let p' := p.drop (pattern.length + 1)
      match ed.searchPattern pattern (delim = '/') with
      | .error _ => p'
      | .ok found => (parseOneAddress p' found ed.numLines fun _ => -1).2
    else (parseOneAddress (delim :: p) ed.current1 ed.numLines ed.marks).2

/-- The line that a whole string denotes for `parse_address`; blanks may follow the address. -/
def denotes (addr : List Byte) : Option ℤ :=
  match ed.parseAddress addr with
  | .error _ => none
  | .ok dest => if 0 ≤ dest ∧ skipBlanks (ed.addressRest addr) = [] then some dest else none

/-- The range of the command is in the buffer. -/
def RangeOk (k : OperandLetter) (a : EdAddress) : Prop :=
  match k with
  | .m | .t => ∃ range, ed.rangeOrCurrent a = some range ∧ range.outside ed.numLines = false
  | .W => (ed.rangeOrAll a).outside ed.numLines = false
  | _ => True

/-- The command is given its operand: the destination that the whole operand denotes, or the operand as
a file name. -/
def OperandRead (cmd : CString) (l : OperandLine) : Prop :=
  match l.letter with
  | .m | .t =>
    (operand l.text).map skipBlanks = some l.operand ∧ destOf (ed.decode cmd) = ed.denotes l.operand
  | k => nameOf k (ed.decode cmd) = some (.ofBytes l.operand)

/-- When the command is given its operand: the first space of the line is among the blanks before the
operand; for a file name no tab follows it; for a destination nothing is left over. -/
def OperandCondition (l : OperandLine) : Prop :=
  ((' ' : Char) : Byte) ∉ l.pre ∧
    match l.letter with
    | .m | .t =>
      ((' ' : Char) : Byte) ∈ l.blanks ∧
        if isRelative (lastAddress l.pre) then ed.denotes l.operand = none
        else ∀ dest, ed.parseAddress l.operand = .ok dest → 0 ≤ dest →
          skipBlanks (ed.addressRest l.operand) = []
    | _ => l.PlainBlanks ∧ isRelative (lastAddress l.pre) = false

variable {ed}

theorem parseAddress_skipBlanks (addr : List Byte) :
    ed.parseAddress (skipBlanks addr) = ed.parseAddress addr := by
  unfold parseAddress
  rw [skipBlanks_skipBlanks]

/-- The commands that take a file name take the operand of the line for it. -/
theorem nameOf_dispatch {k : OperandLetter} (hm : k ≠ .m) (ht : k ≠ .t) (line args : List Byte)
    {a : EdAddress} (hrange : ed.RangeOk k a) :
    nameOf k (ed.dispatch line { a with rest := k.byte :: args }) = operandName line := by
  cases k with
  | m => exact absurd rfl hm
  | t => exact absurd rfl ht
  | w => rfl
  | f => rfl
  | r =>
    change nameOf .r (ed.readCall _ line) = _
    unfold readCall
    cases operandName line <;> rfl
  | W =>
    change nameOf .W (ed.writeAppendCall { a with rest := _ } line) = _
    have hrange' : (ed.rangeOrAll { a with rest := OperandLetter.W.byte :: args }).outside
        ed.numLines = false := hrange
    unfold writeAppendCall onRange
    rw [hrange']
    cases operandName line <;> rfl
  | e =>
    change nameOf .e (ed.editCall line .editFile) = _
    unfold editCall
    cases operandName line with
    | some name => rfl
    | none => dsimp only; split_ifs <;> rfl
  | E =>
    change nameOf .E (ed.editCall line .forcedEditFile) = _
    unfold editCall
    cases operandName line with
    | some name => rfl
    | none => dsimp only; split_ifs <;> rfl

/-- The destination of `m` and `t`, from the operand of the line. -/
theorem destOf_destinationCall {a : EdAddress} {line : List Byte} {f : AddressRange → ℤ → Call}
    (hf : ∀ r d, destOf (f r d) = some d) {range : AddressRange}
    (hrange : ed.rangeOrCurrent a = some range) (hout : range.outside ed.numLines = false)
    {x : List Byte} (hx : operand line = some x) (hne : x ≠ []) :
    destOf (ed.destinationCall a line f) =
      match ed.parseAddress x with
      | .error _ => none
      | .ok dest => if 0 ≤ dest then some dest else none := by
  have hfilter : (operand line).filter (fun p => decide (p ≠ [])) = some x := by
    rw [hx]
    simp [Option.filter, hne]
  unfold destinationCall onRangeOrCurrent onRange
  rw [hfilter]
  simp only [hrange, hout, Bool.false_eq_true, if_false]
  cases ed.parseAddress x with
  | error e => rfl
  | ok dest =>
    dsimp only
    by_cases hdest : 0 ≤ dest
    · rw [if_pos hdest, if_neg (not_lt.mpr hdest), hf]
    · rw [if_neg hdest, if_pos (not_le.mp hdest)]
      rfl

theorem destOf_dispatch {k : OperandLetter} (hk : k = .m ∨ k = .t) {line args x : List Byte}
    {a : EdAddress} (hrange : ed.RangeOk k a) (hx : operand line = some x) (hne : x ≠ []) :
    destOf (ed.dispatch line { a with rest := k.byte :: args }) =
      match ed.parseAddress x with
      | .error _ => none
      | .ok dest => if 0 ≤ dest then some dest else none := by
  rcases hk with rfl | rfl
  · obtain ⟨range, hr, hout⟩ := hrange
    exact destOf_destinationCall (f := .moveRange) (fun _ _ => rfl) hr hout hx hne
  · obtain ⟨range, hr, hout⟩ := hrange
    exact destOf_destinationCall (f := .copyRange) (fun _ _ => rfl) hr hout hx hne

section Line

variable {cmd : CString} {l : OperandLine} {a : EdAddress} (hcmd : commandBuffer cmd = l.text)
  (h : parseEdAddress l.pre ed.current1 ed.numLines ed.marks = some a) (hrest : a.rest = [])
  (hrange : ed.RangeOk l.letter a)

include hcmd h hrest

theorem decode_cases :
    (isRelative (lastAddress l.pre) = false ∧
        ed.decode cmd =
          ed.dispatch l.text { a with rest := l.letter.byte :: (l.blanks ++ l.operand) }) ∨
      (isRelative (lastAddress l.pre) = true ∧ ∃ msg, ed.decode cmd = .setError msg) := by
  unfold decode
  rw [hcmd]
  exact decodeBuffer_prefix l.letter.isLetter_byte (l.blanks ++ l.operand) h hrest

include hrange

theorem fileName_iff (hm : l.letter ≠ .m) (ht : l.letter ≠ .t) :
    nameOf l.letter (ed.decode cmd) = some (.ofBytes l.operand) ↔
      ((' ' : Char) : Byte) ∉ l.pre ∧ l.PlainBlanks ∧ isRelative (lastAddress l.pre) = false := by
  have hline : (0 : Byte) ∉ l.text := by
    rw [← hcmd]
    intro h0
    exact cmd.nulFree ((List.take_prefix _ _).subset ((List.takeWhile_prefix _).subset h0))
  have hoperand : (0 : Byte) ∉ l.operand := fun h0 => hline (by simp [OperandLine.text, h0])
  rcases decode_cases hcmd h hrest with ⟨hrel, hcall⟩ | ⟨hrel, msg, hcall⟩
  · rw [hcall, nameOf_dispatch hm ht _ _ hrange,
      operandName_eq_some_iff hline hoperand l.operand_ne_nil, l.operand_eq_iff]
    exact ⟨fun hop => ⟨hop.1, hop.2, hrel⟩, fun hop => ⟨hop.1, hop.2.1⟩⟩
  · apply iff_of_false
    · have hnone : nameOf l.letter (.setError msg) = none := by cases l.letter <;> rfl
      rw [hcall, hnone]
      simp
    · intro hop
      rw [hop.2.2] at hrel
      cases hrel

theorem destination_iff (hk : l.letter = .m ∨ l.letter = .t) :
    ((operand l.text).map skipBlanks = some l.operand ∧ destOf (ed.decode cmd) = ed.denotes l.operand) ↔
      ((' ' : Char) : Byte) ∉ l.pre ∧ ((' ' : Char) : Byte) ∈ l.blanks ∧
        if isRelative (lastAddress l.pre) then ed.denotes l.operand = none
        else ∀ dest, ed.parseAddress l.operand = .ok dest → 0 ≤ dest →
          skipBlanks (ed.addressRest l.operand) = [] := by
  rw [l.skipBlanks_operand_eq_iff, and_assoc]
  refine and_congr_right fun hpre => and_congr_right fun hblanks => ?_
  rcases decode_cases hcmd h hrest with ⟨hrel, hcall⟩ | ⟨hrel, msg, hcall⟩
  · obtain ⟨x, hx, hskip⟩ := Option.map_eq_some_iff.mp (l.skipBlanks_operand_eq_iff.mpr ⟨hpre, hblanks⟩)
    have hne : x ≠ [] := by
      rintro rfl
      exact l.operand_ne_nil hskip.symm
    rw [hcall, destOf_dispatch hk hrange hx hne, hrel, if_neg Bool.false_ne_true,
      ← parseAddress_skipBlanks x, hskip]
    unfold denotes
    cases ed.parseAddress l.operand with
    | error e => simp
    | ok dest =>
      dsimp only
      by_cases hdest : 0 ≤ dest
      · by_cases hleft : skipBlanks (ed.addressRest l.operand) = []
        · simp [hdest, hleft]
        · simp [hdest, hleft]
      · simp [hdest]
  · have hnone : destOf (ed.decode cmd) = none := by
      rw [hcall]
      rfl
    rw [hnone, hrel, if_pos rfl]
    exact eq_comm

/-- A command is given its operand exactly under `OperandCondition`. -/
theorem operandRead_iff : ed.OperandRead cmd l ↔ ed.OperandCondition l := by
  unfold OperandRead OperandCondition
  by_cases hk : l.letter = .m ∨ l.letter = .t
  · have hiff := destination_iff hcmd h hrest hrange hk
    rcases hk with hk | hk
    · rw [hk]
      exact hiff
    · rw [hk]
      exact hiff
  · rw [not_or] at hk
    have hiff := fileName_iff hcmd h hrest hrange hk.1 hk.2
    revert hiff hk
    cases l.letter <;> simp

end Line

set_option maxRecDepth 8192 in
/-- `1m 3` -/
def moveLine : OperandLine where
  pre := asciiBytes "1"
  letter := .m
  blanks := asciiBytes " "
  operand := asciiBytes "3"
  blanks_ne_nil := by decide
  isBlank_blanks := by decide
  operand_ne_nil := by decide
  operand_head := by decide

theorem operandRead_iff_move : threeLines.OperandRead (.lit "1m 3") moveLine ↔
    threeLines.OperandCondition moveLine :=
  operandRead_iff (a := { addr1 := 1, addr2 := 1, rest := [] }) (by decide)
    (by decide) rfl ⟨⟨0, 0⟩, by decide, by decide⟩

/-- `1, 2m 3` -/
def spacedMoveLine : OperandLine := { moveLine with pre := asciiBytes "1, 2" }

/-- In `1, 2m 3` the destination is looked for after the comma. -/
theorem not_operandRead : ¬ threeLines.OperandRead (.lit "1, 2m 3") spacedMoveLine := by
  intro h
  have hdest : destOf (threeLines.decode (.lit "1, 2m 3")) = some 1 := by decide
  have hdenotes : threeLines.denotes spacedMoveLine.operand = some 2 := by decide
  rw [OperandRead.eq_1] at h
  exact absurd (hdest.symm.trans (h.2.trans hdenotes)) (by decide)

end Editor

end ValidcTools.Ed
