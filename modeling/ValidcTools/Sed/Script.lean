import ValidcTools.CString

/-! The script of `sed`: its commands, and how `parse_script` reads them. -/
namespace ValidcTools.Sed

def MAX_CMDS : ℕ := 512

/-- `ADDR_LINE`, `ADDR_LAST` and `ADDR_REGEX`. No line number overflows its `long`. -/
inductive Address
  | line (line : ℕ)
  | last
  | regex (regex : List Byte)
deriving DecidableEq

/-- `CmdType`, each with the operands of its command -/
inductive Action
  | p | d | q | n | eq
  | s (pat repl : List Byte) (occurrence : ℤ) (print : Bool) (wfile : Option (List Byte))
  | y (src dst : List Byte)
  | w (file : List Byte)
  | r (file : List Byte)
  | a (text : List Byte)
  | i (text : List Byte)
  | c (text : List Byte)
  | ncap | dcap | pcap | h | happ | g | gapp | x | l
deriving DecidableEq

structure SedCmd where
  a1 : Option Address
  a2 : Option Address
  inRange : Bool
  action : Action
deriving DecidableEq

/-! ## The parser: each part with what follows it -/

def isBlank (b : Byte) : Bool := decide (b = ' ' ∨ b = '\t')

/-- `ps_skip_ws` -/
def skipWs (p : List Byte) : List Byte := p.dropWhile isBlank

/-- Adds bytes in front of those that were read. -/
def prepend {α : Type} (l : List Byte) (r : List Byte × α) : List Byte × α := (l ++ r.1, r.2)

def parseDelimited (delim : Byte) (allowEsc : Bool) : List Byte → List Byte × List Byte
  | [] => ([], [])
  | [c] => if c = delim then ([], []) else ([c], [])
  | c :: next :: p =>
    if allowEsc = true ∧ c = '\\' then prepend [next] (parseDelimited delim allowEsc p)
    else if c = delim then ([], next :: p)
    else prepend [c] (parseDelimited delim allowEsc (next :: p))

def parseAddress (p : List Byte) : Option (Address × List Byte) :=
  match skipWs p with
  | [] => none
  | c :: p =>
    if c = '$' then some (.last, p)
    else if isDigit c then some (.line (decimal ((c :: p).takeWhile isDigit)), (c :: p).dropWhile isDigit)
    else if c = '/' then some (.regex (parseDelimited '/' true p).1, (parseDelimited '/' true p).2)
    else none

/-- The lines of a text, after those in `acc`: up to a newline that follows no backslash. -/
def textLines (acc : List Byte) : List Byte → List Byte × List Byte
  | [] => (acc, [])
  | c :: p =>
    if c = '\n' then
      if acc.getLast? = some ('\\' : Byte) then textLines (acc.dropLast ++ [( '\n' : Byte)]) p else (acc, p)
    else textLines (acc ++ [c]) p

def parseTextBlock (p : List Byte) : List Byte × List Byte :=
  match p with
  | 0x5C :: 0x0A :: p => textLines [] p
  | 0x0A :: p => textLines [] p
  | p => textLines [] p

/-- A file name, up to the end of the line or a ';' -/
def parseFile (p : List Byte) : List Byte × List Byte :=
  let isName (c : Byte) := decide (c ≠ '\n' ∧ c ≠ ';')
  (((skipWs p).takeWhile isName).rdropWhile isSpace, (skipWs p).dropWhile isName)

structure Flags where
  occurrence : ℤ := 0
  print : Bool := false
  wfile : Option (List Byte) := none

theorem length_dropWhile_lt {P : Byte → Bool} {c : Byte} {p : List Byte} (h : P c = true) :
    ((c :: p).dropWhile P).length < (c :: p).length := by
  rw [List.dropWhile_cons, if_pos h]
  exact Nat.lt_succ_of_le (List.dropWhile_suffix P).length_le

theorem length_parseFile_le (p : List Byte) : (parseFile p).2.length ≤ p.length :=
  ((List.dropWhile_suffix _).trans (List.dropWhile_suffix _)).length_le

/-- The loop over the flags of `s` -/
def parseFlags (f : Flags) (p : List Byte) : Flags × List Byte :=
  match p with
  | [] => (f, [])
  | c :: p =>
    if c = 'g' then parseFlags { f with occurrence := -1 } p
    else if c = 'p' then parseFlags { f with print := true } p
    else if _hc : isDigit c then
      parseFlags { f with occurrence := decimal ((c :: p).takeWhile isDigit) } ((c :: p).dropWhile isDigit)
    else if c = 'w' then parseFlags { f with wfile := some (parseFile p).1 } (parseFile p).2
    else (f, c :: p)
termination_by p.length
decreasing_by
  · exact Nat.lt_succ_self _
  · exact Nat.lt_succ_self _
  · exact length_dropWhile_lt _hc
  · exact Nat.lt_succ_of_le (length_parseFile_le p)

/-- The two operands of `s` and `y`, with the delimiter in front -/
def parseOperands : List Byte → Option (List Byte × List Byte × List Byte)
  | [] => none
  | delim :: p =>
    if delim = '\n' then none
    else
      let first := parseDelimited delim true p
      let second := parseDelimited delim true first.2
      some (first.1, second.1, second.2)

/-- The commands that are a letter only -/
def letters : List (Byte × Action) :=
  [('p', .p), ('d', .d), ('q', .q), ('n', .n), ('=', .eq), ('h', .h), ('H', .happ), ('g', .g), ('G', .gapp),
    ('x', .x), ('N', .ncap), ('D', .dcap), ('P', .pcap), ('l', .l)]

/-- The `switch` over the command's letter -/
def parseAction (c : Byte) (p : List Byte) : Option (Action × List Byte) :=
  if (letters.lookup c).isSome then (letters.lookup c).map (·, p)
  else if c = 'w' then some (.w (parseFile p).1, (parseFile p).2)
  else if c = 'r' then some (.r (parseFile p).1, (parseFile p).2)
  else if c = 'a' then some (.a (parseTextBlock p).1, (parseTextBlock p).2)
  else if c = 'i' then some (.i (parseTextBlock p).1, (parseTextBlock p).2)
  else if c = 'c' then some (.c (parseTextBlock p).1, (parseTextBlock p).2)
  else if c = 'y' then
    (parseOperands p).bind fun o => if o.1.length = o.2.1.length then some (.y o.1 o.2.1, o.2.2) else none
  else if c = 's' then
    (parseOperands p).map fun o =>
      let f := parseFlags {} (skipWs o.2.2)
      (.s o.1 o.2.1 f.1.occurrence f.1.print f.1.wfile, f.2)
  else none

/-- The addresses in front of a command -/
def parseAddresses (p : List Byte) : Option ((Option Address × Option Address) × List Byte) :=
  match parseAddress p with
  | none => some ((none, none), p)
  | some (a1, q) =>
    match skipWs q with
    | 0x2C :: q => (parseAddress (skipWs q)).map fun r => ((some a1, some r.1), r.2)
    | q => some ((some a1, none), q)

/-- Blanks, and one ';' -/
def skipSeparator (p : List Byte) : List Byte :=
  match skipWs p with
  | 0x3B :: p => p
  | p => p

def parseOneCommand (p : List Byte) : Option (SedCmd × List Byte) :=
  (parseAddresses (skipWs p)).bind fun a =>
    match skipWs a.2 with
    | [] => none
    | c :: p => (parseAction c p).map fun r => (⟨a.1.1, a.1.2, false, r.1⟩, skipSeparator r.2)

/-- Moves to the next line. -/
def nextLine (p : List Byte) : List Byte := (p.dropWhile fun c : Byte => decide (c ≠ '\n')).tail

/-! ## What is left is an end of what there was -/

theorem parseDelimited_suffix (delim : Byte) (allowEsc : Bool) (p : List Byte) :
    (parseDelimited delim allowEsc p).2 <:+ p := by
  fun_induction parseDelimited delim allowEsc p with
  | case1 => exact List.suffix_rfl
  | case2 => exact List.nil_suffix
  | case3 => exact List.nil_suffix
  | case4 c next p _ ih => exact (ih.trans (List.suffix_cons next p)).trans (List.suffix_cons c _)
  | case5 c next p => exact List.suffix_cons _ _
  | case6 c next p _ _ ih => exact ih.trans (List.suffix_cons c _)

theorem parseAddress_suffix {p q : List Byte} {a : Address} (h : parseAddress p = some (a, q)) : q <:+ p := by
  unfold parseAddress at h
  have hp : skipWs p <:+ p := List.dropWhile_suffix _
  cases hs : skipWs p with
  | nil => simp [hs] at h
  | cons c r =>
    rw [hs] at hp h
    have hr := (List.suffix_cons c r).trans hp
    dsimp only at h
    split_ifs at h with h1 h2 h3
    · obtain ⟨-, rfl⟩ := Prod.mk.inj (Option.some.inj h)
      exact hr
    · obtain ⟨-, rfl⟩ := Prod.mk.inj (Option.some.inj h)
      exact (List.dropWhile_suffix _).trans hp
    · obtain ⟨-, rfl⟩ := Prod.mk.inj (Option.some.inj h)
      exact (parseDelimited_suffix _ _ r).trans hr

theorem textLines_suffix (acc p : List Byte) : (textLines acc p).2 <:+ p := by
  fun_induction textLines acc p with
  | case1 => exact List.suffix_rfl
  | case2 acc p _ ih => exact ih.trans (List.suffix_cons _ _)
  | case3 acc p => exact List.suffix_cons _ _
  | case4 acc c p _ ih => exact ih.trans (List.suffix_cons _ _)

theorem parseTextBlock_suffix (p : List Byte) : (parseTextBlock p).2 <:+ p := by
  unfold parseTextBlock
  split
  · exact ((textLines_suffix _ _).trans (List.suffix_cons _ _)).trans (List.suffix_cons _ _)
  · exact (textLines_suffix _ _).trans (List.suffix_cons _ _)
  · exact textLines_suffix _ _

theorem parseFile_suffix (p : List Byte) : (parseFile p).2 <:+ p :=
  (List.dropWhile_suffix _).trans (List.dropWhile_suffix _)

theorem parseFlags_suffix (f : Flags) (p : List Byte) : (parseFlags f p).2 <:+ p := by
  fun_induction parseFlags f p with
  | case1 => exact List.suffix_rfl
  | case2 f p ih => exact ih.trans (List.suffix_cons _ _)
  | case3 f p _ ih => exact ih.trans (List.suffix_cons _ _)
  | case4 f c p _ _ _ ih => exact ih.trans (List.dropWhile_suffix _)
  | case5 f p _ _ _ ih => exact (ih.trans (parseFile_suffix p)).trans (List.suffix_cons _ _)
  | case6 => exact List.suffix_rfl

theorem parseOperands_suffix {p : List Byte} {o : List Byte × List Byte × List Byte} (h : parseOperands p = some o) :
    o.2.2 <:+ p := by
  cases p with
  | nil => simp [parseOperands] at h
  | cons delim p =>
    simp only [parseOperands] at h
    split_ifs at h
    obtain rfl := Option.some.inj h
    exact ((parseDelimited_suffix _ _ _).trans (parseDelimited_suffix _ _ p)).trans (List.suffix_cons _ _)

theorem parseAction_suffix {c : Byte} {p q : List Byte} {a : Action} (h : parseAction c p = some (a, q)) : q <:+ p := by
  unfold parseAction at h
  split_ifs at h
  · obtain ⟨_, -, h⟩ := Option.map_eq_some_iff.mp h
    exact (Prod.mk.inj h).2 ▸ List.suffix_rfl
  all_goals
    try
      obtain ⟨-, rfl⟩ := Prod.mk.inj (Option.some.inj h)
      first
      | exact parseFile_suffix p
      | exact parseTextBlock_suffix p
  · obtain ⟨o, ho, h⟩ := Option.bind_eq_some_iff.mp h
    split_ifs at h
    obtain ⟨-, rfl⟩ := Prod.mk.inj (Option.some.inj h)
    exact parseOperands_suffix ho
  · obtain ⟨o, ho, h⟩ := Option.map_eq_some_iff.mp h
    obtain ⟨-, rfl⟩ := Prod.mk.inj h
    exact ((parseFlags_suffix _ _).trans (List.dropWhile_suffix _)).trans (parseOperands_suffix ho)

theorem parseAddresses_suffix {p q : List Byte} {a : Option Address × Option Address}
    (h : parseAddresses p = some (a, q)) : q <:+ p := by
  unfold parseAddresses at h
  cases ha : parseAddress p with
  | none =>
    simp only [ha, Option.some.injEq, Prod.mk.injEq] at h
    exact h.2 ▸ List.suffix_rfl
  | some r =>
    have hr : skipWs r.2 <:+ p := (List.dropWhile_suffix _).trans (parseAddress_suffix ha)
    simp only [ha] at h
    split at h
    · next q' hq =>
      obtain ⟨r', hr', h⟩ := Option.map_eq_some_iff.mp h
      obtain ⟨-, rfl⟩ := Prod.mk.inj h
      exact (((parseAddress_suffix hr').trans (List.dropWhile_suffix _)).trans (List.suffix_cons _ _)).trans (hq ▸ hr)
    · obtain ⟨-, rfl⟩ := Prod.mk.inj (Option.some.inj h)
      exact hr

theorem skipSeparator_suffix (p : List Byte) : skipSeparator p <:+ p := by
  have hp : skipWs p <:+ p := List.dropWhile_suffix _
  unfold skipSeparator
  split
  · next q hq => exact (List.suffix_cons _ _).trans (hq ▸ hp)
  · exact hp

/-- A command takes at least its letter. -/
theorem parseOneCommand_suffix {p q : List Byte} {cmd : SedCmd} (h : parseOneCommand p = some (cmd, q)) :
    q <:+ p ∧ q.length < p.length := by
  obtain ⟨a, ha, h⟩ := Option.bind_eq_some_iff.mp h
  have hp : skipWs a.2 <:+ p :=
    ((List.dropWhile_suffix _).trans (parseAddresses_suffix ha)).trans (List.dropWhile_suffix _)
  cases hs : skipWs a.2 with
  | nil => simp [hs] at h
  | cons c r =>
    rw [hs] at hp
    simp only [hs] at h
    obtain ⟨r', hr', h⟩ := Option.map_eq_some_iff.mp h
    obtain ⟨-, rfl⟩ := Prod.mk.inj h
    have hq := (skipSeparator_suffix r'.2).trans (parseAction_suffix hr')
    exact ⟨(hq.trans (List.suffix_cons _ _)).trans hp,
      (Nat.lt_succ_of_le hq.length_le).trans_le hp.length_le⟩

theorem nextLine_suffix (p : List Byte) : nextLine p <:+ p := (List.tail_suffix _).trans (List.dropWhile_suffix _)

/-- `parse_script`, with the number of commands stored so far: `none` when it fails. -/
def parseScript (ncmds : ℕ) (p : List Byte) : Option (List SedCmd) :=
  match _hs : skipWs p with
  | [] => some []
  | c :: q =>
    if c = '\r' ∨ c = '\n' then parseScript ncmds q
    else if MAX_CMDS ≤ ncmds then none
    else
      match hc : parseOneCommand (c :: q) with
      | none => none
      | some (cmd, r) => (parseScript (ncmds + 1) (nextLine r)).map (cmd :: ·)
termination_by p.length
decreasing_by
  · have hp : (skipWs p).length ≤ p.length := (List.dropWhile_suffix _).length_le
    rw [_hs] at hp
    exact hp
  · have hp : (skipWs p).length ≤ p.length := (List.dropWhile_suffix _).length_le
    rw [_hs] at hp
    exact ((nextLine_suffix r).length_le.trans_lt (parseOneCommand_suffix hc).2).trans_le hp

end ValidcTools.Sed
