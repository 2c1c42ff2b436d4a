import ValidcTools.Sed.Script

/-! Which scripts `parse_script` reads as they are written. -/
namespace ValidcTools.Sed

/-! ## Scripts as they are written -/

/-- The text of a regular expression between slashes: each '/' of it has a backslash. -/
def escape : List Byte → List Byte
  | [] => []
  | [c] => if c = '/' then ['\\', '/'] else [c]
  | c :: d :: re =>
    if c = '\\' then c :: d :: escape re
    else if c = '/' then '\\' :: '/' :: escape (d :: re)
    else c :: escape (d :: re)

/-- Every backslash comes with the byte that it quotes, and that is no '/'. -/
def Paired : List Byte → Prop
  | [] => True
  | [c] => c ≠ '\\'
  | c :: d :: re => if c = '\\' then d ≠ '/' ∧ Paired re else Paired (d :: re)

inductive AddressText
  | line (digits : List Byte)
  | last
  | regex (regex : List Byte)

namespace AddressText

def address : AddressText → Address
  | line digits => .line (decimal digits)
  | last => .last
  | regex re => .regex re

def text : AddressText → List Byte
  | line digits => digits
  | last => ['$']
  | regex re => ( '/' : Byte) :: escape re ++ [( '/' : Byte)]

def Ok : AddressText → Prop
  | line digits => digits ≠ [] ∧ digits.all isDigit = true ∧ decimal digits < 2 ^ 63
  | last => True
  | regex re => Paired re ∧ ('\n' : Byte) ∉ re

/-- No backslash but those before a '/' -/
def Unescaped : AddressText → Prop
  | regex re => ('\\' : Byte) ∉ re
  | _ => True

end AddressText

inductive CommandText
  | letter (letter : Byte)
  | s (delim : Byte) (pat repl occurrence : List Byte) (print : Bool)
  | y (delim : Byte) (src dst : List Byte)
  /-- `a`, `i` or `c` with a line of text: on the next line, after a backslash, or right after the letter. -/
  | text (letter : Byte) (ownLine : Bool) (text : List Byte)

namespace CommandText

/-- The occurrence that a flag of `s` means, with no flag for the first one -/
def occurrenceOf (flag : List Byte) : ℤ := if flag = [( 'g' : Byte)] then -1 else decimal flag

def char : CommandText → Byte
  | letter c => c
  | s .. => 's'
  | y .. => 'y'
  | text c _ _ => c

def operands : CommandText → List Byte
  | letter _ => []
  | s delim pat repl occurrence print =>
    delim :: (pat ++ delim :: (repl ++ delim :: (occurrence ++ if print then [( 'p' : Byte)] else [])))
  | y delim src dst => delim :: (src ++ delim :: (dst ++ [delim]))
  | text _ ownLine t => if ownLine then ( '\\' : Byte) :: ( '\n' : Byte) :: t else t

def action : CommandText → Action
  | letter c => (letters.lookup c).getD .p
  | s _ pat repl occurrence print => .s pat repl (occurrenceOf occurrence) print none
  | y _ src dst => .y src dst
  | text c _ t => if c = 'a' then .a t else if c = 'i' then .i t else .c t

/-- An operand with no delimiter, backslash or newline -/
def Operand (delim : Byte) (x : List Byte) : Prop := delim ∉ x ∧ ('\\' : Byte) ∉ x ∧ ('\n' : Byte) ∉ x

def Ok : CommandText → Prop
  | letter c => (letters.lookup c).isSome = true
  | s delim pat repl occurrence _ =>
    delim ≠ '\n' ∧ delim ≠ '\\' ∧ Operand delim pat ∧ Operand delim repl ∧
      (occurrence = [( 'g' : Byte)] ∨ occurrence.all isDigit = true ∧ decimal occurrence < 2 ^ 31)
  | y delim src dst =>
    delim ≠ '\n' ∧ delim ≠ '\\' ∧ Operand delim src ∧ Operand delim dst ∧ src.length = dst.length
  | text c ownLine t =>
    (c = 'a' ∨ c = 'i' ∨ c = 'c') ∧ ('\n' : Byte) ∉ t ∧ t.getLast? ≠ some ('\\' : Byte) ∧ (ownLine = false → t ≠ [])

def isText : CommandText → Bool
  | text .. => true
  | _ => false

/-- The text begins on a line of its own. -/
def ownLine : CommandText → Bool
  | text _ ownLine _ => ownLine
  | _ => false

end CommandText

structure Written where
  a1 : Option AddressText
  a2 : Option AddressText
  command : CommandText

namespace Written

def addresses (w : Written) : List Byte :=
  match w.a1, w.a2 with
  | none, _ => []
  | some a1, none => a1.text
  | some a1, some a2 => a1.text ++ ( ',' : Byte) :: a2.text

def text (w : Written) : List Byte := w.addresses ++ w.command.char :: w.command.operands

/-- The command that is to be stored -/
def cmd (w : Written) : SedCmd := ⟨w.a1.map AddressText.address, w.a2.map AddressText.address, false, w.command.action⟩

structure Ok (w : Written) : Prop where
  command : w.command.Ok
  a1 : ∀ a ∈ w.a1, a.Ok
  a2 : ∀ a ∈ w.a2, a.Ok
  first : w.a1 = none → w.a2 = none

structure Unescaped (w : Written) : Prop where
  a1 : ∀ a ∈ w.a1, a.Unescaped
  a2 : ∀ a ∈ w.a2, a.Unescaped

end Written

/-- Blanks and newlines -/
def Space (l : List Byte) : Prop := ∀ c ∈ l, isBlank c = true ∨ c = '\n'

/-- What stands between two commands: newlines, or a ';', with any blanks -/
def Separator (w : Written) (sep : List Byte) : Prop :=
  Space sep ∧ ('\n' : Byte) ∈ sep ∧ (w.command.isText = true → sep.head? = some ('\n' : Byte)) ∨
    w.command.isText = false ∧ ∃ u v, sep = u ++ ( ';' : Byte) :: v ∧ u.all isBlank = true ∧ v.all isBlank = true

/-- What stands after the last command: a text ends at its newline. -/
def Ending (w : Written) (sep : List Byte) : Prop :=
  Space sep ∧ (w.command.isText = true → sep.head? = some ('\n' : Byte))

/-- Commands, each with what stands after it -/
def Pieces : List (Written × List Byte) → Prop
  | [] => True
  | [(w, sep)] => w.Ok ∧ Ending w sep
  | (w, sep) :: rest => w.Ok ∧ Separator w sep ∧ Pieces rest

def bytes (pieces : List (Written × List Byte)) : List Byte := pieces.flatMap fun x => x.1.text ++ x.2

structure ScriptText where
  lead : List Byte
  pieces : List (Written × List Byte)
  space : Space lead
  ok : Pieces pieces
  length_le : pieces.length ≤ MAX_CMDS

namespace ScriptText

def text (t : ScriptText) : List Byte := t.lead ++ bytes t.pieces

def cmds (t : ScriptText) : List SedCmd := t.pieces.map fun x => x.1.cmd

end ScriptText

/-- What follows a command leaves the next one whole: no ';', and a newline besides that of a text. -/
def Leaves (w : Written) (sep : List Byte) : Prop :=
  if w.command.isText then ('\n' : Byte) ∈ sep.tail else (';' : Byte) ∉ sep

/-- No two commands are on one line, an empty line follows each text before a command, and no regular
expression quotes anything but a '/'. -/
structure Apart (pieces : List (Written × List Byte)) : Prop where
  separated : ∀ x ∈ pieces.dropLast, Leaves x.1 x.2
  unescaped : ∀ x ∈ pieces, x.1.Unescaped

/-! ## What `parse_one_command` makes of a command -/

/-- What is left of a regular expression without its backslashes -/
def unescape : List Byte → List Byte
  | [] => []
  | [c] => [c]
  | c :: d :: re => if c = '\\' then d :: unescape re else c :: unescape (d :: re)

theorem unescape_eq_iff {re : List Byte} (h : Paired re) : unescape re = re ↔ ('\\' : Byte) ∉ re := by
  have hle : ∀ re : List Byte, (unescape re).length ≤ re.length := fun re => by
    fun_induction unescape re with
    | case1 => exact le_rfl
    | case2 => exact le_rfl
    | case3 d re ih => exact (Nat.succ_le_succ ih).trans (Nat.le_succ _)
    | case4 c d re _ ih => exact Nat.succ_le_succ ih
  fun_induction unescape re with
  | case1 => simp
  | case2 c => simpa [Paired, eq_comm] using h
  | case3 d re =>
    refine ⟨fun he => ?_, fun hn => absurd List.mem_cons_self hn⟩
    have := hle re
    have := congrArg List.length he
    simp only [List.length_cons] at this
    omega
  | case4 c d re hc ih =>
    have h : Paired (d :: re) := by simpa [Paired, hc] using h
    simp [ih h, Ne.symm hc]

theorem parseDelimited_cons {delim c : Byte} (hc : c ≠ '\\') (hd : c ≠ delim) (p : List Byte) :
    parseDelimited delim true (c :: p) = prepend [c] (parseDelimited delim true p) := by
  cases p <;> simp [parseDelimited, prepend, hc, hd]

theorem parseDelimited_delim {delim : Byte} (hd : delim ≠ '\\') (p : List Byte) :
    parseDelimited delim true (delim :: p) = ([], p) := by
  cases p <;> simp [parseDelimited, hd]

theorem parseDelimited_backslash (delim c : Byte) (p : List Byte) :
    parseDelimited delim true (( '\\' : Byte) :: c :: p) = prepend [c] (parseDelimited delim true p) := by
  simp [parseDelimited]

theorem parseDelimited_escape {re : List Byte} (h : Paired re) (q : List Byte) :
    parseDelimited '/' true (escape re ++ ( '/' : Byte) :: q) = (unescape re, q) := by
  have hslash : ( '/' : Byte) ≠ '\\' := by decide
  fun_induction escape re with
  | case1 => exact parseDelimited_delim hslash q
  | case2 => simp [parseDelimited_backslash, parseDelimited_delim hslash, unescape, prepend]
  | case3 c hc =>
    have h : c ≠ '\\' := h
    simp [parseDelimited_cons h hc, parseDelimited_delim hslash, unescape, prepend]
  | case4 d re ih =>
    have h : d ≠ '/' ∧ Paired re := by simpa [Paired] using h
    simp [parseDelimited_backslash, ih h.2, unescape, prepend]
  | case5 d re hc ih =>
    have h : Paired (d :: re) := by simpa [Paired, hc] using h
    simpa [parseDelimited_backslash, unescape, prepend, hc] using congrArg (prepend [( '/' : Byte)]) (ih h)
  | case6 c d re hc hc' ih =>
    have h : Paired (d :: re) := by simpa [Paired, hc] using h
    simpa [parseDelimited_cons hc hc', unescape, prepend, hc] using congrArg (prepend [c]) (ih h)

theorem parseDelimited_operand {delim : Byte} {x : List Byte} (h : CommandText.Operand delim x) (hd : delim ≠ '\\')
    (q : List Byte) : parseDelimited delim true (x ++ delim :: q) = (x, q) := by
  obtain ⟨hdelim, hback, -⟩ := h
  induction x with
  | nil => exact parseDelimited_delim hd q
  | cons c x ih =>
    rw [List.mem_cons, not_or] at hdelim hback
    rw [List.cons_append, parseDelimited_cons (Ne.symm hback.1) (Ne.symm hdelim.1), ih hdelim.2 hback.2]
    rfl

/-- The bytes that a command can begin with -/
theorem char_spec {c : CommandText} (h : c.Ok) :
    isBlank c.char = false ∧ isDigit c.char = false ∧
      ∀ x ∈ ([ '$', '/', ',', ';', '\n', '\r'] : List Byte), c.char ≠ x := by
  have hletter : ∀ x : Byte, (letters.lookup x).isSome = true ∨ x ∈ ([ 's', 'y', 'a', 'i', 'c'] : List Byte) →
      isBlank x = false ∧ isDigit x = false :=
    forall_byte (by decide)
  have hother : ∀ x ∈ ([ '$', '/', ',', ';', '\n', '\r'] : List Byte),
      (letters.lookup x).isSome = false ∧ x ∉ ([ 's', 'y', 'a', 'i', 'c'] : List Byte) := by
    intro x hx
    fin_cases hx <;> decide
  have hchar : (letters.lookup c.char).isSome = true ∨ c.char ∈ ([ 's', 'y', 'a', 'i', 'c'] : List Byte) := by
    cases c with
    | letter c => exact .inl h
    | s => exact .inr List.mem_cons_self
    | y => exact .inr (List.mem_cons_of_mem _ List.mem_cons_self)
    | text c o t =>
      obtain ⟨h | h | h, -⟩ := h <;> exact .inr (by simp [CommandText.char, h])
  refine ⟨(hletter _ hchar).1, (hletter _ hchar).2, fun x hx heq => ?_⟩
  rw [heq] at hchar
  rcases hchar with h | h
  · exact absurd h (Bool.eq_false_iff.mp (hother x hx).1)
  · exact (hother x hx).2 h

/-- The address as it is read -/
def AddressText.parsed : AddressText → Address
  | line digits => .line (decimal digits)
  | last => .last
  | regex re => .regex (unescape re)

theorem AddressText.parsed_eq_iff {a : AddressText} (h : a.Ok) : a.parsed = a.address ↔ a.Unescaped := by
  cases a with
  | line => exact iff_of_true rfl trivial
  | last => exact iff_of_true rfl trivial
  | regex re => exact (Address.regex.injEq _ _).to_iff.trans (unescape_eq_iff h.1)

theorem skipWs_cons {c : Byte} (h : isBlank c = false) (p : List Byte) : skipWs (c :: p) = c :: p := by
  simp [skipWs, h]

theorem takeWhile_append_of_all {P : Byte → Bool} {x : List Byte} (hx : x.all P = true) {q : List Byte}
    (hq : ∀ c ∈ q.head?, P c = false) : (x ++ q).takeWhile P = x ∧ (x ++ q).dropWhile P = q := by
  induction x with
  | nil =>
    cases q with
    | nil => exact ⟨rfl, rfl⟩
    | cons c q =>
      have := hq c rfl
      simp [this]
  | cons c x ih =>
    rw [List.all_cons, Bool.and_eq_true] at hx
    simp [hx.1, ih hx.2]

theorem parseAddress_text {a : AddressText} (h : a.Ok) {q : List Byte} (hq : ∀ c ∈ q.head?, isDigit c = false) :
    parseAddress (a.text ++ q) = some (a.parsed, q) := by
  cases a with
  | line digits =>
    obtain ⟨hne, hall, -⟩ := h
    have hspan := takeWhile_append_of_all hall hq
    cases digits with
    | nil => exact absurd rfl hne
    | cons c digits =>
      have hc : isDigit c = true := List.all_eq_true.mp hall c List.mem_cons_self
      have hblank : ∀ x : Byte, isDigit x = true → isBlank x = false ∧ x ≠ '$' := forall_byte (by decide)
      have hdef : parseAddress (c :: digits ++ q) =
          some (.line (decimal ((c :: digits ++ q).takeWhile isDigit)), (c :: digits ++ q).dropWhile isDigit) := by
        rw [List.cons_append]
        simp only [parseAddress, skipWs_cons (hblank c hc).1, if_neg (hblank c hc).2, hc, if_true]
      exact hdef.trans (by rw [hspan.1, hspan.2]; rfl)
  | last => rfl
  | regex re =>
    have hdef : parseAddress ((AddressText.regex re).text ++ q) =
        some (.regex (parseDelimited '/' true (escape re ++ ( '/' : Byte) :: q)).1,
          (parseDelimited '/' true (escape re ++ ( '/' : Byte) :: q)).2) := by
      simp only [AddressText.text, List.append_assoc, List.cons_append, List.nil_append]
      rfl
    rw [hdef, parseDelimited_escape h.1]
    rfl

theorem parseAddress_skipWs (p : List Byte) : parseAddress (skipWs p) = parseAddress p := by
  simp only [parseAddress, skipWs, List.dropWhile_idempotent]

theorem parseAddress_none {c : Byte} (hb : isBlank c = false) (hd : isDigit c = false) (h1 : c ≠ '$') (h2 : c ≠ '/')
    (q : List Byte) : parseAddress (c :: q) = none := by
  simp only [parseAddress, skipWs_cons hb, if_neg h1, if_neg h2, hd, Bool.false_eq_true, if_false]

/-- The addresses as they are read -/
def Written.parsed (w : Written) : SedCmd :=
  ⟨w.a1.map AddressText.parsed, w.a2.map AddressText.parsed, false, w.command.action⟩

theorem Written.parsed_eq_iff {w : Written} (h : w.Ok) : w.parsed = w.cmd ↔ w.Unescaped := by
  have hmap : ∀ o : Option AddressText, (∀ a ∈ o, a.Ok) →
      (o.map AddressText.parsed = o.map AddressText.address ↔ ∀ a ∈ o, a.Unescaped) := fun o ho => by
    cases o with
    | none => simp
    | some a => simp [AddressText.parsed_eq_iff (ho a rfl)]
  simp only [Written.parsed, Written.cmd, SedCmd.mk.injEq, and_true, hmap _ h.a1, hmap _ h.a2]
  exact ⟨fun h => ⟨h.1, h.2⟩, fun h => ⟨h.1, h.2⟩⟩

theorem parseAddresses_text {w : Written} (h : w.Ok) (q : List Byte) :
    parseAddresses (w.addresses ++ w.command.char :: q) =
      some ((w.a1.map AddressText.parsed, w.a2.map AddressText.parsed), w.command.char :: q) := by
  obtain ⟨hb, hd, hx⟩ := char_spec h.command
  have hq : ∀ c ∈ (w.command.char :: q).head?, isDigit c = false := by simpa using hd
  unfold parseAddresses Written.addresses
  cases h1 : w.a1 with
  | none =>
    simp only [List.nil_append, parseAddress_none hb hd (hx '$' (by decide)) (hx '/' (by decide)), h.first h1, Option.map_none]
  | some a1 =>
    cases h2 : w.a2 with
    | none =>
      simp only [parseAddress_text (h.a1 a1 h1) hq]
      rw [skipWs_cons hb]
      split
      · next q' he => exact absurd (List.cons.inj he).1 (hx ',' (by decide))
      · rfl
    | some a2 =>
      have hcomma : ∀ c ∈ (( ',' : Byte) :: (a2.text ++ w.command.char :: q)).head?, isDigit c = false := fun c hc => by
        obtain rfl := Option.some.inj hc
        rfl
      simp only [List.append_assoc, List.cons_append, parseAddress_text (h.a1 a1 h1) hcomma,
        skipWs_cons (c := ( ',' : Byte)) (by decide)]
      exact congrArg (Option.map _) ((parseAddress_skipWs _).trans (parseAddress_text (h.a2 a2 h2) hq))

theorem textLines_line {acc t : List Byte} (hn : ('\n' : Byte) ∉ t) (hl : (acc ++ t).getLast? ≠ some ('\\' : Byte))
    (q : List Byte) : textLines acc (t ++ ( '\n' : Byte) :: q) = (acc ++ t, q) := by
  induction t generalizing acc with
  | nil =>
    rw [List.append_nil] at hl
    simp [textLines, hl]
  | cons c t ih =>
    rw [List.mem_cons, not_or] at hn
    rw [List.cons_append, textLines, if_neg (Ne.symm hn.1), ih hn.2 (by simpa using hl)]
    simp

/-- A text that begins with no newline, whether behind a backslash or not, is read from its first byte on. -/
theorem parseTextBlock_of_ne {c : Byte} {p : List Byte} (hc : c ≠ '\n') (hp : c = '\\' → p.head? ≠ some ('\n' : Byte)) :
    parseTextBlock (c :: p) = textLines [] (c :: p) := by
  unfold parseTextBlock
  split
  · next q he =>
    obtain ⟨rfl, rfl⟩ := List.cons.inj he
    exact absurd rfl (hp rfl)
  · next q he => exact absurd (List.cons.inj he).1 hc
  · rfl

theorem parseTextBlock_text {t : List Byte} (hn : ('\n' : Byte) ∉ t) (hl : t.getLast? ≠ some ('\\' : Byte)) (own : Bool)
    (hown : own = false → t ≠ []) (q : List Byte) :
    parseTextBlock ((if own then ( '\\' : Byte) :: ( '\n' : Byte) :: t else t) ++ ( '\n' : Byte) :: q) = (t, q) := by
  have hlines : textLines [] (t ++ ( '\n' : Byte) :: q) = (t, q) := textLines_line hn (show ([] ++ t).getLast? ≠ _ from hl) q
  cases own with
  | true => exact hlines
  | false =>
    cases t with
    | nil => exact absurd rfl (hown rfl)
    | cons c t =>
      rw [List.mem_cons, not_or] at hn
      refine (parseTextBlock_of_ne (Ne.symm hn.1) fun hc he => ?_).trans hlines
      cases t with
      | nil => exact hl (hc ▸ rfl)
      | cons d t => exact hn.2 (Option.some.inj he ▸ List.mem_cons_self)

/-- What may come right after a command -/
def CommandText.Follows (c : CommandText) (q : List Byte) : Prop :=
  if c.isText then q.head? = some ('\n' : Byte) else ∀ x ∈ (skipWs q).head?, x = '\n' ∨ x = ';'

/-- The newline of a text is read with it. -/
def CommandText.after (c : CommandText) (q : List Byte) : List Byte := if c.isText then q.tail else q

theorem skipSeparator_skipWs (q : List Byte) : skipSeparator (skipWs q) = skipSeparator q := by
  simp only [skipSeparator, skipWs, List.dropWhile_idempotent]

/-- What begins with no flag of `s` -/
def NoFlag (q : List Byte) : Prop := ∀ x ∈ q.head?, x ≠ 'g' ∧ x ≠ 'p' ∧ isDigit x = false ∧ x ≠ 'w'

theorem noFlag_skipWs {q : List Byte} (hq : ∀ x ∈ (skipWs q).head?, x = '\n' ∨ x = ';') :
    NoFlag q ∧ NoFlag (skipWs q) := by
  have hx : ∀ x : Byte, isBlank x = true ∨ x = '\n' ∨ x = ';' →
      x ≠ 'g' ∧ x ≠ 'p' ∧ isDigit x = false ∧ x ≠ 'w' := forall_byte (by decide)
  refine ⟨fun x h => hx x ?_, fun x h => hx x (.inr (hq x h))⟩
  cases q with
  | nil => simp at h
  | cons c q =>
    obtain rfl := Option.some.inj h
    cases hb : isBlank c with
    | true => exact .inl rfl
    | false => exact .inr (hq c (by rw [skipWs_cons hb]; rfl))

theorem parseFlags_stop (f : Flags) {q : List Byte} (hq : NoFlag q) : parseFlags f q = (f, q) := by
  cases q with
  | nil => rw [parseFlags]
  | cons x q =>
    obtain ⟨h1, h2, h3, h4⟩ := hq x rfl
    rw [parseFlags, if_neg h1, if_neg h2, dif_neg (by simp [h3]), if_neg h4]

theorem parseFlags_print (f : Flags) (print : Bool) {q : List Byte} (hq : NoFlag q) :
    parseFlags f ((if print then [( 'p' : Byte)] else []) ++ q) = ({ f with print := f.print || print }, q) := by
  cases print with
  | false => simpa using parseFlags_stop f hq
  | true =>
    have hp : parseFlags f (( 'p' : Byte) :: q) = parseFlags { f with print := true } q := by
      rw [parseFlags, if_neg (by decide), if_pos rfl]
    simpa using hp.trans (parseFlags_stop _ hq)

theorem parseFlags_occurrence {occurrence : List Byte} (ho : occurrence = [( 'g' : Byte)] ∨ occurrence.all isDigit = true)
    (print : Bool) {q : List Byte} (hq : NoFlag q) :
    parseFlags {} (occurrence ++ ((if print then [( 'p' : Byte)] else []) ++ q)) =
      ({ occurrence := CommandText.occurrenceOf occurrence, print := print }, q) := by
  obtain rfl | hall := ho
  · have hg (r : List Byte) : parseFlags {} (( 'g' : Byte) :: r) = parseFlags { occurrence := -1 } r := by
      rw [parseFlags, if_pos rfl]
    refine (hg _).trans ((parseFlags_print _ print hq).trans ?_)
    simp [CommandText.occurrenceOf]
  · cases occurrence with
    | nil => simpa [CommandText.occurrenceOf, decimal] using parseFlags_print {} print hq
    | cons c ds =>
      have hdigit : ∀ x : Byte, isDigit x = true → x ≠ 'g' ∧ x ≠ 'p' := forall_byte (by decide)
      have hc : isDigit c = true := List.all_eq_true.mp hall c List.mem_cons_self
      have hhead : ∀ x ∈ ((if print then [( 'p' : Byte)] else []) ++ q).head?, isDigit x = false := by
        cases print with
        | false => exact fun x hx => (hq x hx).2.2.1
        | true =>
          intro x hx
          obtain rfl := Option.some.inj hx
          rfl
      obtain ⟨htake, hdrop⟩ := takeWhile_append_of_all hall hhead
      rw [List.cons_append] at htake hdrop ⊢
      rw [parseFlags, if_neg (hdigit c hc).1, if_neg (hdigit c hc).2, dif_pos hc, htake, hdrop, parseFlags_print _ print hq]
      simp [CommandText.occurrenceOf, (hdigit c hc).1]

theorem parseOperands_text {delim : Byte} (h1 : delim ≠ '\n') (h2 : delim ≠ '\\') {x y : List Byte}
    (hx : CommandText.Operand delim x) (hy : CommandText.Operand delim y) (q : List Byte) :
    parseOperands (delim :: (x ++ delim :: (y ++ delim :: q))) = some (x, y, q) := by
  simp only [parseOperands, if_neg h1, parseDelimited_operand hx h2, parseDelimited_operand hy h2]

theorem skipWs_noBlank {p : List Byte} (h : ∀ x ∈ p.head?, isBlank x = false) : skipWs p = p := by
  cases p with
  | nil => rfl
  | cons x p => exact skipWs_cons (h x rfl) p

/-- The flags of `s` and what follows them, whether there are flags or not -/
theorem parseFlags_text {occurrence : List Byte} (ho : occurrence = [( 'g' : Byte)] ∨ occurrence.all isDigit = true) (print : Bool)
    {q : List Byte} (hq : ∀ x ∈ (skipWs q).head?, x = '\n' ∨ x = ';') :
    ∃ r, parseFlags {} (skipWs (occurrence ++ ((if print then [( 'p' : Byte)] else []) ++ q))) =
        ({ occurrence := CommandText.occurrenceOf occurrence, print := print }, r) ∧
      skipSeparator r = skipSeparator q := by
  obtain ⟨hno, hnows⟩ := noFlag_skipWs hq
  by_cases hflags : occurrence ++ (if print then [( 'p' : Byte)] else []) = []
  · obtain ⟨rfl, hprint⟩ := List.append_eq_nil_iff.mp hflags
    refine ⟨skipWs q, ?_, skipSeparator_skipWs q⟩
    have := parseFlags_occurrence (show ([] : List Byte) = _ ∨ ([] : List Byte).all isDigit = true from .inr rfl) print hnows
    rwa [hprint] at this ⊢
  · refine ⟨q, ?_, rfl⟩
    have hhead : ∀ x ∈ (occurrence ++ ((if print then [( 'p' : Byte)] else []) ++ q)).head?, isBlank x = false := by
      have hdigit : ∀ x : Byte, isDigit x = true → isBlank x = false := forall_byte (by decide)
      intro x hx
      cases occurrence with
      | nil =>
        cases print with
        | false => exact absurd rfl hflags
        | true =>
          obtain rfl := Option.some.inj hx
          rfl
      | cons c ds =>
        obtain rfl := Option.some.inj hx
        obtain ho | ho := ho
        · obtain rfl := (List.cons.inj ho).1
          rfl
        · exact hdigit c (List.all_eq_true.mp ho c List.mem_cons_self)
    rw [skipWs_noBlank hhead]
    exact parseFlags_occurrence ho print hno

theorem parseAction_text {c : CommandText} (h : c.Ok) {q : List Byte} (hq : c.Follows q) :
    ∃ r, parseAction c.char (c.operands ++ q) = some (c.action, r) ∧ skipSeparator r = skipSeparator (c.after q) := by
  cases c with
  | letter c =>
    have h : (letters.lookup c).isSome = true := h
    refine ⟨q, ?_, rfl⟩
    obtain ⟨a, ha⟩ := Option.isSome_iff_exists.mp h
    simp [parseAction, CommandText.char, CommandText.operands, CommandText.action, ha]
  | s delim pat repl occurrence print =>
    obtain ⟨h1, h2, h3, h4, h5⟩ := h
    obtain ⟨r, hr, hsep⟩ := parseFlags_text (h5.imp_right And.left) print hq
    refine ⟨r, ?_, hsep⟩
    have hoperands := parseOperands_text h1 h2 h3 h4 (occurrence ++ ((if print then [( 'p' : Byte)] else []) ++ q))
    have hs : parseAction 's' ((CommandText.s delim pat repl occurrence print).operands ++ q) =
        (parseOperands ((CommandText.s delim pat repl occurrence print).operands ++ q)).map fun o =>
          let f := parseFlags {} (skipWs o.2.2)
          (.s o.1 o.2.1 f.1.occurrence f.1.print f.1.wfile, f.2) := rfl
    refine hs.trans ?_
    simp only [CommandText.operands, List.cons_append, List.append_assoc, hoperands, Option.map_some, hr]
    rfl
  | y delim src dst =>
    obtain ⟨h1, h2, h3, h4, h5⟩ := h
    refine ⟨q, ?_, rfl⟩
    have hoperands := parseOperands_text h1 h2 h3 h4 q
    have hy : parseAction 'y' ((CommandText.y delim src dst).operands ++ q) =
        (parseOperands ((CommandText.y delim src dst).operands ++ q)).bind fun o =>
          if o.1.length = o.2.1.length then some (.y o.1 o.2.1, o.2.2) else none := rfl
    refine hy.trans ?_
    simp only [CommandText.operands, List.cons_append, List.append_assoc, List.nil_append, hoperands, Option.bind_some, h5,
      if_true]
    rfl
  | text c own t =>
    obtain ⟨hc, hn, hl, hown⟩ := h
    obtain ⟨q, rfl⟩ : ∃ q', q = ( '\n' : Byte) :: q' := by
      have hq : q.head? = some ('\n' : Byte) := hq
      cases q with
      | nil => cases hq
      | cons x q => exact ⟨q, by rw [Option.some.inj hq]⟩
    refine ⟨q, ?_, rfl⟩
    have hblock := parseTextBlock_text hn hl _ hown q
    have hparse (p : List Byte) : parseAction c p =
        some (if c = 'a' then .a (parseTextBlock p).1 else if c = 'i' then .i (parseTextBlock p).1 else .c (parseTextBlock p).1,
          (parseTextBlock p).2) := by
      obtain rfl | rfl | rfl := hc <;> rfl
    refine (hparse _).trans ?_
    simp only [CommandText.operands, hblock]
    rfl

/-- A command begins on its line: with no blank, newline or ';'. -/
theorem head_text {w : Written} (h : w.Ok) (q : List Byte) :
    (∀ x ∈ (w.text ++ q).head?, isBlank x = false) ∧
      ∃ c p, w.text = c :: p ∧ isBlank c = false ∧ c ≠ '\n' ∧ c ≠ '\r' ∧ c ≠ ';' := by
  have hfirst : ∃ c p, w.text = c :: p ∧ isBlank c = false ∧ c ≠ '\n' ∧ c ≠ '\r' ∧ c ≠ ';' := by
    have haddress : ∀ a : AddressText, a.Ok → ∀ q : List Byte,
        ∃ c p, a.text ++ q = c :: p ∧ isBlank c = false ∧ c ≠ '\n' ∧ c ≠ '\r' ∧ c ≠ ';' := fun a ha q => by
      cases a with
      | line digits =>
        obtain ⟨hne, hall, -⟩ := ha
        cases digits with
        | nil => exact absurd rfl hne
        | cons c digits =>
          have hdigit : ∀ x : Byte, isDigit x = true → isBlank x = false ∧ x ≠ '\n' ∧ x ≠ '\r' ∧ x ≠ ';' :=
            forall_byte (by decide)
          exact ⟨c, _, rfl, hdigit c (List.all_eq_true.mp hall c List.mem_cons_self)⟩
      | last => exact ⟨_, _, rfl, by decide⟩
      | regex re => exact ⟨_, _, rfl, by decide⟩
    unfold Written.text Written.addresses
    cases h1 : w.a1 with
    | none =>
      obtain ⟨hb, -, hx⟩ := char_spec h.command
      exact ⟨_, _, rfl, hb, hx _ (by decide), hx _ (by decide), hx _ (by decide)⟩
    | some a1 =>
      cases w.a2 with
      | none => exact haddress a1 (h.a1 a1 h1) _
      | some a2 =>
        rw [List.append_assoc]
        exact haddress a1 (h.a1 a1 h1) _
  obtain ⟨c, p, hp, hb, hrest⟩ := hfirst
  refine ⟨fun x hx => ?_, c, p, hp, hb, hrest⟩
  rw [hp] at hx
  exact Option.some.inj hx ▸ hb

/-- A command is read with its addresses, but for the backslashes of their regular expressions. -/
theorem parseOneCommand_text {w : Written} (h : w.Ok) {q : List Byte} (hq : w.command.Follows q) :
    parseOneCommand (w.text ++ q) = some (w.parsed, skipSeparator (w.command.after q)) := by
  obtain ⟨r, hr, hsep⟩ := parseAction_text h.command hq
  have hskip : skipWs (w.text ++ q) = w.text ++ q := skipWs_noBlank (head_text h q).1
  have ha := parseAddresses_text h (w.command.operands ++ q)
  simp only [parseOneCommand, hskip]
  simp only [Written.text, List.append_assoc, List.cons_append, ha, Option.bind_some,
    skipWs_cons (char_spec h.command).1, hr, Option.map_some, hsep]
  rfl

end ValidcTools.Sed
