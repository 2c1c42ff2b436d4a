import ValidcTools.Bre.Program
import ValidcTools.Lib.Greedy

/-! Well-formed patterns without groups: their grammar, their text and their language. -/
namespace ValidcTools.Bre
open Greedy

/-- The number in a brace quantifier, at most `RE_DUP_MAX`; leading zeros are allowed. -/
structure Bound where
  digits : List Byte
  nonempty : digits ≠ []
  isDigits : ∀ d ∈ digits, isDigit d
  le : decimal digits ≤ 255

def Bound.value (n : Bound) : ℕ := decimal n.digits

inductive Quantifier
  | star
  | plus
  | exactly (n : Bound)
  | atLeast (n : Bound)
  | between (n m : Bound) (h : n.value ≤ m.value)

def Quantifier.render : Quantifier → List Byte
  | .star => ['*']
  | .plus => ['\\', '+']
  | .exactly n => (['\\', '{'] : List Byte) ++ n.digits ++ (['\\', '}'] : List Byte)
  | .atLeast n => (['\\', '{'] : List Byte) ++ n.digits ++ ([',', '\\', '}'] : List Byte)
  | .between n m _ => (['\\', '{'] : List Byte) ++ n.digits ++ ([','] : List Byte) ++ m.digits ++
      (['\\', '}'] : List Byte)

/-- How often the repeated atom may occur. -/
def Quantifier.counts : Quantifier → Set ℕ
  | .star => Set.univ
  | .plus => Set.Ici 1
  | .exactly n => {n.value}
  | .atLeast n => Set.Ici n.value
  | .between n m _ => Set.Icc n.value m.value

/-- `counts`, with the 10000 iterations an open quantifier makes at most. -/
def Quantifier.cappedCounts (q : Quantifier) : Set ℕ :=
  match q with
  | .star | .plus | .atLeast _ => q.counts ∩ Set.Iic 10000
  | .exactly _ | .between _ _ _ => q.counts

/-- The `min` and `max` of the `BreRepetition`. -/
def Quantifier.bounds : Quantifier → ℤ × ℤ
  | .star => (0, -1)
  | .plus => (1, -1)
  | .exactly n => (n.value, n.value)
  | .atLeast n => (n.value, -1)
  | .between n m _ => (n.value, m.value)

def Atom.render : Atom → List Byte
  | .literal c => [c]
  | .dot => ['.']
  | .escape c => ['\\', c]
  | .cls body => (['['] : List Byte) ++ body ++ ([']'] : List Byte)

/-- An ordinary character, `.`, an escaped character that opens or closes nothing, or a class
that ends at its first `]`. -/
def Atom.WellFormed : Atom → Prop
  | .literal c => ¬ isSpecial c
  | .dot => True
  | .escape c => ¬ isBracketEscape c
  | .cls body => ((']' : Char) : Byte) ∉ body

instance : (a : Atom) → Decidable a.WellFormed
  | .literal c => inferInstanceAs (Decidable (¬ isSpecial c))
  | .dot => isTrue trivial
  | .escape c => inferInstanceAs (Decidable (¬ isBracketEscape c))
  | .cls body => inferInstanceAs (Decidable (((']' : Char) : Byte) ∉ body))

/-- The members of a class: single characters and ranges, read from the left. -/
def classMembers : List Byte → Set Byte
  | x :: r :: y :: rest =>
    if r = '-' then insert x ({c | x ≤ c ∧ c ≤ y} ∪ classMembers rest)
    else insert x (classMembers (r :: y :: rest))
  | x :: rest => insert x (classMembers rest)
  | [] => ∅

/-- The characters an atom stands for. -/
def Atom.chars : Atom → Set Byte
  | .literal c => {c}
  | .dot => Set.univ
  | .escape c => {c}
  | .cls body =>
    if body.head? = some (('^' : Char) : Byte) then (classMembers body.tail)ᶜ else classMembers body

structure Item where
  atom : Atom
  quantifier : Option Quantifier
  wf : atom.WellFormed

namespace Item

def render (it : Item) : List Byte := it.atom.render ++ (it.quantifier.elim [] Quantifier.render)

def bounds (it : Item) : ℤ × ℤ := it.quantifier.elim (1, 1) Quantifier.bounds

def counts (it : Item) : Set ℕ := it.quantifier.elim {1} Quantifier.counts

def cappedCounts (it : Item) : Set ℕ := it.quantifier.elim {1} Quantifier.cappedCounts

def lang (it : Item) : Language Byte := repeated it.atom.chars it.counts

def cappedLang (it : Item) : Language Byte := repeated it.atom.chars it.cappedCounts

/-- `\+` after an atom is its quantifier, so it is not the escaped character `+`. -/
def follows (it next : Item) : Prop := it.quantifier = none → next.atom ≠ .escape '+'

end Item

/-- A well-formed pattern without groups. -/
structure Pattern where
  bol : Bool
  items : List Item
  eol : Bool
  chain : items.IsChain Item.follows
  nulFree : (0 : Byte) ∉ items.flatMap Item.render

namespace Pattern

def body (p : Pattern) : List Byte :=
  p.items.flatMap Item.render ++ (if p.eol then (['$'] : List Byte) else [])

def render (p : Pattern) : CString where
  bytes := (if p.bol then (['^'] : List Byte) else []) ++ p.body
  nulFree := by
    unfold body
    have h := p.nulFree
    cases p.bol <;> cases p.eol <;> simp [h] <;> decide

def lang (p : Pattern) : Language Byte := (p.items.map Item.lang).prod

/-- The language with the open quantifiers limited to 10000 occurrences. -/
def cappedLang (p : Pattern) : Language Byte := (p.items.map Item.cappedLang).prod

/-- The part of `text` from `i` to `j` belongs to `L`, at places where `^` and `$` allow it. -/
def Occurs (p : Pattern) (L : Language Byte) (text : CString) (i j : ℕ) : Prop :=
  i ≤ j ∧ j ≤ text.length ∧ cut text.bytes i j ∈ L ∧ (p.bol → i = 0) ∧ (p.eol → j = text.length)

end Pattern

theorem classLoop_some {c x : Byte} {l : List Byte} (h : l.head? ≠ some (('-' : Char) : Byte))
    (matched : Bool) : classLoop c l matched (some x) = classLoop c l matched none := by
  match l with
  | [] => rfl
  | [y] => rfl
  | y :: z :: rest =>
    have hy : y ≠ ((('-' : Char) : Byte)) := by simpa using h
    simp [classLoop, hy]

theorem classLoop_eq (c : Byte) (l : List Byte) (matched : Bool) :
    classLoop c l matched none = true ↔ matched = true ∨ c ∈ classMembers l := by
  induction l using classMembers.induct generalizing matched with
  | case1 x y rest ih =>
    have hstep : classLoop c (x :: ((('-' : Char) : Byte)) :: y :: rest) matched none =
        classLoop c rest (matched || decide (x = c) || decide (x ≤ c ∧ c ≤ y)) none := by
      simp [classLoop]
    rw [hstep, ih]
    simp [classMembers, or_assoc, eq_comm (a := c)]
  | case2 x r y rest hr ih =>
    have hstep : classLoop c (x :: r :: y :: rest) matched none =
        classLoop c (r :: y :: rest) (matched || decide (x = c)) none := by
      have hsome := classLoop_some (c := c) (x := x) (l := r :: y :: rest) (by simpa using hr)
      rw [← hsome]
      simp only [classLoop, Option.isSome_none, Bool.false_eq_true, and_false, if_false]
    rw [hstep, ih]
    simp [classMembers, hr, or_assoc, eq_comm (a := c)]
  | case3 x rest h ih =>
    match rest with
    | [] => simp [classLoop, classMembers, eq_comm (a := c)]
    | [y] => simp [classLoop, classMembers, eq_comm (a := c), or_assoc]
    | r :: y :: rest => exact absurd rfl (h r y rest)
  | case4 => simp [classLoop, classMembers]

theorem Atom.accepts_iff {a : Atom} (h : a.WellFormed) (b : Byte) :
    a.accepts b = true ↔ b ∈ a.chars := by
  cases a with
  | literal c =>
    have hc : isSpecial c = false := by simpa [Atom.WellFormed] using h
    simp [Atom.accepts, Atom.chars, hc]
  | dot => simp [Atom.accepts, Atom.chars]
  | escape c =>
    have hc : isBracketEscape c = false := by simpa [Atom.WellFormed] using h
    simp [Atom.accepts, Atom.chars, hc]
  | cls body =>
    simp only [Atom.accepts, Atom.chars, classAccepts]
    split_ifs with hinv
    · rw [Set.mem_compl_iff]
      have := classLoop_eq b body.tail false
      simpa using this.not
    · simpa using classLoop_eq b body false

section Reading

theorem atoi_of_le {l : List Byte} (h : decimal (l.takeWhile isDigit) ≤ 255) :
    atoi l = decimal (l.takeWhile isDigit) := by
  unfold atoi
  generalize decimal (l.takeWhile isDigit) = n at h ⊢
  have hmin : min n (2 ^ 63 - 1) = n := min_eq_left (by omega)
  rw [hmin]
  exact Int.bmod_eq_of_le (by omega) (by omega)

theorem Bound.takeWhile (n : Bound) {c : Byte} {l : List Byte} (hc : isDigit c = false) :
    (n.digits ++ c :: l).takeWhile isDigit = n.digits :=
  takeWhile_digits n.isDigits hc l

theorem Bound.dropWhile (n : Bound) {c : Byte} {l : List Byte} (hc : isDigit c = false) :
    (n.digits ++ c :: l).dropWhile isDigit = c :: l :=
  dropWhile_digits n.isDigits hc l

theorem Bound.atoi (n : Bound) {c : Byte} {l : List Byte} (hc : isDigit c = false) :
    Bre.atoi (n.digits ++ c :: l) = n.value := by
  have hle := n.le
  rw [← n.takeWhile (l := l) hc] at hle
  rw [atoi_of_le hle, n.takeWhile hc]
  rfl

theorem bracesMax_close (min : ℤ) (l : List Byte) :
    bracesMax min ((['\\', '}'] : List Byte) ++ l) = .ok ((min, -1), l) := by
  simp [bracesMax, after]

theorem bracesMax_bound {min : ℤ} (n : Bound) (h : min ≤ n.value) (l : List Byte) :
    bracesMax min (n.digits ++ ((['\\', '}'] : List Byte) ++ l)) = .ok ((min, n.value), l) := by
  have hc : isDigit '\\' = false := by decide
  obtain ⟨d, ds, hd⟩ := List.exists_cons_of_ne_nil n.nonempty
  have hdigit : isDigit d := n.isDigits d (by simp [hd])
  have hnot : after ['\\', '}'] (n.digits ++ ((['\\', '}'] : List Byte) ++ l)) = none := by
    have hne : ((('\\' : Char) : Byte)) ≠ d := fun he => by rw [← he, hc] at hdigit; cases hdigit
    rw [hd]
    simp [after, hne]
  have hle : ((n.value : ℕ) : ℤ) ≤ 255 := by exact_mod_cast n.le
  unfold bracesMax
  rw [hnot]
  simp only [List.cons_append, List.nil_append, n.takeWhile hc, n.dropWhile hc, n.atoi hc]
  rw [if_neg (by simpa using n.nonempty), if_neg (by unfold breDupMax; omega)]
  simp [after]

theorem braces_bound (n : Bound) {c : Byte} (hc : isDigit c = false) (l : List Byte) :
    braces (n.digits ++ c :: l) =
      match after ['\\', '}'] (c :: l) with
      | some rest => .ok ((n.value, n.value), rest)
      | none =>
        match after [','] (c :: l) with
        | some rest => bracesMax n.value rest
        | none => .stop .error := by
  have hle : ((n.value : ℕ) : ℤ) ≤ 255 := by exact_mod_cast n.le
  unfold braces
  simp only [n.takeWhile hc, n.dropWhile hc, n.atoi hc]
  have hdigits : ¬ n.digits.isEmpty = true := by simpa using n.nonempty
  have hmax : ¬ breDupMax < n.value := by
    unfold breDupMax
    omega
  exact (if_neg hdigits).trans (if_neg hmax)

theorem quantifier_braces (l : List Byte) :
    quantifier (((('\\' : Char) : Byte)) :: ((('{' : Char) : Byte)) :: l) = braces l := by
  simp +decide [quantifier, after]

/-- A quantifier is read back with its bounds. -/
theorem quantifier_render (q : Quantifier) (l : List Byte) :
    quantifier (q.render ++ l) = .ok (q.bounds, l) := by
  cases q with
  | star => simp [quantifier, Quantifier.render, Quantifier.bounds, after]
  | plus => simp +decide [quantifier, Quantifier.render, Quantifier.bounds, after]
  | exactly n =>
    simp only [Quantifier.render, List.append_assoc, List.cons_append, List.nil_append,
      quantifier_braces]
    rw [braces_bound n (show isDigit _ = false by decide)]
    simp [after, Quantifier.bounds]
  | atLeast n =>
    simp only [Quantifier.render, List.append_assoc, List.cons_append, List.nil_append,
      quantifier_braces]
    rw [braces_bound n (show isDigit _ = false by decide)]
    simpa +decide [after, Quantifier.bounds] using bracesMax_close n.value l
  | between n m h =>
    simp only [Quantifier.render, List.append_assoc, List.cons_append, List.nil_append,
      quantifier_braces]
    rw [braces_bound n (show isDigit _ = false by decide)]
    have hm := bracesMax_bound m (show (n.value : ℤ) ≤ m.value by exact_mod_cast h) l
    simpa +decide [after, Quantifier.bounds] using hm

theorem closeBracket_append {body : List Byte} (h : ((']' : Char) : Byte) ∉ body) (l : List Byte) :
    closeBracket (body ++ ((']' : Char) : Byte) :: l) = some (body, l) := by
  induction body with
  | nil => simp [closeBracket]
  | cons c body ih =>
    simp only [List.mem_cons, not_or] at h
    simp [closeBracket, Ne.symm h.1, ih h.2]

theorem closeClass_append {body : List Byte} (h : ((']' : Char) : Byte) ∉ body) (l : List Byte) :
    closeClass (body ++ ((']' : Char) : Byte) :: l) = some (body, l) := by
  cases body with
  | nil => simp +decide [closeClass, closeBracket]
  | cons c body =>
    by_cases hc : c = '^'
    · have hbody : ((']' : Char) : Byte) ∉ body := fun hm => h (List.mem_cons_of_mem _ hm)
      simp [closeClass, hc, closeBracket_append hbody]
    · have hall := closeBracket_append h l
      simpa [closeClass, hc] using hall

theorem isSpecial_eq_false {c : Byte} (h : ¬ isSpecial c) :
    c ≠ '\\' ∧ c ≠ '[' ∧ c ≠ '.' ∧ c ≠ '^' ∧ c ≠ '$' ∧ c ≠ '*' := by
  simpa [isSpecial, not_or] using h

theorem isBracketEscape_eq_false {c : Byte} (h : ¬ isBracketEscape c) :
    c ≠ '(' ∧ c ≠ ')' ∧ c ≠ '{' ∧ c ≠ '}' := by
  simpa [isBracketEscape, not_or] using h

/-- A well-formed atom is read back. -/
theorem head_render {a : Atom} (ha : a.WellFormed) (l : List Byte) :
    head (a.render ++ l) = atomHead a l := by
  cases a with
  | literal c =>
    obtain ⟨hback, hopen, hdot, -, hend, -⟩ := isSpecial_eq_false ha
    simp [head, Atom.render, hback, hopen, hdot, hend]
  | dot => simp +decide [head, Atom.render]
  | escape c =>
    obtain ⟨hparen, -⟩ := isBracketEscape_eq_false ha
    have hbr : isBracketEscape c = false := by simpa [Atom.WellFormed] using ha
    simp +decide [head, Atom.render, hparen, hbr]
  | cls body =>
    have hclose := closeClass_append ha l
    simp +decide [head, Atom.render, hclose]

/-- `l` does not begin with a quantifier. -/
abbrev NoQuantifier (l : List Byte) : Prop := quantifier l = .noMatch

theorem noQuantifier_end (eol : Bool) : NoQuantifier (if eol then (['$'] : List Byte) else []) := by
  cases eol with
  | false => rfl
  | true => decide

theorem Item.noQuantifier {it : Item} (h : it.atom ≠ .escape '+') (l : List Byte) :
    NoQuantifier (it.render ++ l) := by
  have hwf := it.wf
  unfold NoQuantifier Bre.quantifier Item.render
  rw [List.append_assoc]
  generalize (it.quantifier.elim [] Quantifier.render) ++ l = l
  cases ha : it.atom with
  | literal c =>
    rw [ha] at hwf
    obtain ⟨hback, -, -, -, -, hstar⟩ := isSpecial_eq_false hwf
    simp [Atom.render, after, Ne.symm hback, Ne.symm hstar]
  | dot => simp +decide [Atom.render, after]
  | escape c =>
    rw [ha] at hwf
    obtain ⟨-, -, hopen, -⟩ := isBracketEscape_eq_false hwf
    have hplus : ((('+' : Char) : Byte)) ≠ c := fun he => h (by rw [ha, he])
    simp +decide [Atom.render, after, hplus, Ne.symm hopen]
  | cls body => simp +decide [Atom.render, after]

theorem atomHead_item (it : Item) {l : List Byte} (h : it.quantifier = none → NoQuantifier l) :
    atomHead it.atom (it.quantifier.elim [] Quantifier.render ++ l) =
      .one it.atom it.bounds.1 it.bounds.2 l := by
  unfold atomHead Item.bounds
  cases hq : it.quantifier with
  | none => simp [show quantifier l = .noMatch from h hq]
  | some q => simp [quantifier_render q l]

/-- The program of a row of items before `P`. -/
def itemsBefore (items : List Item) (P : Prog) : Prog :=
  items.foldr (fun it P => .one it.atom it.bounds.1 it.bounds.2 P) P

def itemsProg (items : List Item) (eol : Bool) : Prog :=
  itemsBefore items (if eol then .atEnd else .done)

theorem parse_items_append {items : List Item} (h : items.IsChain Item.follows) {l : List Byte}
    (hl : NoQuantifier l) :
    Prog.parse (items.flatMap Item.render ++ l) = itemsBefore items (Prog.parse l) := by
  induction items with
  | nil => rfl
  | cons it items ih =>
    have hnext : it.quantifier = none → NoQuantifier (items.flatMap Item.render ++ l) := by
      intro hq
      cases items with
      | nil => exact hl
      | cons next items =>
        have hfollows := (List.isChain_cons_cons.mp h).1 hq
        rw [List.flatMap_cons, List.append_assoc]
        exact next.noQuantifier hfollows _
    rw [Prog.parse_eq, List.flatMap_cons, List.append_assoc]
    conv_lhs => rw [Item.render]
    rw [List.append_assoc, head_render it.wf, atomHead_item it hnext]
    simp only [Head.prog, ih h.of_cons]
    rfl

theorem parse_items {items : List Item} (h : items.IsChain Item.follows) (eol : Bool) :
    Prog.parse (items.flatMap Item.render ++ (if eol then (['$'] : List Byte) else [])) =
      itemsProg items eol := by
  rw [parse_items_append h (noQuantifier_end eol), itemsProg]
  congr 1
  rw [Prog.parse_eq]
  cases eol <;> simp [head, Head.prog]

end Reading

/-- The repetition an item runs as. -/
def Item.rep (it : Item) : Rep Byte :=
  ⟨it.atom.accepts, it.bounds.1.toNat, maxPossible it.bounds.2⟩

theorem maxPossible_natCast (n : ℕ) : maxPossible n = n := by
  simp [maxPossible]

theorem Item.cappedCounts_eq (it : Item) :
    it.cappedCounts = Set.Icc it.bounds.1.toNat (maxPossible it.bounds.2) := by
  unfold Item.cappedCounts Item.bounds
  cases it.quantifier with
  | none =>
    ext n
    simp [maxPossible]
  | some q =>
    cases q with
    | star =>
      ext n
      simp [Quantifier.cappedCounts, Quantifier.counts, Quantifier.bounds, maxPossible]
    | plus =>
      ext n
      simp [Quantifier.cappedCounts, Quantifier.counts, Quantifier.bounds, maxPossible]
    | exactly n =>
      ext k
      simp [Quantifier.cappedCounts, Quantifier.counts, Quantifier.bounds, maxPossible_natCast]
    | atLeast n =>
      ext k
      simp [Quantifier.cappedCounts, Quantifier.counts, Quantifier.bounds, maxPossible]
    | between n m h =>
      ext k
      simp [Quantifier.cappedCounts, Quantifier.counts, Quantifier.bounds, maxPossible_natCast]

theorem Item.rep_lang (it : Item) : it.rep.lang = it.cappedLang := by
  unfold Item.cappedLang Rep.lang
  rw [it.cappedCounts_eq]
  congr 1
  ext b
  exact Atom.accepts_iff it.wf b

theorem Pattern.cappedLang_eq (p : Pattern) :
    p.cappedLang = ((p.items.map Item.rep).map Rep.lang).prod := by
  unfold Pattern.cappedLang
  rw [List.map_map]
  congr 2
  funext it
  exact it.rep_lang.symm

end ValidcTools.Bre
