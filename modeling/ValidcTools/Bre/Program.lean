import ValidcTools.Bre.Matcher

/-! Patterns as programs. `Prog.parse` reads a pattern once and for all into the items that
`match_here` meets in it; `Prog.run` executes them with the loops of the C code, and
`matchHere_eq_run` says that this is what `match_here` computes. -/
namespace ValidcTools.Bre

/-- The atoms that match a single character. A class keeps the bytes between its brackets. -/
inductive Atom
  | literal (c : Byte)
  | dot
  | escape (c : Byte)
  | cls (body : List Byte)
deriving DecidableEq

def classLoop (c : Byte) : List Byte → Bool → Option Byte → Bool
  | [], matched, _ => matched
  | [x], matched, _ => matched || decide (x = c)
  | x :: d :: rest, matched, prev =>
    if x = '-' ∧ prev.isSome then
      classLoop c rest (matched || decide (prev.getD 0 ≤ c ∧ c ≤ d)) none
    else classLoop c (d :: rest) (matched || decide (x = c)) (some x)

def classAccepts (body : List Byte) (c : Byte) : Bool :=
  if body.head? = some (('^' : Char) : Byte) then !classLoop c body.tail false none
  else classLoop c body false none

def Atom.accepts : Atom → Byte → Bool
  | .literal c, b => !isSpecial c && decide (b = c)
  | .dot, _ => true
  | .escape c, b => !isBracketEscape c && decide (b = c)
  | .cls body, b => classAccepts body b

def Atom.isLiteral : Atom → Bool
  | .literal _ => true
  | _ => false

def Atom.once (text : CString) (a : Atom) (tpos : ℤ) : Res ℤ :=
  if a.isLiteral ∧ tpos < 0 then .noMatch
  else match text.read? tpos with
    | none => .stop .outOfBounds
    | some b => if b ≠ 0 ∧ a.accepts b then .ok 1 else .noMatch

/-- The items of a pattern, in order. `bad` is a place where `match_here` returns `BRE_ERROR`. -/
inductive Prog
  | done
  | atEnd
  | bad
  | one (a : Atom) (min max : ℤ) (rest : Prog)
  | group (inner rest : Prog)
  | dotStar (rest : Prog)
  | groupRep (inner : Prog) (min max : ℤ) (rest : Prog)
deriving DecidableEq

/-- What becomes of the captures: `room` is asked by `\(.*\)` only. -/
structure Recorder (σ : Type) where
  room : σ → Bool
  record : σ → Span → σ

variable {σ : Type}

/-- What a run makes of the remainder's result at a position, for a group repeated from `ti` on. -/
abbrev Guard := ℤ → ℤ → Res ℤ → Res ℤ

/-- The code's matcher takes every result as it is. -/
def noGuard : Guard := fun _ _ r => r

def Prog.run (guard : Guard) (R : Recorder σ) (text : CString) :
    Prog → ℤ → σ → Res ℤ × σ
  | .done, _, m => (.ok 0, m)
  | .atEnd, ti, m =>
    match text.read? ti with
    | none => (.stop .outOfBounds, m)
    | some b => if b = 0 then (.ok 0, m) else (.noMatch, m)
  | .bad, _, m => (.stop .error, m)
  | .one a min max rest, ti, m =>
    ifOk (matchRepeated (fun tpos m => (a.once text tpos, m)) (rest.run guard R text) min max ti m)
      fun (span, restTotal) m => (.ok (span + restTotal), m)
  | .group inner rest, ti, m =>
    ifOk (scanForward text (inner.run guard R text) (rest.run guard R text)
        ((text.length - ti).toNat + 1) ti m) fun (tpos, adv, restTotal) m =>
      (.ok (tpos - ti + adv + restTotal), R.record m ⟨tpos, adv⟩)
  | .dotStar rest, ti, m =>
    match scanEnd text ti with
    | none => (.stop .outOfBounds, m)
    | some tcur =>
      ifOk (scanBack R.room (rest.run guard R text) ti (tcur - ti).toNat m) fun (ttry, restTotal) m =>
        (.ok (ttry - ti + restTotal), R.record m ⟨ti, ttry - ti⟩)
  | .groupRep inner min max rest, ti, m =>
    ifOk (matchRepeated (inner.run guard R text)
        (fun tpos m => (rest.run guard R text tpos m).map (guard ti tpos) id) min max ti m)
      fun (groupSpan, restTotal) m => (.ok (groupSpan + restTotal), R.record m ⟨ti, groupSpan⟩)

/-- `l` without the prefix `p`. -/
def after : List Byte → List Byte → Option (List Byte)
  | [], l => some l
  | _ :: _, [] => none
  | c :: p, d :: l => if c = d then after p l else none

/-- The part of a brace quantifier after `\{n,`. -/
def bracesMax (min : ℤ) (l : List Byte) : Res ((ℤ × ℤ) × List Byte) :=
  match after ['\\', '}'] l with
  | some rest => .ok ((min, -1), rest)
  | none =>
    if (l.takeWhile isDigit).isEmpty then .stop .error
    else if atoi l > breDupMax ∨ min > atoi l then .stop .error
    else match after ['\\', '}'] (l.dropWhile isDigit) with
      | some rest => .ok ((min, atoi l), rest)
      | none => .stop .error

/-- A brace quantifier, after its `\{`. -/
def braces (l : List Byte) : Res ((ℤ × ℤ) × List Byte) :=
  if (l.takeWhile isDigit).isEmpty then .stop .error
  else if atoi l > breDupMax then .stop .error
  else match after ['\\', '}'] (l.dropWhile isDigit) with
    | some rest => .ok ((atoi l, atoi l), rest)
    | none =>
      match after [','] (l.dropWhile isDigit) with
      | some rest => bracesMax (atoi l) rest
      | none => .stop .error

/-- The quantifier at the head of `l`, with its bounds and what follows it. -/
def quantifier (l : List Byte) : Res ((ℤ × ℤ) × List Byte) :=
  match after ['*'] l with
  | some rest => .ok ((0, -1), rest)
  | none =>
    match after ['\\', '+'] l with
    | some rest => .ok ((1, -1), rest)
    | none =>
      match after ['\\', '{'] l with
      | some rest => braces rest
      | none => .noMatch

section Digits

variable {ds : List Byte} {c : Byte}

theorem takeWhile_digits (h : ∀ d ∈ ds, isDigit d) (hc : isDigit c = false) (l : List Byte) :
    (ds ++ c :: l).takeWhile isDigit = ds := by
  rw [List.takeWhile_append_of_pos h, List.takeWhile_cons, hc, if_neg Bool.false_ne_true,
    List.append_nil]

theorem dropWhile_digits (h : ∀ d ∈ ds, isDigit d) (hc : isDigit c = false) (l : List Byte) :
    (ds ++ c :: l).dropWhile isDigit = c :: l := by
  rw [List.dropWhile_append_of_pos h, List.dropWhile_cons, hc, if_neg Bool.false_ne_true]

end Digits

/-- Split at the first `\)`. -/
def closeGroup : List Byte → Option (List Byte × List Byte)
  | [] => none
  | c :: l =>
    match after ['\\', ')'] (c :: l) with
    | some rest => some ([], rest)
    | none => (closeGroup l).map fun r => (c :: r.1, r.2)

/-- Split at the first `]`. -/
def closeBracket : List Byte → Option (List Byte × List Byte)
  | [] => none
  | c :: l => if c = ']' then some ([], l) else (closeBracket l).map fun r => (c :: r.1, r.2)

/-- The body of a class and what follows it; a leading `^` is no candidate for the end. -/
def closeClass : List Byte → Option (List Byte × List Byte)
  | [] => none
  | c :: l =>
    if c = '^' then (closeBracket l).map fun r => (c :: r.1, r.2) else closeBracket (c :: l)

theorem after_eq {p l rest : List Byte} (h : after p l = some rest) : l = p ++ rest := by
  induction p generalizing l with
  | nil => simpa [after] using h
  | cons c p ih =>
    cases l with
    | nil => simp [after] at h
    | cons d l =>
      simp only [after] at h
      split_ifs at h with hcd
      simp [hcd, ih h]

theorem closeGroup_eq {l inner rest : List Byte} (h : closeGroup l = some (inner, rest)) :
    l = inner ++ ((['\\', ')'] : List Byte) ++ rest) := by
  induction l generalizing inner with
  | nil => simp [closeGroup] at h
  | cons c l ih =>
    simp only [closeGroup] at h
    split at h
    · rename_i r hr
      obtain ⟨rfl, rfl⟩ : [] = inner ∧ r = rest := by simpa using h
      simpa using after_eq hr
    · obtain ⟨⟨i, r⟩, hr, he⟩ := Option.map_eq_some_iff.mp h
      obtain ⟨rfl, rfl⟩ : c :: i = inner ∧ r = rest := by simpa using he
      exact congrArg (c :: ·) (ih hr)

theorem closeBracket_eq {l body rest : List Byte} (h : closeBracket l = some (body, rest)) :
    l = body ++ (([']'] : List Byte) ++ rest) ∧ ((']' : Char) : Byte) ∉ body := by
  induction l generalizing body with
  | nil => simp [closeBracket] at h
  | cons c l ih =>
    simp only [closeBracket] at h
    split_ifs at h with hc
    · obtain ⟨rfl, rfl⟩ : [] = body ∧ l = rest := by simpa using h
      simp [hc]
    · obtain ⟨⟨b, r⟩, hr, he⟩ := Option.map_eq_some_iff.mp h
      obtain ⟨rfl, rfl⟩ : c :: b = body ∧ r = rest := by simpa using he
      obtain ⟨hl, hb⟩ := ih hr
      exact ⟨congrArg (c :: ·) hl, by simpa using ⟨Ne.symm hc, hb⟩⟩

theorem closeClass_eq {l body rest : List Byte} (h : closeClass l = some (body, rest)) :
    l = body ++ (([']'] : List Byte) ++ rest) := by
  cases l with
  | nil => simp [closeClass] at h
  | cons c l =>
    simp only [closeClass] at h
    split_ifs at h with hc
    · obtain ⟨⟨b, r⟩, hr, he⟩ := Option.map_eq_some_iff.mp h
      obtain ⟨rfl, rfl⟩ : c :: b = body ∧ r = rest := by simpa using he
      exact congrArg (c :: ·) (closeBracket_eq hr).1
    · exact (closeBracket_eq h).1

theorem after_suffix {p l rest : List Byte} (h : after p l = some rest) : rest <:+ l :=
  ⟨p, (after_eq h).symm⟩

theorem bracesMax_suffix {min : ℤ} {l rest : List Byte} {q : ℤ × ℤ}
    (h : bracesMax min l = .ok (q, rest)) : rest <:+ l := by
  unfold bracesMax at h
  split at h
  · rename_i r hr
    obtain ⟨-, rfl⟩ : (min, (-1 : ℤ)) = q ∧ r = rest := by simpa using h
    exact after_suffix hr
  · split_ifs at h
    split at h
    · rename_i r hr
      obtain ⟨-, rfl⟩ : (min, atoi l) = q ∧ r = rest := by simpa using h
      exact (after_suffix hr).trans (List.dropWhile_suffix _)
    · simp at h

theorem braces_suffix {l rest : List Byte} {q : ℤ × ℤ} (h : braces l = .ok (q, rest)) :
    rest <:+ l := by
  have hd : l.dropWhile isDigit <:+ l := List.dropWhile_suffix _
  unfold braces at h
  split_ifs at h
  split at h
  · rename_i r hr
    obtain ⟨-, rfl⟩ : (atoi l, atoi l) = q ∧ r = rest := by simpa using h
    exact (after_suffix hr).trans hd
  · split at h
    · rename_i hr
      exact ((bracesMax_suffix h).trans (after_suffix hr)).trans hd
    · simp at h

/-- A quantifier consumes at least one character. -/
theorem quantifier_suffix {l rest : List Byte} {q : ℤ × ℤ} (h : quantifier l = .ok (q, rest)) :
    ∃ p, p ≠ [] ∧ l = p ++ rest := by
  unfold quantifier at h
  split at h
  · rename_i r hr
    obtain ⟨-, rfl⟩ : ((0 : ℤ), (-1 : ℤ)) = q ∧ r = rest := by simpa using h
    exact ⟨['*'], by simp, after_eq hr⟩
  · split at h
    · rename_i r hr
      obtain ⟨-, rfl⟩ : ((1 : ℤ), (-1 : ℤ)) = q ∧ r = rest := by simpa using h
      exact ⟨['\\', '+'], by simp, after_eq hr⟩
    · split at h
      · rename_i r hr
        obtain ⟨p, rfl⟩ := braces_suffix h
        exact ⟨(['\\', '{'] : List Byte) ++ p, by simp, by rw [after_eq hr, List.append_assoc]⟩
      · simp at h

theorem quantifier_length {l rest : List Byte} {q : ℤ × ℤ} (h : quantifier l = .ok (q, rest)) :
    rest.length < l.length := by
  obtain ⟨p, hp, rfl⟩ := quantifier_suffix h
  have := List.length_pos_iff.mpr hp
  simp only [List.length_append]
  omega

theorem bracesMax_stop {min : ℤ} {l : List Byte} {s : Stop} (h : bracesMax min l = .stop s) :
    s = .error := by
  unfold bracesMax at h
  split at h
  · simp at h
  · split_ifs at h
    · exact (Res.stop.inj h).symm
    · exact (Res.stop.inj h).symm
    · split at h
      · simp at h
      · exact (Res.stop.inj h).symm

theorem quantifier_stop {l : List Byte} {s : Stop} (h : quantifier l = .stop s) : s = .error := by
  unfold quantifier at h
  split at h
  · simp at h
  split at h
  · simp at h
  split at h
  swap
  · simp at h
  unfold braces at h
  split_ifs at h
  · exact (Res.stop.inj h).symm
  · exact (Res.stop.inj h).symm
  split at h
  · simp at h
  split at h
  · exact bracesMax_stop h
  · exact (Res.stop.inj h).symm

/-- The first item of a pattern, with the texts still to be read. -/
inductive Head
  | done
  | atEnd
  | bad
  | one (a : Atom) (min max : ℤ) (rest : List Byte)
  | group (inner rest : List Byte)
  | groupRep (inner : List Byte) (min max : ℤ) (rest : List Byte)

def atomHead (a : Atom) (l : List Byte) : Head :=
  match quantifier l with
  | .stop _ => .bad
  | .noMatch => .one a 1 1 l
  | .ok (q, rest) => .one a q.1 q.2 rest

def groupHead (inner l : List Byte) : Head :=
  match quantifier l with
  | .stop _ => .bad
  | .noMatch => .group inner l
  | .ok (q, rest) => .groupRep inner q.1 q.2 rest

def head : List Byte → Head
  | [] => .done
  | c :: l =>
    if c = '$' ∧ l = [] then .atEnd
    else if c = '\\' ∧ l.head? = some (('(' : Char) : Byte) then
      match closeGroup l.tail with
      | none => .bad
      | some (inner, rest) => groupHead inner rest
    else if c = '[' then
      match closeClass l with
      | none => .bad
      | some (body, rest) => atomHead (.cls body) rest
    else if c = '.' then atomHead .dot l
    else if c = '\\' then
      match l with
      | [] => .bad
      | e :: l => if isBracketEscape e then .bad else atomHead (.escape e) l
    else atomHead (.literal c) l

/-- The texts an item leaves to be read. -/
def Head.texts : Head → List (List Byte)
  | .done | .atEnd | .bad => []
  | .one _ _ _ rest => [rest]
  | .group inner rest => [inner, rest]
  | .groupRep inner _ _ rest => [inner, rest]

theorem atomHead_length (a : Atom) (l : List Byte) :
    ∀ t ∈ (atomHead a l).texts, t.length ≤ l.length := by
  unfold atomHead
  split
  · simp [Head.texts]
  · simp [Head.texts]
  · rename_i q rest hq
    simpa [Head.texts] using (quantifier_length hq).le

theorem groupHead_length (inner l : List Byte) :
    ∀ t ∈ (groupHead inner l).texts, t.length ≤ max inner.length l.length := by
  unfold groupHead
  split
  · simp [Head.texts]
  · simp only [Head.texts, List.forall_mem_cons, List.not_mem_nil, false_imp_iff, implies_true,
      and_true]
    exact ⟨le_max_left _ _, le_max_right _ _⟩
  · rename_i q rest hq
    have hle := (quantifier_length hq).le
    simp only [Head.texts, List.forall_mem_cons, List.not_mem_nil, false_imp_iff, implies_true,
      and_true]
    exact ⟨le_max_left _ _, hle.trans (le_max_right _ _)⟩

theorem head_length (l : List Byte) : ∀ t ∈ (head l).texts, t.length < l.length := by
  intro t ht
  cases l with
  | nil => simp [head, Head.texts] at ht
  | cons c l =>
    simp only [head] at ht
    split_ifs at ht
    · simp [Head.texts] at ht
    · split at ht
      · simp [Head.texts] at ht
      · rename_i inner rest hg
        have hl := congrArg List.length (closeGroup_eq hg)
        have ht := groupHead_length _ _ t ht
        simp only [List.length_append, List.length_cons, List.length_tail] at hl ⊢
        omega
    · split at ht
      · simp [Head.texts] at ht
      · rename_i body rest hc
        have hl := congrArg List.length (closeClass_eq hc)
        have ht := atomHead_length _ _ t ht
        simp only [List.length_append, List.length_cons] at hl ⊢
        omega
    · exact Nat.lt_succ_of_le (atomHead_length _ _ t ht)
    · split at ht
      · simp [Head.texts] at ht
      · split_ifs at ht
        · simp [Head.texts] at ht
        · have ht := atomHead_length _ _ t ht
          simp only [List.length_cons]
          omega
    · exact Nat.lt_succ_of_le (atomHead_length _ _ t ht)

def Prog.parse (l : List Byte) : Prog :=
  match _h : head l with
  | .done => .done
  | .atEnd => .atEnd
  | .bad => .bad
  | .one a min max rest => .one a min max (parse rest)
  | .group inner rest =>
    if inner = (['.', '*'] : List Byte) then .dotStar (parse rest) else .group (parse inner) (parse rest)
  | .groupRep inner min max rest => .groupRep (parse inner) min max (parse rest)
termination_by l.length
decreasing_by
  all_goals
    have ht := head_length l
    simp only [_h, Head.texts, List.mem_cons, List.not_mem_nil, or_false, forall_eq_or_imp,
      forall_eq] at ht
    omega

def Head.prog : Head → Prog
  | .done => .done
  | .atEnd => .atEnd
  | .bad => .bad
  | .one a min max rest => .one a min max (Prog.parse rest)
  | .group inner rest =>
    if inner = (['.', '*'] : List Byte) then .dotStar (Prog.parse rest)
    else .group (Prog.parse inner) (Prog.parse rest)
  | .groupRep inner min max rest => .groupRep (Prog.parse inner) min max (Prog.parse rest)

theorem Prog.parse_eq (l : List Byte) : Prog.parse l = (head l).prog := by
  rw [Prog.parse]
  cases head l <;> rfl

/-- The captures as the C code keeps them. -/
def codeRecorder : Recorder BreMatch := ⟨BreMatch.room, BreMatch.record⟩

end ValidcTools.Bre
