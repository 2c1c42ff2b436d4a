import ValidcTools.Bre.Atoms

/-! The backtracking matcher of `bre.c`, from `match_repeated` up to `bre_substitute`.
The captures are threaded as a state, since the C code records them in place and never takes
one back. -/
namespace ValidcTools.Bre

variable {σ α β : Type}

/-- `if (r != BRE_OK) return r;` -/
def ifOk (r : Res α × σ) (f : α → σ → Res β × σ) : Res β × σ :=
  match r with
  | (.ok a, m) => f a m
  | (.noMatch, m) => (.noMatch, m)
  | (.stop s, m) => (.stop s, m)

@[simp] theorem ifOk_ok (a : α) (m : σ) (f : α → σ → Res β × σ) : ifOk (.ok a, m) f = f a m := rfl

@[simp] theorem ifOk_noMatch (m : σ) (f : α → σ → Res β × σ) :
    ifOk (.noMatch, m) f = (.noMatch, m) := rfl

@[simp] theorem ifOk_stop (s : Stop) (m : σ) (f : α → σ → Res β × σ) :
    ifOk (.stop s, m) f = (.stop s, m) := rfl

/-- `int advs[256]` records no more advances than this. -/
def advsSize : ℕ := 256

/-- `have <= 256 ? advs[have - 1] : 1`, where `adv` is the advance of iteration `have`. -/
def lastAdv (taken : ℕ) (adv : ℤ) : ℤ := if taken ≤ advsSize then adv else 1

/-- An open upper bound (`max < 0`) stands for 10000 iterations. -/
def maxPossible (max : ℤ) : ℕ := if max < 0 then 10000 else max.toNat

/-- First loop of `match_repeated`: the advances of the iterations made, latest first. -/
def countUp (once : ℤ → σ → Res ℤ × σ) : ℕ → ℤ → List ℤ → σ → Res (ℤ × List ℤ) × σ
  | 0, tpos, advs, m => (.ok (tpos, advs), m)
  | n + 1, tpos, advs, m =>
    match once tpos m with
    | (.ok adv, m) => countUp once n (tpos + adv) (adv :: advs) m
    | (.noMatch, m) => (.ok (tpos, advs), m)
    | (.stop s, m) => (.stop s, m)

/-- Second loop of `match_repeated`. -/
def countDown (rest : ℤ → σ → Res β × σ) (min : ℤ) :
    List ℤ → ℤ → σ → Res (ℤ × β) × σ
  | [], tpos, m =>
    if (0 : ℤ) < min then (.noMatch, m)
    else ifOk (rest tpos m) fun b m => (.ok (tpos, b), m)
  | adv :: advs, tpos, m =>
    if ((advs.length + 1 : ℕ) : ℤ) < min then (.noMatch, m)
    else match rest tpos m with
      | (.ok b, m) => (.ok (tpos, b), m)
      | (.stop s, m) => (.stop s, m)
      | (.noMatch, m) => countDown rest min advs (tpos - lastAdv (advs.length + 1) adv) m

/-- `match_repeated`: the span of the repeated atom and what the remainder of the pattern gave. -/
def matchRepeated (once : ℤ → σ → Res ℤ × σ) (rest : ℤ → σ → Res β × σ) (min max : ℤ) (ti : ℤ)
    (m : σ) : Res (ℤ × β) × σ :=
  ifOk (countUp once (maxPossible max) ti [] m) fun (tpos, advs) m =>
    ifOk (countDown rest min advs tpos m) fun (tpos, b) m => (.ok (tpos - ti, b), m)

/-- The loop of the special case `\(.*\)`: `ttry` runs down from `ti + k` to `ti`. A success of
the remainder counts only while there is room for one more capture. -/
def scanBack (room : σ → Bool) (rest : ℤ → σ → Res β × σ) (ti : ℤ) : ℕ → σ → Res (ℤ × β) × σ
  | 0, m =>
    match rest ti m with
    | (.ok b, m) => if room m then (.ok (ti, b), m) else (.noMatch, m)
    | (.noMatch, m) => (.noMatch, m)
    | (.stop s, m) => (.stop s, m)
  | k + 1, m =>
    match rest (ti + (k + 1 : ℕ)) m with
    | (.ok b, m) => if room m then (.ok (ti + (k + 1 : ℕ), b), m) else scanBack room rest ti k m
    | (.noMatch, m) => scanBack room rest ti k m
    | (.stop s, m) => (.stop s, m)

/-- The general case of `match_group_without_quantifier`: the group is looked for from `tpos`
on. The fuel exceeds the distance to the end of the text, where the loop breaks. -/
def scanForward (text : CString) (inner : ℤ → σ → Res ℤ × σ) (rest : ℤ → σ → Res β × σ) :
    ℕ → ℤ → σ → Res (ℤ × ℤ × β) × σ
  | 0, _, m => (.noMatch, m)
  | n + 1, tpos, m =>
    match text.read? tpos with
    | none => (.stop .outOfBounds, m)
    | some b =>
      if b = 0 then (.noMatch, m)
      else match inner tpos m with
        | (.stop s, m) => (.stop s, m)
        | (.noMatch, m) => scanForward text inner rest n (tpos + 1) m
        | (.ok adv, m) =>
          match rest (tpos + adv) m with
          | (.ok b, m) => (.ok (tpos, adv, b), m)
          | (.noMatch, m) => scanForward text inner rest n (tpos + 1) m
          | (.stop s, m) => (.stop s, m)

/-- `while (ctx->text[tcur]) tcur++` -/
def scanEnd (text : CString) (ti : ℤ) : Option ℤ :=
  if 0 ≤ ti ∧ ti ≤ text.length then some text.length else none

structure Span where
  start : ℤ
  length : ℤ
deriving DecidableEq

def breMaxGroups : ℕ := 9

/-- The entries of `groups` from `num_groups` on keep their reset value and are not kept here. -/
@[ext] structure BreMatch where
  start : ℤ := -1
  length : ℤ := 0
  groups : List Span := []
  bounded : groups.length ≤ breMaxGroups := by first | exact Nat.zero_le breMaxGroups | decide
deriving DecidableEq

namespace BreMatch

def numGroups (m : BreMatch) : ℕ := m.groups.length

def room (m : BreMatch) : Bool := decide (m.numGroups < breMaxGroups)

/-- Store a capture at `groups[num_groups++]`, if there is room. -/
def record (m : BreMatch) (g : Span) : BreMatch :=
  if h : m.groups.length < breMaxGroups then
    { m with groups := m.groups ++ [g], bounded := by rw [List.length_append]; exact h }
  else m

end BreMatch

structure MatchContext where
  text : CString
  ti : ℤ
  pat : CString
  pi : ℕ
  pend : ℕ

abbrev MatchHere := MatchContext → BreMatch → Res ℤ × BreMatch

def onceGroupInner (matchHere : MatchHere) (ctx : MatchContext) (innerStart innerEnd : ℕ) (tpos : ℤ)
    (m : BreMatch) : Res ℤ × BreMatch :=
  matchHere { ctx with ti := tpos, pi := innerStart, pend := innerEnd } m

/-- `ctx->pi = atom_end` is left out: no caller reads it. -/
def matchGroupWithoutQuantifier (matchHere : MatchHere) (ctx : MatchContext) (m : BreMatch)
    (innerStart innerEnd atomEnd : ℕ) : Res ℤ × BreMatch :=
  let rest := fun tpos => matchHere { ctx with ti := tpos, pi := atomEnd }
  if innerEnd = innerStart + 2 ∧ ctx.pat.get innerStart = '.' ∧ ctx.pat.get (innerStart + 1) = '*' then
    match scanEnd ctx.text ctx.ti with
    | none => (.stop .outOfBounds, m)
    | some tcur =>
      ifOk (scanBack BreMatch.room rest ctx.ti (tcur - ctx.ti).toNat m) fun (ttry, restTotal) m =>
        (.ok (ttry - ctx.ti + restTotal), m.record ⟨ctx.ti, ttry - ctx.ti⟩)
  else
    ifOk (scanForward ctx.text (onceGroupInner matchHere ctx innerStart innerEnd) rest
        ((ctx.text.length - ctx.ti).toNat + 1) ctx.ti m) fun (tpos, adv, restTotal) m =>
      (.ok (tpos - ctx.ti + adv + restTotal), m.record ⟨tpos, adv⟩)

def matchGroupWithQuantifier (matchHere : MatchHere) (ctx : MatchContext) (m : BreMatch)
    (innerStart innerEnd : ℕ) (rep : BreRepetition) : Res ℤ × BreMatch :=
  ifOk (matchRepeated (onceGroupInner matchHere ctx innerStart innerEnd)
      (fun tpos => matchHere { ctx with ti := tpos, pi := rep.nextPi }) rep.min rep.max ctx.ti m)
    fun (groupSpan, restTotal) m => (.ok (groupSpan + restTotal), m.record ⟨ctx.ti, groupSpan⟩)

def matchGroup (matchHere : MatchHere) (ctx : MatchContext) (m : BreMatch) : Res ℤ × BreMatch :=
  match findGroupEnd ctx.pat ctx.pi ctx.pend with
  | none => (.stop .error, m)
  | some gend =>
    match parseQuantifier ctx.pat (gend + 2) ctx.pend with
    | .stop s => (.stop s, m)
    | .noMatch => matchGroupWithoutQuantifier matchHere ctx m (ctx.pi + 2) gend (gend + 2)
    | .ok rep => matchGroupWithQuantifier matchHere ctx m (ctx.pi + 2) gend rep

/-- What `match_here` does with a single-character atom, once it knows where the atom ends: an
absent quantifier is the repetition `{1,1}`. -/
def matchAtom (matchHere : MatchHere) (ctx : MatchContext) (m : BreMatch) (once : ℤ → Res ℤ)
    (atomEnd : ℕ) : Res ℤ × BreMatch :=
  let run (rep : BreRepetition) :=
    ifOk (matchRepeated (fun tpos m => (once tpos, m))
        (fun tpos => matchHere { ctx with ti := tpos, pi := rep.nextPi }) rep.min rep.max ctx.ti m)
      fun (span, restTotal) m => (.ok (span + restTotal), m)
  match parseQuantifier ctx.pat atomEnd ctx.pend with
  | .stop s => (.stop s, m)
  | .noMatch => run ⟨1, 1, atomEnd⟩
  | .ok rep => run rep

/-- `match_here`, by recursion on a fuel that bounds the number of pattern items. -/
def matchHere : ℕ → MatchHere
  | 0, _, m => (.stop .outOfFuel, m)
  | fuel + 1, ctx, m =>
    let ch := ctx.pat.get ctx.pi
    let esc := ctx.pat.get (ctx.pi + 1)
    if ctx.pi ≥ ctx.pend then (.ok 0, m)
    else if ch = '$' ∧ ctx.pi + 1 = ctx.pend then
      match ctx.text.read? ctx.ti with
      | none => (.stop .outOfBounds, m)
      | some b => if b = 0 then (.ok 0, m) else (.noMatch, m)
    else if ch = '\\' ∧ ctx.pi + 1 < ctx.pend ∧ esc = '(' then matchGroup (matchHere fuel) ctx m
    else if ch = '[' then
      match findClassEndSimple ctx.pat ctx.pi ctx.pend with
      | none => (.stop .error, m)
      | some atomEnd =>
        matchAtom (matchHere fuel) ctx m (onceClass ctx.text ctx.pat ctx.pend ctx.pi) atomEnd
    else if ch = '.' then matchAtom (matchHere fuel) ctx m (onceDot ctx.text) (ctx.pi + 1)
    else if ch = '\\' then
      if ctx.pi + 1 ≥ ctx.pend then (.stop .error, m)
      else if isBracketEscape esc then (.stop .error, m)
      else matchAtom (matchHere fuel) ctx m (onceEscape ctx.text ctx.pat ctx.pend ctx.pi) (ctx.pi + 2)
    else matchAtom (matchHere fuel) ctx m (onceLiteral ctx.text ctx.pat ctx.pi) (ctx.pi + 1)

/-- The sort key of a capture: an unset start sorts after every set one. -/
def groupKey (g : Span) : ℤ := if g.start < 0 then 2147483647 else g.start

/-- One step of the insertion sort, on the sorted prefix read from its right end. -/
def insertFromRight (g : Span) : List Span → List Span
  | [] => [g]
  | h :: hs => if groupKey h ≤ groupKey g then g :: h :: hs else h :: insertFromRight g hs

def sortGroups (gs : List Span) : List Span :=
  (gs.foldl (fun sorted g => insertFromRight g sorted) []).reverse

theorem length_insertFromRight (g : Span) (l : List Span) :
    (insertFromRight g l).length = l.length + 1 := by
  induction l with
  | nil => rfl
  | cons h hs ih => unfold insertFromRight; split_ifs <;> simp [ih]

theorem length_sortGroups (gs : List Span) : (sortGroups gs).length = gs.length := by
  have h : ∀ acc : List Span,
      (gs.foldl (fun sorted g => insertFromRight g sorted) acc).length = acc.length + gs.length := by
    induction gs with
    | nil => simp
    | cons g gs ih => intro acc; simp [ih, length_insertFromRight]; omega
  simp [sortGroups, h]

/-- The match as `bre_match` reports it, with its captures sorted by `bre_sort_groups_by_start`. -/
def BreMatch.finish (m : BreMatch) (start length : ℤ) : BreMatch where
  start := start
  length := length
  groups := sortGroups m.groups
  bounded := by simpa [length_sortGroups] using m.bounded

/-- The loop of `bre_match` over the start positions from `s` on, with `n + 1` tries left. -/
def matchFrom (attempt : ℤ → Res ℤ × BreMatch) : ℕ → ℕ → Res BreMatch
  | 0, s =>
    match attempt s with
    | (.ok consumed, m) => .ok (m.finish s consumed)
    | (.noMatch, _) => .noMatch
    | (.stop e, _) => .stop e
  | n + 1, s =>
    match attempt s with
    | (.ok consumed, m) => .ok (m.finish s consumed)
    | (.noMatch, _) => matchFrom attempt n (s + 1)
    | (.stop e, _) => .stop e

def anchoredStart (pattern : CString) : Bool := decide (0 < pattern.length ∧ pattern.get 0 = '^')

def breMatch (text pattern : CString) : Res BreMatch :=
  let attempt (pi : ℕ) (ti : ℤ) :=
    matchHere (pattern.length + 1) ⟨text, ti, pattern, pi, pattern.length⟩ {}
  if anchoredStart pattern then
    match attempt 1 0 with
    | (.ok consumed, m) => .ok (m.finish 0 consumed)
    | (.noMatch, _) => .noMatch
    | (.stop e, _) => .stop e
  else matchFrom (attempt 0) text.length 0

/-- `memcpy` of `n` bytes of `text` from `i` on: `none` when it leaves the text. -/
def copyBytes (text : CString) (i n : ℤ) : Option (List Byte) :=
  if 0 ≤ i ∧ 0 ≤ n ∧ i + n ≤ text.length then some (text.slice i.toNat (i + n).toNat) else none

/-- The second pass over the replacement. -/
def expandReplacement (text : CString) (m : BreMatch) : List Byte → Option (List Byte)
  | [] => some []
  | [r] => some [r]
  | r :: d :: rest =>
    if r = '\\' ∧ '1' ≤ d ∧ d ≤ '9' then
      match m.groups[(d - '1').toNat]? with
      | some g =>
        if 0 ≤ g.start then do
          let span ← copyBytes text g.start g.length
          let tail ← expandReplacement text m rest
          some (span ++ tail)
        else expandReplacement text m rest
      | none => expandReplacement text m rest
    else (expandReplacement text m (d :: rest)).map (r :: ·)

/-- The string `bre_substitute` returns, its `NULL`, or a copy that leaves the text. -/
inductive Substitution
  | string (s : CString)
  | null
  | undefined
deriving DecidableEq

def breSubstitute (text pattern replacement : CString) : Substitution :=
  match breMatch text pattern with
  | .stop .error => .null
  | .stop _ => .undefined
  | .noMatch => .string text
  | .ok m =>
    if m.start < 0 then .string text
    else
      let suffixStart := m.start + m.length
      match copyBytes text 0 m.start, expandReplacement text m replacement.bytes,
          copyBytes text suffixStart (text.length - suffixStart) with
      | some pre, some mid, some suf => .string (.ofBytes (pre ++ mid ++ suf))
      | _, _, _ => .undefined

end ValidcTools.Bre
