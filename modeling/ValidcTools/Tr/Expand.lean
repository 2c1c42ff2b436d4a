import ValidcTools.CString

/-! The operands of `tr`: what `expand_string` makes of one in its buffer, and the padding of STRING2. -/
namespace ValidcTools.Tr

def MAX_STRING : ℕ := 65536

/-! ## Character classes -/

/-- Every byte, in ascending order. -/
def allBytes : List Byte := (List.range 256).map UInt8.ofNat

/-- `isalpha` -/
def isAlpha (b : Byte) : Bool := decide (('a' ≤ b ∧ b ≤ 'z') ∨ ('A' ≤ b ∧ b ≤ 'Z'))

/-- `isblank` -/
def isBlank (b : Byte) : Bool := decide (b = ' ' ∨ b = 9)

/-- `iscntrl` -/
def isCntrl (b : Byte) : Bool := decide (b < 32 ∨ b = 127)

/-- `isgraph` -/
def isGraph (b : Byte) : Bool := decide (33 ≤ b ∧ b ≤ 126)

/-- `islower` -/
def isLower (b : Byte) : Bool := decide ('a' ≤ b ∧ b ≤ 'z')

/-- `isprint` -/
def isPrint (b : Byte) : Bool := decide (32 ≤ b ∧ b ≤ 126)

/-- `ispunct` -/
def isPunct (b : Byte) : Bool := isGraph b && !isAlnum b

/-- `isupper` -/
def isUpper (b : Byte) : Bool := decide ('A' ≤ b ∧ b ≤ 'Z')

/-- `isxdigit` -/
def isXdigit (b : Byte) : Bool := isDigit b || decide (('a' ≤ b ∧ b ≤ 'f') ∨ ('A' ≤ b ∧ b ≤ 'F'))

def classes : List (CString × (Byte → Bool)) :=
  [(.lit "alnum", isAlnum), (.lit "alpha", isAlpha), (.lit "blank", isBlank),
   (.lit "cntrl", isCntrl), (.lit "digit", isDigit), (.lit "graph", isGraph),
   (.lit "lower", isLower), (.lit "print", isPrint), (.lit "punct", isPunct),
   (.lit "space", isSpace), (.lit "upper", isUpper), (.lit "xdigit", isXdigit)]

/-- `class_func` -/
def classFunc (name : List Byte) : Option (Byte → Bool) :=
  (classes.find? fun c => decide (c.1.bytes = name)).map Prod.snd

/-! ## Constructs -/

/-- `strstr(s, sub)`, as the offset of what it finds. -/
def strstr (s sub : List Byte) : Option ℕ := s.tails.findIdx? sub.isPrefixOf

/-- What is left of a string, and the bytes that were added to the buffer. -/
abbrev Parsed := List Byte × List Byte

/-- `parse_class`, with `len` bytes in the buffer -/
def parseClass (s : List Byte) (len : ℕ) : Option Parsed :=
  match s with
  | 0x5B :: 0x3A :: p =>  -- "[:"
    match strstr p [0x3A, 0x5D] with  -- ":]"
    | none => none
    | some namelen =>
      if namelen = 0 ∨ 32 ≤ namelen then none
      else
        match classFunc (p.take namelen) with
        | none => none
        | some func => some (p.drop (namelen + 2), (allBytes.filter func).take (MAX_STRING - len))
  | _ => none

/-- `strtol(numbuf, &endp, 10)` where `*endp` is the NUL. Values that do not fit in a `long` are
beyond what the caller takes. -/
def strtol (numbuf : List Byte) : Option ℤ :=
  let negative := (numbuf.dropWhile isSpace).head? = some ('-' : Byte)
  let digits := match numbuf.dropWhile isSpace with
    | 0x2B :: ds => ds
    | 0x2D :: ds => ds
    | ds => ds
  if digits ≠ [] ∧ digits.all isDigit then some (if negative then -decimal digits else decimal digits) else none

/-- `parse_repeat(&s, out, &len, 1)`: `none` is `exit(2)`, and `some none` is a return of 0 -/
def parseRepeat (s : List Byte) (len : ℕ) : Option (Option Parsed) :=
  match s with
  | 0x5B :: c :: 0x2A :: p =>  -- '[', c, '*'
    -- with another `c` the first '*' is not at `s + 2`, or the first ']' comes before it
    if c = '*' ∨ c = ']' ∨ 0x5D ∉ p then some none
    else
      let numbuf := p.takeWhile (· ≠ 0x5D)
      let rest := p.drop (numbuf.length + 1)
      if numbuf = [] then
        if len + 3 ≤ MAX_STRING then some (some (rest, [0xFF, 0xFE, c])) else none
      else if 32 ≤ numbuf.length then some none
      else
        match strtol numbuf with
        | none => some none
        | some val =>
          if val ≤ 0 ∨ val > MAX_STRING then some none
          else some (some (rest, List.replicate (min val.toNat (MAX_STRING - len)) c))
  | _ => some none

/-- The length of an equivalence class "[=x=]" at the front, which is copied as it stands. -/
def equivalenceClass (s : List Byte) : Option ℕ :=
  match s with
  | 0x5B :: 0x3D :: p => (strstr p [0x3D, 0x5D]).map (· + 4)
  | _ => none

/-- The bytes from `start` to `stop`. -/
def between (start stop : Byte) : List Byte := allBytes.filter fun c => decide (start ≤ c ∧ c ≤ stop)

/-- What a range adds, whichever end is written first. -/
def rangeBytes (a c : Byte) : List Byte := if a ≤ c then between a c else between c a

/-- The end of the loop's body: a range "a-c", or one literal byte -/
def rangeOrLiteral (s : List Byte) (len : ℕ) : Option Parsed :=
  match s with
  | a :: 0x2D :: c :: rest =>
    if a ≠ '-' ∧ c ≠ '-' then some (rest, (rangeBytes a c).take (MAX_STRING - len))
    else some (0x2D :: c :: rest, [a])
  | a :: rest => some (rest, [a])
  | [] => none

/-- One turn of the loop of `expand_string` on a string that has not ended. -/
def expandTurn (isString2 : Bool) (s : List Byte) (len : ℕ) : Option Parsed :=
  if MAX_STRING ≤ len then none
  else
    match if isString2 then parseRepeat s len else some none with
    | none => none
    | some (some parsed) => some parsed
    | some none =>
      match parseClass s len with
      | some parsed => some parsed
      | none =>
        match equivalenceClass s with
        | some n => some (s.drop (min n (MAX_STRING - len)), s.take (min n (MAX_STRING - len)))
        | none => rangeOrLiteral s len

theorem equivalenceClass_pos {s : List Byte} {n : ℕ} (h : equivalenceClass s = some n) : 0 < n := by
  unfold equivalenceClass at h
  split at h
  · obtain ⟨m, -, rfl⟩ := Option.map_eq_some_iff.mp h
    omega
  · cases h

theorem parseClass_lt {s rest adds : List Byte} {len : ℕ} (h : parseClass s len = some (rest, adds)) :
    rest.length < s.length := by
  unfold parseClass at h
  split at h
  · split at h
    · cases h
    · split_ifs at h
      split at h
      · cases h
      · obtain ⟨rfl, -⟩ := Prod.mk.inj (Option.some.inj h)
        simp only [List.length_drop, List.length_cons]
        omega
  · cases h

theorem parseRepeat_lt {s rest adds : List Byte} {len : ℕ} (h : parseRepeat s len = some (some (rest, adds))) :
    rest.length < s.length := by
  unfold parseRepeat at h
  split at h
  · next c p =>
    have hrest : rest = p.drop ((p.takeWhile (· ≠ 0x5D)).length + 1) := by
      dsimp only at h
      split_ifs at h
      · cases h
      · exact (Prod.mk.inj (Option.some.inj (Option.some.inj h))).1.symm
      · cases h
      · split at h
        · cases h
        · split_ifs at h
          · cases h
          · exact (Prod.mk.inj (Option.some.inj (Option.some.inj h))).1.symm
    rw [hrest]
    simp only [List.length_drop, List.length_cons]
    omega
  · cases h

/-- Every turn reads at least a byte. -/
theorem expandTurn_lt {isString2 : Bool} {s rest adds : List Byte} {len : ℕ}
    (h : expandTurn isString2 s len = some (rest, adds)) (hs : s ≠ []) : rest.length < s.length := by
  have hpos : 0 < s.length := List.length_pos_iff.mpr hs
  unfold expandTurn at h
  by_cases hroom : MAX_STRING ≤ len
  · rw [if_pos hroom] at h
    cases h
  rw [if_neg hroom] at h
  split at h
  · cases h
  · next parsed hparsed =>
    rw [Option.some.inj h] at hparsed
    split_ifs at hparsed
    · exact parseRepeat_lt hparsed
    · cases hparsed
  · split at h
    · next parsed hparsed => exact parseClass_lt (hparsed.trans h)
    · split at h
      · next n hn =>
        obtain ⟨rfl, -⟩ := Prod.mk.inj (Option.some.inj h)
        have hn := equivalenceClass_pos hn
        rw [List.length_drop]
        omega
      · unfold rangeOrLiteral at h
        split at h
        · split_ifs at h
          · obtain ⟨rfl, -⟩ := Prod.mk.inj (Option.some.inj h)
            simp only [List.length_cons]
            omega
          · obtain ⟨rfl, -⟩ := Prod.mk.inj (Option.some.inj h)
            simp
        · obtain ⟨rfl, -⟩ := Prod.mk.inj (Option.some.inj h)
          simp
        · cases h

/-- The loop of `expand_string`, with `out` in the buffer -/
def expandLoop (isString2 : Bool) (s out : List Byte) : Option (List Byte) :=
  if hs : s = [] then some out
  else
    match h : expandTurn isString2 s out.length with
    | none => none
    | some (rest, adds) =>
      have := expandTurn_lt h hs
      expandLoop isString2 rest (out ++ adds)
termination_by s.length

/-- `expand_string`: `none` is `exit(2)`, for a string that is too long -/
def expandString (s : CString) (isString2 : Bool) : Option (List Byte) := expandLoop isString2 s.bytes []

/-! ## Padding -/

/-- `while (dst < len1 && dst < MAX_STRING) str[dst++] = c`, which makes `n` turns -/
def fill (c : Byte) : ℕ → (ℕ → Byte) → ℕ → (ℕ → Byte) × ℕ
  | 0, str, dst => (str, dst)
  | n + 1, str, dst => fill c n (Function.update str dst c) (dst + 1)

/-- The loop of `resolve_string2_padding`: the buffer and its length, or `none` for `exit(2)` -/
def resolveLoop (len1 len2 : ℕ) (str : ℕ → Byte) (src dst : ℕ) : Option ((ℕ → Byte) × ℕ) :=
  if src < len2 then
    if src + 2 < len2 ∧ str src = 0xFF ∧ str (src + 1) = 0xFE then
      let filled := fill (str (src + 2)) (min len1 MAX_STRING - dst) str dst
      if filled.2 ≥ MAX_STRING then none else resolveLoop len1 len2 filled.1 (src + 3) filled.2
    else
      if dst + 1 ≥ MAX_STRING then none
      else resolveLoop len1 len2 (Function.update str dst (str src)) (src + 1) (dst + 1)
  else some (str, dst)
termination_by len2 - src

/-- `resolve_string2_padding` on a buffer that holds `set2` -/
def resolveString2Padding (set2 : List Byte) (len1 : ℕ) : Option (List Byte) :=
  (resolveLoop len1 set2.length (fun i => set2.getD i 0) 0 0).map fun r => (List.range r.2).map r.1

end ValidcTools.Tr
