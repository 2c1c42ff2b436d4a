import ValidcTools.CString

/-! `getopt` and `getopt_long`: the state between calls, the permutation of `argv`, and what one call does. The diagnostics,
and `opterr`, which turns them off, are left out. -/
namespace ValidcTools.Getopt

/-- `no_argument`, `required_argument`, `optional_argument` -/
inductive HasArg
  | no
  | required
  | optional
deriving DecidableEq

/-- `struct option`; `flag` is the place of an `int`. -/
structure LongOption where
  name : CString
  hasArg : HasArg
  flag : Option ℕ
  val : ℤ
deriving DecidableEq

inductive Ordering
  | requireOrder
  | permute
  | returnInOrder
deriving DecidableEq

/-- `struct getopt_state`; a pointer into a string is the text that it points to. -/
structure State where
  optind : ℕ := 1
  optopt : ℤ := 0x3F
  optarg : Option (List Byte) := none
  initialized : Bool := false
  nextchar : Option (List Byte) := none
  ordering : Ordering := .requireOrder
  firstNonopt : ℕ := 0
  lastNonopt : ℕ := 0

/-- What a call leaves: its result, `argv`, the state, and what it stores at `longind` and at a `flag` -/
structure Returned where
  code : ℤ
  argv : List CString
  st : State
  longind : Option ℕ := none
  stored : Option (ℕ × ℤ) := none

/-- A `char` as an `int`, where `char` is signed -/
def asInt (c : Byte) : ℤ := if c < 128 then c.toNat else c.toNat - 256

/-! ## Permutation -/

def swap (argv : List CString) (i j : ℕ) : List CString :=
  match argv[i]?, argv[j]? with
  | some x, some y => (argv.set i y).set j x
  | _, _ => argv

/-- `for (i = 0; i < len; ++i)` over two segments -/
def swapSegments (argv : List CString) (a b len : ℕ) : List CString :=
  (List.range len).foldl (fun argv i => swap argv (a + i) (b + i)) argv

/-- The loop of `exchange` -/
def exchangeLoop (argv : List CString) (bottom middle top : ℕ) : List CString :=
  if top > middle ∧ middle > bottom then
    if top - middle > middle - bottom then
      exchangeLoop (swapSegments argv bottom (top - (middle - bottom)) (middle - bottom)) bottom middle
        (top - (middle - bottom))
    else exchangeLoop (swapSegments argv bottom middle (top - middle)) (bottom + (top - middle)) middle top
  else argv
termination_by top - bottom

def exchange (argv : List CString) (st : State) : List CString × State :=
  (exchangeLoop argv st.firstNonopt st.lastNonopt st.optind,
    { st with firstNonopt := st.firstNonopt + (st.optind - st.lastNonopt), lastNonopt := st.optind })

/-! ## Long options -/

/-- `strncmp(a, b, n) == 0` -/
def strncmpEq (a b : List Byte) (n : ℕ) : Bool := decide (a.take n = b.take n)

/-- An entry has the first `namelen` characters as its name. -/
def isExact (nextchar : List Byte) (namelen : ℕ) (p : LongOption × ℕ) : Bool :=
  decide (p.1.name.length = namelen) && strncmpEq p.1.name.bytes nextchar namelen

/-- The name of an entry begins with them. -/
def isPartial (nextchar : List Byte) (namelen : ℕ) (p : LongOption × ℕ) : Bool :=
  strncmpEq p.1.name.bytes nextchar namelen

/-- What the second loop over the table counts -/
structure Partial where
  matched : ℕ := 0
  exact : ℕ := 0
  candidate : Option (LongOption × ℕ) := none

def Partial.step (nextchar : List Byte) (namelen : ℕ) (s : Partial) (p : LongOption × ℕ) : Partial :=
  if isPartial nextchar namelen p then
    if p.1.name.length = namelen then ⟨s.matched + 1, s.exact + 1, some p⟩
    else if s.candidate = none then ⟨s.matched + 1, s.exact, some p⟩
    else { s with matched := s.matched + 1 }
  else s

/-- The end of `process_long_option`, with the entry that it found and what follows the name -/
def takeLongOption (argv : List CString) (optstring : List Byte) (pfound : LongOption) (index : ℕ) (nameend : List Byte)
    (st : State) : Returned :=
  let st := { st with optind := st.optind + 1, nextchar := none }
  let found (st : State) : Returned :=
    ⟨pfound.flag.elim pfound.val fun _ => 0, argv, st, some index, pfound.flag.map fun flag => (flag, pfound.val)⟩
  if nameend ≠ [] then
    if pfound.hasArg ≠ .no then found { st with optarg := some nameend.tail }
    else ⟨0x3F, argv, { st with optopt := pfound.val }, none, none⟩
  else if pfound.hasArg = .required then
    match argv[st.optind]? with
    | some arg => found { st with optarg := some arg.bytes, optind := st.optind + 1 }
    | none =>
      ⟨if optstring.head? = some (':' : Byte) then 0x3A else 0x3F, argv, { st with optopt := pfound.val }, none, none⟩
  else if pfound.hasArg = .optional then found { st with optarg := none }
  else found st

/-- `process_long_option`, with -1 for a text that is no long option under `long_only` -/
def processLongOption (argv : List CString) (optstring : List Byte) (longopts : List LongOption) (longOnly : Bool)
    (st : State) : Returned :=
  let nextchar := st.nextchar.getD []
  let namelen := (nextchar.takeWhile (· ≠ (0x3D : Byte))).length
  let exact := longopts.zipIdx.find? (isExact nextchar namelen)
  let partials := longopts.zipIdx.foldl (Partial.step nextchar namelen) {}
  if exact = none ∧ partials.matched > 1 ∧ partials.exact ≠ 1 then
    ⟨0x3F, argv, { st with nextchar := some [], optind := st.optind + 1, optopt := 0 }, none, none⟩
  else
    match exact.or partials.candidate with
    | none =>
      if !longOnly ∨ (argv[st.optind]?.map fun s => s.get 1) = some ('-' : Byte) ∨
          ¬(nextchar.head?.all fun c => decide (c ∈ optstring)) then
        ⟨0x3F, argv, { st with nextchar := none, optind := st.optind + 1, optopt := 0 }, none, none⟩
      else ⟨-1, argv, st, none, none⟩
    | some (pfound, index) => takeLongOption argv optstring pfound index (nextchar.drop namelen) st

/-! ## Short options -/

/-- The end of `_getopt_internal_r`: the next character of a cluster. `none` is a read beyond `argv` or the text. -/
def shortOption (argv : List CString) (optstring : List Byte) (longopts : Option (List LongOption)) (st : State) :
    Option Returned :=
  match st.nextchar.getD [] with
  | [] => none
  | c :: rest =>
    let st := { st with nextchar := some rest, optind := if rest = [] then st.optind + 1 else st.optind }
    let temp := optstring.dropWhile (· ≠ c)
    let missing : Returned :=
      ⟨if optstring.head? = some (':' : Byte) then 0x3A else 0x3F, argv, { st with optopt := asInt c }, none, none⟩
    if temp = [] ∨ c = ':' ∨ c = ';' then some ⟨0x3F, argv, { st with optopt := asInt c }, none, none⟩
    else if c = 'W' ∧ temp.tail.head? = some (';' : Byte) ∧ longopts ≠ none then
      if rest ≠ [] then some (processLongOption argv optstring (longopts.getD []) false { st with optarg := none })
      else if st.optind = argv.length then some missing
      else
        argv[st.optind]?.map fun arg =>
          processLongOption argv optstring (longopts.getD []) false { st with nextchar := some arg.bytes, optarg := none }
    else if temp.tail.head? = some (':' : Byte) then
      if temp.tail.tail.head? = some (':' : Byte) then
        if rest ≠ [] then
          some ⟨asInt c, argv, { st with optarg := some rest, optind := st.optind + 1, nextchar := none }, none, none⟩
        else some ⟨asInt c, argv, { st with optarg := none, nextchar := none }, none, none⟩
      else if rest ≠ [] then
        some ⟨asInt c, argv, { st with optarg := some rest, optind := st.optind + 1, nextchar := none }, none, none⟩
      else if st.optind = argv.length then some missing
      else
        argv[st.optind]?.map fun arg =>
          ⟨asInt c, argv, { st with optarg := some arg.bytes, optind := st.optind + 1, nextchar := none }, none, none⟩
    else some ⟨asInt c, argv, st, none, none⟩

/-! ## One call -/

/-- `initialize` -/
def initState (optstring : List Byte) (st : State) (posixlyCorrect : Bool) : List Byte × State :=
  let optind := if st.optind = 0 then 1 else st.optind
  let st := { st with optind := optind, firstNonopt := optind, lastNonopt := optind, nextchar := none, initialized := true }
  match optstring with
  | 0x2D :: optstring => (optstring, { st with ordering := .returnInOrder })
  | 0x2B :: optstring => (optstring, { st with ordering := .requireOrder })
  | optstring => (optstring, { st with ordering := if posixlyCorrect then .requireOrder else .permute })

/-- What a call begins with: the option string without its '+' or '-', and the state -/
def prepare (optstring : List Byte) (st : State) (posixlyCorrect : Bool) : List Byte × State :=
  let st := { st with optarg := none }
  if st.optind = 0 ∨ !st.initialized then initState optstring st posixlyCorrect
  else if optstring.head? = some ('+' : Byte) ∨ optstring.head? = some ('-' : Byte) then (optstring.tail, st)
  else (optstring, st)

/-- `NONOPTION_P` -/
def isNonoption (arg : CString) : Bool := decide (arg.get 0 ≠ '-' ∨ arg.get 1 = 0)

/-- The scan comes to the next element that is an option, with those before it that are none exchanged. -/
def settle (argv : List CString) (st : State) : List CString × State :=
  let st := { st with lastNonopt := min st.lastNonopt st.optind, firstNonopt := min st.firstNonopt st.optind }
  if st.ordering = .permute then
    let moved :=
      if st.firstNonopt ≠ st.lastNonopt ∧ st.lastNonopt ≠ st.optind then exchange argv st
      else if st.lastNonopt ≠ st.optind then (argv, { st with firstNonopt := st.optind })
      else (argv, st)
    let optind := moved.2.optind + ((moved.1.drop moved.2.optind).takeWhile isNonoption).length
    (moved.1, { moved.2 with optind := optind, lastNonopt := optind })
  else (argv, st)

/-- `--` ends the options: all that follows is moved behind it. -/
def endOptions (argv : List CString) (st : State) : List CString × State :=
  let st := { st with optind := st.optind + 1 }
  let moved :=
    if st.firstNonopt ≠ st.lastNonopt ∧ st.lastNonopt ≠ st.optind then exchange argv st
    else if st.firstNonopt = st.lastNonopt then (argv, { st with firstNonopt := st.optind })
    else (argv, st)
  (moved.1, { moved.2 with lastNonopt := argv.length, optind := argv.length })

/-- `_getopt_internal_r` at an element of `argv` -/
def atElement (argv : List CString) (optstring : List Byte) (longopts : Option (List LongOption)) (longOnly : Bool)
    (st : State) : Option Returned :=
  if st.optind > argv.length then none
  else
    let ended := if argv[st.optind]? = some (.lit "--") then endOptions argv st else (argv, st)
    let argv := ended.1
    let st := ended.2
    match argv[st.optind]? with
    | none =>
      some ⟨-1, argv, { st with optind := if st.firstNonopt ≠ st.lastNonopt then st.firstNonopt else st.optind }, none, none⟩
    | some arg =>
      if isNonoption arg then
        if st.ordering = .requireOrder then some ⟨-1, argv, st, none, none⟩
        else some ⟨1, argv, { st with optarg := some arg.bytes, optind := st.optind + 1 }, none, none⟩
      else
        let short := shortOption argv optstring longopts { st with nextchar := some (arg.bytes.drop 1) }
        match longopts with
        | none => short
        | some table =>
          if arg.get 1 = '-' then
            some (processLongOption argv optstring table longOnly { st with nextchar := some (arg.bytes.drop 2) })
          else if longOnly ∧ (arg.get 2 ≠ 0 ∨ arg.get 1 ∉ optstring) then
            let long := processLongOption argv optstring table longOnly { st with nextchar := some (arg.bytes.drop 1) }
            if long.code ≠ -1 then some long
            else shortOption long.argv optstring longopts { long.st with nextchar := some (arg.bytes.drop 1) }
          else short

/-- `_getopt_internal_r` -/
def getoptInternal (argv : List CString) (optstring : List Byte) (longopts : Option (List LongOption)) (longOnly : Bool)
    (posixlyCorrect : Bool) (st : State) : Option Returned :=
  if argv.length < 1 then some ⟨-1, argv, st, none, none⟩
  else
    let prepared := prepare optstring st posixlyCorrect
    if prepared.2.nextchar.getD [] = [] then
      let settled := settle argv prepared.2
      atElement settled.1 prepared.1 longopts longOnly settled.2
    else shortOption argv prepared.1 longopts prepared.2

/-! ## The calls with global variables -/

/-- `optind`, `optarg`, `optopt` and the state behind them -/
structure Globals where
  optind : ℕ := 1
  optarg : Option (List Byte) := none
  optopt : ℤ := 0x3F
  state : State := {}

/-- The state for a call: `optind = 0` asks for a new scan. -/
def Globals.begin (g : Globals) : State :=
  if g.optind = 0 then
    { g.state with optind := 1, firstNonopt := 1, lastNonopt := 1, nextchar := none, initialized := false }
  else g.state

/-- `sync_globals` -/
def Globals.sync (st : State) : Globals := ⟨st.optind, st.optarg, st.optopt, st⟩

/-- `getopt`, with the global variables after it -/
def getopt (argv : List CString) (optstring : CString) (g : Globals) : Option (Returned × Globals) :=
  (getoptInternal argv optstring.bytes none false false g.begin).map fun r => (r, .sync r.st)

/-- `getopt_long`, with the global variables after it -/
def getoptLong (argv : List CString) (optstring : CString) (longopts : List LongOption) (g : Globals) :
    Option (Returned × Globals) :=
  (getoptInternal argv optstring.bytes (some longopts) false false g.begin).map fun r => (r, .sync r.st)

end ValidcTools.Getopt
