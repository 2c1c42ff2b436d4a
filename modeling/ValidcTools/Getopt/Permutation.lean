import ValidcTools.Getopt.Exchange
import ValidcTools.Getopt.LongOptions

/-! A scan to its end: `argv` is permuted so that the options come first, and every option is reported as it stands in the
original `argv`. -/
namespace ValidcTools.Getopt

/-! ## The options as they stand in `argv` -/

/-- What a call tells its caller about an option -/
structure Report where
  code : ℤ
  optarg : Option (List Byte) := none
  longind : Option ℕ := none
  stored : Option (ℕ × ℤ) := none
deriving DecidableEq

def Returned.report (r : Returned) : Report := ⟨r.code, r.st.optarg, r.longind, r.stored⟩

section Reading
variable (optstring : List Byte)

def missingCode : ℤ := if optstring.head? = some (':' : Byte) then 0x3A else 0x3F

/-- The entry that a long option means, with its index: `none` if it means none, or more than one. -/
def longEntry (table : List LongOption) (text : List Byte) : Option (LongOption × ℕ) :=
  let namelen := (text.takeWhile (· ≠ (0x3D : Byte))).length
  let exact := table.zipIdx.find? (isExact text namelen)
  let partials := table.zipIdx.foldl (Partial.step text namelen) {}
  if exact = none ∧ partials.matched > 1 ∧ partials.exact ≠ 1 then none else exact.or partials.candidate

/-- A chosen entry, with its argument -/
def foundReport (p : LongOption × ℕ) (optarg : Option (List Byte)) : Report :=
  ⟨p.1.flag.elim p.1.val fun _ => 0, optarg, some p.2, p.1.flag.map fun flag => (flag, p.1.val)⟩

/-- A long option `name` or `name=value` with the elements behind it, and how many of them it uses -/
def readLong (table : List LongOption) (text : List Byte) (behind : List CString) : Report × ℕ :=
  match longEntry table text with
  | none => (⟨0x3F, none, none, none⟩, 0)
  | some p =>
    match text.dropWhile (· ≠ (0x3D : Byte)) with
    | _ :: value => (if p.1.hasArg ≠ .no then foundReport p (some value) else ⟨0x3F, none, none, none⟩, 0)
    | [] =>
      if p.1.hasArg = .required then
        match behind with
        | arg :: _ => (foundReport p (some arg.bytes), 1)
        | [] => (⟨missingCode optstring, none, none, none⟩, 0)
      else (foundReport p none, 0)

variable (longopts : Option (List LongOption))

/-- The short options of an element, with the elements behind it, and how many of these they use -/
def readShort (behind : List CString) : List Byte → List Report × ℕ
  | [] => ([], 0)
  | c :: rest =>
    let temp := optstring.dropWhile (· ≠ c)
    if temp = [] ∨ c = ':' ∨ c = ';' then
      (⟨0x3F, none, none, none⟩ :: (readShort behind rest).1, (readShort behind rest).2)
    else if c = 'W' ∧ temp.tail.head? = some (';' : Byte) ∧ longopts ≠ none then
      if rest ≠ [] then
        let long := readLong optstring (longopts.getD []) rest behind
        ([long.1], long.2)
      else
        match behind with
        | text :: behind =>
          let long := readLong optstring (longopts.getD []) text.bytes behind
          ([long.1], long.2 + 1)
        | [] => ([⟨missingCode optstring, none, none, none⟩], 0)
    else if temp.tail.head? = some (':' : Byte) then
      if temp.tail.tail.head? = some (':' : Byte) then
        ([⟨asInt c, if rest ≠ [] then some rest else none, none, none⟩], 0)
      else if rest ≠ [] then ([⟨asInt c, some rest, none, none⟩], 0)
      else
        match behind with
        | arg :: _ => ([⟨asInt c, some arg.bytes, none, none⟩], 1)
        | [] => ([⟨missingCode optstring, none, none, none⟩], 0)
    else (⟨asInt c, none, none, none⟩ :: (readShort behind rest).1, (readShort behind rest).2)

/-- The options of an element that is one, with the elements behind it, and how many of these they use -/
def readElement (arg : CString) (behind : List CString) : List Report × ℕ :=
  match longopts with
  | some table =>
    if arg.get 1 = '-' then
      let long := readLong optstring table (arg.bytes.drop 2) behind
      ([long.1], long.2)
    else readShort optstring longopts behind (arg.bytes.drop 1)
  | none => readShort optstring longopts behind (arg.bytes.drop 1)

/-- The arguments of a program in their order: what is reported, the options with their arguments, and the other ones.
`--` ends the options and belongs to them. -/
structure Sorted where
  reports : List Report := []
  options : List CString := []
  operands : List CString := []

def sorted : List CString → Sorted
  | [] => {}
  | arg :: behind =>
    if isNonoption arg then
      let s := sorted behind
      { s with operands := arg :: s.operands }
    else if arg = .lit "--" then ⟨[], [arg], behind⟩
    else
      let read := readElement optstring longopts arg behind
      let s := sorted (behind.drop read.2)
      ⟨read.1 ++ s.reports, arg :: (behind.take read.2 ++ s.options), s.operands⟩
termination_by args => args.length
decreasing_by
  · simp
  · simp only [List.length_drop, List.length_cons]
    omega

end Reading

/-- Calls until one returns -1: what the others report, and the `argv` and the global variables in the end -/
inductive Calls (call : List CString → Globals → Option (Returned × Globals)) :
    List CString → Globals → List Report → List CString → Globals → Prop
  | last {argv : List CString} {g g' : Globals} {r : Returned} (h : call argv g = some (r, g')) (hr : r.code = -1) :
    Calls call argv g [] r.argv g'
  | next {argv argv' : List CString} {g g' g'' : Globals} {r : Returned} {reports : List Report}
    (h : call argv g = some (r, g')) (hr : r.code ≠ -1) (hs : Calls call r.argv g' reports argv' g'') :
    Calls call argv g (r.report :: reports) argv' g''

/-! ## The scan between two calls -/

/-- The parsed elements are at the front, but for the `recent` ones, which are still behind the operands. -/
structure Scanned (st : State) (argv pre operands recent tail : List CString) : Prop where
  argv_eq : argv = pre ++ operands ++ recent ++ tail
  optind : st.optind = pre.length + operands.length + recent.length
  firstNonopt : st.firstNonopt = pre.length
  lastNonopt : st.lastNonopt = pre.length + operands.length
  initialized : st.initialized = true
  ordering : st.ordering = .permute

variable {st : State} {argv pre operands recent tail : List CString}

theorem exchange_scanned (h : Scanned st argv pre operands recent tail) :
    (exchange argv st).1 = pre ++ recent ++ operands ++ tail ∧
      (exchange argv st).2 = { st with firstNonopt := pre.length + recent.length, lastNonopt := st.optind } := by
  have hlen : pre.length + (pre.length + operands.length + recent.length - (pre.length + operands.length)) =
      pre.length + recent.length := by omega
  constructor
  · rw [exchange, h.optind, h.firstNonopt, h.lastNonopt, h.argv_eq]
    exact exchangeLoop_append pre operands recent tail
  · rw [exchange, h.firstNonopt, h.lastNonopt, h.optind, hlen]

theorem lastNonopt_ne_iff (h : Scanned st argv pre operands recent tail) :
    (st.firstNonopt ≠ st.lastNonopt ↔ operands ≠ []) ∧ (st.lastNonopt ≠ st.optind ↔ recent ≠ []) := by
  rw [h.firstNonopt, h.lastNonopt, h.optind, ← List.length_pos_iff, ← List.length_pos_iff]
  omega

/-- The recent options are moved in front of the operands. -/
theorem moved_scanned (h : Scanned st argv pre operands recent tail) :
    ∃ st', (if st.firstNonopt ≠ st.lastNonopt ∧ st.lastNonopt ≠ st.optind then exchange argv st
        else if st.lastNonopt ≠ st.optind then (argv, { st with firstNonopt := st.optind })
        else (argv, st)) = (pre ++ recent ++ operands ++ tail, st') ∧
      st' = { st with firstNonopt := pre.length + recent.length, lastNonopt := st'.lastNonopt } := by
  obtain ⟨hoperands, hrecent⟩ := lastNonopt_ne_iff h
  obtain ⟨hargv, hst⟩ := exchange_scanned h
  by_cases hnew : recent = []
  · rw [if_neg fun hno => hrecent.mp hno.2 hnew, if_neg fun hno => hrecent.mp hno hnew, h.argv_eq]
    subst hnew
    refine ⟨st, by simp, ?_⟩
    rw [List.length_nil, Nat.add_zero, ← h.firstNonopt]
  · by_cases hnone : operands = []
    · rw [if_neg fun hno => hoperands.mp hno.1 hnone, if_pos (hrecent.mpr hnew), h.argv_eq]
      have hoptind := h.optind
      subst hnone
      rw [List.length_nil, Nat.add_zero] at hoptind
      exact ⟨{ st with firstNonopt := st.optind }, by simp, by rw [hoptind]⟩
    · rw [if_pos ⟨hoperands.mpr hnone, hrecent.mpr hnew⟩]
      exact ⟨_, Prod.ext hargv hst, rfl⟩

theorem settle_eq (hordering : st.ordering = .permute)
    (hst : { st with lastNonopt := min st.lastNonopt st.optind, firstNonopt := min st.firstNonopt st.optind } = st)
    {argv' : List CString} {st' : State}
    (hmoved : (if st.firstNonopt ≠ st.lastNonopt ∧ st.lastNonopt ≠ st.optind then exchange argv st
        else if st.lastNonopt ≠ st.optind then (argv, { st with firstNonopt := st.optind })
        else (argv, st)) = (argv', st')) :
    settle argv st = (argv', { st' with
      optind := st'.optind + ((argv'.drop st'.optind).takeWhile isNonoption).length,
      lastNonopt := st'.optind + ((argv'.drop st'.optind).takeWhile isNonoption).length }) := by
  unfold settle
  rw [hst]
  dsimp only
  rw [if_pos hordering, hmoved]

/-- The scan passes the next operands. -/
theorem settle_scanned (h : Scanned st argv pre operands recent tail) :
    Scanned (settle argv st).2 (settle argv st).1 (pre ++ recent) (operands ++ tail.takeWhile isNonoption) []
        (tail.dropWhile isNonoption) ∧
      (settle argv st).2.optarg = st.optarg := by
  have hlast : min st.lastNonopt st.optind = st.lastNonopt := by
    rw [h.lastNonopt, h.optind]
    omega
  have hfirst : min st.firstNonopt st.optind = st.firstNonopt := by
    rw [h.firstNonopt, h.optind]
    omega
  obtain ⟨st', hmoved, hst'⟩ := moved_scanned h
  have hoptind : st'.optind = (pre ++ recent ++ operands).length := by
    rw [hst']
    simp only [h.optind, List.length_append]
    omega
  rw [settle_eq h.ordering (by rw [hlast, hfirst]) hmoved, hoptind, List.drop_left]
  have hfields : st'.firstNonopt = pre.length + recent.length ∧ st'.initialized = true ∧ st'.ordering = .permute ∧
      st'.optarg = st.optarg := by
    rw [hst']
    exact ⟨rfl, h.initialized, h.ordering, rfl⟩
  obtain ⟨hfirst', hinitialized, hordering, hoptarg⟩ := hfields
  refine ⟨⟨?_, ?_, ?_, ?_, hinitialized, hordering⟩, hoptarg⟩
  · simp only [List.append_nil, List.append_assoc, List.takeWhile_append_dropWhile]
  · simp only [List.length_append, List.length_nil]
    omega
  · exact hfirst'.trans List.length_append.symm
  · simp only [List.length_append]
    omega

/-! ## The end of the scan -/

section
variable {optstring : List Byte} {longopts : Option (List LongOption)}

theorem scanned_getElem? (h : Scanned st argv pre operands recent tail) : argv[st.optind]? = tail.head? := by
  rw [h.argv_eq, h.optind, ← List.length_append, ← List.length_append, List.getElem?_append_right le_rfl, Nat.sub_self,
    List.head?_eq_getElem?]

theorem scanned_length (h : Scanned st argv pre operands recent tail) : argv.length = st.optind + tail.length := by
  rw [h.argv_eq, h.optind]
  simp only [List.length_append]

variable (optstring longopts) in
theorem atElement_nil (h : Scanned st argv pre operands [] []) :
    ∃ r, atElement argv optstring longopts false st = some r ∧
      r.code = -1 ∧ r.argv = pre ++ operands ∧ r.st.optind = pre.length := by
  have hargv : argv = pre ++ operands := by rw [h.argv_eq, List.append_nil, List.append_nil]
  have hoptind : st.optind = argv.length := by
    rw [h.optind, hargv, List.length_append, List.length_nil, Nat.add_zero]
  have hnone : argv[st.optind]? = none := List.getElem?_eq_none hoptind.ge
  have hfinal : (if st.firstNonopt ≠ st.lastNonopt then st.firstNonopt else st.optind) = pre.length := by
    rw [h.firstNonopt, h.lastNonopt, h.optind, List.length_nil]
    split_ifs <;> omega
  rw [atElement, if_neg hoptind.le.not_gt, hnone, if_neg (by simp)]
  dsimp only
  rw [hnone]
  exact ⟨_, rfl, rfl, hargv, hfinal⟩

/-- `--` is moved in front of the operands as well. -/
theorem endOptions_scanned {dashes : CString} (h : Scanned st argv pre operands [] (dashes :: tail)) :
    ∃ st', endOptions argv st = (pre ++ [dashes] ++ operands ++ tail, st') ∧ st'.optind = argv.length ∧
      st'.lastNonopt = argv.length ∧ st'.firstNonopt = pre.length + 1 := by
  have hnext : Scanned { st with optind := st.optind + 1 } argv pre operands [dashes] tail := by
    refine ⟨?_, ?_, h.firstNonopt, h.lastNonopt, h.initialized, h.ordering⟩
    · simpa using h.argv_eq
    · simpa using h.optind
  obtain ⟨hargv, hst⟩ := exchange_scanned hnext
  obtain ⟨hoperands, hrecent⟩ := lastNonopt_ne_iff hnext
  rw [endOptions]
  dsimp only at hoperands hrecent ⊢
  by_cases hnone : operands = []
  · rw [if_neg fun hno => hoperands.mp hno.1 hnone, if_pos (not_not.mp fun hno => hoperands.mp hno hnone)]
    subst hnone
    exact ⟨_, Prod.ext (by simpa using h.argv_eq) rfl, rfl, rfl, by simpa using h.optind⟩
  · rw [if_pos ⟨hoperands.mpr hnone, hrecent.mpr (List.cons_ne_nil _ _)⟩]
    exact ⟨_, Prod.ext hargv rfl, rfl, rfl, congrArg State.firstNonopt hst⟩

variable (optstring longopts) in
theorem atElement_dashes (h : Scanned st argv pre operands [] (.lit "--" :: tail)) :
    ∃ r, atElement argv optstring longopts false st = some r ∧
      r.code = -1 ∧ r.argv = pre ++ [.lit "--"] ++ operands ++ tail ∧ r.st.optind = pre.length + 1 := by
  obtain ⟨st', hend, hoptind, hlast, hfirst⟩ := endOptions_scanned h
  have hlength := scanned_length h
  have hsame : (pre ++ [CString.lit "--"] ++ operands ++ tail).length = argv.length := by
    rw [h.argv_eq]
    simp only [List.length_append, List.length_cons, List.length_nil]
    omega
  have hnone : (pre ++ [CString.lit "--"] ++ operands ++ tail)[st'.optind]? = none :=
    List.getElem?_eq_none (by rw [hsame, hoptind])
  have hfinal : (if st'.firstNonopt ≠ st'.lastNonopt then st'.firstNonopt else st'.optind) = pre.length + 1 := by
    rw [hfirst, hlast, hoptind]
    split_ifs <;> omega
  rw [atElement, if_neg (by omega), scanned_getElem? h, List.head?_cons, if_pos rfl, hend]
  dsimp only
  rw [hnone]
  exact ⟨_, rfl, rfl, rfl, hfinal⟩

/-! ## One option -/

/-- The scan has gone on by some elements. -/
theorem Scanned.advance {more : List CString} (h : Scanned st argv pre operands recent (more ++ tail)) {st' : State}
    (hoptind : st'.optind = st.optind + more.length)
    (hkept : st'.firstNonopt = st.firstNonopt ∧ st'.lastNonopt = st.lastNonopt ∧ st'.initialized = st.initialized ∧
      st'.ordering = st.ordering) : Scanned st' argv pre operands (recent ++ more) tail := by
  obtain ⟨hfirst, hlast, hinitialized, hordering⟩ := hkept
  refine ⟨?_, ?_, hfirst.trans h.firstNonopt, hlast.trans h.lastNonopt, hinitialized.trans h.initialized,
    hordering.trans h.ordering⟩
  · rw [h.argv_eq, List.append_assoc, List.append_assoc, List.append_assoc, List.append_assoc, List.append_assoc]
  · rw [hoptind, h.optind, List.length_append, Nat.add_assoc]

/-- A call has reported an option, and its elements are passed. -/
structure Done (r : Returned) (argv pre operands recent tail : List CString) (report : Report) : Prop where
  argv_eq : r.argv = argv
  report_eq : r.report = report
  nextchar : r.st.nextchar.getD [] = []
  scanned : Scanned r.st argv pre operands recent tail

variable {table : List LongOption} {text : List Byte} {element : CString} {behind : List CString}

theorem processLongOption_none (argv : List CString) (optstring : List Byte) (hnext : st.nextchar = some text)
    (h : longEntry table text = none) :
    ∃ next, processLongOption argv optstring table false st =
        ⟨0x3F, argv, { st with nextchar := next, optind := st.optind + 1, optopt := 0 }, none, none⟩ ∧
      next.getD [] = [] := by
  unfold longEntry at h
  dsimp only at h
  rw [processLongOption_eq (by rw [hnext, Option.getD_some]) rfl]
  split_ifs at h with hmany
  · exact ⟨some [], if_pos hmany, rfl⟩
  · rw [if_neg hmany, h]
    exact ⟨none, rfl, rfl⟩

theorem processLongOption_some (hnext : st.nextchar = some text) {p : LongOption × ℕ}
    (h : longEntry table text = some p) :
    processLongOption argv optstring table false st =
      takeLongOption argv optstring p.1 p.2 (text.dropWhile (· ≠ (0x3D : Byte))) st := by
  have hdrop : text.drop (text.takeWhile (· ≠ (0x3D : Byte))).length = text.dropWhile (· ≠ (0x3D : Byte)) :=
    (congrArg (List.drop _) List.takeWhile_append_dropWhile.symm).trans List.drop_left
  unfold longEntry at h
  dsimp only at h
  rw [processLongOption_eq (by rw [hnext, Option.getD_some]) rfl]
  split_ifs at h with hmany
  rw [if_neg hmany, h, hdrop]
  rfl

/-- A long option is reported with its argument. -/
theorem processLongOption_done (h : Scanned st argv pre operands recent (element :: behind))
    (hnext : st.nextchar = some text) (hoptarg : st.optarg = none) :
    Done (processLongOption argv optstring table false st) argv pre operands
      (recent ++ element :: behind.take (readLong optstring table text behind).2)
      (behind.drop (readLong optstring table text behind).2) (readLong optstring table text behind).1 := by
  have hone : Scanned st argv pre operands recent ([element] ++ behind) := h
  cases hentry : longEntry table text with
  | none =>
    obtain ⟨next, hprocess, hempty⟩ := processLongOption_none argv optstring hnext hentry
    have hread : readLong optstring table text behind = (⟨0x3F, none, none, none⟩, 0) := by rw [readLong, hentry]
    rw [hprocess, hread]
    refine ⟨rfl, ?_, hempty, hone.advance rfl ⟨rfl, rfl, rfl, rfl⟩⟩
    rw [Returned.report, hoptarg]
  | some p =>
    rw [processLongOption_some hnext hentry, readLong, hentry]
    cases hrest : text.dropWhile (· ≠ (0x3D : Byte)) with
    | cons sign value =>
      dsimp only
      rw [takeLongOption, if_pos (List.cons_ne_nil _ _)]
      by_cases hno : p.1.hasArg = .no
      · rw [if_neg (not_not.mpr hno), if_neg (not_not.mpr hno)]
        refine ⟨rfl, ?_, rfl, hone.advance rfl ⟨rfl, rfl, rfl, rfl⟩⟩
        rw [Returned.report, hoptarg]
      · rw [if_pos hno, if_pos hno]
        exact ⟨rfl, rfl, rfl, hone.advance rfl ⟨rfl, rfl, rfl, rfl⟩⟩
    | nil =>
      have hpassed : Scanned { st with optind := st.optind + 1, nextchar := none } argv pre operands (recent ++ [element])
          behind := hone.advance rfl ⟨rfl, rfl, rfl, rfl⟩
      have hnext := scanned_getElem? hpassed
      dsimp only at hnext ⊢
      rw [takeLongOption, if_neg (not_not.mpr rfl)]
      by_cases hrequired : p.1.hasArg = .required
      · rw [if_pos hrequired, if_pos hrequired]
        dsimp only
        rw [hnext]
        cases behind with
        | nil =>
          refine ⟨rfl, ?_, rfl, hone.advance rfl ⟨rfl, rfl, rfl, rfl⟩⟩
          rw [Returned.report, missingCode]
          dsimp only [List.head?_nil]
          rw [hoptarg]
        | cons arg behind =>
          have htwo : Scanned st argv pre operands recent ([element, arg] ++ behind) := h
          exact ⟨rfl, rfl, rfl, htwo.advance rfl ⟨rfl, rfl, rfl, rfl⟩⟩
      · rw [if_neg hrequired, if_neg hrequired]
        by_cases hoptional : p.1.hasArg = .optional
        · rw [if_pos hoptional]
          exact ⟨rfl, rfl, rfl, hone.advance rfl ⟨rfl, rfl, rfl, rfl⟩⟩
        · rw [if_neg hoptional]
          refine ⟨rfl, ?_, rfl, hone.advance rfl ⟨rfl, rfl, rfl, rfl⟩⟩
          rw [Returned.report, foundReport, hoptarg]

/-- A call has reported an option of a cluster, and more follow in the element. -/
structure Open (r : Returned) (argv pre operands tail : List CString) (rest : List Byte) (report : Report) : Prop where
  argv_eq : r.argv = argv
  report_eq : r.report = report
  more : rest ≠ []
  nextchar : r.st.nextchar = some rest
  scanned : Scanned r.st argv pre operands [] tail

/-- What a call reports of an element, with what is left to be read of it -/
def Reads (r : Returned) (argv pre operands : List CString) (element : CString) (behind : List CString) (rest : List Byte)
    (later read : List Report × ℕ) : Prop :=
  ∃ report reports, read.1 = report :: reports ∧
    (reports = [] ∧ Done r argv pre operands (element :: behind.take read.2) (behind.drop read.2) report ∨
      later = (reports, read.2) ∧ Open r argv pre operands (element :: behind) rest report)

variable {c : Byte} {rest : List Byte}

/-- The options without an argument -/
theorem reads_plain (h : Scanned st argv pre operands [] (element :: behind)) (hoptarg : st.optarg = none)
    (code optopt : ℤ) {later : List Report × ℕ} (hlater : rest = [] → later = ([], 0)) :
    Reads ⟨code, argv, { st with
        nextchar := some rest, optind := if rest = [] then st.optind + 1 else st.optind, optopt := optopt }, none, none⟩
      argv pre operands element behind rest later (⟨code, none, none, none⟩ :: later.1, later.2) := by
  have hone : Scanned st argv pre operands [] ([element] ++ behind) := h
  refine ⟨_, _, rfl, ?_⟩
  by_cases hrest : rest = []
  · left
    rw [hlater hrest, if_pos hrest]
    refine ⟨rfl, rfl, ?_, congrArg (Option.getD · []) (congrArg some hrest), hone.advance rfl ⟨rfl, rfl, rfl, rfl⟩⟩
    rw [Returned.report, hoptarg]
  · right
    rw [if_neg hrest]
    refine ⟨rfl, rfl, ?_, hrest, rfl, ?_⟩
    · rw [Returned.report, hoptarg]
    · exact ⟨h.argv_eq, h.optind, h.firstNonopt, h.lastNonopt, h.initialized, h.ordering⟩

theorem reads_done {r : Returned} {k : ℕ} {report : Report} {later : List Report × ℕ}
    (h : Done r argv pre operands (element :: behind.take k) (behind.drop k) report) :
    Reads r argv pre operands element behind rest later ([report], k) :=
  ⟨report, [], rfl, Or.inl ⟨rfl, h⟩⟩

variable (optstring longopts) in
theorem shortOption_reads (h : Scanned st argv pre operands [] (element :: behind)) (hnext : st.nextchar = some (c :: rest))
    (hoptarg : st.optarg = none) :
    ∃ r, shortOption argv optstring longopts st = some r ∧
      Reads r argv pre operands element behind rest (readShort optstring longopts behind rest)
        (readShort optstring longopts behind (c :: rest)) := by
  have hone : Scanned st argv pre operands [] ([element] ++ behind) := h
  have hlater : rest = [] → readShort optstring longopts behind rest = ([], 0) := by
    intro hrest
    rw [hrest]
    rfl
  have hlength : argv.length = st.optind + 1 + behind.length := by
    rw [scanned_length hone, List.length_append, List.length_singleton, Nat.add_assoc]
  have hpassed : Scanned { st with optind := st.optind + 1 } argv pre operands [element] behind :=
    hone.advance rfl ⟨rfl, rfl, rfl, rfl⟩
  have hat := scanned_getElem? hpassed
  rw [shortOption, hnext]
  simp only [Option.getD_some, readShort]
  by_cases hinvalid : optstring.dropWhile (· ≠ c) = [] ∨ c = ':' ∨ c = ';'
  · rw [if_pos hinvalid, if_pos hinvalid]
    exact ⟨_, rfl, reads_plain h hoptarg _ _ hlater⟩
  rw [if_neg hinvalid, if_neg hinvalid]
  by_cases hlong : c = 'W' ∧ (optstring.dropWhile (· ≠ c)).tail.head? = some (';' : Byte) ∧ longopts ≠ none
  · rw [if_pos hlong, if_pos hlong]
    by_cases hrest : rest = []
    · have hempty : (some rest).getD [] = [] := congrArg (Option.getD · []) (congrArg some hrest)
      rw [if_neg (not_not.mpr hrest), if_neg (not_not.mpr hrest), if_pos hrest]
      cases behind with
      | nil =>
        rw [if_pos (show st.optind + 1 = argv.length from hlength.symm)]
        refine ⟨_, rfl, reads_done ⟨rfl, ?_, hempty, hone.advance rfl ⟨rfl, rfl, rfl, rfl⟩⟩⟩
        rw [Returned.report, hoptarg]
        rfl
      | cons text behind =>
        have htext : Scanned { st with optind := st.optind + 1, nextchar := some text.bytes, optarg := none } argv pre
            operands [element] (text :: behind) := hone.advance rfl ⟨rfl, rfl, rfl, rfl⟩
        rw [if_neg (by rw [hlength, List.length_cons]; omega), hat]
        exact ⟨_, rfl, reads_done (processLongOption_done htext rfl rfl)⟩
    · rw [if_pos hrest, if_pos hrest, if_neg hrest]
      have hst : Scanned { st with nextchar := some rest, optarg := none } argv pre operands [] (element :: behind) :=
        ⟨h.argv_eq, h.optind, h.firstNonopt, h.lastNonopt, h.initialized, h.ordering⟩
      exact ⟨_, rfl, reads_done (processLongOption_done hst rfl rfl)⟩
  rw [if_neg hlong, if_neg hlong]
  by_cases harg : (optstring.dropWhile (· ≠ c)).tail.head? = some (':' : Byte)
  · rw [if_pos harg, if_pos harg]
    by_cases hoptional : (optstring.dropWhile (· ≠ c)).tail.tail.head? = some (':' : Byte)
    · rw [if_pos hoptional, if_pos hoptional]
      by_cases hrest : rest = []
      · rw [if_neg (not_not.mpr hrest), if_neg (not_not.mpr hrest), if_pos hrest]
        exact ⟨_, rfl, reads_done ⟨rfl, rfl, rfl, hone.advance rfl ⟨rfl, rfl, rfl, rfl⟩⟩⟩
      · rw [if_pos hrest, if_pos hrest, if_neg hrest]
        exact ⟨_, rfl, reads_done ⟨rfl, rfl, rfl, hone.advance rfl ⟨rfl, rfl, rfl, rfl⟩⟩⟩
    · rw [if_neg hoptional, if_neg hoptional]
      by_cases hrest : rest = []
      · have hempty : (some rest).getD [] = [] := congrArg (Option.getD · []) (congrArg some hrest)
        rw [if_neg (not_not.mpr hrest), if_neg (not_not.mpr hrest), if_pos hrest]
        cases behind with
        | nil =>
          rw [if_pos (show st.optind + 1 = argv.length from hlength.symm)]
          refine ⟨_, rfl, reads_done ⟨rfl, ?_, hempty, hone.advance rfl ⟨rfl, rfl, rfl, rfl⟩⟩⟩
          rw [Returned.report, hoptarg]
          rfl
        | cons arg behind =>
          have htwo : Scanned st argv pre operands [] ([element, arg] ++ behind) := h
          rw [if_neg (by rw [hlength, List.length_cons]; omega), hat]
          exact ⟨_, rfl, reads_done ⟨rfl, rfl, rfl, htwo.advance rfl ⟨rfl, rfl, rfl, rfl⟩⟩⟩
      · rw [if_pos hrest, if_pos hrest, if_neg hrest]
        exact ⟨_, rfl, reads_done ⟨rfl, rfl, rfl, hone.advance rfl ⟨rfl, rfl, rfl, rfl⟩⟩⟩
  · rw [if_neg harg, if_neg harg]
    exact ⟨_, rfl, reads_plain h hoptarg _ st.optopt hlater⟩

theorem bytes_of_option (hoption : isNonoption element = false) : ∃ c rest, element.bytes = 0x2D :: c :: rest := by
  have hboth : element.get 0 = '-' ∧ element.get 1 ≠ 0 := by
    have hno := of_decide_eq_false hoption
    rw [not_or, not_not] at hno
    exact hno
  obtain ⟨hdash, hmore⟩ := hboth
  cases hbytes : element.bytes with
  | nil =>
    rw [CString.get, hbytes] at hdash
    cases hdash
  | cons b bytes =>
    rw [CString.get, hbytes, List.getD_cons_zero] at hdash
    cases bytes with
    | nil =>
      rw [CString.get, hbytes] at hmore
      exact absurd rfl hmore
    | cons c rest => exact ⟨c, rest, by rw [hdash]; rfl⟩

variable (optstring longopts) in
theorem atElement_reads (h : Scanned st argv pre operands [] (element :: behind)) (hoption : isNonoption element = false)
    (hdashes : element ≠ .lit "--") (hoptarg : st.optarg = none) :
    ∃ r rest, atElement argv optstring longopts false st = some r ∧
      Reads r argv pre operands element behind rest (readShort optstring longopts behind rest)
        (readElement optstring longopts element behind) := by
  obtain ⟨c, rest, hbytes⟩ := bytes_of_option hoption
  have hat := scanned_getElem? h
  have hlength := scanned_length h
  have hnot : ¬argv[st.optind]? = some (.lit "--") := by
    rw [hat]
    exact fun heq => hdashes (Option.some.inj heq)
  have hnext : ∀ text, Scanned { st with nextchar := some text } argv pre operands [] (element :: behind) := fun _ =>
    ⟨h.argv_eq, h.optind, h.firstNonopt, h.lastNonopt, h.initialized, h.ordering⟩
  have hdrop : element.bytes.drop 1 = c :: rest := by rw [hbytes]; rfl
  obtain ⟨r, hshort, hreads⟩ := shortOption_reads optstring longopts (hnext (c :: rest)) rfl hoptarg
  rw [atElement, if_neg (by omega), if_neg hnot]
  dsimp only
  rw [hat]
  dsimp only [List.head?_cons]
  rw [if_neg (by rw [hoption]; exact Bool.false_ne_true), hdrop]
  cases longopts with
  | none =>
    rw [readElement, hdrop]
    exact ⟨r, rest, hshort, hreads⟩
  | some table =>
    rw [readElement]
    dsimp only
    by_cases hlong : element.get 1 = '-'
    · rw [if_pos hlong, if_pos hlong]
      exact ⟨_, rest, rfl, reads_done (processLongOption_done (hnext _) rfl hoptarg)⟩
    · rw [if_neg hlong, if_neg hlong, if_neg (by simp), hdrop]
      exact ⟨r, rest, hshort, hreads⟩

/-! ## A call -/

/-- `getopt`, or `getopt_long` with a table -/
def call (optstring : CString) (longopts : Option (List LongOption)) (argv : List CString) (g : Globals) :
    Option (Returned × Globals) :=
  match longopts with
  | none => getopt argv optstring g
  | some table => getoptLong argv optstring table g

theorem call_eq (opts : CString) (longopts : Option (List LongOption)) (argv : List CString) (g : Globals) :
    call opts longopts argv g =
      (getoptInternal argv opts.bytes longopts false false g.begin).map fun r => (r, .sync r.st) := by
  cases longopts <;> rfl

/-- No other ordering is asked for. -/
def Permutes (optstring : List Byte) : Prop :=
  optstring.head? ≠ some ('+' : Byte) ∧ optstring.head? ≠ some ('-' : Byte)

theorem begin_sync (h : st.optind ≠ 0) : (Globals.sync st).begin = st := if_neg h

theorem prepare_initialized (hplain : Permutes optstring) (h : st.initialized = true) (hoptind : st.optind ≠ 0) :
    prepare optstring st false = (optstring, { st with optarg := none }) := by
  rw [prepare]
  dsimp only
  rw [if_neg (by simp [h, hoptind]), if_neg (by rw [not_or]; exact hplain)]

variable {opts : CString} {argv₀ : List CString}

theorem optind_ne_zero (h : Scanned st argv pre operands recent tail) (hpre : 0 < pre.length) : st.optind ≠ 0 := by
  rw [h.optind]
  omega

variable (longopts) in
/-- A call between two elements -/
theorem call_between (hplain : Permutes opts.bytes) (h : Scanned st argv pre operands recent tail) (hpre : 0 < pre.length)
    (hnext : st.nextchar.getD [] = []) : ∃ st' argv',
      Scanned st' argv' (pre ++ recent) (operands ++ tail.takeWhile isNonoption) [] (tail.dropWhile isNonoption) ∧
      st'.optarg = none ∧
      call opts longopts argv (.sync st) =
        (atElement argv' opts.bytes longopts false st').map fun r => (r, .sync r.st) := by
  have hoptind := optind_ne_zero h hpre
  have hst : Scanned { st with optarg := none } argv pre operands recent tail :=
    ⟨h.argv_eq, h.optind, h.firstNonopt, h.lastNonopt, h.initialized, h.ordering⟩
  obtain ⟨hsettled, hoptarg⟩ := settle_scanned hst
  have hargv : ¬argv.length < 1 := by
    rw [h.argv_eq]
    simp only [List.length_append]
    omega
  refine ⟨_, _, hsettled, hoptarg, ?_⟩
  rw [call_eq, begin_sync hoptind, getoptInternal, if_neg hargv, prepare_initialized hplain h.initialized hoptind]
  dsimp only
  rw [if_pos hnext]

/-- A call within an element -/
theorem call_within (hplain : Permutes opts.bytes) (h : Scanned st argv pre operands recent tail) (hpre : 0 < pre.length)
    (hnext : st.nextchar = some (c :: rest)) :
    call opts longopts argv (.sync st) =
      (shortOption argv opts.bytes longopts { st with optarg := none }).map fun r => (r, .sync r.st) := by
  have hoptind := optind_ne_zero h hpre
  have hargv : ¬argv.length < 1 := by
    rw [h.argv_eq]
    simp only [List.length_append]
    omega
  rw [call_eq, begin_sync hoptind, getoptInternal, if_neg hargv, prepare_initialized hplain h.initialized hoptind]
  dsimp only
  rw [if_neg]
  rw [hnext]
  exact List.cons_ne_nil c rest

/-! ## The calls of a scan -/

theorem sorted_skip (args : List CString) : sorted optstring longopts args =
    { sorted optstring longopts (args.dropWhile isNonoption) with
      operands := args.takeWhile isNonoption ++ (sorted optstring longopts (args.dropWhile isNonoption)).operands } := by
  induction args with
  | nil => rw [List.dropWhile_nil, List.takeWhile_nil, List.nil_append]
  | cons arg args ih =>
    by_cases hoption : isNonoption arg = true
    · rw [sorted, if_pos hoption, List.dropWhile_cons_of_pos hoption, List.takeWhile_cons_of_pos hoption, ih]
      rfl
    · rw [List.dropWhile_cons_of_neg hoption, List.takeWhile_cons_of_neg hoption, List.nil_append]

theorem sorted_dashes : sorted optstring longopts (.lit "--" :: tail) = ⟨[], [.lit "--"], tail⟩ := by
  rw [sorted, if_neg (by decide), if_pos rfl]

theorem sorted_option (hoption : isNonoption element = false) (hdashes : element ≠ .lit "--") :
    sorted optstring longopts (element :: behind) =
      ⟨(readElement optstring longopts element behind).1 ++
          (sorted optstring longopts (behind.drop (readElement optstring longopts element behind).2)).reports,
        element :: (behind.take (readElement optstring longopts element behind).2 ++
          (sorted optstring longopts (behind.drop (readElement optstring longopts element behind).2)).options),
        (sorted optstring longopts (behind.drop (readElement optstring longopts element behind).2)).operands⟩ := by
  rw [sorted, if_neg (by rw [hoption]; exact Bool.false_ne_true), if_neg hdashes]

/-- The calls from here report these options, and in the end the options are in front of the operands. -/
def Ends (opts : CString) (longopts : Option (List LongOption)) (argv : List CString) (g : Globals) (reports : List Report)
    (options operands : List CString) : Prop :=
  ∃ g', Calls (call opts longopts) argv g reports (options ++ operands) g' ∧ g'.optind = options.length

/-- What `Ends` says of a scan that has the tail left -/
def TailEnds (opts : CString) (longopts : Option (List LongOption)) (tail : List CString) : Prop :=
  (∀ report ∈ (sorted opts.bytes longopts tail).reports, report.code ≠ -1) →
    ∀ st argv pre operands recent, Scanned st argv pre operands recent tail → 0 < pre.length →
      st.nextchar.getD [] = [] → Ends opts longopts argv (.sync st) (sorted opts.bytes longopts tail).reports
        (pre ++ recent ++ (sorted opts.bytes longopts tail).options)
        (operands ++ (sorted opts.bytes longopts tail).operands)

theorem ends_last {r : Returned} {g : Globals} {options : List CString}
    (hcall : call opts longopts argv g = some (r, .sync r.st)) (hcode : r.code = -1) (hargv : r.argv = options ++ operands)
    (hoptind : r.st.optind = options.length) :
    Ends opts longopts argv g [] options operands := by
  refine ⟨.sync r.st, ?_, hoptind⟩
  rw [← hargv]
  exact .last hcall hcode

theorem ends_next {r : Returned} {g : Globals} {reports : List Report} {options : List CString}
    (hcall : call opts longopts argv g = some (r, .sync r.st)) (hcode : r.code ≠ -1)
    (h : Ends opts longopts r.argv (.sync r.st) reports options operands) :
    Ends opts longopts argv g (r.report :: reports) options operands := by
  obtain ⟨g', hcalls, hoptind⟩ := h
  exact ⟨g', .next hcall hcode hcalls, hoptind⟩

theorem ends_of_done {r : Returned} {g : Globals} {report : Report} {k : ℕ} (hpre : 0 < pre.length)
    (hcall : call opts longopts argv₀ g = some (r, .sync r.st))
    (h : Done r argv pre operands (element :: behind.take k) (behind.drop k) report)
    (ih : TailEnds opts longopts (behind.drop k))
    (hcodes : ∀ report' ∈ report :: (sorted opts.bytes longopts (behind.drop k)).reports, report'.code ≠ -1) :
    Ends opts longopts argv₀ g (report :: (sorted opts.bytes longopts (behind.drop k)).reports)
      (pre ++ element :: (behind.take k ++ (sorted opts.bytes longopts (behind.drop k)).options))
      (operands ++ (sorted opts.bytes longopts (behind.drop k)).operands) := by
  obtain ⟨hcode, hlater⟩ := List.forall_mem_cons.mp hcodes
  have hscanned : Scanned r.st r.argv pre operands (element :: behind.take k) (behind.drop k) := by
    rw [h.argv_eq]
    exact h.scanned
  have hends := ih hlater r.st r.argv pre operands _ hscanned hpre h.nextchar
  rw [List.append_assoc, List.cons_append] at hends
  rw [← h.report_eq] at hcode ⊢
  exact ends_next hcall hcode hends

/-- The calls that report the rest of an element, and those behind it. The induction is on what is left of the element. -/
theorem ends_of_reads (hplain : Permutes opts.bytes) (ih : ∀ k, TailEnds opts longopts (behind.drop k))
    (hpre : 0 < pre.length) (rest : List Byte) :
    ∀ (argv₀ : List CString) (g : Globals) (r : Returned) (read : List Report × ℕ),
      call opts longopts argv₀ g = some (r, .sync r.st) →
      Reads r argv pre operands element behind rest (readShort opts.bytes longopts behind rest) read →
      (∀ report ∈ read.1 ++ (sorted opts.bytes longopts (behind.drop read.2)).reports, report.code ≠ -1) →
      Ends opts longopts argv₀ g (read.1 ++ (sorted opts.bytes longopts (behind.drop read.2)).reports)
        (pre ++ element :: (behind.take read.2 ++ (sorted opts.bytes longopts (behind.drop read.2)).options))
        (operands ++ (sorted opts.bytes longopts (behind.drop read.2)).operands) := by
  induction rest with
  | nil =>
    intro argv₀ g r read hcall hreads hcodes
    obtain ⟨report, reports, hread, ⟨rfl, hdone⟩ | ⟨-, hopen⟩⟩ := hreads
    · rw [hread] at hcodes ⊢
      exact ends_of_done hpre hcall hdone (ih _) hcodes
    · exact absurd rfl hopen.more
  | cons c rest ihrest =>
    intro argv₀ g r read hcall hreads hcodes
    obtain ⟨report, reports, hread, ⟨rfl, hdone⟩ | ⟨hlater, hopen⟩⟩ := hreads
    · rw [hread] at hcodes ⊢
      exact ends_of_done hpre hcall hdone (ih _) hcodes
    · rw [hread, List.cons_append] at hcodes ⊢
      obtain ⟨hcode, hcodes⟩ := List.forall_mem_cons.mp hcodes
      have hst : Scanned { r.st with optarg := none } argv pre operands [] (element :: behind) :=
        ⟨hopen.scanned.argv_eq, hopen.scanned.optind, hopen.scanned.firstNonopt, hopen.scanned.lastNonopt,
          hopen.scanned.initialized, hopen.scanned.ordering⟩
      obtain ⟨r', hshort, hreads'⟩ := shortOption_reads opts.bytes longopts hst hopen.nextchar rfl
      have hcall' : call opts longopts argv (.sync r.st) = some (r', .sync r'.st) := by
        rw [call_within hplain hopen.scanned hpre hopen.nextchar, hshort]
        rfl
      rw [hlater] at hreads'
      have hends := ihrest argv (.sync r.st) r' _ hcall' hreads' hcodes
      rw [← hopen.argv_eq] at hends
      rw [← hopen.report_eq] at hcode ⊢
      exact ends_next hcall hcode hends

theorem sorted_nil : sorted optstring longopts [] = {} := by rw [sorted]

/-- The scan comes to its end. The induction is on the number of elements that are left. -/
theorem tailEnds (hplain : Permutes opts.bytes) (tail : List CString) : TailEnds opts longopts tail := by
  induction hn : tail.length using Nat.strong_induction_on generalizing tail with
  | _ n ih =>
    intro hcodes st argv pre operands recent h hpre hnext
    obtain ⟨st', argv', hst', hoptarg, hcall⟩ := call_between longopts hplain h hpre hnext
    have hpre' : 0 < (pre ++ recent).length := by
      rw [List.length_append]
      omega
    rw [sorted_skip] at hcodes ⊢
    dsimp only at hcodes ⊢
    rw [← List.append_assoc operands]
    cases htail : tail.dropWhile isNonoption with
    | nil =>
      rw [htail] at hst'
      obtain ⟨r, hat, hcode, hargv, hoptind⟩ := atElement_nil opts.bytes longopts hst'
      rw [hat] at hcall
      rw [sorted_nil, List.append_nil, List.append_nil]
      exact ends_last hcall hcode hargv hoptind
    | cons element behind =>
      rw [htail] at hst' hcodes
      have hoption : isNonoption element = false := by
        have hhead := List.head?_dropWhile_not isNonoption tail
        rw [htail] at hhead
        exact hhead
      have hshorter : behind.length < n := by
        have hsuffix := (List.dropWhile_suffix (l := tail) isNonoption).length_le
        rw [htail, List.length_cons, hn] at hsuffix
        exact hsuffix
      by_cases hdashes : element = .lit "--"
      · subst hdashes
        obtain ⟨r, hat, hcode, hargv, hoptind⟩ := atElement_dashes opts.bytes longopts hst'
        rw [hat] at hcall
        rw [sorted_dashes]
        dsimp only
        refine ends_last hcall hcode ?_ ?_
        · rw [hargv, List.append_assoc, List.append_assoc, List.append_assoc]
        · rw [hoptind]
          simp only [List.length_append, List.length_singleton]
      · obtain ⟨r, rest, hat, hreads⟩ := atElement_reads opts.bytes longopts hst' hoption hdashes hoptarg
        rw [hat] at hcall
        rw [sorted_option hoption hdashes] at hcodes ⊢
        have hbehind : ∀ k, TailEnds opts longopts (behind.drop k) := fun k => by
          refine ih _ ?_ (behind.drop k) rfl
          rw [List.length_drop]
          omega
        exact ends_of_reads hplain hbehind hpre' rest argv (.sync st) r _ hcall hreads hcodes

/-! ## A scan from the start -/

/-- Nothing has been scanned yet, or `optind` is 0 to begin again. -/
def Fresh (g : Globals) : Prop := g.begin.initialized = false ∧ g.begin.optind = 1

/-- The state that the first call prepares -/
def initialState (g : Globals) : State :=
  { g.begin with
    optarg := none, optind := 1, firstNonopt := 1, lastNonopt := 1, nextchar := none, initialized := true,
    ordering := .permute }

theorem prepare_fresh {g : Globals} (hplain : Permutes optstring) (hfresh : Fresh g) :
    prepare optstring g.begin false = (optstring, initialState g) := by
  obtain ⟨hinitialized, hoptind⟩ := hfresh
  have hinit : initState optstring { g.begin with optarg := none } false = (optstring, initialState g) := by
    unfold initState initialState
    dsimp only
    rw [if_neg (by rw [hoptind]; exact one_ne_zero), hoptind]
    split
    · exact absurd rfl hplain.2
    · exact absurd rfl hplain.1
    · rfl
  rw [prepare]
  dsimp only
  rw [if_pos (by simp [hinitialized]), hinit]

theorem call_fresh {g : Globals} (hplain : Permutes opts.bytes) (hfresh : Fresh g) (hargv : ¬argv.length < 1) :
    call opts longopts argv g = call opts longopts argv (.sync (initialState g)) := by
  rw [call_eq, call_eq, begin_sync (show (initialState g).optind ≠ 0 from one_ne_zero), getoptInternal, getoptInternal,
    prepare_fresh hplain hfresh, prepare_initialized hplain rfl (show (initialState g).optind ≠ 0 from one_ne_zero),
    if_neg hargv, if_neg hargv]
  rfl

theorem calls_congr {f : List CString → Globals → Option (Returned × Globals)} {g g₀ g' : Globals}
    {reports : List Report} {argv' : List CString} (h : f argv g = f argv g₀) (hcalls : Calls f argv g₀ reports argv' g') :
    Calls f argv g reports argv' g' := by
  cases hcalls with
  | last hcall hcode => exact .last (h.trans hcall) hcode
  | next hcall hcode hcalls => exact .next (h.trans hcall) hcode hcalls

theorem sorted_perm (args : List CString) :
    (sorted optstring longopts args).options.Sublist args ∧ (sorted optstring longopts args).operands.Sublist args ∧
      ((sorted optstring longopts args).options ++ (sorted optstring longopts args).operands).Perm args := by
  induction args using sorted.induct optstring longopts with
  | case1 =>
    rw [sorted_nil]
    exact ⟨.slnil, .slnil, .nil⟩
  | case2 arg behind hoption ih =>
    obtain ⟨hoptions, hoperands, hperm⟩ := ih
    rw [sorted, if_pos hoption]
    exact ⟨hoptions.cons arg, hoperands.cons_cons arg, List.perm_middle.trans (hperm.cons arg)⟩
  | case3 behind hoption =>
    rw [sorted_dashes]
    exact ⟨List.singleton_sublist.mpr List.mem_cons_self, List.sublist_cons_self _ behind, .rfl⟩
  | case4 arg behind hoption hdashes read ih =>
    obtain ⟨hoptions, hoperands, hperm⟩ := ih
    rw [sorted, if_neg hoption, if_neg hdashes]
    dsimp only
    have htake := List.take_append_drop read.2 behind
    refine ⟨List.Sublist.cons_cons arg ?_, (hoperands.trans (List.drop_sublist _ _)).cons arg, ?_⟩
    · have happend := (List.Sublist.refl (behind.take read.2)).append hoptions
      rw [htake] at happend
      exact happend
    · rw [List.cons_append, List.append_assoc]
      exact ((hperm.append_left _).trans (List.Perm.of_eq htake)).cons arg

/-- The calls report the options as they stand in the arguments, and bring the options to the front. -/
theorem scan_sorted (opts : CString) (longopts : Option (List LongOption)) (prog : CString) (args : List CString)
    (g : Globals) (hplain : Permutes opts.bytes) (hfresh : Fresh g)
    (hcodes : ∀ report ∈ (sorted opts.bytes longopts args).reports, report.code ≠ -1) :
    (∃ g', Calls (call opts longopts) (prog :: args) g (sorted opts.bytes longopts args).reports
        (prog :: ((sorted opts.bytes longopts args).options ++ (sorted opts.bytes longopts args).operands)) g' ∧
      g'.optind = (sorted opts.bytes longopts args).options.length + 1) ∧
    (sorted opts.bytes longopts args).options.Sublist args ∧ (sorted opts.bytes longopts args).operands.Sublist args ∧
      ((sorted opts.bytes longopts args).options ++ (sorted opts.bytes longopts args).operands).Perm args := by
  have hstart : Scanned (initialState g) (prog :: args) [prog] [] [] args := ⟨rfl, rfl, rfl, rfl, rfl, rfl⟩
  obtain ⟨g', hcalls, hoptind⟩ := tailEnds hplain args hcodes _ _ _ _ _ hstart Nat.zero_lt_one rfl
  exact ⟨⟨g', calls_congr (call_fresh hplain hfresh (by simp)) hcalls, hoptind⟩, sorted_perm args⟩

theorem sorted_ab : sorted (CString.lit "ab:").bytes none [.lit "x", .lit "-a", .lit "y", .lit "-b", .lit "z", .lit "w"] =
    ⟨[⟨0x61, none, none, none⟩, ⟨0x62, some (CString.lit "z").bytes, none, none⟩], [.lit "-a", .lit "-b", .lit "z"],
      [.lit "x", .lit "y", .lit "w"]⟩ := by
  have hx : isNonoption (.lit "x") = true ∧ isNonoption (.lit "y") = true ∧ isNonoption (.lit "w") = true := by decide
  have ha : isNonoption (.lit "-a") = false ∧ CString.lit "-a" ≠ .lit "--" := by decide
  have hb : isNonoption (.lit "-b") = false ∧ CString.lit "-b" ≠ .lit "--" := by decide
  have hreada : readElement (CString.lit "ab:").bytes none (.lit "-a") [.lit "y", .lit "-b", .lit "z", .lit "w"] =
      ([⟨0x61, none, none, none⟩], 0) := by decide
  have hreadb : readElement (CString.lit "ab:").bytes none (.lit "-b") [.lit "z", .lit "w"] =
      ([⟨0x62, some (CString.lit "z").bytes, none, none⟩], 1) := by decide
  rw [sorted, if_pos hx.1, sorted_option ha.1 ha.2, hreada]
  simp only [List.drop_zero, List.take_zero]
  rw [sorted, if_pos hx.2.1, sorted_option hb.1 hb.2, hreadb]
  simp only [List.drop_succ_cons, List.take_succ_cons, List.drop_zero, List.take_zero]
  rw [sorted, if_pos hx.2.2, sorted_nil]
  rfl

theorem scan_sorted_ab : ∃ g',
    Calls (call (.lit "ab:") none) [.lit "prog", .lit "x", .lit "-a", .lit "y", .lit "-b", .lit "z", .lit "w"] {}
        [⟨0x61, none, none, none⟩, ⟨0x62, some (CString.lit "z").bytes, none, none⟩]
        [.lit "prog", .lit "-a", .lit "-b", .lit "z", .lit "x", .lit "y", .lit "w"] g' ∧ g'.optind = 4 := by
  have hplain : Permutes (CString.lit "ab:").bytes := ⟨by decide, by decide⟩
  have hscan := scan_sorted (.lit "ab:") none (.lit "prog") [.lit "x", .lit "-a", .lit "y", .lit "-b", .lit "z", .lit "w"] {}
    hplain ⟨rfl, rfl⟩
  rw [sorted_ab] at hscan
  exact (hscan (by decide)).1

theorem calls_ended {f : List CString → Globals → Option (Returned × Globals)} {g g₁ g' : Globals}
    {reports : List Report} {argv' : List CString} {r : Returned} (h : Calls f argv g reports argv' g')
    (hcall : f argv g = some (r, g₁)) (hcode : r.code = -1) : argv' = r.argv := by
  cases h with
  | last hcall' _ => exact congrArg Returned.argv (congrArg Prod.fst (Option.some.inj (hcall'.symm.trans hcall)))
  | next hcall' hcode' _ =>
    have hsame := congrArg Returned.code (congrArg Prod.fst (Option.some.inj (hcall.symm.trans hcall')))
    exact absurd (hsame.symm.trans hcode) hcode'

/-- An option with the value -1 ends the scan before the options are at the front. -/
theorem not_scan_sorted : ¬∃ g',
    Calls (call (.lit "") (some [⟨.lit "x", .no, none, -1⟩])) [.lit "prog", .lit "a", .lit "--x", .lit "b"] {}
      (sorted (CString.lit "").bytes (some [⟨.lit "x", .no, none, -1⟩]) [.lit "a", .lit "--x", .lit "b"]).reports
      [.lit "prog", .lit "--x", .lit "a", .lit "b"] g' := by
  have hcall : ∃ r g, call (.lit "") (some [⟨.lit "x", .no, none, -1⟩]) [.lit "prog", .lit "a", .lit "--x", .lit "b"] {} =
      some (r, g) ∧ r.code = -1 ∧ r.argv = [.lit "prog", .lit "a", .lit "--x", .lit "b"] := ⟨_, _, rfl, rfl, rfl⟩
  obtain ⟨r, g, hcall, hcode, hargv⟩ := hcall
  rintro ⟨g', hcalls⟩
  have hsame := calls_ended hcalls hcall hcode
  rw [hargv] at hsame
  revert hsame
  decide

end

end ValidcTools.Getopt
