import ValidcTools.Grep.Match

/-! `grep` as a whole: its options, its files, what it prints and its exit status. -/
namespace ValidcTools.Grep

open Bre

/-- The options that are flags -/
structure Options where
  E : Bool
  F : Bool
  i : Bool
  v : Bool
  w : Bool
  x : Bool
  c : Bool
  l : Bool
  n : Bool
  q : Bool
  s : Bool
deriving DecidableEq

/-- What there is to read: the files that `fopen` opens, or what `strerror` says of them, and the standard input -/
structure Input where
  fopen : CString → Except CString (List Byte)
  stdin : List Byte

/-- What is printed, and the exit status -/
structure Result where
  stdout : List Byte
  stderr : List Byte
  status : ℕ
deriving DecidableEq

def newline : Byte := ('\n' : Char)

def dash : CString := .lit "-"

/-- An error message -/
def complaint (o : Options) (msg : List Byte) : List Byte := if o.s then [] else msg

/-- What is said of a file that cannot be opened -/
def openComplaint (o : Options) (filename err : CString) : List Byte :=
  complaint o ((CString.lit "grep: ").bytes ++ filename.bytes ++ (CString.lit ": ").bytes ++ err.bytes ++ [newline])

def usage (progname : CString) : List Byte :=
  let flags := (CString.lit " [-E|-F] [-i] [-v] [-w] [-x] [-c] [-l] [-n] [-q] [-s] ").bytes
  (CString.lit "Usage: ").bytes ++ progname.bytes ++ flags ++ (CString.lit "pattern [file...]\n").bytes ++
    (CString.lit "   or: ").bytes ++ progname.bytes ++ flags ++ (CString.lit "-e pattern ... [file...]\n").bytes ++
    (CString.lit "   or: ").bytes ++ progname.bytes ++ flags ++ (CString.lit "-f file ... [file...]\n").bytes

/-! ## The patterns -/

/-- The loop of `load_patterns_from_file`; a pattern ends at a NUL. -/
def loadPatterns : ℕ → List Byte → List CString
  | 0, _ => []
  | fuel + 1, stream =>
    match readLine stream with
    | none => []
    | some (buf, rest) => .ofBytes (buf.take (contentLen buf)) :: loadPatterns fuel rest

/-- `validate_regex_patterns`: the patterns are tried on the empty string, `none` when the engine leaves its text. -/
def validate : List CString → Option Bool
  | [] => some true
  | pat :: pats =>
    match breMatch (.lit "") pat with
    | .stop .error => some false
    | .stop _ => none
    | _ => validate pats

/-- Every pattern is followed by its lower-case copy. -/
def toValidate (o : Options) (patterns : List CString) : List CString :=
  patterns.flatMap fun pat => if o.i then [pat, tolowerDup pat] else [pat]

/-! ## The options -/

/-- What the options have said -/
structure Settings where
  o : Options
  e_patterns : List CString
  f_patterns : List CString
  pattern_file_opt : Option CString
  input : Input

/-- What `getopt_long` gives for an option -/
inductive Opt
  | G | E | F | i | v | w | x | c | l | n | q | s
  | e (optarg : CString)
  | f (optarg : CString)
  | H | V
  | unknown

/-- The `switch` on an option -/
def Settings.take (progname : CString) (st : Settings) : Opt → Except Result Settings
  | .G => .ok st
  | .E => .ok { st with o := { st.o with E := true } }
  | .F => .ok { st with o := { st.o with F := true } }
  | .i => .ok { st with o := { st.o with i := true } }
  | .v => .ok { st with o := { st.o with v := true } }
  | .w => .ok { st with o := { st.o with w := true } }
  | .x => .ok { st with o := { st.o with x := true } }
  | .c => .ok { st with o := { st.o with c := true } }
  | .l => .ok { st with o := { st.o with l := true } }
  | .n => .ok { st with o := { st.o with n := true } }
  | .q => .ok { st with o := { st.o with q := true } }
  | .s => .ok { st with o := { st.o with s := true } }
  | .e optarg => .ok { st with e_patterns := st.e_patterns ++ [optarg] }
  | .f optarg =>
    let st := { st with pattern_file_opt := some optarg }
    if optarg = dash then
      .ok { st with
        f_patterns := st.f_patterns ++ loadPatterns (st.input.stdin.length + 1) st.input.stdin
        input := { st.input with stdin := [] } }
    else match st.input.fopen optarg with
      | .error err => .error ⟨[], openComplaint st.o optarg err, 2⟩
      | .ok content => .ok { st with f_patterns := st.f_patterns ++ loadPatterns (content.length + 1) content }
  | .H => .error ⟨usage progname, [], 0⟩
  | .V => .error ⟨(CString.lit "grep (minimal portable) 2025\n").bytes, [], 0⟩
  | .unknown => .error ⟨[], [], 2⟩

/-- The loop over the options -/
def Settings.takeAll (progname : CString) (st : Settings) : List Opt → Except Result Settings
  | [] => .ok st
  | opt :: opts => (st.take progname opt).bind fun st => st.takeAll progname opts

/-! ## One line -/

/-- `matched` in the loop of `main` -/
def selects (o : Options) (patterns : List CString) (line : List Byte) : Option Bool :=
  let content_len := contentLen line
  let matched := if o.F then some (lineMatchesLiteral line content_len o.i o.w patterns o.x)
    else lineMatchesRegex line content_len o.i o.w (.ofPatterns patterns o.i) o.x
  matched.map fun matched => if o.v then !matched else matched

/-- A number, as `%ld` and `%zu` print it -/
def number (n : ℕ) : List Byte := (Nat.toDigits 10 n).map Char.toUInt8

/-- The name of the file and a colon, when there is more than one file -/
def nameTag (filename : CString) (multiple : Bool) : List Byte := if multiple then filename.bytes ++ [(':' : Char).toUInt8] else []

/-- `print_matched_line` -/
def printMatchedLine (filename : CString) (multiple showLineno : Bool) (lineno : ℕ) (line : List Byte) : List Byte :=
  nameTag filename multiple ++ (if showLineno then number lineno ++ [(':' : Char).toUInt8] else []) ++
    (line ++ if line.getLast? = some newline then [] else [newline])

/-! ## One file -/

/-- What has become of a file when the loop over its lines ends -/
structure Scan where
  stdout : List Byte
  -- what is left of the file
  rest : List Byte
  matched : Bool
  match_count : ℕ
  -- `return 0`
  quit : Bool

/-- The loop over the lines of a file; `none` when the engine leaves its text. -/
def scan (o : Options) (patterns : List CString) (fname : CString) (multiple : Bool) : ℕ → ℕ → List Byte → Option Scan
  | 0, _, _ => none
  | fuel + 1, lineno, stream =>
    match readLine stream with
    | none => some ⟨[], [], false, 0, false⟩
    | some (line, rest) =>
      (selects o patterns line).bind fun matched =>
        if matched then
          if o.q then some ⟨[], rest, true, 0, true⟩
          else if o.l then some ⟨fname.bytes ++ [newline], rest, true, 0, false⟩
          else (scan o patterns fname multiple fuel (lineno + 1) rest).map fun s =>
            if o.c then { s with matched := true, match_count := s.match_count + 1 }
            else { s with matched := true, stdout := printMatchedLine fname multiple o.n lineno line ++ s.stdout }
        else scan o patterns fname multiple fuel (lineno + 1) rest

/-- What `-c` prints of a file -/
def countLine (o : Options) (fname : CString) (multiple : Bool) (match_count : ℕ) : List Byte :=
  if ¬ o.l ∧ o.c then nameTag fname multiple ++ number match_count ++ [newline] else []

/-! ## All files -/

/-- The loop over the files, with `any_match` and `had_error` from the files before -/
def processFiles (o : Options) (patterns : List CString) (multiple : Bool) :
    Input → List CString → Bool → Bool → Option Result
  | _, [], any_match, had_error => some ⟨[], [], if had_error then 2 else if any_match then 0 else 1⟩
  | input, fname :: files, any_match, had_error =>
    match (if fname = dash then .ok input.stdin else input.fopen fname) with
    | .error err => (processFiles o patterns multiple input files any_match true).map fun r =>
        { r with stderr := openComplaint o fname err ++ r.stderr }
    | .ok stream =>
      (scan o patterns fname multiple (stream.length + 1) 1 stream).bind fun s =>
        if s.quit then some ⟨[], [], 0⟩
        else
          let input := if fname = dash then { input with stdin := s.rest } else input
          (processFiles o patterns multiple input files (any_match || s.matched) had_error).map fun r =>
            { r with stdout := s.stdout ++ countLine o fname multiple s.match_count ++ r.stdout }

/-- The patterns, and the names of the files -/
def patternsOf (st : Settings) (operands : List CString) : List CString × List CString :=
  let given := st.e_patterns ++ st.f_patterns
  if given = [] then (operands.take 1, operands.drop 1) else (given, operands)

/-- `main` behind its options -/
def run (progname : CString) (st : Settings) (operands : List CString) : Option Result :=
  let o := st.o
  if o.E then
    some ⟨[], complaint o (CString.lit "grep: -E/--extended-regexp is not supported; only basic regular expressions (-G/--basic-regexp) are implemented.\n").bytes, 2⟩
  else
    let patterns := (patternsOf st operands).1
    let files := (patternsOf st operands).2
    if patterns = [] then
      some ⟨[], complaint o (progname.bytes ++ (CString.lit ": missing pattern\n").bytes ++ usage progname), 2⟩
    else (if o.F then some true else validate (toValidate o patterns)).bind fun valid =>
      if ¬ valid then
        let file := match st.pattern_file_opt with
          | none => []
          | some file => (CString.lit " (from ").bytes ++ file.bytes ++ (CString.lit ")").bytes
        some ⟨[], complaint o ((CString.lit "grep: invalid basic regular expression").bytes ++ file ++ [newline]), 2⟩
      else processFiles o patterns (decide (1 < files.length)) st.input (if files = [] then [dash] else files) false false

/-- `main` -/
def grep (progname : CString) (opts : List Opt) (operands : List CString) (input : Input) : Option Result :=
  match Settings.takeAll progname
    ⟨⟨false, false, false, false, false, false, false, false, false, false, false⟩, [], [], none, input⟩ opts with
  | .error r => some r
  | .ok st => run progname st operands

/-! ## What a file contributes -/

/-- The lines of a file, each with its newline if it has one -/
def lines : List Byte → List (List Byte)
  | [] => []
  | c :: s =>
    if c = newline then [c] :: lines s
    else match lines s with
      | [] => [[c]]
      | line :: rest => (c :: line) :: rest

/-- The engine stays in its text on every line. -/
def Defined (o : Options) (patterns : List CString) (content : List Byte) : Prop :=
  ∀ line ∈ lines content, selects o patterns line ≠ none

/-- The lines that are selected, with their numbers from `k` on -/
def chosen (o : Options) (patterns : List CString) (k : ℕ) (content : List Byte) : List (List Byte × ℕ) :=
  ((lines content).zipIdx k).filter fun line => selects o patterns line.1 = some true

/-- What is to be printed of a file -/
def report (o : Options) (patterns : List CString) (fname : CString) (multiple : Bool) (k : ℕ) (content : List Byte) : List Byte :=
  if o.l then if chosen o patterns k content = [] then [] else fname.bytes ++ [newline]
  else if o.c then nameTag fname multiple ++ number (chosen o patterns k content).length ++ [newline]
  else (chosen o patterns k content).flatMap fun line => printMatchedLine fname multiple o.n line.2 line.1

theorem lines_of_readLine {stream line rest : List Byte} (h : readLine stream = some (line, rest)) :
    lines stream = line :: lines rest := by
  induction stream generalizing line with
  | nil => cases h
  | cons c s ih =>
    rw [readLine] at h
    rw [lines, newline]
    by_cases hc : c = (('\n' : Char) : Byte)
    · rw [if_pos hc] at h ⊢
      obtain ⟨rfl, rfl⟩ := Prod.mk.inj (Option.some.inj h)
      rfl
    · rw [if_neg hc] at h ⊢
      cases hs : readLine s with
      | none =>
        rw [hs] at h
        obtain ⟨rfl, rfl⟩ := Prod.mk.inj (Option.some.inj h)
        have hnil : s = [] := by
          cases s with
          | nil => rfl
          | cons d s =>
            rw [readLine] at hs
            split_ifs at hs
            split at hs <;> cases hs
        rw [hnil]
        rfl
      | some r =>
        rw [hs] at h
        obtain ⟨rfl, rfl⟩ := Prod.mk.inj (Option.some.inj h)
        rw [ih hs]

theorem lines_of_readLine_none {stream : List Byte} (h : readLine stream = none) : lines stream = [] := by
  cases stream with
  | nil => rfl
  | cons c s =>
    rw [readLine] at h
    split_ifs at h
    split at h <;> cases h

theorem flatten_lines (content : List Byte) : (lines content).flatten = content := by
  induction content with
  | nil => rfl
  | cons c s ih =>
    rw [lines]
    split_ifs
    · rw [List.flatten_cons, ih, List.singleton_append]
    · cases hs : lines s with
      | nil =>
        rw [hs] at ih
        rw [← ih]
        rfl
      | cons line rest =>
        rw [hs] at ih
        rw [List.flatten_cons, List.cons_append, ← List.flatten_cons, ih]

theorem length_lines_le (content : List Byte) : (lines content).length ≤ content.length := by
  induction content with
  | nil => exact le_rfl
  | cons c s ih =>
    rw [lines]
    split_ifs
    · simpa using ih
    · cases hs : lines s with
      | nil => simp
      | cons line rest =>
        rw [hs] at ih
        simpa using ih.trans (Nat.le_succ _)

/-! ## What the loops do -/

section

variable {o : Options} {patterns : List CString} {fname : CString} {multiple : Bool}

theorem chosen_cons {k : ℕ} {stream line rest : List Byte} (h : lines stream = line :: lines rest) :
    chosen o patterns k stream =
      if selects o patterns line = some true then (line, k) :: chosen o patterns (k + 1) rest else chosen o patterns (k + 1) rest := by
  rw [chosen, h, List.zipIdx_cons, List.filter_cons, chosen]
  simp only [decide_eq_true_eq]

/-- What the loop over the lines of a file has done -/
structure Scans (o : Options) (fname : CString) (multiple : Bool) (chosen : List (List Byte × ℕ)) (s : Scan) : Prop where
  matched : s.matched = true ↔ chosen ≠ []
  quit : s.quit = true ↔ o.q = true ∧ chosen ≠ []
  count : s.match_count = if o.q = false ∧ o.l = false ∧ o.c = true then chosen.length else 0
  stdout : o.q = false → s.stdout =
    if o.l then if chosen = [] then [] else fname.bytes ++ [newline]
    else if o.c then [] else chosen.flatMap fun line => printMatchedLine fname multiple o.n line.2 line.1
  quiet : o.q = true → s.stdout = []

/-- A file is read to its end unless something of it is enough. -/
theorem scan_eq {fuel k : ℕ} {stream : List Byte} (hfuel : (lines stream).length < fuel) (hdef : Defined o patterns stream) :
    ∃ s, scan o patterns fname multiple fuel k stream = some s ∧ Scans o fname multiple (chosen o patterns k stream) s := by
  induction fuel generalizing k stream with
  | zero => exact absurd hfuel (Nat.not_lt_zero _)
  | succ fuel ih =>
    rw [scan]
    cases hread : readLine stream with
    | none =>
      have hnil : chosen o patterns k stream = [] := by
        rw [chosen, lines_of_readLine_none hread]
        rfl
      rw [hnil]
      exact ⟨_, rfl, by simp, by simp, by simp, by simp, fun _ => rfl⟩
    | some r =>
      obtain ⟨line, rest⟩ := r
      have hlines := lines_of_readLine hread
      rw [Defined, hlines, List.forall_mem_cons] at hdef
      rw [hlines, List.length_cons] at hfuel
      obtain ⟨s, hs, hscans⟩ := ih (k := k + 1) (by omega) hdef.2
      rw [chosen_cons hlines]
      dsimp only
      cases hsel : selects o patterns line with
      | none => exact absurd hsel hdef.1
      | some b =>
        rw [Option.bind_some]
        cases b with
        | false => exact ⟨s, hs, hscans⟩
        | true =>
          rw [if_pos rfl, if_pos rfl]
          by_cases hq : o.q = true
          · rw [if_pos hq]
            exact ⟨_, rfl, by simp, by simp [hq], by simp [hq], by simp [hq], fun _ => rfl⟩
          have hq' := Bool.eq_false_of_not_eq_true hq
          rw [if_neg hq]
          by_cases hl : o.l = true
          · rw [if_pos hl]
            exact ⟨_, rfl, by simp, by simp [hq'], by simp [hl], by simp [hl], fun h => absurd h hq⟩
          have hl' := Bool.eq_false_of_not_eq_true hl
          have hcount := hscans.count
          have hstdout := hscans.stdout hq'
          have hquit : s.quit = false := by
            rw [← Bool.not_eq_true, hscans.quit, hq']
            simp
          rw [if_neg hl, hs, Option.map_some]
          by_cases hc : o.c = true
          · rw [if_pos hc]
            refine ⟨_, rfl, by simp, by simp [hquit, hq'], ?_, ?_, fun h => absurd h hq⟩
            · simpa [hq', hl', hc] using hcount
            · simpa [hq', hl', hc] using hstdout
          · rw [if_neg hc]
            refine ⟨_, rfl, by simp, by simp [hquit, hq'], ?_, ?_, fun h => absurd h hq⟩
            · simpa [hc] using hcount
            · simpa [hq', hl', hc] using hstdout

/-- The line with the count goes behind what has been printed. -/
theorem Scans.report {k : ℕ} {stream : List Byte} {s : Scan} (h : Scans o fname multiple (chosen o patterns k stream) s)
    (hquit : s.quit = false) :
    s.stdout ++ countLine o fname multiple s.match_count = Grep.report o patterns fname multiple k stream := by
  unfold Grep.report countLine
  cases hq : o.q with
  | true =>
    have hnil : chosen o patterns k stream = [] := by
      by_contra hne
      have := h.quit.mpr ⟨hq, hne⟩
      rw [hquit] at this
      cases this
    rw [h.quiet hq, h.count, hnil, hq]
    cases o.l <;> cases o.c <;> simp
  | false =>
    rw [h.stdout hq, h.count, hq]
    cases o.l <;> cases o.c <;> simp

end

/-! ## The whole run -/

/-- What a name stands for: the standard input, a file, or an error -/
def Input.read (input : Input) (fname : CString) : Except CString (List Byte) :=
  if fname = dash then .ok input.stdin else input.fopen fname

/-- A name, with what it stands for -/
abbrev Source := CString × Except CString (List Byte)

section

variable (o : Options) (patterns : List CString) (multiple : Bool)

/-- A line of the file is selected. -/
def matchesIn : Source → Bool
  | (_, .error _) => false
  | (_, .ok content) => chosen o patterns 1 content ≠ []

def cannotOpen : Source → Bool
  | (_, .error _) => true
  | (_, .ok _) => false

/-- With `-q`, the files behind the first one with a match are not looked at, nor is that one reported. -/
def visited (sources : List Source) : List Source :=
  if o.q then sources.takeWhile fun source => !matchesIn o patterns source else sources

def printed : Source → List Byte
  | (_, .error _) => []
  | (fname, .ok content) => report o patterns fname multiple 1 content

def complained : Source → List Byte
  | (fname, .error err) => openComplaint o fname err
  | (_, .ok _) => []

/-- The exit status, with what the files before have left -/
def exitStatus (sources : List Source) (any_match had_error : Bool) : ℕ :=
  if o.q ∧ sources.any (matchesIn o patterns) then 0
  else if had_error || sources.any cannotOpen then 2
  else if any_match || sources.any (matchesIn o patterns) then 0 else 1

end

section

variable {o : Options} {patterns : List CString} {multiple : Bool} {input : Input} {source : Source} {sources : List Source}

/-- A file at which the run does not end -/
theorem visited_cons (h : ¬ (o.q = true ∧ matchesIn o patterns source = true)) :
    visited o patterns (source :: sources) = source :: visited o patterns sources := by
  unfold visited
  cases hq : o.q with
  | false => rfl
  | true =>
    have hno : (!matchesIn o patterns source) = true := by
      rw [Bool.not_eq_true', ← Bool.not_eq_true]
      exact fun hm => h ⟨hq, hm⟩
    rw [if_pos rfl, if_pos rfl]
    exact List.takeWhile_cons_of_pos hno

theorem exitStatus_cons (any_match had_error : Bool) (h : ¬ (o.q = true ∧ matchesIn o patterns source = true)) :
    exitStatus o patterns (source :: sources) any_match had_error =
      exitStatus o patterns sources (any_match || matchesIn o patterns source) (had_error || cannotOpen source) := by
  unfold exitStatus
  rw [List.any_cons, List.any_cons, Bool.or_assoc, Bool.or_assoc]
  cases hq : o.q with
  | false => simp
  | true =>
    have hno : matchesIn o patterns source = false := by
      rw [← Bool.not_eq_true]
      exact fun hm => h ⟨hq, hm⟩
    rw [hno, Bool.false_or]

/-- The names behind the standard input -/
theorem sources_congr (input : Input) {files : List CString} (stdin : List Byte) (h : dash ∉ files) :
    (files.map fun fname => ((fname, Input.read { input with stdin := stdin } fname) : Source)) =
      files.map fun fname => (fname, input.read fname) := by
  refine List.map_congr_left fun fname hmem => ?_
  have hne : fname ≠ dash := ne_of_mem_of_not_mem hmem h
  rw [Input.read, Input.read, if_neg hne, if_neg hne]

/-- What `grep` prints and how it ends, from what the names stand for: the standard input is named once. -/
theorem processFiles_eq {files : List CString} (hdash : files.count dash ≤ 1)
    (hdef : ∀ fname ∈ files, ∀ content, input.read fname = .ok content → Defined o patterns content) (any_match had_error : Bool) :
    processFiles o patterns multiple input files any_match had_error =
      let sources := files.map fun fname => (fname, input.read fname)
      some ⟨(visited o patterns sources).flatMap (printed o patterns multiple),
        (visited o patterns sources).flatMap (complained o), exitStatus o patterns sources any_match had_error⟩ := by
  induction files generalizing input any_match had_error with
  | nil =>
    have hvisited : visited o patterns [] = [] := by
      unfold visited
      cases o.q <;> rfl
    simp [processFiles, hvisited, exitStatus]
  | cons fname files ih =>
    rw [processFiles, List.map_cons]
    change (match input.read fname with | .error err => _ | .ok stream => _) = _
    rw [List.forall_mem_cons] at hdef
    rw [List.count_cons] at hdash
    cases hread : input.read fname with
    | error err =>
      have hgo : ¬ (o.q = true ∧ matchesIn o patterns (fname, .error err) = true) := fun h => nomatch h.2
      dsimp only
      rw [ih (by omega) hdef.2, visited_cons hgo, exitStatus_cons _ _ hgo, Option.map_some, List.flatMap_cons, List.flatMap_cons]
      simp [matchesIn, cannotOpen, printed, complained]
    | ok content =>
      obtain ⟨s, hs, hscans⟩ := @scan_eq o patterns fname multiple _ 1 content
        (Nat.lt_succ_of_le (length_lines_le content)) (hdef.1 content hread)
      have hmatched : matchesIn o patterns (fname, .ok content) = s.matched := by
        rw [Bool.eq_iff_iff, hscans.matched]
        exact decide_eq_true_iff
      dsimp only
      rw [hs, Option.bind_some]
      by_cases hquit : s.quit = true
      · rw [if_pos hquit]
        obtain ⟨hq, hne⟩ := hscans.quit.mp hquit
        have hm : matchesIn o patterns (fname, .ok content) = true := hmatched.trans (hscans.matched.mpr hne)
        simp [visited, exitStatus, hq, hm]
      · have hgo : ¬ (o.q = true ∧ matchesIn o patterns (fname, .ok content) = true) := by
          rw [hmatched, hscans.matched, ← hscans.quit]
          exact hquit
        rw [if_neg hquit, visited_cons hgo, exitStatus_cons _ _ hgo, List.flatMap_cons, List.flatMap_cons, hmatched]
        by_cases hname : fname = dash
        · have hrest : dash ∉ files := by
            rw [← List.count_pos_iff]
            rw [if_pos (by simpa using hname)] at hdash
            omega
          have hsources := sources_congr input s.rest hrest
          rw [if_pos hname, ih (by omega) ?_, hsources, Option.map_some, hscans.report (Bool.eq_false_of_not_eq_true hquit)]
          · simp [printed, complained, cannotOpen]
          · intro f hf c hc
            have hne : f ≠ dash := ne_of_mem_of_not_mem hf hrest
            rw [Input.read, if_neg hne] at hc
            refine hdef.2 f hf c ?_
            rw [Input.read, if_neg hne]
            exact hc
        · rw [if_neg hname, ih (by omega) hdef.2, Option.map_some, hscans.report (Bool.eq_false_of_not_eq_true hquit)]
          simp [printed, complained, cannotOpen]

/-- The engine is not used for fixed strings. -/
theorem defined_fixed (hF : o.F = true) (content : List Byte) : Defined o patterns content := by
  intro line _
  simp [selects, hF]

/-- The flags of `grep -F` -/
def fixed : Options := ⟨false, true, false, false, false, false, false, false, false, false, false⟩

/-- The text is empty, or its last line has a newline. -/
def Terminated (content : List Byte) : Prop := content = [] ∨ content.getLast? = some newline

/-- A line with its newline -/
def IsLine (line : List Byte) : Prop := ∃ text, line = text ++ [newline] ∧ newline ∉ text

theorem isLine_of_mem_lines {content : List Byte} (h : Terminated content) : ∀ line ∈ lines content, IsLine line := by
  induction content with
  | nil => exact fun _ hline => nomatch hline
  | cons c s ih =>
    have hlast : c = newline ∧ s = [] ∨ s.getLast? = some newline := by
      rcases h with h | h
      · cases h
      · cases s with
        | nil => exact .inl ⟨Option.some.inj h, rfl⟩
        | cons d s => exact .inr (by rwa [List.getLast?_cons_cons] at h)
    have hs : Terminated s := hlast.imp And.right id
    rw [lines]
    split_ifs with hc
    · rw [List.forall_mem_cons]
      exact ⟨⟨[], by rw [hc]; rfl, List.not_mem_nil⟩, ih hs⟩
    · cases hlines : lines s with
      | nil =>
        -- a byte behind which there is nothing is a newline
        have hnil : s = [] := by
          have hlen := congrArg List.flatten hlines
          rwa [flatten_lines] at hlen
        rcases hlast with hlast | hlast
        · exact absurd hlast.1 hc
        · rw [hnil] at hlast
          cases hlast
      | cons line rest =>
        have hrest := ih hs
        rw [hlines, List.forall_mem_cons] at hrest
        obtain ⟨⟨text, rfl, hfree⟩, hrest⟩ := hrest
        rw [List.forall_mem_cons]
        exact ⟨⟨c :: text, rfl, by simpa using ⟨Ne.symm hc, hfree⟩⟩, hrest⟩

theorem lines_line_append {line rest : List Byte} (h : IsLine line) : lines (line ++ rest) = line :: lines rest := by
  obtain ⟨text, rfl, hfree⟩ := h
  induction text with
  | nil => simp [lines]
  | cons c text ih =>
    simp only [List.mem_cons, not_or] at hfree
    rw [List.cons_append, List.cons_append, lines, if_neg (Ne.symm hfree.1), ih hfree.2]

theorem lines_flatten {ls : List (List Byte)} (h : ∀ line ∈ ls, IsLine line) : lines ls.flatten = ls := by
  induction ls with
  | nil => rfl
  | cons line ls ih =>
    rw [List.forall_mem_cons] at h
    rw [List.flatten_cons, lines_line_append h.1, ih h.2]

theorem terminated_flatten {ls : List (List Byte)} (h : ∀ line ∈ ls, IsLine line) : Terminated ls.flatten := by
  rcases List.eq_nil_or_concat' ls with rfl | ⟨init, line, rfl⟩
  · exact .inl rfl
  · obtain ⟨text, rfl, -⟩ := h line (List.mem_append_right _ (List.mem_singleton_self line))
    rw [List.flatten_append, List.flatten_singleton, ← List.append_assoc]
    exact .inr List.getLast?_concat

/-- Nothing but the selected lines is printed. -/
def Plain (o : Options) : Prop := o.c = false ∧ o.l = false ∧ o.n = false ∧ o.q = false

/-- `grep` from a pipe to a pipe -/
def filter (o : Options) (patterns : List CString) (content : List Byte) : Option (List Byte) :=
  (processFiles o patterns false ⟨fun _ => .error (.lit ""), content⟩ [dash] false false).map (·.stdout)

theorem map_fst_chosen (k : ℕ) (content : List Byte) :
    (chosen o patterns k content).map Prod.fst = (lines content).filter fun line => selects o patterns line = some true := by
  have hfst : ((lines content).zipIdx k).map Prod.fst = lines content := List.zipIdx_map_fst ..
  conv_rhs => rw [← hfst]
  rw [List.filter_map]
  rfl

theorem filter_eq (hplain : Plain o) {content : List Byte} (hterm : Terminated content) (hdef : Defined o patterns content) :
    filter o patterns content = some ((lines content).filter fun line => selects o patterns line = some true).flatten := by
  obtain ⟨hc, hl, hn, hq⟩ := hplain
  have hprint : ∀ line ∈ (chosen o patterns 1 content).map Prod.fst, ∀ k, printMatchedLine dash false o.n k line = line := by
    intro line hline k
    rw [map_fst_chosen] at hline
    obtain ⟨text, rfl, -⟩ := isLine_of_mem_lines hterm line (List.mem_of_mem_filter hline)
    simp [printMatchedLine, nameTag, hn]
  have hread : Input.read ⟨fun _ => .error (.lit ""), content⟩ dash = .ok content := if_pos rfl
  rw [filter, processFiles_eq (by decide)]
  · rw [List.map_singleton, hread, Option.map_some]
    simp only [visited, hq, Bool.false_eq_true, if_false, List.flatMap_singleton, printed, report, hl, hc]
    rw [← map_fst_chosen 1, ← List.flatMap_def, Option.some_inj]
    refine List.flatMap_congr fun line hline => ?_
    exact hprint line.1 (List.mem_map_of_mem hline) line.2
  · intro fname hfname content' hread'
    obtain rfl := List.mem_singleton.mp hfname
    obtain rfl := Except.ok.inj (hread.symm.trans hread')
    exact hdef

/-- Two runs in a pipe print the lines that both select, whichever comes first; the same run twice is the run. -/
theorem filter_pipe {o' : Options} {patterns' : List CString} {content : List Byte} (hplain : Plain o) (hplain' : Plain o')
    (hterm : Terminated content) (hdef : Defined o patterns content) (hdef' : Defined o' patterns' content) :
    (filter o patterns content).bind (filter o' patterns') =
      some ((lines content).filter fun line => selects o patterns line = some true ∧ selects o' patterns' line = some true).flatten := by
  have hlines : ∀ line ∈ (lines content).filter (fun line => selects o patterns line = some true), IsLine line :=
    fun line hline => isLine_of_mem_lines hterm line (List.mem_of_mem_filter hline)
  have hback := lines_flatten hlines
  have hterm' := terminated_flatten hlines
  rw [filter_eq hplain hterm hdef, Option.bind_some, filter_eq hplain' hterm', hback, List.filter_filter]
  · simp only [Bool.decide_and, Bool.and_comm]
  · rw [Defined, hback]
    exact fun line hline => hdef' line (List.mem_of_mem_filter hline)

theorem filter_pipe_ab :
    (filter fixed [.lit "a"] (CString.lit "ab\nb\na\n").bytes).bind (filter fixed [.lit "b"]) = some (CString.lit "ab\n").bytes :=
  (filter_pipe ⟨rfl, rfl, rfl, rfl⟩ ⟨rfl, rfl, rfl, rfl⟩ (.inr rfl) (defined_fixed rfl _) (defined_fixed rfl _)).trans (by decide)

end

end ValidcTools.Grep
