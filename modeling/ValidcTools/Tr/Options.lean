import ValidcTools.Tr.Filter

/-! How `tr` reads its options: the flags, the names of files, and the operands. -/
namespace ValidcTools.Tr

/-! ## The program -/

/-- What the options set, and the places (argument and index) whose byte was taken for an option -/
structure Settings where
  options : Options := {}
  inPath : Option CString := none
  outPath : Option CString := none
  read : List (ℕ × ℕ) := []

/-- The cases of the `switch`: a flag, an option with a file name, or none -/
inductive Case
  | flag (set : Options → Options)
  | file (set : Settings → CString → Settings)
  | invalid

def switchOn (b : Byte) : Case :=
  if b = 'c' then .flag fun o => { o with complement := true }
  else if b = 'd' then .flag fun o => { o with delete := true }
  else if b = 's' then .flag fun o => { o with squeeze := true }
  else if b = 'i' then .file fun s name => { s with inPath := some name }
  else if b = 'o' then .file fun s name => { s with outPath := some name }
  else .invalid

/-- How the scan of an argument ends: with a diagnostic, beyond a NUL, or at one, in argument `i` with the rest behind it -/
inductive Scanned
  | usage
  | overrun
  | next (i : ℕ) (rest : List CString) (s : Settings)

/-- `for (; argv[i][j]; j++)` with its `switch`. A file name is taken with `argv[++i]` in the middle of the loop, and `j`
goes on in it. -/
def scanGroup (i : ℕ) (arg : CString) (rest : List CString) (j : ℕ) (s : Settings) : Scanned :=
  if arg.length < j then .overrun
  else if arg.get j = 0 then .next i rest s
  else
    match switchOn (arg.get j) with
    | .flag set => scanGroup i arg rest (j + 1) { s with options := set s.options, read := s.read ++ [(i, j)] }
    | .file set =>
      if arg.get (j + 1) ≠ 0 then .usage
      else
        match rest with
        | [] => .usage
        | name :: rest => scanGroup (i + 1) name rest (j + 1) { set s name with read := s.read ++ [(i, j)] }
    | .invalid => .usage
termination_by (rest.length, arg.length + 1 - j)

theorem scanGroup_next {i : ℕ} {arg : CString} {rest : List CString} {j : ℕ} {s : Settings} {i' : ℕ} {rest' : List CString}
    {s' : Settings} (h : scanGroup i arg rest j s = .next i' rest' s') :
    rest'.length ≤ rest.length ∧ s.read ⊆ s'.read := by
  by_cases hover : arg.length < j
  · rw [scanGroup, if_pos hover] at h
    cases h
  by_cases hend : arg.get j = 0
  · rw [scanGroup, if_neg hover, if_pos hend] at h
    cases h
    exact ⟨le_refl _, List.Subset.refl _⟩
  rw [scanGroup, if_neg hover, if_neg hend] at h
  split at h
  · obtain ⟨hlen, hread⟩ := scanGroup_next h
    exact ⟨hlen, fun p hp => hread (List.mem_append_left _ hp)⟩
  · split_ifs at h
    cases rest with
    | nil => cases h
    | cons name rest =>
      obtain ⟨hlen, hread⟩ := scanGroup_next h
      exact ⟨hlen.trans (Nat.le_succ _), fun p hp => hread (List.mem_append_left _ hp)⟩
  · cases h
termination_by (rest.length, arg.length + 1 - j)

/-- How the options end: with a diagnostic, beyond a NUL, or before the operands -/
inductive OptionsRead
  | usage
  | overrun
  | operands (s : Settings) (operands : List CString)

/-- `for (i = 1; i < argc; i++)`, with the arguments from `i` on -/
def parseOptions (i : ℕ) (args : List CString) (s : Settings) : OptionsRead :=
  match args with
  | [] => .operands s []
  | arg :: rest =>
    if arg.get 0 ≠ '-' ∨ arg.get 1 = 0 then .operands s (arg :: rest)
    else if arg = .lit "--" then .operands s rest
    else
      match h : scanGroup i arg rest 1 s with
      | .usage => .usage
      | .overrun => .overrun
      | .next i rest' s' =>
        have := (scanGroup_next h).1
        parseOptions (i + 1) rest' s'
termination_by args.length

/-- What is made of the scan of a group -/
def Scanned.then (sc : Scanned) (f : ℕ → List CString → Settings → OptionsRead) : OptionsRead :=
  match sc with
  | .usage => .usage
  | .overrun => .overrun
  | .next i rest s => f i rest s

theorem parseOptions_cons {i : ℕ} {arg : CString} {rest : List CString} {s : Settings}
    (hoption : ¬(arg.get 0 ≠ '-' ∨ arg.get 1 = 0)) (hdashes : ¬arg = .lit "--") :
    parseOptions i (arg :: rest) s = (scanGroup i arg rest 1 s).then fun i rest s => parseOptions (i + 1) rest s := by
  rw [parseOptions, if_neg hoption, if_neg hdashes]
  split
  · next h =>
    rw [h]
    rfl
  · next h =>
    rw [h]
    rfl
  · next i' rest' s' h =>
    exact (congrArg (fun sc : Scanned => sc.then fun i rest s => parseOptions (i + 1) rest s) h).symm

theorem parseOptions_read {i : ℕ} {args : List CString} {s s' : Settings} {operands : List CString}
    (h : parseOptions i args s = .operands s' operands) : s.read ⊆ s'.read := by
  induction i, args, s using parseOptions.induct with
  | case1 i s =>
    rw [parseOptions] at h
    cases h
    exact List.Subset.refl _
  | case2 i s arg rest hoperand =>
    rw [parseOptions, if_pos hoperand] at h
    cases h
    exact List.Subset.refl _
  | case3 i s rest hoption =>
    rw [parseOptions, if_neg hoption, if_pos rfl] at h
    cases h
    exact List.Subset.refl _
  | case4 i s arg rest hoption hdashes hscan =>
    rw [parseOptions_cons hoption hdashes, hscan] at h
    cases h
  | case5 i s arg rest hoption hdashes hscan =>
    rw [parseOptions_cons hoption hdashes, hscan] at h
    cases h
  | case6 i s arg rest hoption hdashes i' rest' t hscan hlen ih =>
    rw [parseOptions_cons hoption hdashes, hscan] at h
    exact fun p hp => ih h ((scanGroup_next hscan).2 hp)

/-- The place where the scan goes on is read, unless it is at the NUL. -/
theorem scanGroup_reads {i : ℕ} {arg : CString} {rest : List CString} {j : ℕ} {s : Settings} (hend : arg.get j ≠ 0)
    {i' : ℕ} {rest' : List CString} {s' : Settings} (h : scanGroup i arg rest j s = .next i' rest' s') :
    (i, j) ∈ s'.read := by
  by_cases hover : arg.length < j
  · rw [scanGroup, if_pos hover] at h
    cases h
  rw [scanGroup, if_neg hover, if_neg hend] at h
  split at h
  · exact (scanGroup_next h).2 (List.mem_append_right _ List.mem_cons_self)
  · split_ifs at h
    cases rest with
    | nil => cases h
    | cons name rest => exact (scanGroup_next h).2 (List.mem_append_right _ List.mem_cons_self)
  · cases h

/-! ## Command lines -/

inductive Flag
  | c | d | s
deriving DecidableEq

def Flag.byte : Flag → Byte
  | c => 'c'
  | d => 'd'
  | s => 's'

inductive FileOption
  | i | o
deriving DecidableEq

def FileOption.byte : FileOption → Byte
  | i => 'i'
  | o => 'o'

/-- Flags, and an option with its file name, which is an argument of its own -/
structure Group where
  flags : List Flag
  file : Option (FileOption × CString)
  nonempty : flags ≠ [] ∨ file ≠ none

def Group.letters (g : Group) : List Byte := g.flags.map Flag.byte ++ (g.file.map fun f => f.1.byte).toList

theorem Group.mem_letters {g : Group} {b : Byte} (h : b ∈ g.letters) : b ≠ 0 ∧ b ≠ '-' := by
  obtain hflag | hfile := List.mem_append.mp h
  · obtain ⟨f, -, rfl⟩ := List.mem_map.mp hflag
    cases f with
    | c => decide
    | d => decide
    | s => decide
  · obtain ⟨f, -, rfl⟩ := Option.map_eq_some_iff.mp (Option.mem_toList.mp hfile)
    cases f.1 with
    | i => decide
    | o => decide

def Group.text (g : Group) : CString where
  bytes := ('-' : Byte) :: g.letters
  nulFree h := by
    obtain h | h := List.mem_cons.mp h
    · exact absurd h (by decide)
    · exact (mem_letters h).1 rfl

def Group.args (g : Group) : List CString := g.text :: (g.file.map Prod.snd).toList

/-- Which of the arguments are names of files -/
def Group.kinds (g : Group) : List Bool := false :: (g.file.map fun _ => true).toList

/-- Groups of options, `--` perhaps, and one or two operands, of which the first is not read as an option -/
structure CommandLine where
  groups : List Group
  dashes : Bool
  operands : List CString
  count : operands.length = 1 ∨ operands.length = 2
  plain : dashes = false → ∀ s ∈ operands.head?, s.get 0 ≠ '-' ∨ s.get 1 = 0

def CommandLine.args (cl : CommandLine) : List CString :=
  cl.groups.flatMap Group.args ++ ((if cl.dashes then [.lit "--"] else []) ++ cl.operands)

/-! ## What it says -/

/-- The flags that occur -/
def flagsOf (flags : List Flag) : Options where
  complement := decide (.c ∈ flags)
  delete := decide (.d ∈ flags)
  squeeze := decide (.s ∈ flags)

/-- The file names of an option, in order -/
def namesOf (opt : FileOption) (gs : List Group) : List CString :=
  gs.filterMap fun g => g.file.bind fun f => if f.1 = opt then some f.2 else none

/-- The settings are those that the groups ask for, and only the groups were read as options. -/
structure Settings.Of (s : Settings) (gs : List Group) : Prop where
  options : s.options = flagsOf (gs.flatMap Group.flags)
  inPath : s.inPath = (namesOf .i gs).getLast?
  outPath : s.outPath = (namesOf .o gs).getLast?
  read : ∀ p ∈ s.read, (false :: gs.flatMap Group.kinds)[p.1]? = some false

/-- The options are read as they are meant. -/
def CommandLine.Opaque (cl : CommandLine) : Prop :=
  ∃ s, parseOptions 1 cl.args {} = .operands s cl.operands ∧ s.Of cl.groups

/-- The file name is as long as the argument before it. -/
def Group.Fits (g : Group) : Prop := ∀ f ∈ g.file, f.2.length = g.text.length

/-! ## One group -/

def Flag.set : Flag → Options → Options
  | c, o => { o with complement := true }
  | d, o => { o with delete := true }
  | s, o => { o with squeeze := true }

def FileOption.set : FileOption → Settings → CString → Settings
  | i, s, name => { s with inPath := some name }
  | o, s, name => { s with outPath := some name }

theorem switchOn_flag (f : Flag) : switchOn f.byte = .flag f.set := by
  cases f with
  | c => rfl
  | d => rfl
  | s => rfl

theorem switchOn_file (opt : FileOption) : switchOn opt.byte = .file opt.set := by
  cases opt with
  | i => rfl
  | o => rfl

theorem flagsOf_append (l : List Flag) (f : Flag) : flagsOf (l ++ [f]) = f.set (flagsOf l) := by
  unfold flagsOf
  cases f with
  | c => simp [Flag.set]
  | d => simp [Flag.set]
  | s => simp [Flag.set]

/-- Flags, from an index on -/
theorem scanGroup_flags (i : ℕ) {arg : CString} (rest : List CString) {before after : List Byte} {flags seen : List Flag}
    (harg : arg.bytes = before ++ (flags.map Flag.byte ++ after)) {s : Settings} (hs : s.options = flagsOf seen) :
    ∃ read, scanGroup i arg rest before.length s =
        scanGroup i arg rest (before.length + flags.length)
          { s with options := flagsOf (seen ++ flags), read := s.read ++ read } ∧
      ∀ p ∈ read, p.1 = i := by
  induction flags generalizing before seen s with
  | nil =>
    refine ⟨[], ?_, fun p hp => absurd hp List.not_mem_nil⟩
    rw [List.append_nil, List.append_nil, ← hs]
    rfl
  | cons f flags ih =>
    have hget : arg.get before.length = f.byte := by
      rw [CString.get, harg, List.getD_append_right _ _ _ _ (le_refl _), Nat.sub_self]
      rfl
    have hlen : before.length < arg.length := by
      rw [CString.length, harg]
      simp only [List.length_append, List.length_map, List.length_cons]
      omega
    have harg' : arg.bytes = (before ++ [f.byte]) ++ (flags.map Flag.byte ++ after) := by
      rw [harg, List.append_assoc]
      rfl
    have hset : f.set s.options = flagsOf (seen ++ [f]) := by rw [flagsOf_append, hs]
    obtain ⟨read, hscan, hread⟩ := ih harg'
      (s := { s with options := f.set s.options, read := s.read ++ [(i, before.length)] }) hset
    refine ⟨(i, before.length) :: read, ?_, ?_⟩
    · rw [scanGroup, if_neg (not_lt.mpr hlen.le), if_neg (CString.get_ne_zero hlen), hget, switchOn_flag]
      rw [List.length_append, List.length_singleton] at hscan
      refine hscan.trans ?_
      rw [List.length_cons, List.append_assoc, List.append_assoc, Nat.add_assoc, Nat.add_comm 1]
      rfl
    · exact fun p hp => (List.mem_cons.mp hp).elim (fun h => h ▸ rfl) (hread p)

theorem Group.get_length_text (g : Group) {before : List Byte} {b : Byte} {after : List Byte}
    (h : g.text.bytes = before ++ b :: after) : g.text.get before.length = b ∧ before.length < g.text.length := by
  constructor
  · rw [CString.get, h, List.getD_append_right _ _ _ _ (le_refl _), Nat.sub_self]
    rfl
  · rw [CString.length, h, List.length_append, List.length_cons]
    omega

/-- What a group sets -/
def Group.effect (g : Group) (seen : List Flag) (s : Settings) : Settings :=
  match g.file with
  | none => { s with options := flagsOf (seen ++ g.flags) }
  | some (opt, name) => opt.set { s with options := flagsOf (seen ++ g.flags) } name

/-- A group is scanned to its end, and on in the file name. -/
theorem scanGroup_text (g : Group) (i : ℕ) (rest : List CString) {seen : List Flag} {s : Settings}
    (hs : s.options = flagsOf seen) :
    ∃ read, (∀ p ∈ read, p.1 = i) ∧
      (g.file = none → scanGroup i g.text rest 1 s = .next i rest { g.effect seen s with read := s.read ++ read }) ∧
      ∀ opt name, g.file = some (opt, name) → scanGroup i g.text (name :: rest) 1 s =
        scanGroup (i + 1) name rest g.text.length { g.effect seen s with read := s.read ++ read } := by
  have htext : g.text.bytes = [('-' : Byte)] ++ (g.flags.map Flag.byte ++ (g.file.map fun f => f.1.byte).toList) := rfl
  have hlength : g.text.length = 1 + (g.flags.length + (g.file.map fun f => f.1.byte).toList.length) := by
    rw [CString.length, htext]
    simp only [List.length_append, List.length_singleton, List.length_map]
  cases hfile : g.file with
  | none =>
    rw [hfile] at hlength
    obtain ⟨read, hscan, hread⟩ := scanGroup_flags i rest htext hs
    refine ⟨read, hread, fun _ => ?_, fun opt name h => absurd h.symm (Option.some_ne_none _)⟩
    have hend : g.text.length = [('-' : Byte)].length + g.flags.length := hlength
    refine hscan.trans ?_
    rw [← hend, scanGroup, if_neg (lt_irrefl _), if_pos g.text.get_length, Group.effect, hfile]
  | some f =>
    obtain ⟨opt, name⟩ := f
    rw [hfile] at htext hlength
    obtain ⟨read, hscan, hread⟩ := scanGroup_flags i (name :: rest) htext hs
    refine ⟨read ++ [(i, 1 + g.flags.length)], ?_, fun h => absurd h (Option.some_ne_none _), fun opt' name' h => ?_⟩
    · intro p hp
      obtain hp | hp := List.mem_append.mp hp
      · exact hread p hp
      · rw [List.mem_singleton.mp hp]
    · cases h
      have hsplit : g.text.bytes = ([('-' : Byte)] ++ g.flags.map Flag.byte) ++ opt.byte :: [] := by
        rw [htext, List.append_assoc]
        rfl
      obtain ⟨hget, hlt⟩ := g.get_length_text hsplit
      rw [List.length_append, List.length_map] at hget hlt
      have hend : g.text.length = [('-' : Byte)].length + g.flags.length + 1 := hlength
      refine hscan.trans ?_
      rw [scanGroup, if_neg (not_lt.mpr hlt.le), if_neg (CString.get_ne_zero hlt), hget, switchOn_file, ← hend]
      dsimp only
      rw [if_neg (not_not.mpr g.text.get_length), Group.effect, hfile, List.append_assoc]
      cases opt with
      | i => rfl
      | o => rfl

/-! ## All groups -/

theorem Group.not_operand (g : Group) : ¬(g.text.get 0 ≠ '-' ∨ g.text.get 1 = 0) ∧ ¬g.text = .lit "--" := by
  obtain ⟨b, bs, hletters⟩ : ∃ b bs, g.letters = b :: bs := by
    refine List.exists_cons_of_ne_nil fun hnil => ?_
    obtain ⟨hflags, hfile⟩ := List.append_eq_nil_iff.mp hnil
    refine g.nonempty.elim (fun h => h (List.map_eq_nil_iff.mp hflags)) fun h => h ?_
    cases hsome : g.file with
    | none => rfl
    | some f =>
      rw [hsome] at hfile
      cases hfile
  have hb := mem_letters (hletters ▸ List.mem_cons_self : b ∈ g.letters)
  have hbytes : g.text.bytes = ('-' : Byte) :: b :: bs := by rw [← hletters]; rfl
  have h1 : g.text.get 1 = b := by rw [CString.get, hbytes]; rfl
  constructor
  · rw [h1]
    exact not_or.mpr ⟨not_not.mpr rfl, hb.1⟩
  · intro heq
    have hdash : (CString.lit "--").get 1 = '-' := by decide
    exact hb.2 (h1.symm.trans (heq ▸ hdash))

/-- A group whose file name fits is read, and no more. -/
theorem parseOptions_group {g : Group} (hfits : g.Fits) (i : ℕ) (rest : List CString) {seen : List Flag} {s : Settings}
    (hs : s.options = flagsOf seen) :
    ∃ read, (∀ p ∈ read, p.1 = i) ∧ parseOptions i (g.args ++ rest) s =
      parseOptions (i + g.kinds.length) rest { g.effect seen s with read := s.read ++ read } := by
  obtain ⟨read, hread, hnone, hsome⟩ := scanGroup_text g i rest hs
  refine ⟨read, hread, ?_⟩
  rw [Group.args, List.cons_append, parseOptions_cons g.not_operand.1 g.not_operand.2, Group.kinds]
  cases hfile : g.file with
  | none =>
    have hscan := hnone hfile
    rw [Option.map_none, Option.toList_none, List.nil_append, hscan]
    rfl
  | some f =>
    obtain ⟨opt, name⟩ := f
    have hlen : name.length = g.text.length := hfits (opt, name) hfile
    have hstop (t : Settings) : scanGroup (i + 1) name rest g.text.length t = .next (i + 1) rest t := by
      rw [scanGroup, if_neg (by omega), if_pos (by rw [← hlen]; exact name.get_length)]
    rw [Option.map_some, Option.toList_some, List.singleton_append, hsome opt name hfile, hstop]
    rfl

/-- After one whose file name does not fit, the file name is read, too. -/
theorem parseOptions_beyond {g : Group} (hfits : ¬g.Fits) {i : ℕ} {rest : List CString} {seen : List Flag} {s : Settings}
    (hs : s.options = flagsOf seen) {s' : Settings} {operands : List CString}
    (h : parseOptions i (g.args ++ rest) s = .operands s' operands) :
    (i + 1, g.text.length) ∈ s'.read ∧ g.kinds = [false, true] := by
  obtain ⟨read, -, -, hsome⟩ := scanGroup_text g i rest hs
  unfold Group.Fits at hfits
  push Not at hfits
  obtain ⟨⟨opt, name⟩, hfile, hlen⟩ := hfits
  have hscan := hsome opt name hfile
  have hargs : g.args ++ rest = g.text :: name :: rest := by
    rw [Group.args, hfile]
    rfl
  refine ⟨?_, by rw [Group.kinds, hfile]; rfl⟩
  rw [hargs, parseOptions_cons g.not_operand.1 g.not_operand.2, hscan] at h
  by_cases hover : name.length < g.text.length
  · rw [scanGroup, if_pos hover] at h
    cases h
  have hlt : g.text.length < name.length := lt_of_le_of_ne (not_lt.mp hover) (Ne.symm hlen)
  have hend : name.get g.text.length ≠ 0 := CString.get_ne_zero hlt
  cases hnext : scanGroup (i + 1) name rest g.text.length { g.effect seen s with read := s.read ++ read } with
  | usage =>
    rw [hnext] at h
    cases h
  | overrun =>
    rw [hnext] at h
    cases h
  | next i' rest' t =>
    rw [hnext] at h
    exact parseOptions_read h (scanGroup_reads hend hnext)

theorem Settings.Of.group {s : Settings} {done : List Group} (hs : s.Of done) (g : Group) {read : List (ℕ × ℕ)}
    (hread : ∀ p ∈ read, p.1 = (false :: done.flatMap Group.kinds).length) :
    ({ g.effect (done.flatMap Group.flags) s with read := s.read ++ read } : Settings).Of (done ++ [g]) := by
  have hflags : (done ++ [g]).flatMap Group.flags = done.flatMap Group.flags ++ g.flags := by simp
  have hnames (opt : FileOption) : namesOf opt (done ++ [g]) = namesOf opt done ++ namesOf opt [g] := List.filterMap_append
  have hplaces : ∀ p ∈ s.read ++ read, (false :: (done ++ [g]).flatMap Group.kinds)[p.1]? = some false := by
    intro p hp
    rw [List.flatMap_append, ← List.cons_append]
    obtain hp | hp := List.mem_append.mp hp
    · have hold := hs.read p hp
      rw [List.getElem?_append_left (List.getElem?_eq_some_iff.mp hold).choose, hold]
    · rw [List.getElem?_append_right (hread p hp).ge, hread p hp, Nat.sub_self]
      rfl
  cases hfile : g.file with
  | none =>
    have hnone (opt : FileOption) : namesOf opt [g] = [] := by simp [namesOf, hfile]
    rw [Group.effect, hfile]
    exact ⟨by rw [hflags], by rw [hnames, hnone, List.append_nil]; exact hs.inPath,
      by rw [hnames, hnone, List.append_nil]; exact hs.outPath, hplaces⟩
  | some f =>
    obtain ⟨opt, name⟩ := f
    have hsome (opt' : FileOption) : namesOf opt' [g] = if opt = opt' then [name] else [] := by
      simp only [namesOf, List.filterMap_cons, List.filterMap_nil, hfile, Option.bind_some]
      split_ifs
      · rfl
      · rfl
    rw [Group.effect, hfile]
    cases opt with
    | i =>
      refine ⟨by rw [hflags]; rfl, ?_, ?_, hplaces⟩
      · rw [hnames, hsome, if_pos rfl, List.getLast?_concat]
        rfl
      · rw [hnames, hsome, if_neg (by decide), List.append_nil]
        exact hs.outPath
    | o =>
      refine ⟨by rw [hflags]; rfl, ?_, ?_, hplaces⟩
      · rw [hnames, hsome, if_neg (by decide), List.append_nil]
        exact hs.inPath
      · rw [hnames, hsome, if_pos rfl, List.getLast?_concat]
        rfl

/-- A run over groups whose file names fit -/
theorem parseOptions_groups {gs : List Group} (hfits : ∀ g ∈ gs, g.Fits) {done : List Group} {s : Settings} (hs : s.Of done)
    (rest : List CString) :
    ∃ s' : Settings, s'.Of (done ++ gs) ∧
      parseOptions (false :: done.flatMap Group.kinds).length (gs.flatMap Group.args ++ rest) s =
        parseOptions (false :: (done ++ gs).flatMap Group.kinds).length rest s' := by
  induction gs generalizing done s with
  | nil =>
    rw [List.append_nil]
    exact ⟨s, hs, rfl⟩
  | cons g gs ih =>
    obtain ⟨read, hread, hparse⟩ := parseOptions_group (hfits g List.mem_cons_self)
      (false :: done.flatMap Group.kinds).length (gs.flatMap Group.args ++ rest) hs.options
    obtain ⟨s', hs', hrest⟩ := ih (fun g hg => hfits g (List.mem_cons_of_mem _ hg)) (hs.group g hread)
    rw [List.append_assoc, List.singleton_append] at hs' hrest
    refine ⟨s', hs', ?_⟩
    rw [List.flatMap_cons, List.append_assoc, hparse, ← hrest]
    simp [Nat.add_right_comm]

/-- Where only groups are read, the file names fit. -/
theorem fits_of_parseOptions {gs : List Group} {done : List Group} {s : Settings} (hs : s.Of done) {rest : List CString}
    {s' : Settings} {operands : List CString}
    (h : parseOptions (false :: done.flatMap Group.kinds).length (gs.flatMap Group.args ++ rest) s = .operands s' operands)
    (hread : ∀ p ∈ s'.read, (false :: (done ++ gs).flatMap Group.kinds)[p.1]? = some false) : ∀ g ∈ gs, g.Fits := by
  induction gs generalizing done s with
  | nil => exact fun g hg => absurd hg List.not_mem_nil
  | cons g gs ih =>
    rw [List.flatMap_cons, List.append_assoc] at h
    by_cases hfits : g.Fits
    · obtain ⟨read, hplaces, hparse⟩ := parseOptions_group hfits
        (false :: done.flatMap Group.kinds).length (gs.flatMap Group.args ++ rest) hs.options
      have hlength : (false :: (done ++ [g]).flatMap Group.kinds).length =
          (false :: done.flatMap Group.kinds).length + g.kinds.length := by
        simp [Nat.add_right_comm]
      rw [hparse, ← hlength] at h
      refine List.forall_mem_cons.mpr ⟨hfits, ih (hs.group g hplaces) h ?_⟩
      rwa [List.append_assoc]
    · exfalso
      obtain ⟨hplace, hkinds⟩ := parseOptions_beyond hfits hs.options h
      have hfile := hread _ hplace
      rw [List.flatMap_append, List.flatMap_cons, hkinds, ← List.cons_append,
        List.getElem?_append_right (Nat.le_succ _), Nat.succ_sub (le_refl _), Nat.sub_self] at hfile
      exact absurd (Option.some.inj hfile) (by decide)

theorem settings_of_nil : ({} : Settings).Of [] where
  options := rfl
  inPath := rfl
  outPath := rfl
  read _ hp := absurd hp List.not_mem_nil

theorem CommandLine.parse_operands (cl : CommandLine) (i : ℕ) (s : Settings) :
    parseOptions i ((if cl.dashes then [.lit "--"] else []) ++ cl.operands) s = .operands s cl.operands := by
  cases hdashes : cl.dashes with
  | true =>
    have hoption : ¬((CString.lit "--").get 0 ≠ '-' ∨ (CString.lit "--").get 1 = 0) := by decide
    rw [if_pos rfl, List.singleton_append, parseOptions, if_neg hoption, if_pos rfl]
  | false =>
    rw [if_neg Bool.false_ne_true, List.nil_append]
    have hplain := cl.plain hdashes
    cases hoperands : cl.operands with
    | nil => rw [parseOptions]
    | cons operand rest =>
      rw [hoperands] at hplain
      rw [parseOptions, if_pos (hplain operand rfl)]

/-- The options are read as they are meant just when every file name is as long as the argument before it: the index of
the loop is not set back. -/
theorem opaque_iff (cl : CommandLine) : cl.Opaque ↔ ∀ g ∈ cl.groups, g.Fits := by
  constructor
  · rintro ⟨s, hparse, hs⟩
    exact fits_of_parseOptions settings_of_nil hparse hs.read
  · intro hfits
    obtain ⟨s, hs, hparse⟩ := parseOptions_groups hfits settings_of_nil
      ((if cl.dashes then [.lit "--"] else []) ++ cl.operands)
    exact ⟨s, hparse.trans (cl.parse_operands _ s), hs⟩

/-- `tr -i input a b` -/
theorem not_opaque : ¬∀ cl : CommandLine, cl.Opaque := by
  intro h
  have hplain : ∀ s ∈ [CString.lit "a", .lit "b"].head?, s.get 0 ≠ '-' ∨ s.get 1 = 0 := by decide
  obtain ⟨s, hparse, hs⟩ := h ⟨[⟨[], some (.i, .lit "input"), .inr (Option.some_ne_none _)⟩], false, [.lit "a", .lit "b"],
    .inr rfl, fun _ => hplain⟩
  have hfits := fits_of_parseOptions settings_of_nil hparse hs.read _ List.mem_cons_self _ rfl
  exact absurd hfits (by decide)

end ValidcTools.Tr
