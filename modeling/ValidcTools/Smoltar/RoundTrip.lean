import ValidcTools.Smoltar.Entries

/-! What `smoltar` archives, it gives back: the names it keeps whole and the sizes it can record. -/
namespace ValidcTools.Smoltar

/-- The files that are opened are those that were opened, and then more. -/
theorem extractLoop_opened (mode : ExtractMode) (pre : Option CString) (archive : List Byte) (fs : FileSystem)
    (opened : List Opened) : opened <+: (extractLoop mode pre archive fs opened).opened := by
  fun_induction extractLoop mode pre archive fs opened with
  | case7 archive fs opened hlong header hname hmagic hzero hsum entry hok ih =>
    exact (List.prefix_append _ _).trans ih
  | case6 => exact List.prefix_append _ _
  | _ => exact List.prefix_rfl

theorem extractLoop_end (mode : ExtractMode) (pre : Option CString) (fs : FileSystem) (opened : List Opened) :
    extractLoop mode pre (List.replicate 1024 0) fs opened = ⟨.success, fs, opened⟩ := by
  have hsplit : List.replicate 1024 (0 : Byte) =
      (⟨List.replicate 512 0, List.length_replicate⟩ : TarHeader).bytes ++ List.replicate 512 0 :=
    List.replicate_add 512 512 0
  rw [hsplit, extractLoop_step]
  exact if_pos rfl

namespace Entry

variable (e : Entry)

theorem outputFilename_none : (outputFilename none e.header).bytes = e.name.bytes.take 99 := by
  rw [outputFilename_bytes, string_initHeader e.made]
  exact List.take_of_length_le ((List.length_take_le 99 _).trans (by decide))

/-- What extraction without a prefix opens for an entry. -/
def opens : Opened := ⟨e.header, outputFilename none e.header, e.content.take e.recorded⟩

/-- An entry is given back: its name is kept whole, and its size is recorded. -/
def Kept : Prop := e.name.length ≤ 99 ∧ e.Small

theorem opens_eq_iff : (e.opens.name, e.opens.content) = (e.name, e.content) ↔ e.Kept := by
  have hname : e.opens.name = e.name ↔ e.name.length ≤ 99 := by
    unfold opens CString.length
    rw [CString.ext_iff, outputFilename_none]
    exact List.take_eq_self_iff e.name.bytes
  have hcontent : e.opens.content = e.content ↔ e.Small := by
    unfold opens recorded Small
    dsimp only
    rw [List.take_eq_self_iff, le_min_iff, and_iff_right le_rfl, Nat.le_sub_one_iff_lt (by positivity)]
  rw [Prod.mk.injEq, hname, hcontent]
  rfl

theorem opened_force (rest : List Byte) {fs : FileSystem}
    (hcreatable : fs.creatable (outputFilename none e.header) = true) :
    (extractFile .force none e.header (e.data ++ rest) fs).opened = [e.opens] := by
  have hle : e.recorded ≤ e.content.length := min_le_left _ _
  have hcopy : copyData (e.data ++ rest) e.recorded =
      (true, e.content.take e.recorded, (e.data ++ rest).drop e.recorded) := by
    have hlen : e.recorded ≤ (e.data ++ rest).length := by
      unfold data
      simp only [List.length_append]
      omega
    rw [copyData_eq hlen, data, List.append_assoc, List.take_append_of_le_length hle]
  obtain ⟨written, hwrite⟩ := FileSystem.write?_of_creatable hcreatable (e.content.take e.recorded)
  unfold extractFile
  have hsize : parseOctal e.header.size 12 = e.recorded := size_initHeader e.made
  simp only [hsize, hcopy, hwrite, skips, Bool.false_eq_true, if_false]
  split_ifs <;> rfl

end Entry

/-- A kept entry is written, and the rest is extracted after it. -/
theorem extractLoop_kept_cons {e : Entry} (hname : e.name.bytes ≠ []) (hkept : e.Kept) {fs : FileSystem}
    (hfs : fs.AllCreatable) (rest : List Byte) (opened : List Opened) :
    ∃ written : FileSystem, written.AllCreatable ∧
      written.files = Function.update fs.files e.name (some e.content) ∧
      extractLoop .force none (e.bytes ++ rest) fs opened =
        extractLoop .force none rest written (opened ++ [e.opens]) := by
  have hopens := Prod.mk.inj (e.opens_eq_iff.mpr hkept)
  have hout : outputFilename none e.header = e.name := hopens.1
  have hopened : (⟨e.header, outputFilename none e.header, e.content⟩ : Opened) = e.opens :=
    congrArg (Opened.mk e.header (outputFilename none e.header)) hopens.2.symm
  obtain ⟨written, hwrite⟩ :=
    FileSystem.write?_of_creatable (hfs _ (outputFilename_ne_nil none e.header (e.head?_name hname))) e.content
  obtain ⟨-, hfiles, hcreatable⟩ := FileSystem.write?_eq_some hwrite
  refine ⟨written, fun name hne => (congrFun hcreatable name).trans (hfs name hne), ?_, ?_⟩
  · rw [hfiles, hout]
  · rw [extractLoop_written _ _ _ _ _ _ hname hkept.2 rfl hwrite, hopened]

/-- Extraction of kept entries writes them, in their order. -/
theorem extractLoop_kept {src : CString → Option (List Byte)} {entries : List Entry}
    (hsrc : ∀ e ∈ entries, src e.name = some e.content) (hnames : ∀ e ∈ entries, e.name.bytes ≠ [])
    (hkept : ∀ e ∈ entries, e.Kept) {fs : FileSystem} (hfs : fs.AllCreatable) (opened : List Opened) :
    let x := extractLoop .force none (entries.flatMap Entry.bytes ++ List.replicate 1024 0) fs opened
    x.verdict = .success ∧ x.opened = opened ++ entries.map Entry.opens ∧
      ∀ name, x.fs.files name = if name ∈ entries.map Entry.name then src name else fs.files name := by
  induction entries generalizing fs opened with
  | nil =>
    rw [List.flatMap_nil, List.nil_append, extractLoop_end]
    exact ⟨rfl, (List.append_nil opened).symm, fun name => (if_neg List.not_mem_nil).symm⟩
  | cons e entries ih =>
    obtain ⟨written, hall, hfiles, hloop⟩ := extractLoop_kept_cons (hnames e List.mem_cons_self)
      (hkept e List.mem_cons_self) hfs (entries.flatMap Entry.bytes ++ List.replicate 1024 0) opened
    have hrest := ih (fun e' he' => hsrc e' (List.mem_cons_of_mem e he'))
      (fun e' he' => hnames e' (List.mem_cons_of_mem e he')) (fun e' he' => hkept e' (List.mem_cons_of_mem e he'))
      hall (opened ++ [e.opens])
    rw [List.flatMap_cons, List.append_assoc, hloop]
    refine ⟨hrest.1, hrest.2.1.trans (List.append_assoc _ _ _), fun name => (hrest.2.2 name).trans ?_⟩
    rw [hfiles, List.map_cons]
    by_cases hmem : name ∈ entries.map Entry.name
    · rw [if_pos hmem, if_pos (List.mem_cons_of_mem _ hmem)]
    · rw [if_neg hmem]
      by_cases heq : name = e.name
      · subst heq
        rw [Function.update_self, if_pos List.mem_cons_self, hsrc e List.mem_cons_self]
      · rw [Function.update_of_ne heq, if_neg fun h => (List.mem_cons.mp h).elim heq hmem]

/-- The name and the content of what was opened. -/
def Opened.file (o : Opened) : CString × List Byte := (o.name, o.content)

/-- Only kept entries are written as they were. -/
theorem kept_of_opened {entries : List Entry} (hnames : ∀ e ∈ entries, e.name.bytes ≠ []) {fs : FileSystem}
    (hfs : fs.AllCreatable) {opened : List Opened}
    (h : (extractLoop .force none (entries.flatMap Entry.bytes ++ List.replicate 1024 0) fs opened).opened.map
      Opened.file = opened.map Opened.file ++ entries.map fun e => (e.name, e.content)) :
    ∀ e ∈ entries, e.Kept := by
  induction entries generalizing fs opened with
  | nil => exact fun e he => (List.not_mem_nil he).elim
  | cons e entries ih =>
    have hname := hnames e List.mem_cons_self
    rw [List.flatMap_cons, List.append_assoc] at h
    generalize entries.flatMap Entry.bytes ++ List.replicate 1024 0 = rest at h ih
    have hpre : opened ++ [e.opens] <+: (extractLoop .force none (e.bytes ++ rest) fs opened).opened := by
      have hopened := e.opened_force rest (hfs _ (outputFilename_ne_nil none e.header (e.head?_name hname)))
      rw [e.bytes_eq, List.append_assoc, extractLoop_header _ _ _ _ _ hname, ← hopened]
      dsimp only
      split_ifs
      · exact List.prefix_rfl
      · exact extractLoop_opened _ _ _ _ _
    obtain ⟨more, hmore⟩ := hpre
    rw [← hmore, List.map_append, List.map_append, List.append_assoc, List.map_cons] at h
    obtain ⟨hhead, htail⟩ := List.cons.inj (List.append_cancel_left h)
    have hkept : e.Kept := e.opens_eq_iff.mp hhead
    obtain ⟨written, hall, -, hloop⟩ := extractLoop_kept_cons hname hkept hfs rest opened
    rw [hloop] at hmore
    have hrest : (extractLoop .force none rest written (opened ++ [e.opens])).opened.map Opened.file =
        (opened ++ [e.opens]).map Opened.file ++ entries.map fun e => (e.name, e.content) := by
      rw [← hmore, List.map_append]
      exact congrArg _ htail
    intro e' he'
    cases he' with
    | head => exact hkept
    | tail _ he' => exact ih (fun d hd => hnames d (List.mem_cons_of_mem e hd)) hall hrest e' he'

/-! ## Creation and extraction -/

/-- Wherever every file can be created, extraction with `MODE_FORCE` and without a prefix succeeds and
writes the files that were archived, each with its content, and no others. -/
def Restores (src : FileSystem) (filenames : List CString) (archive : List Byte) : Prop :=
  ∀ dest : FileSystem, dest.AllCreatable →
    let x := extractArchive .force none archive dest
    x.verdict = .success ∧
      x.opened.map Opened.file = filenames.map (fun name => (name, (src.files name).getD [])) ∧
      ∀ name, x.fs.files name = if name ∈ filenames then src.files name else dest.files name

/-- No files yet. -/
def FileSystem.fresh : FileSystem where
  files _ := none
  creatable name := name.bytes ≠ []
  files_empty _ _ := rfl
  creatable_empty name hname := by simp [hname]

theorem FileSystem.allCreatable_fresh : FileSystem.fresh.AllCreatable := fun _ hne => decide_eq_true hne

theorem restores_entries_iff {src : FileSystem} {entries : List Entry}
    (hsrc : ∀ e ∈ entries, src.files e.name = some e.content) :
    Restores src (entries.map Entry.name) (entries.flatMap Entry.bytes ++ List.replicate 1024 0) ↔
      ∀ e ∈ entries, e.Kept := by
  have hnames : ∀ e ∈ entries, e.name.bytes ≠ [] := fun e he => FileSystem.name_ne_nil (hsrc e he)
  have hfiles : (entries.map Entry.name).map (fun name => (name, (src.files name).getD [])) =
      entries.map fun e => (e.name, e.content) := by
    rw [List.map_map]
    refine List.map_congr_left fun e he => ?_
    dsimp only [Function.comp_apply]
    rw [hsrc e he]
    rfl
  constructor
  · intro h
    have hopened := (h _ FileSystem.allCreatable_fresh).2.1
    rw [hfiles] at hopened
    exact kept_of_opened hnames FileSystem.allCreatable_fresh hopened
  · intro hkept dest hdest
    obtain ⟨hverdict, hopened, hfs⟩ := extractLoop_kept hsrc hnames hkept hdest []
    refine ⟨hverdict, ?_, hfs⟩
    rw [hfiles]
    unfold extractArchive
    rw [hopened, List.nil_append, List.map_map]
    exact List.map_congr_left fun e he => e.opens_eq_iff.mpr (hkept e he)

/-- The names that are kept whole and the sizes that are recorded. -/
theorem kept_iff {src : FileSystem} {entries : List Entry} (hsrc : ∀ e ∈ entries, src.files e.name = some e.content) :
    (∀ e ∈ entries, e.Kept) ↔ ∀ name ∈ entries.map Entry.name, name.length ≤ 99 ∧
      ∀ content ∈ src.files name, content.length < 2 ^ 33 := by
  rw [List.forall_mem_map]
  refine forall₂_congr fun e he => and_congr_right fun _ => ?_
  rw [hsrc e he]
  simp only [Option.mem_def, Option.some.injEq, forall_eq']
  exact Iff.rfl

/-- An archive gives back its files exactly when the names have at most 99 bytes and the sizes at most
eleven octal digits. -/
theorem restores_iff {src : FileSystem} {archiveName : CString} {filenames : List CString} {clock : ℕ → ℕ}
    {archive : List Byte} (hcreate : createArchive src archiveName filenames clock = (true, archive))
    (hother : archiveName ∉ filenames) :
    Restores src filenames archive ↔
      ∀ name ∈ filenames, name.length ≤ 99 ∧ ∀ content ∈ src.files name, content.length < 2 ^ 33 := by
  obtain ⟨entries, rfl, hsrc, rfl⟩ := createArchive_eq hcreate hother
  rw [restores_entries_iff hsrc, kept_iff hsrc]

/-- One file. -/
def FileSystem.single (name : CString) (content : List Byte) : FileSystem where
  files n := if n = name ∧ n.bytes ≠ [] then some content else none
  creatable n := n.bytes ≠ []
  files_empty n hn := if_neg fun h => h.2 hn
  creatable_empty n hn := by simp [hn]

theorem restores_iff_ab : Restores (.single (.lit "a") [0x62]) [.lit "a"]
    (createArchive (.single (.lit "a") [0x62]) (.lit "b") [.lit "a"] fun _ => 0).2 := by
  have hcreate : createArchive (.single (.lit "a") [0x62]) (.lit "b") [.lit "a"] (fun _ => 0) =
      (true, (createArchive (.single (.lit "a") [0x62]) (.lit "b") [.lit "a"] fun _ => 0).2) := rfl
  refine (restores_iff hcreate (by decide)).mpr ?_
  intro name hname
  rw [List.mem_singleton] at hname
  subst hname
  refine ⟨by decide, fun content hcontent => ?_⟩
  obtain rfl := Option.some.inj (show some [0x62] = some content from hcontent)
  decide

/-- A name of 100 bytes loses its last one. -/
def longName : CString := ⟨List.replicate 100 0x61, by simp⟩

theorem not_restores :
    (createArchive (.single longName []) (.lit "b") [longName] fun _ => 0).1 = true ∧
      ¬Restores (.single longName []) [longName]
        (createArchive (.single longName []) (.lit "b") [longName] fun _ => 0).2 := by
  have hcreate : createArchive (.single longName []) (.lit "b") [longName] (fun _ => 0) =
      (true, (createArchive (.single longName []) (.lit "b") [longName] fun _ => 0).2) := rfl
  refine ⟨congrArg Prod.fst hcreate, fun h => ?_⟩
  obtain ⟨entries, hnames, hsrc, harchive⟩ := createArchive_eq hcreate (by decide)
  rw [harchive, ← hnames, restores_entries_iff hsrc, kept_iff hsrc, hnames] at h
  exact absurd (h longName (List.mem_singleton.mpr rfl)).1 (by decide)

end ValidcTools.Smoltar
