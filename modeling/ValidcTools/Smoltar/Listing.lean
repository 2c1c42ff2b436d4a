import ValidcTools.Smoltar.Corruption

/-! Listing an archive, and the headers that listing it and extracting it come to. -/
namespace ValidcTools.Smoltar

/-! ## Listing -/

def textBytes (s : String) : List Byte := s.toList.map Char.toUInt8

/-- `%-40s %12lu\n`, for the name and the size -/
def listLine (header : TarHeader) : List Byte :=
  let name := header.string.bytes
  let size := (Nat.toDigits 10 (parseOctal header.size 12)).map Char.toUInt8
  name ++ List.replicate (40 - name.length) (' ' : Char).toUInt8 ++
    List.replicate (1 + (12 - size.length)) (' ' : Char).toUInt8 ++ size ++ textBytes "\n"

/-- What is printed first -/
def listHeading (archiveName : CString) : List Byte :=
  textBytes "Contents of archive '" ++ archiveName.bytes ++ textBytes "':\n" ++
    textBytes "Name                                             Size\n" ++
    textBytes "----                                             ----\n"

/-- What a run of `list_archive` comes to, the headers that it prints a line for, and all it prints. -/
structure Listing where
  verdict : Verdict
  listed : List TarHeader
  output : List Byte

/-- The loop of `list_archive` -/
def listLoop (archive : List Byte) (listed : List TarHeader) : Verdict × List TarHeader :=
  if h : archive.length < 512 then (.success, listed)
  else
    let header : TarHeader := ⟨archive.take 512, List.length_take_of_le (Nat.not_lt.mp h)⟩
    if header.name.head? = some 0 then (.success, listed)
    else if header.magic.take 5 ≠ "ustar".toList.map Char.toUInt8 then (.failure, listed)
    -- the name is printed as a string
    else if (0 : Byte) ∉ header.bytes then (.undefined, listed)
    else listLoop ((archive.drop 512).drop (blocksOf (parseOctal header.size 12))) (listed ++ [header])
termination_by archive.length
decreasing_by
  rw [List.length_drop, List.length_drop]
  omega

/-- `list_archive`, for an archive that can be opened. -/
def listArchive (archiveName : CString) (archive : List Byte) : Listing :=
  let run := listLoop archive []
  ⟨run.1, run.2, listHeading archiveName ++ run.2.flatMap listLine⟩

/-! ## The headers that are extracted -/

/-- `extractLoop`, and the headers that `extract_file` is called for. -/
def visitLoop (mode : ExtractMode) (pre : Option CString) (archive : List Byte) (fs : FileSystem)
    (opened : List Opened) (visited : List TarHeader) : Extraction × List TarHeader :=
  if h : archive.length < 512 then (⟨.success, fs, opened⟩, visited)
  else
    let header : TarHeader := ⟨archive.take 512, List.length_take_of_le (Nat.not_lt.mp h)⟩
    if header.name.head? = some 0 then (⟨.success, fs, opened⟩, visited)
    else if header.magic.take 5 ≠ "ustar".toList.map Char.toUInt8 then (⟨.failure, fs, opened⟩, visited)
    else if (0 : Byte) ∉ header.bytes then (⟨.undefined, fs, opened⟩, visited)
    else if calculateChecksum header.bytes ≠ parseOctal header.chksum 8 then (⟨.failure, fs, opened⟩, visited)
    else
      let entry := extractFile mode pre header (archive.drop 512) fs
      if entry.ok = false then (⟨.failure, entry.fs, opened ++ entry.opened⟩, visited ++ [header])
      else visitLoop mode pre entry.archive entry.fs (opened ++ entry.opened) (visited ++ [header])
termination_by archive.length
decreasing_by
  have hle := length_extractFile_le mode pre ⟨archive.take 512, List.length_take_of_le (Nat.not_lt.mp h)⟩
    (archive.drop 512) fs
  rw [List.length_drop] at hle
  omega

/-- The headers that `extract_archive` calls `extract_file` for -/
def visitedHeaders (mode : ExtractMode) (pre : Option CString) (archive : List Byte) (fs : FileSystem) : List TarHeader :=
  (visitLoop mode pre archive fs [] []).2

section

variable {mode : ExtractMode} {pre : Option CString}

theorem visitLoop_fst (archive : List Byte) (fs : FileSystem) (opened : List Opened) (visited : List TarHeader) :
    (visitLoop mode pre archive fs opened visited).1 = extractLoop mode pre archive fs opened := by
  fun_induction visitLoop mode pre archive fs opened visited with
  | case1 archive fs opened visited hshort =>
    unfold extractLoop
    rw [dif_pos hshort]
  | case2 archive fs opened visited hlong header hend =>
    unfold extractLoop
    rw [dif_neg hlong]
    exact (if_pos hend).symm
  | case3 archive fs opened visited hlong header hend hmagic =>
    unfold extractLoop
    rw [dif_neg hlong]
    exact ((if_neg hend).trans (if_pos hmagic)).symm
  | case4 archive fs opened visited hlong header hend hmagic hzero =>
    unfold extractLoop
    rw [dif_neg hlong]
    exact ((if_neg hend).trans ((if_neg hmagic).trans (if_pos hzero))).symm
  | case5 archive fs opened visited hlong header hend hmagic hzero hchecksum =>
    unfold extractLoop
    rw [dif_neg hlong]
    exact ((if_neg hend).trans ((if_neg hmagic).trans ((if_neg hzero).trans (if_pos hchecksum)))).symm
  | case6 archive fs opened visited hlong header hend hmagic hzero hchecksum entry hok =>
    unfold extractLoop
    rw [dif_neg hlong]
    exact ((if_neg hend).trans ((if_neg hmagic).trans ((if_neg hzero).trans ((if_neg hchecksum).trans (if_pos hok))))).symm
  | case7 archive fs opened visited hlong header hend hmagic hzero hchecksum entry hok ih =>
    conv_rhs => unfold extractLoop
    rw [dif_neg hlong, ih]
    exact ((if_neg hend).trans ((if_neg hmagic).trans ((if_neg hzero).trans ((if_neg hchecksum).trans (if_neg hok))))).symm

/-- A whole header, and how to read on -/
theorem length_header_append (header : TarHeader) (archive : List Byte) :
    ¬(header.bytes ++ archive).length < 512 ∧ (header.bytes ++ archive).take 512 = header.bytes ∧
      (header.bytes ++ archive).drop 512 = archive := by
  refine ⟨?_, List.take_left' header.length_bytes, List.drop_left' header.length_bytes⟩
  rw [List.length_append, header.length_bytes]
  omega

theorem listLoop_header (e : Entry) (hname : e.name.bytes ≠ []) (archive : List Byte) (listed : List TarHeader) :
    listLoop (e.header.bytes ++ archive) listed =
      listLoop (archive.drop (blocksOf (parseOctal e.header.size 12))) (listed ++ [e.header]) := by
  obtain ⟨hlong, htake, hdrop⟩ := length_header_append e.header archive
  conv_lhs => unfold listLoop
  rw [dif_neg hlong]
  simp only [htake, hdrop]
  rw [if_neg (e.head?_name hname), if_neg (not_not.mpr (magic_initHeader e.made)), if_neg (not_not.mpr e.zero_mem_header)]

theorem visitLoop_header (e : Entry) (hname : e.name.bytes ≠ []) (archive : List Byte) (fs : FileSystem)
    (opened : List Opened) (visited : List TarHeader) :
    visitLoop mode pre (e.header.bytes ++ archive) fs opened visited =
      let entry := extractFile mode pre e.header archive fs
      if entry.ok = false then (⟨.failure, entry.fs, opened ++ entry.opened⟩, visited ++ [e.header])
      else visitLoop mode pre entry.archive entry.fs (opened ++ entry.opened) (visited ++ [e.header]) := by
  obtain ⟨hlong, htake, hdrop⟩ := length_header_append e.header archive
  conv_lhs => unfold visitLoop
  rw [dif_neg hlong]
  simp only [htake, hdrop]
  rw [if_neg (e.head?_name hname), if_neg (not_not.mpr (magic_initHeader e.made)), if_neg (not_not.mpr e.zero_mem_header),
    if_neg (not_not.mpr (checksum_initHeader e.made).symm)]

/-- The end marker -/
theorem zeros_eq : List.replicate 1024 (0 : Byte) =
    (⟨List.replicate 512 0, List.length_replicate⟩ : TarHeader).bytes ++ List.replicate 512 0 :=
  List.replicate_add 512 512 0

theorem listLoop_end (listed : List TarHeader) : listLoop (List.replicate 1024 0) listed = (.success, listed) := by
  obtain ⟨hlong, htake, -⟩ := length_header_append ⟨List.replicate 512 0, List.length_replicate⟩ (List.replicate 512 0)
  rw [zeros_eq, listLoop, dif_neg hlong]
  simp only [htake]
  exact if_pos rfl

theorem visitLoop_end (fs : FileSystem) (opened : List Opened) (visited : List TarHeader) :
    visitLoop mode pre (List.replicate 1024 0) fs opened visited = (⟨.success, fs, opened⟩, visited) := by
  obtain ⟨hlong, htake, -⟩ := length_header_append ⟨List.replicate 512 0, List.length_replicate⟩ (List.replicate 512 0)
  rw [zeros_eq, visitLoop, dif_neg hlong]
  simp only [htake]
  exact if_pos rfl

end

/-! ## One entry -/

/-- What was written behind a header is as long as what is skipped there, and extraction goes on behind it, whatever it
makes of the entry. -/
structure InStep (header : TarHeader) (data : List Byte) : Prop where
  written : data.length = blocksOf (parseOctal header.size 12)
  consumed : ∀ (mode : ExtractMode) (pre : Option CString) (rest : List Byte) (dest : FileSystem),
    (extractFile mode pre header (data ++ rest) dest).archive = rest

/-- The data of a small entry are left behind, unless there is no file to write them to. -/
theorem extractFile_small (mode : ExtractMode) (pre : Option CString) {e : Entry} (hsmall : e.Small) (rest : List Byte)
    (dest : FileSystem) :
    (extractFile mode pre e.header (e.data ++ rest) dest).archive = rest ∧
      (extractFile mode pre e.header (e.data ++ rest) dest).fs.creatable = dest.creatable ∧
      ((extractFile mode pre e.header (e.data ++ rest) dest).ok = true ∨
        (extractFile mode pre e.header (e.data ++ rest) dest).ok = false ∧
          dest.creatable (outputFilename pre e.header) = false) := by
  have hsize : parseOctal e.header.size 12 = e.content.length :=
    (size_initHeader e.made).trans (e.recorded_of_small hsmall)
  cases hskips : skips mode dest (outputFilename pre e.header) (.ofBytes (e.header.linkname.take 64)) with
  | true =>
    rw [extractFile_skipped _ _ _ _ _ hsmall hskips]
    exact ⟨rfl, rfl, .inl rfl⟩
  | false =>
    cases hcreatable : dest.creatable (outputFilename pre e.header) with
    | true =>
      obtain ⟨written, hwrite⟩ := FileSystem.write?_of_creatable hcreatable e.content
      rw [extractFile_written _ _ _ _ _ hsmall hskips hwrite]
      exact ⟨rfl, (FileSystem.write?_eq_some hwrite).2.2, .inl rfl⟩
    | false =>
      have hwrite (content : List Byte) : dest.write? (outputFilename pre e.header) content = none :=
        dif_neg (by rw [hcreatable]; exact Bool.false_ne_true)
      unfold extractFile
      simp only [hskips, hwrite, Bool.false_eq_true, if_false]
      rw [hsize, List.drop_left' e.length_data]
      exact ⟨rfl, trivial, .inr ⟨trivial, trivial⟩⟩

theorem Entry.inStep {e : Entry} (hsmall : e.Small) : InStep e.header e.data where
  written := by
    rw [e.length_data, size_initHeader e.made]
    exact congrArg blocksOf (e.recorded_of_small hsmall).symm
  consumed mode pre rest dest := (extractFile_small mode pre hsmall rest dest).1

/-! ## All entries -/

section

variable {entries : List Entry} (hnames : ∀ e ∈ entries, e.name.bytes ≠ []) (hsmall : ∀ e ∈ entries, e.Small)
include hnames hsmall

theorem listLoop_entries (listed : List TarHeader) :
    listLoop (entries.flatMap Entry.bytes ++ List.replicate 1024 0) listed =
      (.success, listed ++ entries.map Entry.header) := by
  induction entries generalizing listed with
  | nil => rw [List.flatMap_nil, List.nil_append, listLoop_end, List.map_nil, List.append_nil]
  | cons e entries ih =>
    have hdrop : (e.data ++ (entries.flatMap Entry.bytes ++ List.replicate 1024 0)).drop
        (blocksOf (parseOctal e.header.size 12)) = entries.flatMap Entry.bytes ++ List.replicate 1024 0 :=
      List.drop_left' (Entry.inStep (hsmall e List.mem_cons_self)).written
    rw [List.flatMap_cons, e.bytes_eq, List.append_assoc, List.append_assoc,
      listLoop_header e (hnames e List.mem_cons_self), hdrop,
      ih (fun d hd => hnames d (List.mem_cons_of_mem e hd)) (fun d hd => hsmall d (List.mem_cons_of_mem e hd)),
      List.append_assoc]
    rfl

/-- Extraction comes to every header, or to the first whose file cannot be created. -/
theorem visitLoop_entries (mode : ExtractMode) (pre : Option CString) (dest : FileSystem) (opened : List Opened)
    (visited : List TarHeader) :
    let run := visitLoop mode pre (entries.flatMap Entry.bytes ++ List.replicate 1024 0) dest opened visited
    run.1.verdict = .success ∧ run.2 = visited ++ entries.map Entry.header ∨
      run.1.verdict = .failure ∧ ∃ before header after, entries.map Entry.header = before ++ header :: after ∧
        run.2 = visited ++ (before ++ [header]) ∧ dest.creatable (outputFilename pre header) = false := by
  induction entries generalizing dest opened visited with
  | nil =>
    rw [List.flatMap_nil, List.nil_append, visitLoop_end, List.map_nil, List.append_nil]
    exact .inl ⟨rfl, rfl⟩
  | cons e entries ih =>
    obtain ⟨harchive, hcreatable, hok⟩ := extractFile_small mode pre (hsmall e List.mem_cons_self)
      (entries.flatMap Entry.bytes ++ List.replicate 1024 0) dest
    rw [List.flatMap_cons, e.bytes_eq, List.append_assoc, List.append_assoc,
      visitLoop_header e (hnames e List.mem_cons_self)]
    dsimp only
    rcases hok with hok | ⟨hok, hnot⟩
    · have hrest := ih (fun d hd => hnames d (List.mem_cons_of_mem e hd)) (fun d hd => hsmall d (List.mem_cons_of_mem e hd))
        (extractFile mode pre e.header (e.data ++ (entries.flatMap Entry.bytes ++ List.replicate 1024 0)) dest).fs
        (opened ++ (extractFile mode pre e.header (e.data ++ (entries.flatMap Entry.bytes ++ List.replicate 1024 0)) dest).opened)
        (visited ++ [e.header])
      rw [hok, if_neg (by decide), harchive]
      dsimp only at hrest
      rw [hcreatable] at hrest
      rcases hrest with ⟨hverdict, hvisited⟩ | ⟨hverdict, before, header, after, hsplit, hvisited, hnot⟩
      · refine .inl ⟨hverdict, hvisited.trans ?_⟩
        rw [List.append_assoc]
        rfl
      · refine .inr ⟨hverdict, e.header :: before, header, after, ?_, hvisited.trans ?_, hnot⟩
        · rw [List.map_cons, hsplit]
          rfl
        · rw [List.append_assoc]
          rfl
    · rw [hok, if_pos rfl]
      exact .inr ⟨rfl, [], e.header, entries.map Entry.header, rfl, rfl, hnot⟩

end

/-! ## Archives that were created -/

/-- Extraction comes to the headers that are listed, all of them or up to one whose file cannot be created. -/
def FollowsListing (mode : ExtractMode) (pre : Option CString) (archive : List Byte) (dest : FileSystem)
    (listed : List TarHeader) : Prop :=
  (extractArchive mode pre archive dest).verdict = .success ∧ visitedHeaders mode pre archive dest = listed ∨
    (extractArchive mode pre archive dest).verdict = .failure ∧ ∃ before header after, listed = before ++ header :: after ∧
      visitedHeaders mode pre archive dest = before ++ [header] ∧ dest.creatable (outputFilename pre header) = false

/-- An archive of headers with their data that writing, skipping, reading and listing go by -/
def HeadersInStep (archiveName : CString) (filenames : List CString) (archive : List Byte) : Prop :=
  ∃ written : List (TarHeader × List Byte), written.length = filenames.length ∧
    archive = written.flatMap (fun w => w.1.bytes ++ w.2) ++ List.replicate 1024 0 ∧
    (∀ w ∈ written, InStep w.1 w.2) ∧
    (listArchive archiveName archive).verdict = .success ∧
    (listArchive archiveName archive).listed = written.map Prod.fst ∧
    ∀ mode pre dest, FollowsListing mode pre archive dest (listArchive archiveName archive).listed

theorem createArchive_inStep {fs : FileSystem} {archiveName : CString} {filenames : List CString} {clock : ℕ → ℕ}
    {archive : List Byte} (hcreate : createArchive fs archiveName filenames clock = (true, archive))
    (hsmall : ∀ name ∈ filenames, ∀ content ∈ fs.files name, content.length < 8 ^ 11) :
    HeadersInStep archiveName filenames archive := by
  obtain ⟨entries, hnames, hfiles, rfl⟩ := createArchive_entries hcreate
  have hentries : ∀ e ∈ entries, e.Small := fun e he => by
    have hfile := (hfiles e he).2
    by_cases hname : e.name = archiveName
    · rw [hname, Function.update_self] at hfile
      rw [Entry.Small, ← Option.some.inj hfile]
      decide
    · rw [Function.update_of_ne hname] at hfile
      exact hsmall e.name (hnames ▸ List.mem_map_of_mem he) e.content hfile
  have hlist := listLoop_entries (fun e he => (hfiles e he).1) hentries []
  have hlisted : (listArchive archiveName (entries.flatMap Entry.bytes ++ List.replicate 1024 0)).listed =
      entries.map Entry.header := congrArg Prod.snd hlist
  refine ⟨entries.map fun e => (e.header, e.data), ?_, ?_, ?_, congrArg Prod.fst hlist, ?_, fun mode pre dest => ?_⟩
  · rw [List.length_map, ← hnames, List.length_map]
  · rw [List.flatMap_map]
    congr 1
    exact List.flatMap_congr fun e _ => e.bytes_eq
  · intro w hw
    obtain ⟨e, he, rfl⟩ := List.mem_map.mp hw
    exact Entry.inStep (hentries e he)
  · rw [hlisted, List.map_map]
    rfl
  · have hvisit := visitLoop_entries (fun e he => (hfiles e he).1) hentries mode pre dest [] []
    dsimp only at hvisit
    rw [visitLoop_fst] at hvisit
    rw [hlisted]
    exact hvisit

theorem createArchive_inStep_ab :
    HeadersInStep (.lit "b") [.lit "a"] (createArchive (.single (.lit "a") [0x62]) (.lit "b") [.lit "a"] fun _ => 0).2 := by
  have hcreate : createArchive (.single (.lit "a") [0x62]) (.lit "b") [.lit "a"] (fun _ => 0) =
      (true, (createArchive (.single (.lit "a") [0x62]) (.lit "b") [.lit "a"] fun _ => 0).2) := rfl
  refine createArchive_inStep hcreate fun name hname content hcontent => ?_
  rw [List.mem_singleton] at hname
  subst hname
  obtain rfl := Option.some.inj (show some [0x62] = some content from hcontent)
  decide

/-- A directory where nothing can be created -/
def FileSystem.readOnly : FileSystem where
  files _ := none
  creatable _ := false
  files_empty := FileSystem.fresh.files_empty
  creatable_empty := FileSystem.full.creatable_empty

/-- There, extraction gives up at the first of two files. -/
theorem visitedHeaders_readOnly :
    (createArchive (.single (.lit "a") []) (.lit "b") [.lit "a", .lit "a"] fun _ => 0).1 = true ∧
      (visitedHeaders .force none (createArchive (.single (.lit "a") []) (.lit "b") [.lit "a", .lit "a"] fun _ => 0).2
        .readOnly).length = 1 ∧
      (listArchive (.lit "b")
        (createArchive (.single (.lit "a") []) (.lit "b") [.lit "a", .lit "a"] fun _ => 0).2).listed.length = 2 := by
  have hcreate : createArchive (.single (.lit "a") []) (.lit "b") [.lit "a", .lit "a"] (fun _ => 0) =
      (true, (createArchive (.single (.lit "a") []) (.lit "b") [.lit "a", .lit "a"] fun _ => 0).2) := rfl
  obtain ⟨entries, hnames, hfiles, harchive⟩ := createArchive_entries hcreate
  have hsmall : ∀ d ∈ entries, d.Small := fun d hd => by
    have hfile := (hfiles d hd).2
    have hname : d.name = .lit "a" := by
      have hmem : d.name ∈ [CString.lit "a", .lit "a"] := hnames ▸ List.mem_map_of_mem hd
      simpa using hmem
    rw [hname] at hfile
    rw [Entry.Small, ← Option.some.inj (show some [] = some d.content from hfile)]
    decide
  have hlist := listLoop_entries (fun d hd => (hfiles d hd).1) hsmall []
  rw [← harchive] at hlist
  refine ⟨congrArg Prod.fst hcreate, ?_, ?_⟩
  · obtain ⟨e, rest, rfl, -, -⟩ := List.map_eq_cons_iff.mp hnames
    rw [harchive, visitedHeaders, List.flatMap_cons, e.bytes_eq, List.append_assoc, List.append_assoc,
      visitLoop_header e (hfiles e List.mem_cons_self).1]
    rfl
  · have hlisted := congrArg (fun run => run.2.length) hlist
    rw [List.nil_append, List.length_map] at hlisted
    have hlength := congrArg List.length hnames
    rw [List.length_map] at hlength
    exact hlisted.trans hlength

end ValidcTools.Smoltar
