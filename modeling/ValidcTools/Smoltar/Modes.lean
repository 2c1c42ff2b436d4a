import ValidcTools.Smoltar.Names

/-! The modes of extraction: what `MODE_NORMAL` skips was there already, and what `MODE_SAFE` finds it
keeps. -/
namespace ValidcTools.Smoltar

/-! ## Normal mode -/

/-- Normal mode skips an entry when its content is there under its name. -/
theorem skips_normal_iff {C : Set (List Byte)} (hC : Set.InjOn sha256 C) {fs : FileSystem} {e : Entry}
    (he : e.content ∈ C) (hfs : ∀ name, ∀ content ∈ fs.files name, content ∈ C) (pre : Option CString) :
    skips .normal fs (outputFilename pre e.header) (.ofBytes (e.header.linkname.take 64)) = true ↔
      fs.files (outputFilename pre e.header) = some e.content := by
  have hhex := e.archiveSha256_eq
  have hne : sha256ToHex (sha256 e.content) ≠ [] := by
    have hlen : (sha256ToHex (sha256 e.content)).length = 64 := by rw [length_sha256ToHex, length_sha256]
    intro hnil
    rw [hnil] at hlen
    cases hlen
  unfold skips
  dsimp only
  rw [hhex, if_neg hne]
  cases hfile : fs.files (outputFilename pre e.header) with
  | none => exact iff_of_false Bool.false_ne_true (Option.some_ne_none _).symm
  | some existing =>
    dsimp only
    rw [decide_eq_true_eq, Option.some.injEq]
    refine ⟨fun h => ?_, fun h => by rw [h]⟩
    exact hC (hfs _ existing hfile) he (sha256ToHex_injective h)

/-- Two extractions of small entries, one with each mode, keep the files the same. -/
theorem files_normal_eq {C : Set (List Byte)} (hC : Set.InjOn sha256 C) (pre : Option CString) {entries : List Entry}
    (hnames : ∀ e ∈ entries, e.name.bytes ≠ []) (hsmall : ∀ e ∈ entries, e.Small) (hentries : ∀ e ∈ entries, e.content ∈ C)
    {f g : FileSystem} (hf : f.AllCreatable) (hg : g.AllCreatable) (hfg : f.files = g.files)
    (hfC : ∀ name, ∀ content ∈ f.files name, content ∈ C) (opened opened' : List Opened) :
    (extractLoop .normal pre (entries.flatMap Entry.bytes ++ List.replicate 1024 0) f opened).fs.files =
      (extractLoop .force pre (entries.flatMap Entry.bytes ++ List.replicate 1024 0) g opened').fs.files := by
  induction entries generalizing f g opened opened' with
  | nil =>
    rw [List.flatMap_nil, List.nil_append, extractLoop_end, extractLoop_end]
    exact hfg
  | cons e entries ih =>
    have hname := hnames e List.mem_cons_self
    have hone := hsmall e List.mem_cons_self
    have hcontent := hentries e List.mem_cons_self
    have hrest {f g : FileSystem} := @ih (fun d hd => hnames d (List.mem_cons_of_mem e hd))
      (fun d hd => hsmall d (List.mem_cons_of_mem e hd)) (fun d hd => hentries d (List.mem_cons_of_mem e hd)) f g
    have hout := outputFilename_ne_nil pre e.header (e.head?_name hname)
    obtain ⟨written', hwrite'⟩ := FileSystem.write?_of_creatable (hg _ hout) e.content
    obtain ⟨-, hfiles', hcreatable'⟩ := FileSystem.write?_eq_some hwrite'
    have hall' : written'.AllCreatable := fun n hn => (congrFun hcreatable' n).trans (hg n hn)
    rw [List.flatMap_cons, List.append_assoc,
      extractLoop_written .force _ _ _ _ _ hname hone rfl hwrite']
    cases hskips : skips .normal f (outputFilename pre e.header) (.ofBytes (e.header.linkname.take 64)) with
    | true =>
      -- what is skipped is what forced extraction writes again
      have hthere := (skips_normal_iff hC hcontent hfC pre).mp hskips
      rw [extractLoop_skipped _ _ _ _ _ _ hname hone hskips]
      refine hrest hf hall' ?_ hfC _ _
      rw [hfiles', ← hfg, ← hthere, Function.update_eq_self]
    | false =>
      obtain ⟨written, hwrite⟩ := FileSystem.write?_of_creatable (hf _ hout) e.content
      obtain ⟨-, hfiles, hcreatable⟩ := FileSystem.write?_eq_some hwrite
      rw [extractLoop_written _ _ _ _ _ _ hname hone hskips hwrite]
      refine hrest (fun n hn => (congrFun hcreatable n).trans (hf n hn)) hall' (by rw [hfiles, hfiles', hfg]) ?_ _ _
      intro n content hn
      rw [hfiles] at hn
      by_cases heq : n = outputFilename pre e.header
      · rw [heq, Function.update_self] at hn
        rw [← Option.some.inj hn]
        exact hcontent
      · rw [Function.update_of_ne heq] at hn
        exact hfC n content hn

/-! ## Safe mode -/

theorem files_extractFile_safe {pre : Option CString} {header : TarHeader} {archive : List Byte} {fs : FileSystem}
    {name : CString} {content : List Byte} (h : fs.files name = some content) :
    (extractFile .safe pre header archive fs).fs.files name = some content := by
  unfold extractFile
  dsimp only
  cases hskips : skips .safe fs (outputFilename pre header) (.ofBytes (header.linkname.take 64)) with
  | true => exact h
  | false =>
    have hne : name ≠ outputFilename pre header := by
      rintro rfl
      unfold skips at hskips
      dsimp only at hskips
      rw [h] at hskips
      cases hskips
    cases hwrite : fs.write? (outputFilename pre header) (copyData archive (parseOctal header.size 12)).2.1 with
    | none => exact h
    | some written =>
      have hkeep : written.files name = some content := by
        rw [(FileSystem.write?_eq_some hwrite).2.1, Function.update_of_ne hne]
        exact h
      dsimp only
      rw [if_neg Bool.false_ne_true]
      split_ifs
      · exact hkeep
      · exact hkeep

/-- A file that was there is kept by every archive. -/
theorem files_extractLoop_safe {pre : Option CString} {archive : List Byte} {fs : FileSystem} {opened : List Opened}
    {name : CString} {content : List Byte} (h : fs.files name = some content) :
    (extractLoop .safe pre archive fs opened).fs.files name = some content := by
  fun_induction extractLoop .safe pre archive fs opened with
  | case6 => exact files_extractFile_safe h
  | case7 archive fs opened hlong header hname hmagic hzero hsum entry hok ih => exact ih (files_extractFile_safe h)
  | _ => exact h

/-! ## Archives that were created -/

/-- The contents that a run of extraction can meet. -/
def involved (src dest : FileSystem) (filenames : List CString) : Set (List Byte) :=
  {content | (∃ name ∈ filenames, src.files name = some content) ∨ ∃ name, dest.files name = some content}

/-- Normal extraction leaves the files of forced extraction, and safe extraction keeps the files that
were there. -/
def ModesAgree (pre : Option CString) (archive : List Byte) (dest : FileSystem) : Prop :=
  (extractArchive .normal pre archive dest).fs.files = (extractArchive .force pre archive dest).fs.files ∧
    ∀ name, ∀ content ∈ dest.files name, (extractArchive .safe pre archive dest).fs.files name = some content

/-- The modes agree on an archive whose sizes could be recorded. -/
theorem modesAgree_of_small {src dest : FileSystem} {archiveName : CString} {filenames : List CString} {clock : ℕ → ℕ}
    {archive : List Byte} (hcreate : createArchive src archiveName filenames clock = (true, archive))
    (hother : archiveName ∉ filenames) (hdest : dest.AllCreatable)
    (hinjective : Set.InjOn sha256 (involved src dest filenames))
    (hsmall : ∀ name ∈ filenames, ∀ content ∈ src.files name, content.length < 2 ^ 33) (pre : Option CString) :
    ModesAgree pre archive dest := by
  obtain ⟨entries, rfl, hsrc, rfl⟩ := createArchive_eq hcreate hother
  refine ⟨?_, fun name content h => files_extractLoop_safe h⟩
  refine files_normal_eq hinjective pre (fun e he => FileSystem.name_ne_nil (hsrc e he)) ?_ ?_ hdest hdest rfl ?_ _ _
  · exact fun e he => hsmall e.name (List.mem_map_of_mem he) e.content (hsrc e he)
  · exact fun e he => Or.inl ⟨e.name, List.mem_map_of_mem he, hsrc e he⟩
  · exact fun name content h => Or.inr ⟨name, h⟩

theorem modesAgree_of_small_ab : ModesAgree none
    (createArchive (.single (.lit "a") [0x62]) (.lit "b") [.lit "a"] fun _ => 0).2 .fresh := by
  have hcreate : createArchive (.single (.lit "a") [0x62]) (.lit "b") [.lit "a"] (fun _ => 0) =
      (true, (createArchive (.single (.lit "a") [0x62]) (.lit "b") [.lit "a"] fun _ => 0).2) := rfl
  have hcontent {name : CString} {content : List Byte} (hname : name ∈ [CString.lit "a"])
      (h : (FileSystem.single (.lit "a") [0x62]).files name = some content) : content = [0x62] := by
    rw [List.mem_singleton] at hname
    subst hname
    exact (Option.some.inj (show some [0x62] = some content from h)).symm
  refine modesAgree_of_small hcreate (by decide) FileSystem.allCreatable_fresh ?_ ?_ none
  · have honly : ∀ content ∈ involved (.single (.lit "a") [0x62]) .fresh [.lit "a"], content = [0x62] := by
      rintro content (⟨name, hname, h⟩ | ⟨name, h⟩)
      · exact hcontent hname h
      · cases h
    exact fun c hc c' hc' _ => (honly c hc).trans (honly c' hc').symm
  · intro name hname content h
    rw [hcontent hname h]
    decide

/-- Forced extraction cuts a file of 2^33 bytes that normal extraction leaves whole. -/
theorem files_differ {content : List Byte} (hlen : content.length = 2 ^ 33) {e : Entry} (hname : e.name = .lit "a")
    (hcontent : e.content = content) :
    let archive := e.bytes ++ List.replicate 1024 0
    (extractArchive .normal none archive (.single (.lit "a") content)).fs.files (.lit "a") = some content ∧
      (extractArchive .force none archive (.single (.lit "a") content)).fs.files (.lit "a") =
        some (content.take (2 ^ 33 - 1)) := by
  have hne : e.name.bytes ≠ [] := by
    rw [hname]
    decide
  have hout : outputFilename none e.header = .lit "a" := by
    rw [CString.ext_iff, e.outputFilename_none, hname]
    decide
  have hsize : parseOctal e.header.size 12 = 2 ^ 33 - 1 := by
    rw [size_initHeader e.made, hcontent, hlen]
    rfl
  have hdrop : (e.data ++ List.replicate 1024 0).drop (2 ^ 33) = List.replicate 1024 0 := by
    refine List.drop_left' ?_
    rw [e.length_data, hcontent, hlen]
    rfl
  have hthere : (FileSystem.single (.lit "a") content).files (.lit "a") = some content := rfl
  constructor
  · have hskips : skips .normal (.single (.lit "a") content) (outputFilename none e.header)
        (.ofBytes (e.header.linkname.take 64)) = true := by
      refine (skips_normal_iff (Set.injOn_singleton sha256 content) hcontent ?_ none).mpr ?_
      · intro name c hc
        have hif : (if name = .lit "a" ∧ name.bytes ≠ [] then some content else none) = some c := hc
        split_ifs at hif
        exact (Option.some.inj hif).symm
      · rw [hout, hcontent, hthere]
    have hfile : extractFile .normal none e.header (e.data ++ List.replicate 1024 0) (.single (.lit "a") content) =
        ⟨true, List.replicate 1024 0, .single (.lit "a") content, []⟩ := by
      unfold extractFile
      simp only [hskips, if_true, hsize]
      rw [show blocksOf (2 ^ 33 - 1) = 2 ^ 33 from rfl, hdrop]
    unfold extractArchive
    rw [e.bytes_eq, List.append_assoc, extractLoop_header _ _ _ _ _ hne, hfile]
    dsimp only
    rw [if_neg (by decide), extractLoop_end]
    exact hthere
  · have hcreatable : (FileSystem.single (.lit "a") content).creatable (outputFilename none e.header) = true := by
      rw [hout]
      rfl
    obtain ⟨written, hwrite⟩ := FileSystem.write?_of_creatable hcreatable (content.take (2 ^ 33 - 1))
    have hcopy : copyData (e.data ++ List.replicate 1024 0) (2 ^ 33 - 1) =
        (true, content.take (2 ^ 33 - 1), (e.data ++ List.replicate 1024 0).drop (2 ^ 33 - 1)) := by
      have hle : 2 ^ 33 - 1 ≤ content.length := by
        rw [hlen]
        exact Nat.sub_le _ _
      rw [Entry.data, List.append_assoc, hcontent, copyData_eq (by rw [List.length_append]; omega),
        List.take_append_of_le_length hle]
    have hpadding : paddingOf (2 ^ 33 - 1) = 1 := rfl
    have hrest : ((e.data ++ List.replicate 1024 0).drop (2 ^ 33 - 1)).drop 1 = List.replicate 1024 0 := by
      rw [List.drop_drop]
      exact hdrop
    have hfile : extractFile .force none e.header (e.data ++ List.replicate 1024 0) (.single (.lit "a") content) =
        ⟨true, List.replicate 1024 0, written, [⟨e.header, outputFilename none e.header, content.take (2 ^ 33 - 1)⟩]⟩ := by
      have hlong : ¬((e.data ++ List.replicate 1024 0).drop (2 ^ 33 - 1)).length < 1 := by
        intro hshort
        have hnil := List.length_eq_zero_iff.mp (Nat.lt_one_iff.mp hshort)
        rw [hnil, List.drop_nil] at hrest
        cases hrest
      unfold extractFile
      simp only [hsize, hcopy, hwrite, hpadding, hlong, skips, Bool.false_eq_true, Bool.true_eq_false, or_self,
        if_false, hrest]
    unfold extractArchive
    rw [e.bytes_eq, List.append_assoc, extractLoop_header _ _ _ _ _ hne, hfile]
    dsimp only
    rw [if_neg (by decide), extractLoop_end]
    dsimp only
    rw [(FileSystem.write?_eq_some hwrite).2.1, hout, Function.update_self]

/-- A file of 2^33 zeros, which are one more than its header can say. -/
theorem modes_disagree : ∃ content : List Byte, content = List.replicate (2 ^ 33) 0 ∧
    (createArchive (.single (.lit "a") content) (.lit "b") [.lit "a"] fun _ => 0).1 = true ∧
      ¬ModesAgree none (createArchive (.single (.lit "a") content) (.lit "b") [.lit "a"] fun _ => 0).2
        (.single (.lit "a") content) := by
  obtain ⟨content, hzeros⟩ : ∃ content : List Byte, content = List.replicate (2 ^ 33) 0 := ⟨_, rfl⟩
  have hlen : content.length = 2 ^ 33 := by rw [hzeros, List.length_replicate]
  have hcreate : createArchive (.single (.lit "a") content) (.lit "b") [.lit "a"] (fun _ => 0) =
      (true, (createArchive (.single (.lit "a") content) (.lit "b") [.lit "a"] fun _ => 0).2) := rfl
  refine ⟨content, hzeros, rfl, fun h => ?_⟩
  obtain ⟨entries, hnames, hsrc, harchive⟩ := createArchive_eq hcreate (by decide)
  obtain ⟨e, rest, rfl, hname, hrest⟩ := List.map_eq_cons_iff.mp hnames
  obtain rfl := List.map_eq_nil_iff.mp hrest
  have hcontent : e.content = content := by
    have hfile := hsrc e List.mem_cons_self
    rw [hname] at hfile
    exact (Option.some.inj (show some content = some e.content from hfile)).symm
  rw [harchive, List.flatMap_singleton] at h
  obtain ⟨hnormal, hforce⟩ := files_differ hlen hname hcontent
  have hsame := (hnormal.symm.trans (congrFun h.1 (.lit "a"))).trans hforce
  have hcut := congrArg List.length (Option.some.inj hsame)
  rw [List.length_take, hlen] at hcut
  omega

end ValidcTools.Smoltar
