import ValidcTools.Ed.Runs

/-! How the loop of `main`, the command lists and the text blocks share the lines of the input. -/
namespace ValidcTools.Ed
open Outcome

/-! ## Lines of a stream -/

/-- The bytes up to and including the first newline, and those after it. -/
def firstLine : List Byte → List Byte × List Byte
  | [] => ([], [])
  | c :: s => if c = '\n' then ([c], s) else (c :: (firstLine s).1, (firstLine s).2)

/-- The lines of a stream, each with the newline that ends it. -/
def physicalLines : List Byte → List (List Byte)
  | [] => []
  | c :: s =>
    if c = '\n' then [c] :: physicalLines s
    else match physicalLines s with
      | [] => [[c]]
      | l :: ls => (c :: l) :: ls

theorem physicalLines_eq {s : List Byte} (h : s ≠ []) :
    physicalLines s = (firstLine s).1 :: physicalLines (firstLine s).2 := by
  induction s with
  | nil => exact absurd rfl h
  | cons c s ih =>
    by_cases hc : c = '\n'
    · rw [physicalLines, firstLine, if_pos hc, if_pos hc]
    · rw [physicalLines, firstLine, if_neg hc, if_neg hc]
      by_cases hs : s = []
      · rw [hs]
        rfl
      · rw [ih hs]

theorem takeLine_eq {n : ℕ} {s : List Byte} (h : (firstLine s).1.length ≤ n) :
    takeLine n s = firstLine s := by
  induction n generalizing s with
  | zero =>
    cases s with
    | nil => rfl
    | cons c s =>
      unfold firstLine at h
      split_ifs at h <;> simp at h
  | succ n ih =>
    cases s with
    | nil => rfl
    | cons c s =>
      unfold firstLine at h ⊢
      unfold takeLine
      split_ifs at h ⊢ with hc
      · rfl
      · rw [ih (Nat.le_of_succ_le_succ h)]

/-- A line that is too long is cut. -/
theorem length_takeLine {n : ℕ} {s : List Byte} (h : n < (firstLine s).1.length) :
    (takeLine n s).1.length = n := by
  induction n generalizing s with
  | zero => rfl
  | succ n ih =>
    cases s with
    | nil => simp [firstLine] at h
    | cons c s =>
      unfold firstLine at h
      unfold takeLine
      split_ifs at h ⊢ with hc
      · simp at h
      · rw [List.length_cons, ih (Nat.lt_of_succ_lt_succ h)]

theorem scanLine_eq (s : List Byte) : ((scanLine s).raw, (scanLine s).rest) = firstLine s := by
  induction s with
  | nil => rfl
  | cons c s ih =>
    obtain ⟨hraw, hrest⟩ := Prod.mk.inj ih
    unfold scanLine firstLine
    split_ifs with hc hcr
    · rfl
    · cases s with
      | nil => simp at hcr
      | cons d s =>
        have hd : d = (('\n' : Char) : Byte) := by simpa using hcr.2
        simp [hd, firstLine]
    · rw [← hraw, ← hrest]

/-! ## Readers -/

/-- `fgets` with its buffer of 1024 bytes, and `read_full_line`. -/
inductive Reader
  | fgets
  | fullLine
deriving DecidableEq

/-- What one call of a reader takes off a stream. -/
def Reader.take : Reader → List Byte → List Byte × List Byte
  | fgets, s => takeLine (maxLine - 1) s
  | fullLine, s => ((scanLine s).raw, (scanLine s).rest)

/-- What calls of readers take off a stream, one after the other, and what they leave. -/
def consume : List Byte → List Reader → List (List Byte) × List Byte
  | s, [] => ([], s)
  | s, k :: ks => ((k.take s).1 :: (consume (k.take s).2 ks).1, (consume (k.take s).2 ks).2)

theorem consume_append (s : List Byte) (ks ks' : List Reader) :
    consume s (ks ++ ks') =
      ((consume s ks).1 ++ (consume (consume s ks).2 ks').1, (consume (consume s ks).2 ks').2) := by
  induction ks generalizing s with
  | nil => rfl
  | cons k ks ih =>
    rw [List.cons_append, consume, ih]
    rfl

/-- Every line that `fgets` comes to fits into its buffer. -/
def LinesFit : List Byte → List Reader → Prop
  | _, [] => True
  | s, k :: ks => (k = .fgets → (firstLine s).1.length < maxLine) ∧ LinesFit (k.take s).2 ks

theorem Reader.take_eq {k : Reader} {s : List Byte} (h : k = .fgets → (firstLine s).1.length < maxLine) :
    k.take s = firstLine s := by
  cases k with
  | fgets => exact takeLine_eq (Nat.le_sub_one_of_lt (h rfl))
  | fullLine => exact scanLine_eq s

/-- No call of a reader is made at the end of the stream. -/
def Readable : List Byte → List Reader → Prop
  | _, [] => True
  | s, k :: ks => s ≠ [] ∧ Readable (k.take s).2 ks

theorem readable_append {s : List Byte} {ks ks' : List Reader} (h : Readable s ks)
    (h' : Readable (consume s ks).2 ks') : Readable s (ks ++ ks') := by
  induction ks generalizing s with
  | nil => exact h'
  | cons k ks ih => exact ⟨h.1, ih h.2 h'⟩

/-- The readers deliver the lines of the stream whole exactly when the lines fit. -/
theorem consume_prefix_iff {s : List Byte} {ks : List Reader} (h : Readable s ks) :
    (consume s ks).1 <+: physicalLines s ↔ LinesFit s ks := by
  induction ks generalizing s with
  | nil => exact iff_of_true (List.nil_prefix) trivial
  | cons k ks ih =>
    obtain ⟨hs, hks⟩ := h
    unfold consume LinesFit
    dsimp only
    rw [physicalLines_eq hs, List.cons_prefix_cons]
    by_cases hfit : k = .fgets → (firstLine s).1.length < maxLine
    · have htake := Reader.take_eq hfit
      rw [← ih hks, htake]
      exact ⟨fun h => ⟨hfit, h.2⟩, fun h => ⟨rfl, h.2⟩⟩
    · apply iff_of_false
      · rintro ⟨hraw, -⟩
        rw [Classical.not_imp] at hfit
        obtain ⟨rfl, hlong⟩ := hfit
        have hmax : maxLine = 1024 := rfl
        have hlen : (Reader.fgets.take s).1.length = maxLine - 1 := length_takeLine (by omega)
        rw [hraw] at hlen
        omega
      · exact fun h => hfit h.1

/-! ## What the log says of the input -/

/-- The reader of a line of the input; the temporary file of a command list is not the input. -/
def Event.reader? : Event → Option (Reader × List Byte)
  | .command raw => some (.fgets, raw)
  | .listLine raw false => some (.fgets, raw)
  | .text raw false => some (.fullLine, raw)
  | _ => none

def readers (log : List Event) : List Reader := (log.filterMap Event.reader?).map Prod.fst

/-- The lines as they have been read. -/
def delivered (log : List Event) : List (List Byte) := (log.filterMap Event.reader?).map Prod.snd

theorem readers_append (log es : List Event) : readers (log ++ es) = readers log ++ readers es := by
  simp [readers]

theorem delivered_append (log es : List Event) :
    delivered (log ++ es) = delivered log ++ delivered es := by
  simp [delivered]

theorem filterMap_reader?_of_printed {es : List Event} (h : ∀ e ∈ es, e.reader? = none) :
    es.filterMap Event.reader? = [] :=
  List.filterMap_eq_nil_iff.mpr h

/-- What has been recorded from `w` to `w'` is what has been read of the input. -/
structure Eats (w w' : World) (es : List Event) : Prop where
  log : w'.log = w.log ++ es
  temporary : w.input.temporary = true → es.filterMap Event.reader? = []
  consume : w.input.temporary = false → ∃ rest, consume w.input.bytes (readers es) = (delivered es, rest)
  readable : w.input.temporary = false → Readable w.input.bytes (readers es)

/-- What an execution that returns has read, and that it leaves the rest. -/
def Fed (w w' : World) : Prop :=
  w'.input.temporary = w.input.temporary ∧ ∃ es, Eats w w' es ∧
    (w.input.temporary = false → w'.input.bytes = (Ed.consume w.input.bytes (readers es)).2)

/-- What an execution that leaves the editor has read. -/
def Fed' (w w' : World) : Prop := ∃ es, Eats w w' es

theorem Fed.trans_eats {w w1 w2 : World} (h : Fed w w1) {es : List Event} (h1 : Eats w1 w2 es) :
    ∃ es', Eats w w2 (es' ++ es) ∧ readers (es' ++ es) = readers es' ++ readers es ∧
      (w.input.temporary = false → w1.input.bytes = (Ed.consume w.input.bytes (readers es')).2) := by
  obtain ⟨htemp, es', heats, hrest⟩ := h
  refine ⟨es', ⟨?_, ?_, ?_, ?_⟩, readers_append _ _, hrest⟩
  · rw [h1.log, heats.log, List.append_assoc]
  · intro ht
    rw [List.filterMap_append, heats.temporary ht, h1.temporary (htemp.trans ht), List.append_nil]
  · intro ht
    obtain ⟨rest', hc'⟩ := heats.consume ht
    obtain ⟨rest, hc⟩ := h1.consume (htemp.trans ht)
    refine ⟨rest, ?_⟩
    rw [readers_append, delivered_append, consume_append, ← hrest ht, hc, hc']
  · intro ht
    rw [readers_append]
    apply readable_append (heats.readable ht)
    rw [← hrest ht]
    exact h1.readable (htemp.trans ht)

theorem Fed.trans {w w1 w2 : World} (h : Fed w w1) (h1 : Fed w1 w2) : Fed w w2 := by
  obtain ⟨htemp1, es, heats1, hrest1⟩ := h1
  obtain ⟨es', heats, hreaders, hrest⟩ := h.trans_eats heats1
  refine ⟨htemp1.trans h.1, es' ++ es, heats, fun ht => ?_⟩
  rw [hreaders, consume_append, hrest1 (h.1.trans ht), hrest ht]

/-- Nothing is read. -/
theorem fed_of_quiet {w w' : World} (es : List Event) (hinput : w'.input = w.input)
    (hlog : w'.log = w.log ++ es) (hes : ∀ e ∈ es, e.reader? = none) : Fed w w' := by
  have hnil := filterMap_reader?_of_printed hes
  have hreaders : readers es = [] := by rw [readers, hnil, List.map_nil]
  have hdelivered : delivered es = [] := by rw [delivered, hnil, List.map_nil]
  refine ⟨by rw [hinput], es, ⟨hlog, fun _ => hnil, fun _ => ⟨w.input.bytes, ?_⟩, fun _ => ?_⟩, fun _ => ?_⟩
  · rw [hreaders, hdelivered]
    rfl
  · rw [hreaders]
    trivial
  · rw [hreaders, hinput]
    rfl

/-! ## Blocks -/

theorem consume_readText (n : ℕ) (s : List Byte) :
    consume s (List.replicate (Ed.readText n s).raws.length .fullLine) =
        ((Ed.readText n s).raws, (Ed.readText n s).rest) ∧
      Readable s (List.replicate (Ed.readText n s).raws.length .fullLine) := by
  induction n generalizing s with
  | zero => exact ⟨rfl, trivial⟩
  | succ n ih =>
    cases s with
    | nil => exact ⟨rfl, trivial⟩
    | cons c s =>
      obtain ⟨hconsume, hreadable⟩ := ih (scanLine (c :: s)).rest
      unfold Ed.readText
      rw [readFullLine_cons]
      dsimp only
      split_ifs
      · exact ⟨rfl, List.cons_ne_nil c s, trivial⟩
      · refine ⟨?_, List.cons_ne_nil c s, hreadable⟩
        rw [List.length_cons, List.replicate_succ, consume]
        unfold Reader.take
        rw [hconsume]
      · exact ⟨rfl, List.cons_ne_nil c s, trivial⟩

theorem consume_readList (n : ℕ) (s : List Byte) :
    consume s (List.replicate (Ed.readList n s).raws.length .fgets) =
        ((Ed.readList n s).raws, (Ed.readList n s).rest) ∧
      Readable s (List.replicate (Ed.readList n s).raws.length .fgets) := by
  induction n generalizing s with
  | zero => exact ⟨rfl, trivial⟩
  | succ n ih =>
    cases s with
    | nil => exact ⟨rfl, trivial⟩
    | cons c s =>
      have hfgets : fgets maxLine (c :: s) = some (takeLine (maxLine - 1) (c :: s)) := rfl
      obtain ⟨hconsume, hreadable⟩ := ih (takeLine (maxLine - 1) (c :: s)).2
      unfold Ed.readList
      rw [hfgets]
      dsimp only
      split_ifs
      · exact ⟨rfl, List.cons_ne_nil c s, trivial⟩
      · refine ⟨?_, List.cons_ne_nil c s, hreadable⟩
        rw [List.length_cons, List.replicate_succ, consume]
        unfold Reader.take
        rw [hconsume]

theorem fed_of_block {w : World} (w' : World) {k : Reader} {raws : List (List Byte)} {rest : List Byte}
    {e : List Byte → Event} (htemp : w'.input.temporary = w.input.temporary)
    (hlog : w'.log = w.log ++ raws.map e)
    (he : ∀ raw, (e raw).reader? = if w.input.temporary then none else some (k, raw))
    (hbytes : w'.input.bytes = rest)
    (hblock : consume w.input.bytes (List.replicate raws.length k) = (raws, rest) ∧
      Readable w.input.bytes (List.replicate raws.length k)) : Fed w w' := by
  have hquiet (ht : w.input.temporary = true) : (raws.map e).filterMap Event.reader? = [] := by
    apply List.filterMap_eq_nil_iff.mpr
    intro x hx
    obtain ⟨raw, -, rfl⟩ := List.mem_map.mp hx
    rw [he, if_pos ht]
  have hread (ht : w.input.temporary = false) :
      (raws.map e).filterMap Event.reader? = raws.map fun raw => (k, raw) := by
    rw [List.filterMap_map]
    have hfun : Event.reader? ∘ e = some ∘ fun raw => (k, raw) := by
      funext raw
      rw [Function.comp_apply, he, ht]
      rfl
    rw [hfun, List.filterMap_eq_map]
  have hreaders (ht : w.input.temporary = false) :
      readers (raws.map e) = List.replicate raws.length k := by
    rw [readers, hread ht, List.map_map]
    exact List.map_const'
  have hdelivered (ht : w.input.temporary = false) : delivered (raws.map e) = raws := by
    rw [delivered, hread ht, List.map_map]
    exact List.map_id raws
  refine ⟨htemp, raws.map e, ⟨hlog, hquiet, fun ht => ⟨rest, ?_⟩, fun ht => ?_⟩, fun ht => ?_⟩
  · rw [hreaders ht, hdelivered ht]
    exact hblock.1
  · rw [hreaders ht]
    exact hblock.2
  · rw [hreaders ht, hblock.1, hbytes]

namespace World

variable {exec : CString → World → Outcome} {fuel : ℕ} {w w' : World}

theorem fed_readText (w : World) : Fed w w.readText.2 := by
  have he (raw : List Byte) : (Event.text raw w.input.temporary).reader? =
      if w.input.temporary then none else some (.fullLine, raw) := by
    cases w.input.temporary <;> rfl
  exact fed_of_block w.readText.2 rfl rfl he rfl (consume_readText _ _)

theorem fed_readList (w : World) : Fed w w.readList.2 := by
  have he (raw : List Byte) : (Event.listLine raw w.input.temporary).reader? =
      if w.input.temporary then none else some (.fgets, raw) := by
    cases w.input.temporary <;> rfl
  exact fed_of_block w.readList.2 rfl rfl he rfl (consume_readList _ _)

theorem fed_refl (w : World) : Fed w w := fed_of_quiet [] rfl (by simp) (by simp)

theorem fed_setError (w : World) (m : Message) : Fed w (w.setError m) :=
  fed_of_quiet [.error m w.ed.verbose] rfl rfl (by simp [Event.reader?])

/-- Reading is all that matters of a step. -/
theorem fed_congr {w1 : World} (h : Fed w w1) (hinput : w'.input = w1.input) (hlog : w'.log = w1.log) :
    Fed w w' := by
  obtain ⟨htemp, es, heats, hrest⟩ := h
  exact ⟨by rw [hinput, htemp], es, ⟨hlog.trans heats.log, heats.temporary, heats.consume, heats.readable⟩,
    by rw [hinput]; exact hrest⟩

theorem fed_insertLine {addr : ℤ} (h : w.insertLine addr = running w') : Fed w w' := by
  rw [insertLine_eq] at h
  obtain ⟨lines, -, h⟩ := withLines_eq_running h
  split_ifs at h
  · exact Outcome.running.inj h ▸ fed_congr (fed_readText w) rfl rfl
  · exact Outcome.running.inj h ▸ fed_congr (fed_readText w) rfl rfl

theorem fed_deleteRange {range : AddressRange} (h : w.deleteRange range = running w') : Fed w w' := by
  rcases deleteRange_running h with ⟨-, rfl⟩ | ⟨-, -, lines, -, rfl⟩
  · exact fed_congr (fed_setError w _) rfl rfl
  · exact fed_congr (fed_refl w) rfl rfl

theorem fed_loadFile {name : CString} (h : w.loadFile name = running w') : Fed w w' := by
  rcases loadFile_running h with ⟨-, rfl⟩ | ⟨bytes, -, lines, out, -, rfl⟩
  · exact fed_setError w _
  · exact fed_of_quiet _ rfl rfl (by simp [Event.reader?])

theorem fed_forcedEditFile {filename : Option CString} (h : w.forcedEditFile filename = running w') :
    Fed w w' := by
  obtain ⟨name, -, h⟩ := forcedEditFile_running h
  have hed : Fed w { w with ed := {} } := fed_congr (fed_refl w) rfl rfl
  exact hed.trans (fed_loadFile h)

/-- What one call reads. -/
theorem fed_perform {c : Call} (hglobal : c.isGlobal = false) (h : w.perform exec fuel c = running w') :
    Fed w w' := by
  by_cases hplain : c.plain = true
  · have hstep := perform_plain hplain h
    obtain ⟨es, hlog, hout⟩ := hstep.log
    apply fed_of_quiet _ hstep.input hlog
    intro e he
    have hkind := hout e he
    cases e with
    | print bytes => rfl
    | error m verbose => rfl
    | _ => cases hkind
  · cases c with
    | global isG range pat inner => cases hglobal
    | substituteRange range pattern replacement global =>
      rcases substituteRange_running h with ⟨m, rfl⟩ | ⟨-, lines, -, rfl⟩
      · exact fed_congr (fed_setError w m) rfl rfl
      · exact fed_congr (fed_refl w) rfl rfl
    | writeFile filename =>
      rcases writeFile_running h with ⟨m, rfl⟩ | ⟨files, name, out, rfl⟩
      · exact fed_setError w m
      · exact fed_of_quiet _ rfl rfl (by simp [Event.reader?])
    | editFile filename =>
      rcases editFile_running h with ⟨-, rfl⟩ | ⟨-, h⟩
      · exact fed_setError w _
      · exact fed_forcedEditFile h
    | forcedEditFile filename => exact fed_forcedEditFile h
    | readFileAtAddress addr filename =>
      change w.readFileAtAddress addr filename = running w' at h
      rw [readFileAtAddress_eq] at h
      split at h
      · exact Outcome.running.inj h ▸ fed_congr (fed_setError w _) rfl rfl
      · obtain ⟨lines, -, h⟩ := withLines_eq_running h
        rw [← Outcome.running.inj h]
        split_ifs
        · exact fed_of_quiet [.print _] rfl rfl (by simp [Event.reader?])
        · exact fed_of_quiet [.print _] rfl rfl (by simp [Event.reader?])
    | moveRange range dest =>
      rcases moveRange_running h with ⟨m, rfl⟩ | ⟨-, -, -, -, -, rfl⟩
      · exact fed_congr (fed_setError w m) rfl rfl
      · exact fed_congr (fed_refl w) rfl rfl
    | copyRange range dest =>
      rcases copyRange_running h with ⟨-, rfl⟩ | ⟨-, -, lines, -, rfl⟩
      · exact fed_congr (fed_setError w _) rfl rfl
      · exact fed_congr (fed_refl w) rfl rfl
    | deleteRange range => exact fed_deleteRange h
    | changeRange range =>
      rcases changeRange_running h with ⟨-, rfl⟩ | ⟨-, w1, hdelete, hinsert⟩
      · exact fed_congr (fed_setError w _) rfl rfl
      · exact (fed_deleteRange hdelete).trans (fed_insertLine hinsert)
    | joinRange range =>
      rcases joinRange_running h with ⟨-, rfl⟩ | ⟨-, -, rfl⟩ | ⟨-, -, first, -, rfl⟩
      · exact fed_congr (fed_setError w _) rfl rfl
      · exact fed_congr (fed_refl w) rfl rfl
      · exact fed_congr (fed_refl w) rfl rfl
    | appendLine addr =>
      change w.appendLine addr = running w' at h
      rw [appendLine_eq] at h
      obtain ⟨lines, -, h⟩ := withLines_eq_running h
      by_cases htexts : w.readText.1 = []
      · rw [if_pos htexts] at h
        exact Outcome.running.inj h ▸ fed_congr (fed_readText w) rfl rfl
      · rw [if_neg htexts] at h
        exact Outcome.running.inj h ▸ fed_congr (fed_readText w) rfl rfl
    | insertLine addr => exact fed_insertLine h
    | undo =>
      rcases undo_running h with ⟨-, rfl⟩ | ⟨-, rfl⟩
      · exact fed_setError w _
      · exact fed_congr (fed_refl w) rfl rfl
    | _ => exact absurd rfl hplain

theorem fed_call (w : World) (c : Call) : Fed w (w.record (.call c w.toState)) :=
  fed_of_quiet [.call c w.toState] rfl rfl (by simp [Event.reader?])

end World

/-- Reading obeys the rule for executions. -/
theorem rule_fed : Rule Fed Fed' where
  refl := World.fed_refl
  trans := Fed.trans
  exit := fun h ⟨_, h1⟩ => by
    obtain ⟨es', heats, -, -⟩ := h.trans_eats h1
    exact ⟨_, heats⟩
  call := fun {_ _ cmd w _} hglobal h =>
    (World.fed_call w (w.ed.decode cmd)).trans (World.fed_perform hglobal h)
  quit := fun {cmd w} _ => by
    obtain ⟨-, es, heats, -⟩ := World.fed_call w (w.ed.decode cmd)
    exact ⟨es, heats⟩
  global := fun {cmd w} _ => World.fed_call w (w.ed.decode cmd)
  readList := World.fed_readList
  target := fun {w} _ _ => World.fed_congr (World.fed_refl w) rfl rfl
  restored := by
    -- What is read of the temporary file is not of the input.
    rintro w w' bytes ⟨-, es, heats, -⟩
    have hnil := heats.temporary rfl
    have hreaders : readers es = [] := by rw [readers, hnil, List.map_nil]
    have hdelivered : delivered es = [] := by rw [delivered, hnil, List.map_nil]
    refine ⟨rfl, es, ⟨heats.log, fun _ => hnil, fun _ => ⟨w.input.bytes, ?_⟩, fun _ => ?_⟩, fun _ => ?_⟩
    · rw [hreaders, hdelivered]
      rfl
    · rw [hreaders]
      trivial
    · rw [hreaders]
      rfl
  replaced := by
    rintro w w' bytes ⟨es, heats⟩
    have hnil := heats.temporary rfl
    have hreaders : readers es = [] := by rw [readers, hnil, List.map_nil]
    have hdelivered : delivered es = [] := by rw [delivered, hnil, List.map_nil]
    refine ⟨es, ⟨heats.log, fun _ => hnil, fun _ => ⟨w.input.bytes, ?_⟩, fun _ => ?_⟩⟩
    · rw [hreaders, hdelivered]
      rfl
    · rw [hreaders]
      trivial

/-! ## Whole lines -/

theorem length_takeLine_le (n : ℕ) (s : List Byte) : (takeLine n s).1.length ≤ n := by
  by_cases h : n < (firstLine s).1.length
  · exact (length_takeLine h).le
  · rw [takeLine_eq (not_lt.mp h)]
    exact not_lt.mp h

/-- Each line read is what its reader takes off a part of the stream. -/
theorem mem_consume {s : List Byte} {reads : List (Reader × List Byte)} {rest : List Byte}
    (h : consume s (reads.map Prod.fst) = (reads.map Prod.snd, rest)) {k : Reader} {raw : List Byte}
    (hmem : (k, raw) ∈ reads) : ∃ s', s' ⊆ s ∧ raw = (k.take s').1 := by
  induction reads generalizing s with
  | nil => cases hmem
  | cons p reads ih =>
    rw [List.map_cons, List.map_cons, consume, Prod.mk.injEq, List.cons.injEq] at h
    obtain ⟨⟨hraw, hraws⟩, hrest⟩ := h
    rcases List.mem_cons.mp hmem with rfl | hmem
    · exact ⟨s, List.Subset.refl s, hraw.symm⟩
    · obtain ⟨s', hs', hraw'⟩ := ih (Prod.ext hraws hrest) hmem
      have hsub : (p.1.take s).2 ⊆ s := by
        have happ : (p.1.take s).1 ++ (p.1.take s).2 = s := by
          cases p.1 with
          | fgets => exact takeLine_append _ _
          | fullLine => exact scanLine_append _
        intro b hb
        rw [← happ]
        exact List.mem_append_right _ hb
      exact ⟨s', fun b hb => hsub (hs' hb), hraw'⟩

/-- The lines of the input are read one after the other, each whole, and a command is executed whole. -/
def DeliveredWhole (input : List Byte) (log : List Event) : Prop :=
  delivered log <+: physicalLines input ∧
    ∀ raw, .command raw ∈ log → commandBuffer (.ofBytes raw) = raw.takeWhile (· ≠ (('\n' : Char) : Byte))

theorem eats_opened {filename : Option CString} {input : List Byte} {files : Files} {w0 : World}
    (h0 : World.opened filename input files = running w0) :
    w0.input = ⟨input, false⟩ ∧ w0.log.filterMap Event.reader? = [] := by
  cases filename with
  | none =>
    obtain rfl := Outcome.running.inj h0
    exact ⟨rfl, rfl⟩
  | some f =>
    rcases World.loadFile_running h0 with ⟨-, rfl⟩ | ⟨bytes, -, lines, out, -, rfl⟩
    · exact ⟨rfl, rfl⟩
    · exact ⟨rfl, rfl⟩

def noFiles : Files := ⟨fun _ => none, fun _ => true⟩

/-- A command line of 1100 bytes. -/
def longLine : List Byte := List.replicate 1100 ('x' : Char)

end ValidcTools.Ed
