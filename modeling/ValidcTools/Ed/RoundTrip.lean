import ValidcTools.Ed.Execute

/-! Saving a buffer and loading it again: `write_file` against `read_full_line`. -/
namespace ValidcTools.Ed
open Outcome

/-- A carriage return at the end of a line belongs, for the reader, to the end of the line. -/
def chomp (l : List Byte) : List Byte :=
  if l.getLast? = some (('\r' : Char) : Byte) then l.dropLast else l

theorem chomp_cons {c : Byte} {l : List Byte} (h : l ≠ []) : chomp (c :: l) = c :: chomp l := by
  have hlast : (c :: l).getLast? = l.getLast? := List.getLast?_cons_of_ne_nil h
  unfold chomp
  rw [hlast, List.dropLast_cons_of_ne_nil h]
  split_ifs <;> rfl

theorem chomp_eq_self_iff (l : List Byte) : chomp l = l ↔ l.getLast? ≠ some (('\r' : Char) : Byte) := by
  unfold chomp
  split_ifs with h
  · have hne : l ≠ [] := by
      rintro rfl
      cases h
    have hlen : l.dropLast.length < l.length := by
      rw [List.length_dropLast]
      exact Nat.sub_lt (List.length_pos_iff.mpr hne) Nat.one_pos
    constructor
    · intro heq
      rw [heq] at hlen
      exact absurd hlen (lt_irrefl _)
    · intro hlast
      exact absurd h hlast
  · exact ⟨fun _ => h, fun _ => rfl⟩

/-- A line with its newline, read back. -/
theorem scanLine_terminated {l : List Byte} (h : ((('\n' : Char) : Byte)) ∉ l) (rest : List Byte) :
    scanLine (l ++ (('\n' : Char) : Byte) :: rest) = ⟨chomp l, true, l ++ newline, rest⟩ := by
  induction l with
  | nil => rfl
  | cons c l ih =>
    have hc : c ≠ (('\n' : Char) : Byte) := fun h0 => h (h0 ▸ List.mem_cons_self)
    have hl : ((('\n' : Char) : Byte)) ∉ l := fun h0 => h (List.mem_cons_of_mem c h0)
    cases l with
    | nil =>
      rw [List.singleton_append, scanLine, if_neg hc]
      by_cases hcr : c = (('\r' : Char) : Byte)
      · subst hcr
        rfl
      · rw [if_neg (by simp [hcr])]
        have hchomp : chomp [c] = [c] := (chomp_eq_self_iff [c]).mpr (by simpa using hcr)
        rw [hchomp]
        rfl
    | cons d l =>
      have hd : d ≠ (('\n' : Char) : Byte) := fun h0 => hl (h0 ▸ List.mem_cons_self)
      rw [chomp_cons (List.cons_ne_nil d l), List.cons_append, scanLine, if_neg hc,
        if_neg (by simp [hd]), ih hl]
      rfl

theorem readLines_fileBytes {ls : List CString} (h : ∀ l ∈ ls, ((('\n' : Char) : Byte)) ∉ l.bytes)
    {n : ℕ} (hn : (fileBytes ls).length ≤ n) :
    readLines n (fileBytes ls) = ls.map fun l => (CString.ofBytes (chomp l.bytes), true) := by
  induction ls generalizing n with
  | nil => cases n <;> rfl
  | cons l ls ih =>
    have hsplit : fileBytes (l :: ls) = l.bytes ++ (('\n' : Char) : Byte) :: fileBytes ls := by
      simp [fileBytes, newline]
    rw [hsplit] at hn ⊢
    rw [List.length_append, List.length_cons] at hn
    cases n with
    | zero => omega
    | succ n =>
      have hscan := scanLine_terminated (h l List.mem_cons_self) (fileBytes ls)
      have hread : readFullLine (l.bytes ++ (('\n' : Char) : Byte) :: fileBytes ls) =
          some ⟨chomp l.bytes, true, l.bytes ++ newline, fileBytes ls⟩ := by
        unfold readFullLine
        rw [hscan, if_neg (by simp)]
      unfold readLines
      rw [hread, List.map_cons]
      exact congrArg (_ :: ·) (ih (fun l hl => h l (List.mem_cons_of_mem _ hl)) (by omega))

/-- What `load_file` makes of the bytes that `write_file` writes. -/
theorem fileLines_fileBytes {ls : List CString} (h : ∀ l ∈ ls, ((('\n' : Char) : Byte)) ∉ l.bytes) :
    (fileLines (fileBytes ls)).map Prod.fst = ls.map fun l => CString.ofBytes (chomp l.bytes) := by
  unfold fileLines
  rw [readLines_fileBytes h le_rfl, List.map_map]
  rfl

theorem ofBytes_chomp_eq_iff (l : CString) :
    CString.ofBytes (chomp l.bytes) = l ↔ l.bytes.getLast? ≠ some (('\r' : Char) : Byte) := by
  have hfree : (0 : Byte) ∉ chomp l.bytes := by
    unfold chomp
    split_ifs
    · exact fun h0 => l.nulFree (List.mem_of_mem_dropLast h0)
    · exact l.nulFree
  rw [← chomp_eq_self_iff, CString.ext_iff, CString.ofBytes_bytes_of_nulFree hfree]

theorem map_eq_self_iff {α : Type} (f : α → α) (l : List α) : l.map f = l ↔ ∀ x ∈ l, f x = x := by
  induction l with
  | nil => simp
  | cons x l ih => simp [ih]

/-- Nothing that the reader hands over contains a newline. -/
theorem scanLine_newlineFree (s : List Byte) : ((('\n' : Char) : Byte)) ∉ (scanLine s).content := by
  induction s with
  | nil => exact List.not_mem_nil
  | cons c s ih =>
    unfold scanLine
    split_ifs with hc hcr
    · exact List.not_mem_nil
    · exact List.not_mem_nil
    · intro hmem
      rcases List.mem_cons.mp hmem with heq | hmem
      · exact hc heq.symm
      · exact ih hmem

theorem ofBytes_newlineFree {l : List Byte} (h : ((('\n' : Char) : Byte)) ∉ l) :
    ((('\n' : Char) : Byte)) ∉ (CString.ofBytes l).bytes :=
  fun hmem => h ((List.takeWhile_prefix _).subset hmem)

theorem readFullLine_newlineFree {s : List Byte} {line : FullLine} (h : readFullLine s = some line) :
    ((('\n' : Char) : Byte)) ∉ (CString.ofBytes line.content).bytes := by
  apply ofBytes_newlineFree
  rw [readFullLine_eq_some h]
  exact scanLine_newlineFree s

/-- The lines that `load_file` can produce. -/
theorem fileLines_newlineFree {bytes : List Byte} {l : CString × Bool} (h : l ∈ fileLines bytes) :
    ((('\n' : Char) : Byte)) ∉ l.1.bytes := by
  have hread : ∀ (n : ℕ) (s : List Byte), l ∈ readLines n s → ((('\n' : Char) : Byte)) ∉ l.1.bytes := by
    intro n
    induction n with
    | zero => intro s hl; cases hl
    | succ n ih =>
      intro s hl
      unfold readLines at hl
      cases hs : readFullLine s with
      | none => simp [hs] at hl
      | some line =>
        rw [hs] at hl
        simp only at hl
        split_ifs at hl
        · rcases List.mem_cons.mp hl with rfl | hl
          · exact readFullLine_newlineFree hs
          · exact ih _ hl
        · rcases List.mem_singleton.mp hl with rfl
          exact readFullLine_newlineFree hs
  exact hread _ _ h

/-- The lines that `append_line` and `insert_line` can produce. -/
theorem readText_newlineFree {n : ℕ} {s : List Byte} {l : CString} (h : l ∈ (readText n s).lines) :
    ((('\n' : Char) : Byte)) ∉ l.bytes := by
  induction n generalizing s with
  | zero => cases h
  | succ n ih =>
    unfold readText at h
    cases hs : readFullLine s with
    | none => simp [hs] at h
    | some line =>
      rw [hs] at h
      simp only at h
      split_ifs at h
      · cases h
      · rcases List.mem_cons.mp h with rfl | h
        · exact readFullLine_newlineFree hs
        · exact ih h
      · rcases List.mem_singleton.mp h with rfl
        exact readFullLine_newlineFree hs

/-- Write the buffer, and load the file into a new editor. -/
def saveAndLoad (w : World) (name : CString) : Outcome :=
  (w.writeFile (some name)).bind fun w => { w with ed := {} }.loadFile name

/-- The loaded lines are the saved ones. -/
def SurvivesSaving (w : World) (name : CString) : Prop :=
  ∃ w', saveAndLoad w name = running w' ∧ w'.ed.texts = w.ed.texts

/-- The lines after saving and loading. -/
theorem saveAndLoad_eq {w : World} {name : CString} (hname : name.bytes ≠ [])
    (hwrite : w.files.writable name = true) :
    ∃ w', saveAndLoad w name = running w' ∧
      w'.ed.texts = (fileLines (fileBytes w.ed.texts)).map Prod.fst := by
  have hfilter : (some name).filter (fun f => decide (f.bytes ≠ [])) = some name := by
    simp [Option.filter, hname]
  simp only [saveAndLoad, World.writeFile, hfilter, Option.some_or, hwrite, Outcome.bind_running,
    World.loadFile, World.print, World.record, Files.write, Function.update_self, reduceIte,
    Bool.true_eq_false]
  refine ⟨_, rfl, ?_⟩
  simp [Editor.texts]

/-- A buffer survives saving exactly when none of its lines ends in a carriage return. -/
theorem survivesSaving_iff {w : World} {name : CString} (hname : name.bytes ≠ [])
    (hwrite : w.files.writable name = true)
    (hfree : ∀ l ∈ w.ed.texts, ((('\n' : Char) : Byte)) ∉ l.bytes) :
    SurvivesSaving w name ↔ ∀ l ∈ w.ed.texts, l.bytes.getLast? ≠ some (('\r' : Char) : Byte) := by
  obtain ⟨w', hrun, htexts⟩ := saveAndLoad_eq hname hwrite
  rw [fileLines_fileBytes hfree] at htexts
  have hsurvives : SurvivesSaving w name ↔ w'.ed.texts = w.ed.texts := by
    unfold SurvivesSaving
    rw [hrun]
    constructor
    · rintro ⟨w'', heq, h⟩
      rw [Outcome.running.inj heq]
      exact h
    · intro h
      exact ⟨w', rfl, h⟩
  rw [hsurvives, htexts, map_eq_self_iff]
  simp only [ofBytes_chomp_eq_iff]

/-- A file that holds `a`, two carriage returns and a newline. -/
def carriageReturns : Files :=
  ⟨fun name => if name = .lit "f" then some (asciiBytes "a\r\r\n") else none, fun _ => true⟩

theorem survivesSaving_iff_ab :
    let w : World := { World.start [] carriageReturns with ed := { lines := [⟨.lit "ab", 0⟩] } }
    SurvivesSaving w (.lit "g") ↔ ∀ l ∈ w.ed.texts, l.bytes.getLast? ≠ some (('\r' : Char) : Byte) :=
  survivesSaving_iff (by decide) rfl (by decide)

/-- The line that is loaded from the file does not survive being saved. -/
theorem not_survivesSaving :
    ¬ ∀ w, (World.start [] carriageReturns).loadFile (.lit "f") = running w →
      SurvivesSaving w (.lit "g") := by
  intro h
  obtain ⟨w', hrun, htexts⟩ := h _ rfl
  have hw := Outcome.running.inj hrun
  subst hw
  exact absurd htexts (by decide)

end ValidcTools.Ed
