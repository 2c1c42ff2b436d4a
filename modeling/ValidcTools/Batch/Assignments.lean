import ValidcTools.Batch.Expansion

/-! Lines of `var`, `unset` and `clearvars` as operations on the finite map. -/
namespace ValidcTools.Batch

/-! ## Values -/

/-- What a quoted text says up to its closing quote, and whether it has one. A backslash stands before
a byte that is meant as it is. -/
def unquote : List Byte → List Byte × Bool
  | [] => ([], false)
  | [0x5C] => ([], false)
  | 0x5C :: c :: p => (c :: (unquote p).1, (unquote p).2)
  | c :: p => if c = '"' then ([], true) else (c :: (unquote p).1, (unquote p).2)

/-- The value that a text stands for, of which 255 bytes count; `none` where the closing quote is
missing. -/
def textValue (text : List Byte) : Option (List Byte) :=
  match text with
  | 0x22 :: p =>
    if (unquote p).2 = true ∨ MAX_VAR_VALUE - 1 ≤ (unquote p).1.length then
      some ((unquote p).1.take (MAX_VAR_VALUE - 1))
    else none
  | p => some (stripTrailingWs (p.take (MAX_VAR_VALUE - 1)))

/-- The text ends before its closing quote, with a byte that the code takes for it. -/
def EndsInQuote (text : List Byte) : Prop :=
  text.head? = some ('"' : Byte) ∧ (unquote text.tail).2 = false ∧ (unquote text.tail).1.length < MAX_VAR_VALUE - 1 ∧
    text.getLast? = some ('"' : Byte)

theorem unquote_quote (p : List Byte) : unquote ('"' :: p) = ([], true) := by
  rw [unquote, if_pos rfl]
  · exact fun h => absurd h (by decide)
  · exact fun _ _ h => absurd h (by decide)

theorem unquote_other {c : Byte} {p : List Byte} (hone : c = 0x5C → p = [] → False)
    (htwo : ∀ d q, c = 0x5C → p = d :: q → False) (hquote : c ≠ '"') :
    unquote (c :: p) = (c :: (unquote p).1, (unquote p).2) := by
  rw [unquote, if_neg hquote]
  · exact hone
  · exact htwo

/-- What is read of a quoted text is as much of it as there is room for. -/
theorem readQuoted_text (room : ℕ) (p : List Byte) (last : Byte) :
    (readQuoted room p last).text = (unquote p).1.take room := by
  fun_induction readQuoted room p last with
  | case1 => rfl
  | case2 => rfl
  | case3 => rfl
  | case4 last room c p q ih => exact congrArg (c :: ·) ih
  | case5 last room p => rw [unquote_quote, List.take_nil]
  | case6 last room c p hone htwo hquote q ih =>
    rw [unquote_other hone htwo hquote]
    exact congrArg (c :: ·) ih

/-- The loop ends at the closing quote, or with the last byte of a text that has none. -/
theorem readQuoted_last {room : ℕ} {p : List Byte} (last : Byte) (hroom : (unquote p).1.length < room) :
    (readQuoted room p last).last =
      if (unquote p).2 = true then 0x22 else (last :: p).getLast (List.cons_ne_nil last p) := by
  fun_induction readQuoted room p last with
  | case1 => exact absurd hroom (Nat.not_lt_zero _)
  | case2 => rfl
  | case3 => rfl
  | case4 last room c p q ih =>
    rw [List.getLast_cons_cons, List.getLast_cons_cons]
    exact ih (Nat.lt_of_succ_lt_succ hroom)
  | case5 last room p =>
    rw [unquote_quote]
    rfl
  | case6 last room c p hone htwo hquote q ih =>
    rw [List.getLast_cons_cons]
    rw [unquote_other hone htwo hquote] at hroom ⊢
    exact ih (Nat.lt_of_succ_lt_succ hroom)

theorem readValue_plain {p : List Byte} (h : p.head? ≠ some ('"' : Byte)) :
    readValue p = some (stripTrailingWs (p.take (MAX_VAR_VALUE - 1))) := by
  unfold readValue
  split
  · exact absurd rfl h
  · rfl

theorem textValue_plain {p : List Byte} (h : p.head? ≠ some ('"' : Byte)) :
    textValue p = some (stripTrailingWs (p.take (MAX_VAR_VALUE - 1))) := by
  unfold textValue
  split
  · exact absurd rfl h
  · rfl

/-- A value that is read is the one meant, unless the text ends in a byte taken for its closing
quote. -/
theorem textValue_of_readValue {p value : List Byte} (h : readValue p = some value) (hquote : ¬EndsInQuote p) :
    textValue p = some value := by
  by_cases hhead : p.head? = some ('"' : Byte)
  · rw [eq_cons_of_head? hhead] at h hquote ⊢
    generalize p.tail = p at h hquote ⊢
    change (if _ ∧ _ then none else some (readQuoted (MAX_VAR_VALUE - 1) p '"').text) = some value at h
    change (if _ ∨ _ then some ((unquote p).1.take (MAX_VAR_VALUE - 1)) else none) = some value
    rw [readQuoted_text] at h
    split_ifs at h with hmissing
    obtain rfl := Option.some.inj h
    refine if_pos ?_
    by_contra hno
    push Not at hno
    obtain ⟨hopen, hshort⟩ := hno
    refine hquote ⟨rfl, Bool.eq_false_iff.mpr hopen, hshort, ?_⟩
    rw [readQuoted_last _ hshort, if_neg hopen, List.length_take, min_eq_right hshort.le] at hmissing
    push Not at hmissing
    by_contra hlast
    refine absurd hshort (not_lt.mpr (hmissing fun heq => hlast ?_))
    rw [List.getLast?_eq_some_getLast (List.cons_ne_nil _ _)]
    exact congrArg some heq
  · rw [readValue_plain hhead] at h
    rw [textValue_plain hhead]
    exact h

/-! ## Lines -/

/-- The characters of an operator. -/
def Operator.text (op : Operator) : List Byte :=
  (if op.isAppend then [0x2B] else []) ++ (if op.doExpand then [0x3A] else []) ++ [0x3D]

/-- A line `var NAME OP VALUE` in its parts. -/
structure Assignment (line : List Byte) where
  lead : List Byte
  gap1 : List Byte
  name : List Byte
  gap2 : List Byte
  op : Operator
  gap3 : List Byte
  text : List Byte
  line_eq : line = lead ++ (CString.lit "var").bytes ++ gap1 ++ name ++ gap2 ++ op.text ++ gap3 ++ text
  spaces : ∀ c ∈ lead ++ gap1 ++ gap2 ++ gap3, isSpace c = true
  gap1_ne : gap1 ≠ []
  name_ne : name ≠ []
  valid : ∀ c ∈ name, isValidVarChar c = true
  text_head : ∀ c ∈ text.head?, isSpace c = false

/-- The value that the line gives to its variable: expanded under ':=' and '+:=', appended under '+='
and '+:=', and cut at 255 bytes. -/
def Assignment.value {line : List Byte} (a : Assignment line) (undefinedError : Bool) (store : Store) :
    Option (List Byte) :=
  ((textValue a.text).bind fun raw =>
    if a.op.doExpand then (expansion undefinedError store raw).map (List.take (MAX_VAR_VALUE - 1)) else some raw).map
      (assigned (store a.name) a.op.isAppend)

/-- The word after the command -/
def argument (line : List Byte) : List Byte :=
  (((line.dropWhile isSpace).dropWhile (!isSpace ·)).dropWhile isSpace).takeWhile (!isSpace ·)

theorem readOperator_eq {p rest : List Byte} {op : Operator} (h : readOperator p = some (op, rest)) :
    p = op.text ++ rest := by
  unfold readOperator at h
  split at h
  · obtain ⟨rfl, rfl⟩ := Prod.mk.inj (Option.some.inj h)
    rfl
  · obtain ⟨rfl, rfl⟩ := Prod.mk.inj (Option.some.inj h)
    rfl
  · obtain ⟨rfl, rfl⟩ := Prod.mk.inj (Option.some.inj h)
    rfl
  · obtain ⟨rfl, rfl⟩ := Prod.mk.inj (Option.some.inj h)
    rfl
  · cases h

theorem readVarName_spec (p : List Byte) :
    (readVarName p).length < MAX_VAR_NAME ∧ ∀ c ∈ readVarName p, isValidVarChar c = true := by
  unfold readVarName
  refine ⟨(List.length_take_le _ _).trans_lt (by decide), fun c hc => ?_⟩
  exact List.mem_takeWhile_imp (List.mem_of_mem_take hc)

theorem readVarName_append (p : List Byte) : readVarName p ++ p.drop (readVarName p).length = p :=
  List.prefix_iff_eq_append.mp ((List.take_prefix _ _).trans (List.takeWhile_prefix _))

/-- The command is the word of one of the table's rows. -/
theorem findBuiltin_eq_some {cmd : List Byte} {b : Builtin} (h : findBuiltin cmd = some b) :
    ∃ word rest, (word, b) ∈ builtins ∧ cmd = word ++ rest ∧ ∀ c ∈ rest.head?, isSpace c = true := by
  obtain ⟨row, hrow, rfl⟩ := Option.map_eq_some_iff.mp h
  have hfound := List.find?_some hrow
  obtain ⟨hstart, hend⟩ := Bool.and_eq_true_iff.mp hfound
  obtain ⟨rest, hrest⟩ := ( List.isPrefixOf_iff_prefix).mp hstart
  refine ⟨row.1, rest, List.mem_of_find?_eq_some hrow, hrest.symm, fun c hc => ?_⟩
  rw [← hrest, List.drop_left] at hend
  rw [Option.mem_def.mp hc] at hend
  exact hend

set_option maxRecDepth 8192 in
theorem builtins_noSpace : ∀ row ∈ builtins, ∀ c ∈ row.1, isSpace c = false := by decide

/-- The commands skip the word that was found. -/
theorem dropWhile_word {word rest : List Byte} (hword : ∀ c ∈ word, isSpace c = false)
    (hrest : ∀ c ∈ rest.head?, isSpace c = true) : (word ++ rest).dropWhile (!isSpace ·) = rest := by
  rw [List.dropWhile_append_of_pos fun c hc => by rw [hword c hc]; rfl]
  cases rest with
  | nil => rfl
  | cons c rest => 
    refine List.dropWhile_cons_of_neg ?_
    rw [hrest c rfl]
    exact Bool.false_ne_true

theorem isSpace_head_dropWhile (p : List Byte) : ∀ c ∈ (p.dropWhile isSpace).head?, isSpace c = false := by
  intro c hc
  have hhead := List.head?_dropWhile_not isSpace p
  rw [Option.mem_def.mp hc] at hhead
  exact hhead

theorem isSpace_of_mem_takeWhile {p : List Byte} {c : Byte} (h : c ∈ p.takeWhile isSpace) : isSpace c = true :=
  List.mem_takeWhile_imp h

/-- A `var` line that succeeds is an assignment, and does what `assign` does with its parts. -/
theorem cmdVar_succeeds {u : Bool} {line : List Byte} {vars : Vars}
    (hvar : findBuiltin (line.dropWhile isSpace) = some .var) (h : (cmdVar u line vars).status = 0) :
    ∃ a : Assignment line, ∃ raw piece, readValue a.text = some raw ∧
      (if a.op.doExpand then expandVariables u vars raw MAX_VAR_VALUE else some raw) = some piece ∧
      a.name.length < MAX_VAR_NAME ∧ cmdVar u line vars = assign vars a.name a.op.isAppend piece := by
  obtain ⟨word, rest, hrow, hcmd, hrest⟩ := findBuiltin_eq_some hvar
  have hword : word = (CString.lit "var").bytes := by simpa [builtins] using hrow
  have hskip : ((line.dropWhile isSpace).dropWhile (!isSpace ·)).dropWhile isSpace = rest.dropWhile isSpace := by
    rw [hcmd, dropWhile_word (builtins_noSpace _ hrow) hrest]
  have hfailed : ¬(⟨-1, vars⟩ : Returned).status = 0 := show ¬(-1 : ℤ) = 0 by decide
  unfold cmdVar at h ⊢
  rw [hskip] at h ⊢
  dsimp only at h ⊢
  by_cases hname : readVarName (rest.dropWhile isSpace) = []
  · rw [if_pos hname] at h
    exact absurd h hfailed
  rw [if_neg hname] at h ⊢
  generalize hp : (rest.dropWhile isSpace).drop (readVarName (rest.dropWhile isSpace)).length = p at h ⊢
  cases hop : readOperator (p.dropWhile isSpace) with
  | none =>
    rw [hop] at h
    exact absurd h hfailed
  | some read =>
    obtain ⟨op, q⟩ := read
    rw [hop] at h
    dsimp only at h ⊢
    cases hraw : readValue (q.dropWhile isSpace) with
    | none =>
      rw [hraw] at h
      exact absurd h hfailed
    | some raw =>
      rw [hraw] at h
      dsimp only at h ⊢
      cases hpiece : (if op.doExpand then expandVariables u vars raw MAX_VAR_VALUE else some raw) with
      | none =>
        rw [hpiece] at h
        exact absurd h hfailed
      | some piece =>
        refine ⟨⟨line.takeWhile isSpace, rest.takeWhile isSpace, readVarName (rest.dropWhile isSpace),
          p.takeWhile isSpace, op, q.takeWhile isSpace, q.dropWhile isSpace, ?_, ?_, ?_, hname,
          (readVarName_spec _).2, isSpace_head_dropWhile q⟩, raw, piece, hraw, hpiece, (readVarName_spec _).1, rfl⟩
        · have hparts : rest.takeWhile isSpace ++ (readVarName (rest.dropWhile isSpace) ++
              (p.takeWhile isSpace ++ (op.text ++ (q.takeWhile isSpace ++ q.dropWhile isSpace)))) = rest := by
            rw [List.takeWhile_append_dropWhile, ← readOperator_eq hop, List.takeWhile_append_dropWhile, ← hp,
              readVarName_append, List.takeWhile_append_dropWhile]
          have hline : line = line.takeWhile isSpace ++ (word ++ rest) := by
            rw [← hcmd, List.takeWhile_append_dropWhile]
          rw [← hparts, hword] at hline
          simpa only [List.append_assoc] using hline
        · simp only [List.mem_append]
          intro c hc
          obtain ((hc | hc) | hc) | hc := hc
          · exact isSpace_of_mem_takeWhile hc
          · exact isSpace_of_mem_takeWhile hc
          · exact isSpace_of_mem_takeWhile hc
          · exact isSpace_of_mem_takeWhile hc
        · cases rest with
          | nil => exact absurd rfl hname
          | cons c rest =>
            rw [List.takeWhile_cons_of_pos (hrest c rfl)]
            exact List.cons_ne_nil _ _

/-- A `var` line fails before it changes anything, or comes to an assignment. -/
theorem cmdVar_cases (u : Bool) (line : List Byte) (vars : Vars) :
    cmdVar u line vars = ⟨-1, vars⟩ ∨ ∃ name isAppend piece, name.length < MAX_VAR_NAME ∧ name ≠ [] ∧
      (∀ c ∈ name, isValidVarChar c = true) ∧ cmdVar u line vars = assign vars name isAppend piece := by
  unfold cmdVar
  dsimp only
  generalize ((line.dropWhile isSpace).dropWhile (!isSpace ·)).dropWhile isSpace = p
  by_cases hname : readVarName p = []
  · exact Or.inl (if_pos hname)
  rw [if_neg hname]
  cases readOperator ((p.drop (readVarName p).length).dropWhile isSpace) with
  | none => exact Or.inl rfl
  | some read =>
    dsimp only
    cases readValue (read.2.dropWhile isSpace) with
    | none => exact Or.inl rfl
    | some raw =>
      dsimp only
      cases (if read.1.doExpand then expandVariables u vars raw MAX_VAR_VALUE else some raw) with
      | none => exact Or.inl rfl
      | some piece => exact Or.inr ⟨_, _, piece, (readVarName_spec p).1, hname, (readVarName_spec p).2, rfl⟩

theorem cmdUnset_cases (line : List Byte) (vars : Vars) :
    (cmdUnset line vars).vars = vars ∨ ∃ name idx, varFind vars name = some idx ∧
      cmdUnset line vars = ⟨0, removeAt vars idx⟩ := by
  unfold cmdUnset
  dsimp only
  split_ifs
  · exact Or.inl rfl
  · cases hfind : varFind vars (readVarName ((line.dropWhile (!isSpace ·)).dropWhile isSpace)) with
    | none => exact Or.inl rfl
    | some idx => exact Or.inr ⟨_, idx, hfind, rfl⟩

/-! ## Runs -/

/-- What `main` does with a line whose first word is a built-in command -/
def runLine (u : Bool) (vars : Vars) (line : CString) : Returned :=
  match findBuiltin (line.bytes.dropWhile isSpace) with
  | some b => b.run u line.bytes vars
  | none => ⟨0, vars⟩

/-- Whatever the line, the variables stay a finite map. -/
theorem FiniteMap.runLine {vars : Vars} (h : FiniteMap vars) (u : Bool) (line : CString) :
    FiniteMap (Batch.runLine u vars line).vars := by
  unfold Batch.runLine
  cases findBuiltin (line.bytes.dropWhile isSpace) with
  | none => exact h
  | some b =>
    cases b with
    | var =>
      change FiniteMap (cmdVar u line.bytes vars).vars
      cases cmdVar_cases u line.bytes vars with
      | inl hfailed =>
        rw [hfailed]
        exact h
      | inr hassign =>
        obtain ⟨name, isAppend, piece, hlength, hne, hvalid, heq⟩ := hassign
        rw [heq]
        exact h.assign hlength hne hvalid isAppend piece
    | unset =>
      change FiniteMap (cmdUnset line.bytes vars).vars
      cases cmdUnset_cases line.bytes vars with
      | inl hsame =>
        rw [hsame]
        exact h
      | inr hremove =>
        obtain ⟨name, idx, hidx, heq⟩ := hremove
        rw [heq]
        exact h.removeAt hidx
    | vars => exact h
    | clearvars => exact finiteMap_nil

/-- The line does what is written of it. -/
structure AsDocumented (u : Bool) (vars : Vars) (line : CString) : Prop where
  assigns : findBuiltin (line.bytes.dropWhile isSpace) = some .var → (runLine u vars line).status = 0 →
    ∃ a : Assignment line.bytes, ∃ value, a.value u (lookup vars) = some value ∧
      lookup (runLine u vars line).vars = Function.update (lookup vars) a.name (some value)
  removes : findBuiltin (line.bytes.dropWhile isSpace) = some .unset →
    lookup (runLine u vars line).vars = Function.update (lookup vars) (argument line.bytes) none
  clears : findBuiltin (line.bytes.dropWhile isSpace) = some .clearvars → lookup (runLine u vars line).vars = fun _ => none
  keeps : (runLine u vars line).status ≠ 0 → (runLine u vars line).vars = vars

/-- An `unset` line starts with its word and has a name for which there is room; the value of a `var`
line does not end in an escaped quote instead of a closing one, and an error in what it expands is
met before the value is full. -/
structure Regular (u : Bool) (vars : Vars) (line : CString) : Prop where
  unset : findBuiltin (line.bytes.dropWhile isSpace) = some .unset →
    (∀ c ∈ line.bytes.head?, isSpace c = false) ∧ (argument line.bytes).length < MAX_VAR_NAME ∧
      ∀ c ∈ argument line.bytes, isValidVarChar c = true
  quoted : ∀ a : Assignment line.bytes, ¬EndsInQuote a.text
  error : ∀ a : Assignment line.bytes, a.op.doExpand = true → ∀ raw ∈ textValue a.text,
    (expanded u (lookup vars) raw).2 = false → (expanded u (lookup vars) raw).1.length < MAX_VAR_VALUE - 1

theorem runLine_eq {u : Bool} {vars : Vars} {line : CString} {b : Builtin}
    (h : findBuiltin (line.bytes.dropWhile isSpace) = some b) : runLine u vars line = b.run u line.bytes vars := by
  unfold runLine
  rw [h]

theorem isSpace_of_valid {c : Byte} : isValidVarChar c = true → isSpace c = false :=
  forall_byte (P := fun c => isValidVarChar c = true → isSpace c = false) (by decide) c

/-- A word of name characters is read whole. -/
theorem readVarName_eq {p : List Byte} (hlength : (p.takeWhile (!isSpace ·)).length < MAX_VAR_NAME)
    (hvalid : ∀ c ∈ p.takeWhile (!isSpace ·), isValidVarChar c = true) : readVarName p = p.takeWhile (!isSpace ·) := by
  have htake : p.takeWhile isValidVarChar = p.takeWhile (!isSpace ·) := by
    clear hlength
    induction p with
    | nil => rfl
    | cons c p ih =>
      by_cases hc : isSpace c = true
      · have hno : ¬isValidVarChar c = true := fun h => Bool.false_ne_true ((isSpace_of_valid h).symm.trans hc)
        rw [List.takeWhile_cons_of_neg hno, List.takeWhile_cons_of_neg (by simp [hc])]
      · have htake : (c :: p).takeWhile (!isSpace ·) = c :: p.takeWhile (!isSpace ·) :=
          List.takeWhile_cons_of_pos (by simp [hc])
        rw [htake] at hvalid ⊢
        rw [List.takeWhile_cons_of_pos (hvalid c List.mem_cons_self),
          ih fun d hd => hvalid d (List.mem_cons_of_mem c hd)]
  unfold readVarName
  rw [htake]
  exact List.take_of_length_le (Nat.le_pred_of_lt hlength)

theorem lookup_unnamed {vars : Vars} (h : FiniteMap vars) : lookup vars [] = none := by
  unfold lookup
  rw [KeyedList.find_eq_none_iff.mpr fun v hv => (h.named v hv).1]
  rfl

theorem lookup_cmdUnset {vars : Vars} (h : FiniteMap vars) {line : List Byte}
    (hunset : findBuiltin (line.dropWhile isSpace) = some .unset) (hhead : ∀ c ∈ line.head?, isSpace c = false)
    (hlength : (argument line).length < MAX_VAR_NAME) (hvalid : ∀ c ∈ argument line, isValidVarChar c = true) :
    lookup (cmdUnset line vars).vars = Function.update (lookup vars) (argument line) none := by
  have hline : line.dropWhile isSpace = line := by
    cases line with
    | nil => rfl
    | cons c line => exact List.dropWhile_cons_of_neg (by rw [hhead c rfl]; exact Bool.false_ne_true)
  have hname : readVarName ((line.dropWhile (!isSpace ·)).dropWhile isSpace) = argument line := by
    unfold argument at hlength hvalid ⊢
    rw [hline] at hlength hvalid ⊢
    exact readVarName_eq hlength hvalid
  have hsame {name : List Byte} (hnone : lookup vars name = none) : lookup vars = Function.update (lookup vars) name none := by
    rw [← hnone, Function.update_eq_self]
  unfold cmdUnset
  dsimp only
  rw [hname]
  split_ifs with hnil
  · rw [hnil]
    exact hsame (lookup_unnamed h)
  · cases hfind : varFind vars (argument line) with
    | none =>
      refine hsame ?_
      unfold lookup
      rw [varFind_eq_none hfind]
      rfl
    | some idx => exact lookup_removeAt h hfind

/-- The value that a successful `var` line assigns is the one that is meant. -/
theorem value_eq {u : Bool} {vars : Vars} {line : CString} (hline : Regular u vars line) (a : Assignment line.bytes)
    {raw piece : List Byte} (hraw : readValue a.text = some raw)
    (hpiece : (if a.op.doExpand then expandVariables u vars raw MAX_VAR_VALUE else some raw) = some piece) :
    a.value u (lookup vars) = some (assigned (lookup vars a.name) a.op.isAppend piece) := by
  have htext := textValue_of_readValue hraw (hline.quoted a)
  unfold Assignment.value
  rw [htext, Option.bind_some]
  split_ifs at hpiece ⊢ with hexpand
  · unfold expansion
    cases he : (expanded u (lookup vars) raw).2 with
    | false =>
      have hroom := hline.error a hexpand raw htext he
      cases (expandLoop_eq_none he ((Nat.zero_add _).trans_lt hroom)).symm.trans hpiece
    | true =>
      rw [expandLoop_eq_some (Nat.zero_le _) hpiece he]
      rfl
  · obtain rfl := Option.some.inj hpiece
    rfl

theorem runLine_failed {u : Bool} {vars : Vars} {line : CString} (h : (runLine u vars line).status ≠ 0) :
    (runLine u vars line).vars = vars := by
  unfold runLine at h ⊢
  cases hb : findBuiltin (line.bytes.dropWhile isSpace) with
  | none => rfl
  | some b =>
    rw [hb] at h
    cases b with
    | var =>
      change (cmdVar u line.bytes vars).status ≠ 0 at h
      change (cmdVar u line.bytes vars).vars = vars
      cases cmdVar_cases u line.bytes vars with
      | inl hfailed => rw [hfailed]
      | inr hassign =>
        obtain ⟨name, isAppend, piece, -, -, -, heq⟩ := hassign
        rw [heq] at h ⊢
        exact assign_failed h
    | unset =>
      change (cmdUnset line.bytes vars).status ≠ 0 at h
      cases cmdUnset_cases line.bytes vars with
      | inl hsame => exact hsame
      | inr hremove =>
        obtain ⟨name, idx, -, heq⟩ := hremove
        rw [heq] at h
        exact absurd rfl h
    | vars => rfl
    | clearvars => exact absurd rfl h

theorem asDocumented_of_regular {u : Bool} {vars : Vars} {line : CString} (h : FiniteMap vars)
    (hline : Regular u vars line) : AsDocumented u vars line := by
  refine ⟨fun hvar hstatus => ?_, fun hunset => ?_, fun hclear => ?_, fun hstatus => ?_⟩
  · rw [runLine_eq hvar] at hstatus ⊢
    obtain ⟨a, raw, piece, hraw, hpiece, hlength, heq⟩ := cmdVar_succeeds hvar hstatus
    refine ⟨a, _, value_eq hline a hraw hpiece, ?_⟩
    change (cmdVar u line.bytes vars).status = 0 at hstatus
    change lookup (cmdVar u line.bytes vars).vars = _
    rw [heq] at hstatus ⊢
    exact lookup_assign h hlength hstatus
  · rw [runLine_eq hunset]
    obtain ⟨hhead, hlength, hvalid⟩ := hline.unset hunset
    exact lookup_cmdUnset h hunset hhead hlength hvalid
  · rw [runLine_eq hclear]
    rfl
  · exact runLine_failed hstatus

/-- The variables after a script of built-in commands -/
def run (u : Bool) (lines : List CString) : Vars := lines.foldl (fun vars line => (runLine u vars line).vars) []

theorem finiteMap_run (u : Bool) (lines : List CString) : FiniteMap (run u lines) := by
  have hrun (vars : Vars) (h : FiniteMap vars) :
      FiniteMap (lines.foldl (fun vars line => (runLine u vars line).vars) vars) := by
    induction lines generalizing vars with
    | nil => exact h
    | cons line lines ih => exact ih _ (h.runLine u line)
  exact hrun [] finiteMap_nil

/-- In every run the variables are a finite map, and the next line does what is written of it when it
is regular. -/
theorem store_run (u : Bool) (lines : List CString) :
    FiniteMap (run u lines) ∧ ∀ line, Regular u (run u lines) line → AsDocumented u (run u lines) line :=
  ⟨finiteMap_run u lines, fun _ hline => asDocumented_of_regular (finiteMap_run u lines) hline⟩

set_option maxRecDepth 8192 in
theorem asDocumented_unset : AsDocumented false (run false [.lit "var a = 1"]) (.lit "unset a") := by
  have hno (a : Assignment (CString.lit "unset a").bytes) : False := by
    have hline := a.line_eq
    have hspaces := a.spaces
    cases hlead : a.lead with
    | nil =>
      rw [hlead] at hline
      exact absurd (List.cons.inj hline).1 (by decide)
    | cons c lead =>
      rw [hlead] at hline hspaces
      have hc : 0x75 = c := (List.cons.inj hline).1
      exact absurd (hspaces c (by simp)) (hc ▸ by decide)
  refine (store_run false [.lit "var a = 1"]).2 (.lit "unset a") ⟨fun _ => ?_, fun a => (hno a).elim, fun a => (hno a).elim⟩
  decide

/-- An indented `unset a` looks for a variable named `unset`. -/
theorem not_asDocumented : ¬AsDocumented false (run false [.lit "var a = 1"]) (.lit " unset a") := by
  intro h
  have hremoved := congrFun (h.removes (by decide)) [0x61]
  have hstays : lookup (runLine false (run false [.lit "var a = 1"]) (.lit " unset a")).vars [0x61] = some [0x31] := by
    decide
  have hargument : argument (CString.lit " unset a").bytes = [0x61] := by decide
  rw [hstays, hargument, Function.update_self] at hremoved
  cases hremoved

end ValidcTools.Batch
