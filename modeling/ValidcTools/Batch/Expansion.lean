import ValidcTools.Batch.Store

/-! The expansion of `{{NAME}}` in a text of any length, and what `expand_variables` makes of it. -/
namespace ValidcTools.Batch

/-- The name before the first "}}", and what follows it. -/
def closing : List Byte → Option (List Byte × List Byte)
  | [] => none
  | c :: s =>
    if c = '}' ∧ s.head? = some ('}' : Byte) then some ([], s.tail)
    else (closing s).map fun r => (c :: r.1, r.2)

theorem closing_lt {s name after : List Byte} (h : closing s = some (name, after)) : after.length < s.length := by
  induction s generalizing name with
  | nil => cases h
  | cons c s ih =>
    unfold closing at h
    split_ifs at h
    · obtain ⟨-, rfl⟩ := Prod.mk.inj (Option.some.inj h)
      rw [List.length_tail, List.length_cons]
      omega
    · obtain ⟨⟨name', after'⟩, hr, heq⟩ := Option.map_eq_some_iff.mp h
      obtain ⟨-, rfl⟩ := Prod.mk.inj heq
      exact (ih hr).trans (Nat.lt_succ_self _)

/-- The text with a value for each name, as far as it has no error, and whether it has none. An
unmatched "{{" is an error, and so is an undefined name under `-u`, which else stands for nothing. -/
def expanded (undefinedError : Bool) (store : Store) (s : List Byte) : List Byte × Bool :=
  match s with
  | [] => ([], true)
  | c :: rest =>
    if c = '{' ∧ rest.head? = some ('{' : Byte) then
      match h : closing rest.tail with
      | none => ([], false)
      | some (name, after) =>
        have := closing_lt h
        match store name with
        | some value => (expanded undefinedError store after).map (value ++ ·) id
        | none => if undefinedError then ([], false) else expanded undefinedError store after
    else (expanded undefinedError store rest).map (c :: ·) id
termination_by s.length
decreasing_by
  all_goals
    simp only [List.length_cons, List.length_tail] at *
    omega

/-- What the text stands for, when it has no error. -/
def expansion (undefinedError : Bool) (store : Store) (s : List Byte) : Option (List Byte) :=
  if (expanded undefinedError store s).2 then some (expanded undefinedError store s).1 else none

/-- No name in braces is longer than the name of a variable can be. -/
def ShortNames (s : List Byte) : Prop :=
  ∀ rest name after, 0x7B :: 0x7B :: rest <:+ s → closing rest = some (name, after) → name.length < MAX_VAR_NAME

theorem ShortNames.suffix {s t : List Byte} (h : ShortNames s) (ht : t <:+ s) : ShortNames t :=
  fun rest name after hrest => h rest name after (hrest.trans ht)

/-! ## Names -/

theorem eq_cons_cons_of_take {s : List Byte} {x y : Byte} (h : s.take 2 = [x, y]) : s = x :: y :: s.drop 2 := by
  conv_lhs => rw [← List.take_append_drop 2 s, h]
  rfl

theorem eq_cons_of_head? {s : List Byte} {x : Byte} (h : s.head? = some x) : s = x :: s.tail :=
  (List.cons_head?_tail (Option.mem_def.mpr h)).symm

/-- A name that was read up to "}}" is the one before the first "}}". -/
theorem closing_of_readName {n : ℕ} {s : List Byte} (h : (readName n s).2.take 2 = [0x7D, 0x7D]) :
    closing s = some ((readName n s).1, (readName n s).2.drop 2) := by
  fun_induction readName n s with
  | case1 s =>
    have hs := eq_cons_cons_of_take h
    generalize s.drop 2 = after at hs
    subst hs
    rfl
  | case2 => cases h
  | case3 n c s hclose =>
    unfold closing
    rw [if_pos hclose, List.drop_succ_cons, List.drop_one]
  | case4 n c s hclose ih =>
    unfold closing
    rw [if_neg hclose, ih h]
    rfl

theorem eq_of_closing_head {c : Byte} {s name after : List Byte} (hc : c = '}' ∧ s.head? = some ('}' : Byte))
    (h : closing (c :: s) = some (name, after)) : ([], c :: s) = (name, 0x7D :: 0x7D :: after) := by
  unfold closing at h
  rw [if_pos hc] at h
  obtain ⟨rfl, rfl⟩ := Prod.mk.inj (Option.some.inj h)
  rw [hc.1]
  exact congrArg (fun s => ([], (0x7D :: s : List Byte))) (eq_cons_of_head? hc.2)

/-- The loop reads a name for which there is room. -/
theorem readName_of_closing {n : ℕ} {s name after : List Byte} (h : closing s = some (name, after))
    (hname : name.length ≤ n) : readName n s = (name, 0x7D :: 0x7D :: after) := by
  fun_induction readName n s generalizing name with
  | case1 s =>
    cases s with
    | nil => cases h
    | cons c s =>
      by_cases hclose : c = '}' ∧ s.head? = some ('}' : Byte)
      · exact eq_of_closing_head hclose h
      · unfold closing at h
        rw [if_neg hclose] at h
        obtain ⟨r, -, heq⟩ := Option.map_eq_some_iff.mp h
        rw [← (Prod.mk.inj heq).1] at hname
        exact absurd hname (Nat.not_succ_le_zero _)
  | case2 => cases h
  | case3 n c s hclose => exact eq_of_closing_head hclose h
  | case4 n c s hclose ih =>
    unfold closing at h
    rw [if_neg hclose] at h
    obtain ⟨r, hr, heq⟩ := Option.map_eq_some_iff.mp h
    obtain ⟨rfl, rfl⟩ := Prod.mk.inj heq
    rw [ih hr (Nat.le_of_succ_le_succ hname)]

theorem closing_suffix {s name after : List Byte} (h : closing s = some (name, after)) : after <:+ s := by
  induction s generalizing name with
  | nil => cases h
  | cons c s ih =>
    unfold closing at h
    split_ifs at h
    · obtain ⟨-, rfl⟩ := Prod.mk.inj (Option.some.inj h)
      exact (List.tail_suffix s).trans (List.suffix_cons c s)
    · obtain ⟨r, hr, heq⟩ := Option.map_eq_some_iff.mp h
      obtain ⟨-, rfl⟩ := Prod.mk.inj heq
      exact (ih hr).trans (List.suffix_cons c s)

/-! ## The loop -/

section
variable {u : Bool} {store : Store} {c : Byte} {rest : List Byte}

theorem expanded_nil : expanded u store [] = ([], true) := by
  unfold expanded
  rfl

theorem expanded_open (hopen : c = '{' ∧ rest.head? = some ('{' : Byte)) {name after : List Byte}
    (h : closing rest.tail = some (name, after)) :
    expanded u store (c :: rest) = (store name).elim (if u then ([], false) else expanded u store after)
      fun value => (expanded u store after).map (value ++ ·) id := by
  conv_lhs => unfold expanded
  rw [if_pos hopen]
  split
  · next hnone => cases hnone.symm.trans h
  · next name' after' hsome =>
    obtain ⟨rfl, rfl⟩ := Prod.mk.inj (Option.some.inj (hsome.symm.trans h))
    cases store name' with
    | none => rfl
    | some value => rfl

theorem expanded_unmatched (hopen : c = '{' ∧ rest.head? = some ('{' : Byte)) (h : closing rest.tail = none) :
    expanded u store (c :: rest) = ([], false) := by
  conv_lhs => unfold expanded
  rw [if_pos hopen]
  split
  · rfl
  · next hsome => cases hsome.symm.trans h

theorem expanded_literal (hopen : ¬(c = '{' ∧ rest.head? = some ('{' : Byte))) :
    expanded u store (c :: rest) = (expanded u store rest).map (c :: ·) id := by
  conv_lhs => unfold expanded
  rw [if_neg hopen]

end

theorem lookup_of_bind {vars : Vars} {name : List Byte} {found : Option Variable}
    (h : (varFind vars name).bind (vars[·]?) = found) : lookup vars name = found.map Variable.value := by
  rw [← h, varFind_eq, KeyedList.index_bind]
  rfl

/-- What comes out without an error is the expansion, as far as there is room. -/
theorem expandLoop_eq_some {u : Bool} {vars : Vars} {outsz : ℕ} {s out r : List Byte}
    (hout : out.length ≤ outsz - 1) (h : expandLoop u vars outsz s out = some r)
    (he : (expanded u (lookup vars) s).2 = true) :
    r = (out ++ (expanded u (lookup vars) s).1).take (outsz - 1) := by
  fun_induction expandLoop u vars outsz s out with
  | case1 out =>
    obtain rfl := Option.some.inj h
    rw [expanded_nil, List.append_nil, List.take_of_length_le hout]
  | case2 out c rest hfull =>
    obtain rfl := Option.some.inj h
    rw [List.take_append_of_le_length hfull, List.take_of_length_le hout]
  | case3 => cases h
  | case4 out c rest hroom hopen name after hclosed v hv hlong =>
    rename_i ih
    rw [expanded_open hopen (closing_of_readName hclosed), lookup_of_bind hv] at he ⊢
    have hle : (out ++ v.value).length ≤ outsz - 1 := by
      rw [List.length_append]
      omega
    rw [ih hle h he, List.append_assoc]
    rfl
  | case5 => cases h
  | case6 out c rest hroom hopen name after hclosed hnone hu =>
    rename_i ih
    rw [expanded_open hopen (closing_of_readName hclosed), lookup_of_bind hnone, Option.map_none, Option.elim_none,
      if_neg hu] at he ⊢
    exact ih hout h he
  | case7 => cases h
  | case8 out c rest hroom hopen ih =>
    rw [expanded_literal hopen] at he ⊢
    have hle : (out ++ [c]).length ≤ outsz - 1 := by
      rw [List.length_append]
      exact not_le.mp hroom
    rw [ih hle h he, List.append_assoc]
    rfl

/-- An error that is met while there is room is one for the loop. -/
theorem expandLoop_eq_none {u : Bool} {vars : Vars} {outsz : ℕ} {s out : List Byte}
    (he : (expanded u (lookup vars) s).2 = false)
    (hroom : out.length + (expanded u (lookup vars) s).1.length < outsz - 1) : expandLoop u vars outsz s out = none := by
  fun_induction expandLoop u vars outsz s out with
  | case1 out =>
    rw [expanded_nil] at he
    cases he
  | case2 out c rest hfull => omega
  | case3 => rfl
  | case4 out c rest _ hopen name after hclosed v hv hlong =>
    rename_i ih
    rw [expanded_open hopen (closing_of_readName hclosed), lookup_of_bind hv] at he hroom
    refine ih he ?_
    rw [List.length_append, Nat.add_assoc, ← List.length_append]
    exact hroom
  | case5 => rfl
  | case6 out c rest _ hopen name after hclosed hnone hu =>
    rename_i ih
    rw [expanded_open hopen (closing_of_readName hclosed), lookup_of_bind hnone, Option.map_none, Option.elim_none,
      if_neg hu] at he hroom
    exact ih he hroom
  | case7 => rfl
  | case8 out c rest _ hopen ih =>
    rw [expanded_literal hopen] at he hroom
    refine ih he ?_
    rw [List.length_append, Nat.add_assoc, ← List.length_append]
    exact hroom

/-- A text that fits is expanded. -/
theorem expandLoop_of_fits {u : Bool} {vars : Vars} {outsz : ℕ} {s out : List Byte} (hnames : ShortNames s)
    (he : (expanded u (lookup vars) s).2 = true)
    (hroom : out.length + (expanded u (lookup vars) s).1.length < outsz) :
    expandLoop u vars outsz s out = some (out ++ (expanded u (lookup vars) s).1) := by
  have hafter {c : Byte} {rest name after : List Byte} (h : closing rest.tail = some (name, after)) :
      after <:+ c :: rest :=
    (closing_suffix h).trans ((List.tail_suffix rest).trans (List.suffix_cons c rest))
  fun_induction expandLoop u vars outsz s out with
  | case1 out => rw [expanded_nil, List.append_nil]
  | case2 out c rest hfull =>
    have hnil : (expanded u (lookup vars) (c :: rest)).1 = [] := List.eq_nil_of_length_eq_zero (by omega)
    rw [hnil, List.append_nil]
  | case3 out c rest _ hopen name after hclosed v hv =>
    rw [expanded_open hopen (closing_of_readName hclosed), lookup_of_bind hv] at hroom
    change out.length + (v.value ++ _).length < outsz at hroom
    rw [List.length_append] at hroom
    omega
  | case4 out c rest _ hopen name after hclosed v hv hlong =>
    rename_i ih
    have hname := closing_of_readName hclosed
    rw [expanded_open hopen hname, lookup_of_bind hv] at he hroom ⊢
    rw [ih (hnames.suffix (hafter hname)) he, List.append_assoc]
    · rfl
    · rw [List.length_append, Nat.add_assoc, ← List.length_append]
      exact hroom
  | case5 out c rest _ hopen name after hclosed hnone hu =>
    rw [expanded_open hopen (closing_of_readName hclosed), lookup_of_bind hnone, Option.map_none, Option.elim_none,
      if_pos hu] at he
    cases he
  | case6 out c rest _ hopen name after hclosed hnone hu =>
    rename_i ih
    have hname := closing_of_readName hclosed
    rw [expanded_open hopen hname, lookup_of_bind hnone, Option.map_none, Option.elim_none, if_neg hu] at he hroom ⊢
    exact ih (hnames.suffix (hafter hname)) he hroom
  | case7 out c rest _ hopen after hopened =>
    -- a name that is not read to its end is too long, or never ends
    cases hclosing : closing rest.tail with
    | none =>
      rw [expanded_unmatched hopen hclosing] at he
      cases he
    | some read =>
      have hstart : 0x7B :: 0x7B :: rest.tail <:+ c :: rest := by
        rw [hopen.1]
        exact (congrArg (0x7B :: ·) (eq_cons_of_head? hopen.2)).symm ▸ List.suffix_refl _
      have hshort := hnames _ _ _ hstart hclosing
      have hread : readName (MAX_VAR_NAME - 1) rest.tail = _ := readName_of_closing hclosing (Nat.le_pred_of_lt hshort)
      refine absurd ?_ hopened
      change List.take 2 (readName (MAX_VAR_NAME - 1) rest.tail).2 = _
      rw [hread]
      rfl
  | case8 out c rest _ hopen ih =>
    rw [expanded_literal hopen] at he hroom ⊢
    rw [ih (hnames.suffix (List.suffix_cons c rest)) he, List.append_assoc]
    · rfl
    · rw [List.length_append, Nat.add_assoc, ← List.length_append]
      exact hroom

/-! ## All or nothing -/

/-- `s` begins with literal bytes and whole names that the loop takes, which expand to `out`, and `rest` is left. -/
inductive Begins (u : Bool) (store : Store) : List Byte → List Byte → List Byte → Prop
  | nil (s : List Byte) : Begins u store s [] s
  | literal {c : Byte} {s out rest : List Byte} (hopen : ¬(c = '{' ∧ s.head? = some ('{' : Byte)))
      (hs : Begins u store s out rest) : Begins u store (c :: s) (c :: out) rest
  | value {name s value out rest : List Byte} {after : List Byte} (hclosing : closing s = some (name, after))
      (hname : name.length < MAX_VAR_NAME) (hvalue : store name = some value) (hs : Begins u store after out rest) :
      Begins u store (0x7B :: 0x7B :: s) (value ++ out) rest
  | undefined {name s out rest : List Byte} {after : List Byte} (hclosing : closing s = some (name, after))
      (hname : name.length < MAX_VAR_NAME) (hvalue : store name = none) (hu : u = false)
      (hs : Begins u store after out rest) : Begins u store (0x7B :: 0x7B :: s) out rest

theorem expanded_braces {u : Bool} {store : Store} {s name after : List Byte} (h : closing s = some (name, after)) :
    expanded u store (0x7B :: 0x7B :: s) = (store name).elim (if u then ([], false) else expanded u store after)
      fun value => (expanded u store after).map (value ++ ·) id :=
  @expanded_open u store 0x7B (0x7B :: s) ⟨rfl, rfl⟩ name after h

theorem expanded_of_begins {u : Bool} {store : Store} {s out rest : List Byte} (h : Begins u store s out rest) :
    expanded u store s = (expanded u store rest).map (out ++ ·) id := by
  induction h with
  | nil s => rfl
  | literal hopen hs ih =>
    rw [expanded_literal hopen, ih]
    rfl
  | value hclosing hname hvalue hs ih =>
    rw [expanded_braces hclosing, hvalue, Option.elim_some, ih]
    exact Prod.ext (List.append_assoc ..).symm rfl
  | undefined hclosing hname hvalue hu hs ih =>
    rw [expanded_braces hclosing, hvalue, Option.elim_none, hu, if_neg Bool.false_ne_true, ← hu, ih]

theorem length_readName_fst_le (n : ℕ) (s : List Byte) : (readName n s).1.length ≤ n := by
  fun_induction readName n s with
  | case1 => exact le_rfl
  | case2 => exact Nat.zero_le _
  | case3 => exact Nat.zero_le _
  | case4 n c s _ ih => exact Nat.succ_le_succ ih

theorem lt_of_readName (s : List Byte) : (readName (MAX_VAR_NAME - 1) s).1.length < MAX_VAR_NAME :=
  Nat.lt_of_le_pred (by decide) (length_readName_fst_le _ s)

/-- The loop stops at the end of the text, or where the room is used up. -/
theorem begins_of_expandLoop {u : Bool} {vars : Vars} {outsz : ℕ} {s out r : List Byte} (hout : out.length ≤ outsz - 1)
    (h : expandLoop u vars outsz s out = some r) :
    ∃ adds rest, Begins u (lookup vars) s adds rest ∧ r = out ++ adds ∧ (rest = [] ∨ r.length = outsz - 1) := by
  have hbraces {c : Byte} {rest : List Byte} (hopen : c = '{' ∧ rest.head? = some ('{' : Byte)) :
      c :: rest = 0x7B :: 0x7B :: rest.tail := by
    rw [hopen.1]
    exact congrArg (0x7B :: ·) (eq_cons_of_head? hopen.2)
  fun_induction expandLoop u vars outsz s out with
  | case1 out =>
    obtain rfl := Option.some.inj h
    exact ⟨[], [], .nil [], (List.append_nil _).symm, .inl rfl⟩
  | case2 out c rest hfull =>
    obtain rfl := Option.some.inj h
    exact ⟨[], c :: rest, .nil _, (List.append_nil _).symm, .inr (le_antisymm hout hfull)⟩
  | case3 => cases h
  | case4 out c rest hroom hopen name after hclosed v hv hlong =>
    rename_i ih
    have hle : (out ++ v.value).length ≤ outsz - 1 := by
      rw [List.length_append]
      omega
    obtain ⟨adds, rest', hbegins, rfl, hend⟩ := ih hle h
    refine ⟨v.value ++ adds, rest', ?_, List.append_assoc .., hend⟩
    rw [hbraces hopen]
    exact .value (closing_of_readName hclosed) (lt_of_readName _) (lookup_of_bind hv) hbegins
  | case5 => cases h
  | case6 out c rest hroom hopen name after hclosed hnone hu =>
    rename_i ih
    obtain ⟨adds, rest', hbegins, hr, hend⟩ := ih hout h
    refine ⟨adds, rest', ?_, hr, hend⟩
    rw [hbraces hopen]
    exact .undefined (closing_of_readName hclosed) (lt_of_readName _) (lookup_of_bind hnone) (Bool.eq_false_iff.mpr hu) hbegins
  | case7 => cases h
  | case8 out c rest hroom hopen ih =>
    have hle : (out ++ [c]).length ≤ outsz - 1 := by
      rw [List.length_append]
      exact not_le.mp hroom
    obtain ⟨adds, rest', hbegins, rfl, hend⟩ := ih hle h
    exact ⟨c :: adds, rest', .literal hopen hbegins, List.append_assoc .., hend⟩

/-- A name for which there is room -/
theorem expandLoop_braces {u : Bool} {vars : Vars} {outsz : ℕ} {s name after out : List Byte}
    (hclosing : closing s = some (name, after)) (hname : name.length < MAX_VAR_NAME) (hroom : ¬out.length ≥ outsz - 1) :
    expandLoop u vars outsz (0x7B :: 0x7B :: s) out =
      ((varFind vars name).bind (vars[·]?)).elim (if u then none else expandLoop u vars outsz after out) fun v =>
        if out.length + v.value.length ≥ outsz then none else expandLoop u vars outsz after (out ++ v.value) := by
  have hread : readName (MAX_VAR_NAME - 1) s = (name, 0x7D :: 0x7D :: after) :=
    readName_of_closing hclosing (Nat.le_pred_of_lt hname)
  have hopen : (0x7B : Byte) = '{' ∧ (0x7B :: s : List Byte).head? = some ('{' : Byte) := ⟨rfl, rfl⟩
  have htake : (0x7D :: 0x7D :: after : List Byte).take 2 = [0x7D, 0x7D] := rfl
  conv_lhs => unfold expandLoop
  rw [if_neg hroom, if_pos hopen, List.tail_cons, hread]
  dsimp only
  rw [if_pos htake]
  cases (varFind vars name).bind (vars[·]?) with
  | none => rfl
  | some v => rfl

/-- A beginning that uses up the room is as far as the loop comes, but for what expands to nothing. -/
theorem expandLoop_of_begins {u : Bool} {vars : Vars} {outsz : ℕ} (houtsz : 0 < outsz) {s adds rest : List Byte}
    (h : Begins u (lookup vars) s adds rest) {out : List Byte} (hroom : out.length + adds.length = outsz - 1) :
    ∃ rest', Begins u (lookup vars) rest' [] rest ∧ Begins u (lookup vars) s adds rest' ∧
      expandLoop u vars outsz s out = some (out ++ adds) := by
  induction h generalizing out with
  | nil s =>
    refine ⟨s, .nil s, .nil s, ?_⟩
    unfold expandLoop
    rw [List.append_nil]
    cases s with
    | nil => rfl
    | cons c s => exact if_pos hroom.ge
  | @literal c s adds rest hopen hs ih =>
    have hlt : ¬out.length ≥ outsz - 1 := by
      rw [List.length_cons] at hroom
      omega
    have hroom' : (out ++ [c]).length + adds.length = outsz - 1 := by
      rw [List.length_append, List.length_singleton]
      rw [List.length_cons] at hroom
      omega
    obtain ⟨rest', hnone, hbegins, hloop⟩ := ih hroom'
    refine ⟨rest', hnone, .literal hopen hbegins, ?_⟩
    unfold expandLoop
    rw [if_neg hlt, if_neg hopen, hloop, List.append_assoc]
    rfl
  | @value name s value adds rest after hclosing hname hvalue hs ih =>
    by_cases hfull : out.length ≥ outsz - 1
    · obtain ⟨rfl, rfl⟩ : value = [] ∧ adds = [] := by
        rw [List.length_append] at hroom
        exact ⟨List.eq_nil_of_length_eq_zero (by omega), List.eq_nil_of_length_eq_zero (by omega)⟩
      refine ⟨_, .value hclosing hname hvalue hs, .nil _, ?_⟩
      unfold expandLoop
      exact (if_pos hfull).trans (congrArg some (List.append_nil out).symm)
    · rw [List.length_append] at hroom
      have hroom' : (out ++ value).length + adds.length = outsz - 1 := by
        rw [List.length_append]
        omega
      obtain ⟨rest', hnone, hbegins, hloop⟩ := ih hroom'
      refine ⟨rest', hnone, .value hclosing hname hvalue hbegins, ?_⟩
      obtain ⟨v, hv, rfl⟩ : ∃ v, (varFind vars name).bind (vars[·]?) = some v ∧ v.value = value := by
        rw [varFind_eq, KeyedList.index_bind]
        exact Option.map_eq_some_iff.mp hvalue
      rw [expandLoop_braces hclosing hname hfull, hv, Option.elim_some, if_neg (by omega), hloop, List.append_assoc]
  | @undefined name s adds rest after hclosing hname hvalue hu hs ih =>
    by_cases hfull : out.length ≥ outsz - 1
    · obtain rfl : adds = [] := List.eq_nil_of_length_eq_zero (by omega)
      refine ⟨_, .undefined hclosing hname hvalue hu hs, .nil _, ?_⟩
      unfold expandLoop
      exact (if_pos hfull).trans (congrArg some (List.append_nil out).symm)
    · obtain ⟨rest', hnone, hbegins, hloop⟩ := ih hroom
      refine ⟨rest', hnone, .undefined hclosing hname hvalue hu hbegins, ?_⟩
      have hv : (varFind vars name).bind (vars[·]?) = none := by
        rw [varFind_eq, KeyedList.index_bind]
        exact Option.map_eq_none_iff.mp hvalue
      rw [expandLoop_braces hclosing hname hfull, hv, Option.elim_none, if_neg (Bool.eq_false_iff.mp hu), hloop]

/-- What is returned is the expansion of the whole text. -/
def AllOrNothing (u : Bool) (vars : Vars) (s : List Byte) (outsz : ℕ) : Prop :=
  ∀ r, expandVariables u vars s outsz = some r → expansion u (lookup vars) s = some r

/-- Behind a beginning that uses up the room there is nothing but names without a value. -/
def EndsInRoom (u : Bool) (store : Store) (s : List Byte) (outsz : ℕ) : Prop :=
  ∀ out rest, Begins u store s out rest → out.length = outsz - 1 → expanded u store rest = ([], true)

theorem allOrNothing_of_ends {u : Bool} {vars : Vars} {s : List Byte} {outsz : ℕ}
    (h : EndsInRoom u (lookup vars) s outsz) : AllOrNothing u vars s outsz := by
  intro r hr
  obtain ⟨adds, rest, hbegins, heq, hend⟩ := begins_of_expandLoop (Nat.zero_le _) hr
  rw [List.nil_append] at heq
  subst heq
  have hrest : expanded u (lookup vars) rest = ([], true) := by
    obtain rfl | hlength := hend
    · exact expanded_nil
    · exact h r rest hbegins hlength
  rw [expansion, expanded_of_begins hbegins, hrest]
  exact congrArg some (List.append_nil r)

theorem ends_of_allOrNothing {u : Bool} {vars : Vars} {s : List Byte} {outsz : ℕ} (houtsz : 0 < outsz)
    (h : AllOrNothing u vars s outsz) : EndsInRoom u (lookup vars) s outsz := by
  intro out rest hbegins hlength
  obtain ⟨rest', hnone, hbegins', hloop⟩ := expandLoop_of_begins houtsz hbegins (show [].length + out.length = outsz - 1 by
    rw [List.length_nil, Nat.zero_add, hlength])
  have hwhole := h _ hloop
  rw [expansion, expanded_of_begins hbegins'] at hwhole
  have hrest : expanded u (lookup vars) rest' = expanded u (lookup vars) rest := expanded_of_begins hnone
  rw [← hrest]
  split_ifs at hwhole with herror
  have hempty : (expanded u (lookup vars) rest').1 = [] :=
    List.append_cancel_left ((Option.some.inj hwhole).trans (List.append_nil out).symm)
  exact Prod.ext hempty herror

/-- Expansion is all or nothing just when no beginning of the text uses up the room with more to come: the loop ends there,
without the error that a value too long is. -/
theorem allOrNothing_iff (u : Bool) (vars : Vars) (s : List Byte) {outsz : ℕ} (houtsz : 0 < outsz) :
    AllOrNothing u vars s outsz ↔ EndsInRoom u (lookup vars) s outsz :=
  ⟨ends_of_allOrNothing houtsz, allOrNothing_of_ends⟩

theorem allOrNothing_iff_operand : 0 < MAX_VAR_VALUE ∧
    (AllOrNothing false [] [0x61] MAX_VAR_VALUE ↔ EndsInRoom false (lookup []) [0x61] MAX_VAR_VALUE) :=
  ⟨by decide, allOrNothing_iff false [] [0x61] (by decide)⟩

/-- `{{a}}x` as an operand, when the value of `a` has 255 bytes: it expands to the value alone. -/
theorem not_allOrNothing : ¬∀ (u : Bool) (vars : Vars) (s : List Byte), AllOrNothing u vars s MAX_VAR_VALUE := by
  intro h
  have hvalue : (List.replicate (MAX_VAR_VALUE - 1) (0x76 : Byte)).length < MAX_VAR_VALUE := by
    rw [List.length_replicate]
    decide
  let a : Variable := ⟨[0x61], List.replicate (MAX_VAR_VALUE - 1) 0x76, by decide, hvalue⟩
  have hclosing : closing [0x61, 0x7D, 0x7D, 0x78] = some ([0x61], [0x78]) := rfl
  have hbegins : Begins false (lookup [a]) [0x7B, 0x7B, 0x61, 0x7D, 0x7D, 0x78] (a.value ++ []) [0x78] :=
    .value hclosing (by decide) rfl (.nil [0x78])
  have hrest := ends_of_allOrNothing (by decide) (h false [a] [0x7B, 0x7B, 0x61, 0x7D, 0x7D, 0x78]) _ _ hbegins (by
    rw [List.append_nil]
    exact List.length_replicate)
  rw [expanded_literal (by decide), expanded_nil] at hrest
  exact absurd (congrArg Prod.fst hrest) (List.cons_ne_nil _ _)

end ValidcTools.Batch
