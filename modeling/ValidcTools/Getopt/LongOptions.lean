import ValidcTools.Getopt.Scan

/-! Long options: which entry of the table a name or an abbreviation chooses, and what is done with its argument. -/
namespace ValidcTools.Getopt

/-! ## The entry that is meant -/

section Table
variable (table : List LongOption) (name : List Byte)

/-- Entry `k` has this name. -/
def Exact (k : ℕ) : Prop := ∃ e, table[k]? = some e ∧ e.name.bytes = name

/-- The name is a proper prefix of that of entry `k`. -/
def Abbreviates (k : ℕ) : Prop := ∃ e, table[k]? = some e ∧ name <+: e.name.bytes ∧ e.name.bytes ≠ name

/-- Entry `k` is the one with this name, or else the only one of which it is a proper prefix. -/
def Chosen (k : ℕ) : Prop :=
  Exact table name k ∨ ((∀ j, ¬Exact table name j) ∧ Abbreviates table name k ∧ ∀ j, Abbreviates table name j → j = k)

end Table

/-! ## The search -/

section Search
variable {table : List LongOption} {name : List Byte}

theorem isPartial_iff (p : LongOption × ℕ) (after : List Byte) :
    isPartial (name ++ after) name.length p = true ↔ name <+: p.1.name.bytes := by
  rw [isPartial, strncmpEq, decide_eq_true_iff, List.take_left, List.prefix_iff_eq_take, eq_comm]

theorem isExact_iff (p : LongOption × ℕ) (after : List Byte) :
    isExact (name ++ after) name.length p = true ↔ p.1.name.bytes = name := by
  rw [isExact, Bool.and_eq_true, decide_eq_true_iff]
  constructor
  · rintro ⟨hlength, hprefix⟩
    exact (((isPartial_iff p after).mp hprefix).eq_of_length hlength.symm).symm
  · intro h
    exact ⟨congrArg List.length h, (isPartial_iff p after).mpr (h ▸ List.prefix_refl _)⟩

theorem mem_zipIdx_iff {e : LongOption} {k : ℕ} : (e, k) ∈ table.zipIdx ↔ table[k]? = some e :=
  List.mk_mem_zipIdx_iff_getElem?

/-- The first loop finds the entry with the name, when names are distinct. -/
theorem find_exact (hdistinct : (table.map LongOption.name).Nodup) {k : ℕ} {e : LongOption} (hk : table[k]? = some e)
    (he : e.name.bytes = name) (after : List Byte) :
    table.zipIdx.find? (isExact (name ++ after) name.length) = some (e, k) := by
  cases hfind : table.zipIdx.find? (isExact (name ++ after) name.length) with
  | none =>
    have hno := List.find?_eq_none.mp hfind (e, k) (mem_zipIdx_iff.mpr hk)
    exact absurd ((isExact_iff (e, k) after).mpr he) hno
  | some p =>
    obtain ⟨e', k'⟩ := p
    have hk' := mem_zipIdx_iff.mp (List.mem_of_find?_eq_some hfind)
    have he' : e'.name.bytes = name := (isExact_iff (e', k') after).mp (List.find?_some hfind)
    have hname : e'.name = e.name := CString.ext (he'.trans he.symm)
    obtain ⟨hlt, hget⟩ := List.getElem?_eq_some_iff.mp hk
    obtain ⟨hlt', hget'⟩ := List.getElem?_eq_some_iff.mp hk'
    have hlength : (table.map LongOption.name).length = table.length := List.length_map _
    have hsame : (table.map LongOption.name)[k'] = (table.map LongOption.name)[k] := by
      rw [List.getElem_map, List.getElem_map, hget, hget', hname]
    have hindex : k' = k := hdistinct.getElem_inj_iff.mp hsame
    subst hindex
    rw [Option.some.inj (hk'.symm.trans hk)]

theorem find_exact_eq_none (hno : ∀ j, ¬Exact table name j) (after : List Byte) :
    table.zipIdx.find? (isExact (name ++ after) name.length) = none :=
  List.find?_eq_none.mpr fun p hp hexact => hno p.2 ⟨p.1, mem_zipIdx_iff.mp hp, (isExact_iff p after).mp hexact⟩

/-- The second loop, where no entry has the name -/
theorem foldl_step {ps : List (LongOption × ℕ)} (hno : ∀ p ∈ ps, p.1.name.bytes ≠ name) (after : List Byte) (s : Partial) :
    ps.foldl (Partial.step (name ++ after) name.length) s =
      ⟨s.matched + ps.countP (isPartial (name ++ after) name.length), s.exact,
        s.candidate.or (ps.find? (isPartial (name ++ after) name.length))⟩ := by
  induction ps generalizing s with
  | nil =>
    rw [List.foldl_nil, List.countP_nil, List.find?_nil, Option.or_none]
    rfl
  | cons p ps ih =>
    rw [List.foldl_cons, ih fun q hq => hno q (List.mem_cons_of_mem _ hq), Partial.step]
    by_cases hpre : isPartial (name ++ after) name.length p = true
    · have hlength : p.1.name.length ≠ name.length := fun hlength =>
        hno p List.mem_cons_self (((isPartial_iff p after).mp hpre).eq_of_length hlength.symm).symm
      rw [if_pos hpre, if_neg hlength, List.countP_cons_of_pos hpre, List.find?_cons_of_pos hpre]
      cases hcandidate : s.candidate with
      | none =>
        rw [if_pos rfl, Nat.add_comm (List.countP _ ps), ← Nat.add_assoc]
        rfl
      | some q =>
        rw [if_neg (Option.some_ne_none q), Nat.add_comm (List.countP _ ps), ← Nat.add_assoc]
        rfl
    · rw [if_neg hpre, List.countP_cons_of_neg hpre, List.find?_cons_of_neg hpre]

/-- More than one entry is counted just when two abbreviate. -/
theorem one_lt_countP_iff (hno : ∀ j, ¬Exact table name j) (after : List Byte) :
    1 < table.zipIdx.countP (isPartial (name ++ after) name.length) ↔
      ∃ i j, i ≠ j ∧ Abbreviates table name i ∧ Abbreviates table name j := by
  have habbreviates (p : LongOption × ℕ) :
      p ∈ table.zipIdx.filter (isPartial (name ++ after) name.length) →
        table[p.2]? = some p.1 ∧ Abbreviates table name p.2 := by
    intro hp
    obtain ⟨hmem, hpre⟩ := List.mem_filter.mp hp
    have hget := mem_zipIdx_iff.mp hmem
    exact ⟨hget, p.1, hget, (isPartial_iff p after).mp hpre, fun heq => hno p.2 ⟨p.1, hget, heq⟩⟩
  have hnodup : (table.zipIdx.filter (isPartial (name ++ after) name.length)).Nodup := by
    refine List.Nodup.filter _ (List.Nodup.of_map Prod.snd ?_)
    rw [List.zipIdx_map_snd]
    exact List.nodup_range'
  rw [List.countP_eq_length_filter, ← List.toFinset_card_of_nodup hnodup, Finset.one_lt_card]
  constructor
  · rintro ⟨p, hp, q, hq, hpq⟩
    obtain ⟨hp, hpa⟩ := habbreviates p (List.mem_toFinset.mp hp)
    obtain ⟨hq, hqa⟩ := habbreviates q (List.mem_toFinset.mp hq)
    refine ⟨p.2, q.2, fun heq => hpq (Prod.ext ?_ heq), hpa, hqa⟩
    exact Option.some.inj (hp.symm.trans (heq ▸ hq))
  · rintro ⟨i, j, hij, ⟨e, he, hepre, -⟩, ⟨d, hd, hdpre, -⟩⟩
    refine ⟨(e, i), List.mem_toFinset.mpr (List.mem_filter.mpr ⟨mem_zipIdx_iff.mpr he, (isPartial_iff _ after).mpr hepre⟩),
      (d, j), List.mem_toFinset.mpr (List.mem_filter.mpr ⟨mem_zipIdx_iff.mpr hd, (isPartial_iff _ after).mpr hdpre⟩), ?_⟩
    exact fun heq => hij (congrArg Prod.snd heq)

/-- What follows the name: nothing, or a value behind '=' -/
def afterName (value : Option (List Byte)) : List Byte := (value.map (0x3D :: ·)).getD []

theorem takeWhile_name (hname : 0x3D ∉ name) (value : Option (List Byte)) :
    (name ++ afterName value).takeWhile (· ≠ (0x3D : Byte)) = name := by
  rw [List.takeWhile_append_of_pos fun b hb => decide_eq_true (ne_of_mem_of_not_mem hb hname)]
  cases value with
  | none => exact List.append_nil name
  | some v => exact (congrArg (name ++ ·) (List.takeWhile_cons_of_neg (by decide))).trans (List.append_nil name)

section Process
variable {argv : List CString} {optstring : List Byte} {value : Option (List Byte)} {st : State}

/-- The two loops, and what is done with what they find -/
theorem processLongOption_eq {nextchar : List Byte} (hnext : st.nextchar.getD [] = nextchar) {n : ℕ}
    (hn : (nextchar.takeWhile (· ≠ (0x3D : Byte))).length = n) :
    processLongOption argv optstring table false st =
      if table.zipIdx.find? (isExact nextchar n) = none ∧ (table.zipIdx.foldl (Partial.step nextchar n) {}).matched > 1 ∧
          (table.zipIdx.foldl (Partial.step nextchar n) {}).exact ≠ 1 then
        ⟨0x3F, argv, { st with nextchar := some [], optind := st.optind + 1, optopt := 0 }, none, none⟩
      else
        ((table.zipIdx.find? (isExact nextchar n)).or (table.zipIdx.foldl (Partial.step nextchar n) {}).candidate).elim
          ⟨0x3F, argv, { st with nextchar := none, optind := st.optind + 1, optopt := 0 }, none, none⟩
          fun p => takeLongOption argv optstring p.1 p.2 (nextchar.drop n) st := by
  subst hnext hn
  rw [processLongOption]
  refine if_congr Iff.rfl rfl ?_
  split
  · next hfound =>
    rw [hfound]
    exact if_pos (.inl rfl)
  · next pfound index hfound =>
    rw [hfound]
    rfl

theorem processLongOption_chosen (hdistinct : (table.map LongOption.name).Nodup) (hname : 0x3D ∉ name)
    (hnext : st.nextchar = some (name ++ afterName value)) {k : ℕ} {e : LongOption} (hk : table[k]? = some e)
    (hchosen : Chosen table name k) :
    processLongOption argv optstring table false st = takeLongOption argv optstring e k (afterName value) st := by
  rw [processLongOption_eq (by rw [hnext, Option.getD_some]) (congrArg List.length (takeWhile_name hname value)),
    List.drop_left]
  obtain ⟨d, hd, hdname⟩ | ⟨hno, ⟨d, hd, hpre, -⟩, honly⟩ := hchosen
  · obtain rfl := Option.some.inj (hk.symm.trans hd)
    rw [find_exact hdistinct hk hdname, if_neg fun h => absurd h.1 (Option.some_ne_none _)]
    rfl
  · obtain rfl := Option.some.inj (hk.symm.trans hd)
    have hplain : ∀ p ∈ table.zipIdx, p.1.name.bytes ≠ name := fun p hp heq => hno p.2 ⟨p.1, mem_zipIdx_iff.mp hp, heq⟩
    have hcount : ¬1 < table.zipIdx.countP (isPartial (name ++ afterName value) name.length) := by
      rw [one_lt_countP_iff hno]
      rintro ⟨i, j, hij, hi, hj⟩
      exact hij ((honly i hi).trans (honly j hj).symm)
    have hfind : table.zipIdx.find? (isPartial (name ++ afterName value) name.length) = some (e, k) := by
      cases hfind : table.zipIdx.find? (isPartial (name ++ afterName value) name.length) with
      | none =>
        exact absurd ((isPartial_iff (e, k) _).mpr hpre) (List.find?_eq_none.mp hfind (e, k) (mem_zipIdx_iff.mpr hk))
      | some p =>
        have hp := mem_zipIdx_iff.mp (List.mem_of_find?_eq_some hfind)
        have hindex := honly p.2 ⟨p.1, hp, (isPartial_iff p _).mp (List.find?_some hfind), fun heq => hno p.2 ⟨p.1, hp, heq⟩⟩
        exact congrArg some (Prod.ext (Option.some.inj (hp.symm.trans (hindex ▸ hk))) hindex)
    rw [find_exact_eq_none hno, foldl_step hplain, if_neg fun h => hcount (by simpa using h.2.1), hfind]
    rfl

theorem processLongOption_unknown (hname : 0x3D ∉ name) (hnext : st.nextchar = some (name ++ afterName value))
    (hnone : ∀ k, ¬Chosen table name k) :
    ∃ next, processLongOption argv optstring table false st =
      ⟨0x3F, argv, { st with nextchar := next, optind := st.optind + 1, optopt := 0 }, none, none⟩ := by
  have hno : ∀ j, ¬Exact table name j := fun j hj => hnone j (.inl hj)
  have hplain : ∀ p ∈ table.zipIdx, p.1.name.bytes ≠ name := fun p hp heq => hno p.2 ⟨p.1, mem_zipIdx_iff.mp hp, heq⟩
  rw [processLongOption_eq (by rw [hnext, Option.getD_some]) (congrArg List.length (takeWhile_name hname value)),
    find_exact_eq_none hno, foldl_step hplain]
  by_cases hcount : 1 < table.zipIdx.countP (isPartial (name ++ afterName value) name.length)
  · refine ⟨some [], if_pos ⟨rfl, ?_, Nat.zero_ne_one⟩⟩
    rw [Nat.zero_add]
    exact hcount
  · have hfind : table.zipIdx.find? (isPartial (name ++ afterName value) name.length) = none := by
      refine List.find?_eq_none.mpr fun p hp hpre => hnone p.2 (.inr ⟨hno, ?_, fun j hj => ?_⟩)
      · exact ⟨p.1, mem_zipIdx_iff.mp hp, (isPartial_iff p _).mp hpre, hplain p hp⟩
      · by_contra hjp
        exact hcount ((one_lt_countP_iff hno _).mpr ⟨j, p.2, hjp, hj, p.1, mem_zipIdx_iff.mp hp, (isPartial_iff p _).mp hpre,
          hplain p hp⟩)
    refine ⟨none, ?_⟩
    rw [if_neg fun h => hcount (by simpa using h.2.1), hfind]
    rfl

end Process

end Search

/-! ## The call -/

/-- The scan of `getopt_long` comes to `--name` or `--name=value`, with `argv'` and the state that it has there. -/
structure Met (argv : List CString) (optstring : CString) (g : Globals) (name : List Byte) (value : Option (List Byte))
    (argv' : List CString) (st : State) : Prop where
  args : 0 < argv.length
  fresh : (prepare optstring.bytes g.begin false).2.nextchar.getD [] = []
  settled : settle argv (prepare optstring.bytes g.begin false).2 = (argv', st)
  element : ∃ arg : CString, argv'[st.optind]? = some arg ∧ arg.bytes = 0x2D :: 0x2D :: (name ++ afterName value)
  name_eq : 0x3D ∉ name
  nonempty : name ≠ [] ∨ value ≠ none

/-- What is done with entry `e`, which is number `k`, where the scan stands at `i` -/
structure Taken (optstring : List Byte) (e : LongOption) (k : ℕ) (value : Option (List Byte)) (argv : List CString) (i : ℕ)
    (r : Returned × Globals) : Prop where
  argv_eq : r.1.argv = argv
  /-- `--name=value` where no argument is allowed -/
  forbidden : value ≠ none → e.hasArg = .no → r.1.code = 0x3F ∧ r.2.optopt = e.val ∧ r.2.optind = i + 1
  /-- `--name` at the end of `argv` where an argument is required -/
  missing : value = none → e.hasArg = .required → argv.length ≤ i + 1 →
    r.1.code = (if optstring.head? = some (':' : Byte) then 0x3A else 0x3F) ∧ r.2.optopt = e.val ∧ r.2.optind = i + 1
  found : ¬(value ≠ none ∧ e.hasArg = .no) → ¬(value = none ∧ e.hasArg = .required ∧ argv.length ≤ i + 1) →
    r.1.longind = some k ∧ r.1.code = (e.flag.elim e.val fun _ => 0) ∧ r.1.stored = e.flag.map fun flag => (flag, e.val)
  /-- The next element is the argument exactly when one is required and there is no '='. -/
  separate : value = none → e.hasArg = .required → i + 1 < argv.length →
    r.2.optarg = argv[i + 1]?.map CString.bytes ∧ r.2.optind = i + 2
  attached : ¬(value ≠ none ∧ e.hasArg = .no) → ¬(value = none ∧ e.hasArg = .required) →
    r.2.optarg = value ∧ r.2.optind = i + 1

/-- What is done when no entry is meant -/
structure Refused (argv : List CString) (i : ℕ) (r : Returned × Globals) : Prop where
  argv_eq : r.1.argv = argv
  code : r.1.code = 0x3F
  optind : r.2.optind = i + 1
  optopt : r.2.optopt = 0
  optarg : r.2.optarg = none
  stored : r.1.longind = none ∧ r.1.stored = none

theorem taken_of_take {argv : List CString} {optstring : List Byte} {e : LongOption} {k : ℕ} {value : Option (List Byte)}
    {st : State} (hoptarg : st.optarg = none) :
    Taken optstring e k value argv st.optind
      (takeLongOption argv optstring e k (afterName value) st,
        .sync (takeLongOption argv optstring e k (afterName value) st).st) := by
  unfold takeLongOption
  cases value with
  | some v =>
    have hafter : afterName (some v) ≠ [] := List.cons_ne_nil _ _
    dsimp only
    rw [if_pos hafter]
    by_cases hno : e.hasArg = .no
    · rw [if_neg (not_not.mpr hno)]
      exact ⟨rfl, fun _ _ => ⟨rfl, rfl, rfl⟩, fun h => absurd h (Option.some_ne_none v),
        fun h => absurd ⟨Option.some_ne_none v, hno⟩ h, fun h => absurd h (Option.some_ne_none v),
        fun h => absurd ⟨Option.some_ne_none v, hno⟩ h⟩
    · rw [if_pos hno]
      exact ⟨rfl, fun _ h => absurd h hno, fun h => absurd h (Option.some_ne_none v), fun _ _ => ⟨rfl, rfl, rfl⟩,
        fun h => absurd h (Option.some_ne_none v), fun _ _ => ⟨rfl, rfl⟩⟩
  | none =>
    have hafter : ¬afterName none ≠ [] := not_not.mpr rfl
    dsimp only
    rw [if_neg hafter]
    by_cases hrequired : e.hasArg = .required
    · rw [if_pos hrequired]
      cases hnext : argv[st.optind + 1]? with
      | some arg =>
        have hlt := (List.getElem?_eq_some_iff.mp hnext).choose
        refine ⟨rfl, fun h => absurd rfl h, fun _ _ h => absurd h (not_le.mpr hlt), fun _ _ => ⟨rfl, rfl, rfl⟩, fun _ _ _ => ?_,
          fun _ h => absurd ⟨rfl, hrequired⟩ h⟩
        rw [hnext]
        exact ⟨rfl, rfl⟩
      | none =>
        have hle := List.getElem?_eq_none_iff.mp hnext
        exact ⟨rfl, fun h => absurd rfl h, fun _ _ _ => ⟨rfl, rfl, rfl⟩, fun _ h => absurd ⟨rfl, hrequired, hle⟩ h,
          fun _ _ h => absurd h (not_lt.mpr hle), fun _ h => absurd ⟨rfl, hrequired⟩ h⟩
    · rw [if_neg hrequired]
      by_cases hoptional : e.hasArg = .optional
      · rw [if_pos hoptional]
        exact ⟨rfl, fun h => absurd rfl h, fun _ h => absurd h hrequired, fun _ _ => ⟨rfl, rfl, rfl⟩,
          fun _ h => absurd h hrequired, fun _ _ => ⟨rfl, rfl⟩⟩
      · rw [if_neg hoptional]
        exact ⟨rfl, fun h => absurd rfl h, fun _ h => absurd h hrequired, fun _ _ => ⟨rfl, rfl, rfl⟩,
          fun _ h => absurd h hrequired, fun _ _ => ⟨hoptarg, rfl⟩⟩

theorem settle_optarg (argv : List CString) (st : State) : (settle argv st).2.optarg = st.optarg := by
  unfold settle exchange
  dsimp only
  split_ifs
  · rfl
  · rfl
  · rfl
  · rfl

theorem initState_optarg (optstring : List Byte) (st : State) (posixlyCorrect : Bool) :
    (initState optstring st posixlyCorrect).2.optarg = st.optarg := by
  unfold initState
  dsimp only
  generalize (if st.optind = 0 then 1 else st.optind) = optind
  split
  · rfl
  · rfl
  · rfl

theorem prepare_optarg (optstring : List Byte) (st : State) : (prepare optstring st false).2.optarg = none := by
  unfold prepare
  dsimp only
  split_ifs
  · exact initState_optarg ..
  · rfl
  · rfl

/-- At such an element `getopt_long` looks the name up. -/
theorem getoptLong_of_met {argv : List CString} {optstring : CString} {table : List LongOption} {g : Globals}
    {name : List Byte} {value : Option (List Byte)} {argv' : List CString} {st : State}
    (h : Met argv optstring g name value argv' st) :
    getoptLong argv optstring table g =
      some (processLongOption argv' (prepare optstring.bytes g.begin false).1 table false
          { st with nextchar := some (name ++ afterName value) },
        .sync (processLongOption argv' (prepare optstring.bytes g.begin false).1 table false
          { st with nextchar := some (name ++ afterName value) }).st) := by
  obtain ⟨arg, harg, hbytes⟩ := h.element
  have hlt := (List.getElem?_eq_some_iff.mp harg).choose
  have hget0 : arg.get 0 = 0x2D := by rw [CString.get, hbytes]; rfl
  have hget1 : arg.get 1 = '-' := by rw [CString.get, hbytes]; rfl
  have hdashes : ¬argv'[st.optind]? = some (.lit "--") := by
    rw [harg]
    intro heq
    have htext : (0x2D :: 0x2D :: (name ++ afterName value) : List Byte) = [0x2D, 0x2D] := by
      rw [← hbytes, Option.some.inj heq]
      rfl
    obtain ⟨hname, hafter⟩ := List.append_eq_nil_iff.mp (List.cons.inj (List.cons.inj htext).2).2
    refine h.nonempty.elim (fun hne => hne hname) fun hne => ?_
    cases value with
    | none => exact hne rfl
    | some v => cases hafter
  have hoption : isNonoption arg = false := by
    rw [isNonoption, hget0, hget1]
    rfl
  have hdrop : arg.bytes.drop 2 = name ++ afterName value := by rw [hbytes]; rfl
  have hat : atElement argv' (prepare optstring.bytes g.begin false).1 (some table) false st =
      some (processLongOption argv' (prepare optstring.bytes g.begin false).1 table false
        { st with nextchar := some (name ++ afterName value) }) := by
    unfold atElement
    rw [if_neg (not_lt.mpr hlt.le), if_neg hdashes]
    dsimp only
    rw [harg]
    dsimp only
    rw [hoption, if_neg Bool.false_ne_true, if_pos hget1, hdrop]
  rw [getoptLong, getoptInternal, if_neg (not_lt.mpr h.args)]
  dsimp only
  rw [if_pos h.fresh, h.settled, hat]
  rfl

/-- A long option is the entry with its name, or the only one that it abbreviates; the entry has its argument, and where
there is no such entry, that element alone is used. -/
theorem getoptLong_resolves {argv : List CString} {optstring : CString} {table : List LongOption} {g : Globals}
    {name : List Byte} {value : Option (List Byte)} {argv' : List CString} {st : State}
    (hdistinct : (table.map LongOption.name).Nodup) (h : Met argv optstring g name value argv' st) :
    ∃ r, getoptLong argv optstring table g = some r ∧
      (∀ k e, table[k]? = some e → Chosen table name k →
        Taken (prepare optstring.bytes g.begin false).1 e k value argv' st.optind r) ∧
      ((∀ k, ¬Chosen table name k) → Refused argv' st.optind r) := by
  have hoptarg : st.optarg = none := by
    have hsettle := settle_optarg argv (prepare optstring.bytes g.begin false).2
    rw [h.settled, prepare_optarg] at hsettle
    exact hsettle
  refine ⟨_, getoptLong_of_met h, fun k e hk hchosen => ?_, fun hnone => ?_⟩
  · rw [processLongOption_chosen hdistinct h.name_eq rfl hk hchosen]
    exact taken_of_take hoptarg
  · have hunknown : ∃ next, processLongOption argv' (prepare optstring.bytes g.begin false).1 table false
        { st with nextchar := some (name ++ afterName value) } =
          ⟨0x3F, argv', { st with nextchar := next, optind := st.optind + 1, optopt := 0 }, none, none⟩ :=
      processLongOption_unknown h.name_eq rfl hnone
    obtain ⟨next, hprocess⟩ := hunknown
    rw [hprocess]
    exact ⟨rfl, rfl, rfl, rfl, hoptarg, rfl, rfl⟩

/-- `prog file --al=7`, where `al` abbreviates `alpha` alone -/
theorem getoptLong_resolves_alpha :
    ∃ r, getoptLong [.lit "prog", .lit "file", .lit "--al=7"] (.lit "")
        [⟨.lit "beta", .no, none, 66⟩, ⟨.lit "alpha", .required, none, 65⟩] {} = some r ∧
      Taken [] ⟨.lit "alpha", .required, none, 65⟩ 1 (some [0x37]) [.lit "prog", .lit "file", .lit "--al=7"] 2 r := by
  have hmet : Met [.lit "prog", .lit "file", .lit "--al=7"] (.lit "") {} [0x61, 0x6C] (some [0x37])
      [.lit "prog", .lit "file", .lit "--al=7"]
      { optind := 2, initialized := true, ordering := .permute, firstNonopt := 1, lastNonopt := 2 } :=
    ⟨by decide, by decide, by rfl, ⟨.lit "--al=7", rfl, by decide⟩, by decide, .inl (by decide)⟩
  have hdistinct : ([⟨.lit "beta", .no, none, 66⟩, ⟨.lit "alpha", .required, none, 65⟩].map LongOption.name).Nodup := by
    decide
  obtain ⟨r, hr, htaken, -⟩ := getoptLong_resolves hdistinct hmet
  refine ⟨r, hr, htaken 1 _ rfl (.inr ⟨?_, ⟨_, rfl, by decide, by decide⟩, ?_⟩)⟩
  · rintro j ⟨e, he, hname⟩
    match j, he with
    | 0, he =>
      cases he
      exact absurd hname (by decide)
    | 1, he =>
      cases he
      exact absurd hname (by decide)
  · rintro j ⟨e, he, hpre, -⟩
    match j, he with
    | 0, he =>
      cases he
      exact absurd hpre (by decide)
    | 1, he => rfl

end ValidcTools.Getopt
