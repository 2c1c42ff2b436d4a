import ValidcTools.Sed.Execution

/-! The lines to which a range applies its command. -/
namespace ValidcTools.Sed

/-! ## What one turn does -/

/-- The command leaves the cycle, and the end of its range is not looked for. -/
def Action.leaves : Action → List Byte → Bool
  | .d, _ | .q, _ | .n, _ | .ncap, _ => true
  | .dcap, space => (afterNewline space).isNone
  | _, _ => false

theorem writeTo_frame (env : Env) (st : ExecState) (name s : List Byte) :
    (st.writeTo env name s).cmds = st.cmds ∧ (st.writeTo env name s).turns = st.turns ∧
      (st.writeTo env name s).lineno = st.lineno ∧ (st.writeTo env name s).isLast = st.isLast := by
  unfold ExecState.writeTo
  split_ifs <;> exact ⟨rfl, rfl, rfl, rfl⟩

theorem autoPrint_frame (env : Env) (st : ExecState) :
    (st.autoPrint env).cmds = st.cmds ∧ (st.autoPrint env).turns = st.turns ∧
      (st.autoPrint env).lineno = st.lineno ∧ (st.autoPrint env).isLast = st.isLast := by
  unfold ExecState.autoPrint
  split_ifs <;> exact ⟨rfl, rfl, rfl, rfl⟩

/-- No command touches the commands, their history or the number of the line. -/
theorem execAction_frame (env : Env) (st : ExecState) (a : Action) :
    (execAction env st a).2.cmds = st.cmds ∧ (execAction env st a).2.turns = st.turns ∧
      (execAction env st a).2.lineno = st.lineno ∧ (execAction env st a).2.isLast = st.isLast := by
  cases a with
  | n => exact autoPrint_frame env st
  | w name => exact writeTo_frame env st name st.space
  | s pat repl occurrence print wfile =>
    rw [execAction_s]
    exact ⟨rfl, rfl, rfl, rfl⟩
  | dcap =>
    simp only [execAction]
    split <;> exact ⟨rfl, rfl, rfl, rfl⟩
  | _ => exact ⟨rfl, rfl, rfl, rfl⟩

theorem execAction_flow (env : Env) (st : ExecState) (a : Action) :
    (∃ cont, (execAction env st a).1 = .leave cont) ∧ a.leaves st.space = true ∨
      ((execAction env st a).1 = .next ∨ (execAction env st a).1 = .restart) ∧ a.leaves st.space = false := by
  cases a with
  | d => exact .inl ⟨⟨_, rfl⟩, rfl⟩
  | q => exact .inl ⟨⟨_, rfl⟩, rfl⟩
  | n => exact .inl ⟨⟨_, rfl⟩, rfl⟩
  | ncap => exact .inl ⟨⟨_, rfl⟩, rfl⟩
  | s pat repl occurrence print wfile => exact .inr ⟨.inl (by rw [execAction_s]), rfl⟩
  | dcap =>
    simp only [execAction, Action.leaves]
    cases h : afterNewline st.space with
    | none => exact .inl ⟨⟨_, rfl⟩, rfl⟩
    | some rest => exact .inr ⟨.inr rfl, rfl⟩
  | _ => exact .inr ⟨.inl rfl, rfl⟩

/-- A turn, with what it notes and how it leaves the command's range -/
theorem turn_spec (env : Env) {i : ℕ} {st : ExecState} {c : SedCmd} (hc : st.cmds[i]? = some c) :
    ∃ t : Turn, t.index = i ∧ t.lineno = st.lineno ∧ t.space = st.space ∧
      t.applied = (applyAddresses st.isLast c st.space st.lineno).1 ∧
      (turn env i st).2.turns = st.turns ++ [t] ∧ (turn env i st).2.lineno = st.lineno ∧
      (turn env i st).2.cmds = st.cmds.set i
        (if t.applied && !c.action.leaves t.space then
          maybeEndRangeAfterLine st.isLast (applyAddresses st.isLast c st.space st.lineno).2 t.after st.lineno
        else (applyAddresses st.isLast c st.space st.lineno).2) := by
  obtain ⟨applied, c', hr⟩ : ∃ applied c', applyAddresses st.isLast c st.space st.lineno = (applied, c') := ⟨_, _, rfl⟩
  cases applied with
  | false =>
    rw [turn_skipped hc hr, hr]
    exact ⟨_, rfl, rfl, rfl, rfl, rfl, rfl, rfl⟩
  | true =>
    obtain ⟨hcmds, hturns, hlineno, hlast⟩ := execAction_frame env { st with cmds := st.cmds.set i c' } c.action
    obtain ⟨⟨cont, hflow⟩, hleaves⟩ | ⟨hflow | hflow, hleaves⟩ :=
      execAction_flow env { st with cmds := st.cmds.set i c' } c.action
    · rw [turn_leave hc hr (Prod.ext hflow rfl), hr]
      have hleaves : c.action.leaves st.space = true := hleaves
      exact ⟨_, rfl, rfl, rfl, rfl, by rw [hturns], hlineno, by simp [hleaves, hcmds]⟩
    · rw [turn_next hc hr (Prod.ext hflow rfl), hr]
      have hleaves : c.action.leaves st.space = false := hleaves
      exact ⟨_, rfl, rfl, rfl, rfl, by rw [hturns], hlineno, by simp [hleaves, hcmds, hlast, hlineno]⟩
    · rw [turn_restart hc hr (Prod.ext hflow rfl), hr]
      have hleaves : c.action.leaves st.space = false := hleaves
      exact ⟨_, rfl, rfl, rfl, rfl, by rw [hturns], hlineno, by simp [hleaves, hcmds, hlast, hlineno]⟩

/-! ## The range flag over a history -/

/-- The turns of a command -/
def turnsOf (k : ℕ) (turns : List Turn) : List Turn := turns.filter fun t => decide (t.index = k)

/-- The range flag after a turn, from that before it. The first address is the line `n`. -/
def flagAfter (n : ℕ) (a2 : Address) (a : Action) (f : Bool) (t : Turn) : Bool :=
  (f || decide (n = t.lineno)) && (a.leaves t.space || !addrMatches false t.after t.lineno a2)

/-- Each turn applies its command where the flag is on, or the range begins. -/
def Governed (n : ℕ) (a2 : Address) (a : Action) : Bool → List Turn → Prop
  | _, [] => True
  | f, t :: ts => t.applied = (f || decide (n = t.lineno)) ∧ Governed n a2 a (flagAfter n a2 a f t) ts

theorem governed_concat {n : ℕ} {a2 : Address} {a : Action} {f : Bool} {ts : List Turn} {t : Turn} :
    Governed n a2 a f (ts ++ [t]) ↔
      Governed n a2 a f ts ∧ t.applied = (ts.foldl (flagAfter n a2 a) f || decide (n = t.lineno)) := by
  induction ts generalizing f with
  | nil => simp [Governed]
  | cons x ts ih => simp [Governed, ih, and_assoc]

/-- What a command with a range from line `n` on has made of its turns -/
structure Ranged (k n : ℕ) (a2 : Address) (c : SedCmd) (st : ExecState) : Prop where
  cmd : st.cmds[k]? = some { c with inRange := (turnsOf k st.turns).foldl (flagAfter n a2 c.action) false }
  governed : Governed n a2 c.action false (turnsOf k st.turns)
  sorted : (turnsOf k st.turns).Pairwise fun t u => t.lineno ≤ u.lineno
  le : ∀ t ∈ st.turns, t.lineno ≤ st.lineno

theorem addrMatches_isLast {a2 : Address} (ha : a2 ≠ .last) (isLast : Bool) (ps : List Byte) (lineno : ℕ) :
    addrMatches isLast ps lineno a2 = addrMatches false ps lineno a2 := by
  cases a2 with
  | last => exact absurd rfl ha
  | _ => rfl

section
variable {k n : ℕ} {a2 : Address} {c : SedCmd} (h1 : c.a1 = some (.line n)) (h2 : c.a2 = some a2) (ha : a2 ≠ .last)

theorem turnsOf_concat {turns : List Turn} {t : Turn} :
    turnsOf k (turns ++ [t]) = turnsOf k turns ++ if t.index = k then [t] else [] := by
  rw [turnsOf, List.filter_append]
  by_cases h : t.index = k
  · simp [turnsOf, h]
  · simp [turnsOf, h]

include h1 h2 ha

/-- The flag of a command after its turn -/
theorem inRange_turn {f : Bool} {t : Turn} {isLast : Bool}
    (happlied : t.applied = (applyAddresses isLast { c with inRange := f } t.space t.lineno).1) :
    t.applied = (f || decide (n = t.lineno)) ∧
      (if t.applied && !c.action.leaves t.space then
          maybeEndRangeAfterLine isLast (applyAddresses isLast { c with inRange := f } t.space t.lineno).2 t.after t.lineno
        else (applyAddresses isLast { c with inRange := f } t.space t.lineno).2) =
      { c with inRange := flagAfter n a2 c.action f t } := by
  have happly : applyAddresses isLast { c with inRange := f } t.space t.lineno =
      (f || decide (n = t.lineno), { c with inRange := f || decide (n = t.lineno) }) := by
    simp only [applyAddresses, h1, h2]
    rfl
  rw [happly] at happlied ⊢
  refine ⟨happlied, ?_⟩
  rw [happlied]
  unfold flagAfter maybeEndRangeAfterLine
  simp only [h1, h2, addrMatches_isLast ha isLast]
  generalize (f || decide (n = t.lineno)) = g
  generalize c.action.leaves t.space = leaves
  generalize addrMatches false t.after t.lineno a2 = ends
  cases g <;> cases leaves <;> cases ends <;> rfl

theorem ranged_turn (env : Env) (i : ℕ) {st : ExecState} (h : Ranged k n a2 c st) : Ranged k n a2 c (turn env i st).2 := by
  cases hc : st.cmds[i]? with
  | none => exact (turn_none env hc).symm ▸ h
  | some c' =>
    obtain ⟨t, hindex, hlineno, hspace, happlied, hturns, hline, hcmds⟩ := turn_spec env hc
    have hle : ∀ u ∈ (turn env i st).2.turns, u.lineno ≤ (turn env i st).2.lineno := by
      rw [hturns, hline]
      intro u hu
      obtain hu | hu := List.mem_append.mp hu
      · exact h.le u hu
      · rw [List.mem_singleton.mp hu, hlineno]
    by_cases hik : i = k
    · subst hik
      obtain rfl := Option.some.inj (hc.symm.trans h.cmd)
      rw [← hspace, ← hlineno] at happlied
      obtain ⟨happlied', hnew⟩ := inRange_turn h1 h2 ha happlied
      rw [← hspace, ← hlineno] at hcmds
      have hof : turnsOf i (turn env i st).2.turns = turnsOf i st.turns ++ [t] := by
        rw [hturns, turnsOf_concat, if_pos hindex]
      refine ⟨?_, ?_, ?_, hle⟩
      · rw [hof, List.foldl_concat, hcmds]
        obtain ⟨hi, -⟩ := List.getElem?_eq_some_iff.mp hc
        rw [List.getElem?_set_self hi]
        exact congrArg some hnew
      · rw [hof]
        exact governed_concat.mpr ⟨h.governed, happlied'⟩
      · rw [hof]
        refine List.pairwise_append.mpr ⟨h.sorted, List.pairwise_singleton _ _, fun u hu v hv => ?_⟩
        rw [List.mem_singleton.mp hv, hlineno]
        exact h.le u (List.mem_of_mem_filter hu)
    · have hof : turnsOf k (turn env i st).2.turns = turnsOf k st.turns := by
        rw [hturns, turnsOf_concat, if_neg (by simpa [hindex] using hik), List.append_nil]
      refine ⟨?_, hof.symm ▸ h.governed, hof.symm ▸ h.sorted, hle⟩
      rw [hof, hcmds, List.getElem?_set_ne hik]
      exact h.cmd

omit h1 h2 ha in
theorem ranged_driven {st st' : ExecState} (h : Ranged k n a2 c st) (hd : Driven st st') : Ranged k n a2 c st' :=
  ⟨by rw [hd.cmds, hd.turns]; exact h.cmd, hd.turns.symm ▸ h.governed, hd.turns.symm ▸ h.sorted,
    fun t ht => (h.le t (hd.turns ▸ ht)).trans hd.lineno⟩

/-- The range flag of a command governs its turns in every run. -/
theorem ranged_run (env : Env) (fuel : ℕ) (files : List (Option (List Byte))) {cmds : List SedCmd} (hc : cmds[k]? = some c)
    (hoff : c.inRange = false) : Ranged k n a2 c (processFiles env fuel files (.init cmds)).2 := by
  refine processFiles_keeps (P := Ranged k n a2 c) (fun i st h => ranged_turn h1 h2 ha env i h)
    (fun st st' h hd => ranged_driven h hd) fuel files ⟨?_, trivial, List.Pairwise.nil, by simp [ExecState.init]⟩
  refine hc.trans (congrArg some ?_)
  cases c
  simpa [turnsOf, ExecState.init] using hoff

end

/-! ## Histories in the order of lines -/

theorem sorted_split {ts : List Turn} (h : ts.Pairwise fun t u => t.lineno ≤ u.lineno) (x : ℕ) :
    ts = ts.filter (fun t => decide (t.lineno < x)) ++ ts.filter fun t => decide (x ≤ t.lineno) := by
  induction ts with
  | nil => rfl
  | cons t ts ih =>
    obtain ⟨ht, hts⟩ := List.pairwise_cons.mp h
    by_cases hx : t.lineno < x
    · rw [List.filter_cons_of_pos (by simpa using hx), List.filter_cons_of_neg (by simpa using hx), List.cons_append, ← ih hts]
    · have hnone : ts.filter (fun t => decide (t.lineno < x)) = [] :=
        List.filter_eq_nil_iff.mpr fun u hu => by
          have := ht u hu
          simp only [decide_eq_true_eq]
          omega
      have hall : ts.filter (fun t => decide (x ≤ t.lineno)) = ts :=
        List.filter_eq_self.mpr fun u hu => by
          have := ht u hu
          simp only [decide_eq_true_eq]
          omega
      rw [List.filter_cons_of_neg (by simpa using hx), List.filter_cons_of_pos (by simpa using hx), hnone, hall]
      rfl

section
variable {n : ℕ} {a2 : Address} {a : Action}

theorem governed_append {f : Bool} {ts us : List Turn} :
    Governed n a2 a f (ts ++ us) ↔ Governed n a2 a f ts ∧ Governed n a2 a (ts.foldl (flagAfter n a2 a) f) us := by
  induction ts generalizing f with
  | nil => simp [Governed]
  | cons x ts ih => simp [Governed, ih, and_assoc]

/-- Apart from its first line a range that is off stays off. -/
theorem governed_off {ts : List Turn} (hn : ∀ t ∈ ts, t.lineno ≠ n) (h : Governed n a2 a false ts) :
    (∀ t ∈ ts, t.applied = false) ∧ ts.foldl (flagAfter n a2 a) false = false := by
  induction ts with
  | nil => exact ⟨by simp, rfl⟩
  | cons t ts ih =>
    obtain ⟨ht, hts⟩ := h
    have hne : decide (n = t.lineno) = false := decide_eq_false (Ne.symm (hn t List.mem_cons_self))
    rw [hne] at ht
    have hflag : flagAfter n a2 a false t = false := by simp [flagAfter, hne]
    rw [hflag] at hts
    obtain ⟨hall, hend⟩ := ih (fun u hu => hn u (List.mem_cons_of_mem _ hu)) hts
    exact ⟨List.forall_mem_cons.mpr ⟨ht, hall⟩, by rw [List.foldl_cons, hflag, hend]⟩

theorem governed_past {f : Bool} {ts : List Turn} (hn : ∀ t ∈ ts, t.lineno ≠ n) (h : Governed n a2 a f ts) :
    (∀ t ∈ ts, t.applied = false) ↔ ts = [] ∨ f = false := by
  cases f with
  | false => exact iff_of_true (governed_off hn h).1 (.inr rfl)
  | true =>
    cases ts with
    | nil => exact iff_of_true (by simp) (.inl rfl)
    | cons t ts =>
      have ht : t.applied = true := h.1
      exact iff_of_false (fun hall => by simp [hall t List.mem_cons_self] at ht) (by simp)

end

/-! ## Ranges of two lines -/

/-- When a range of two lines takes just these lines: the first of them to reach the command is its first, the
command is left on the last one with the range looked at, and that once only. -/
structure LineRangeKept (n m : ℕ) (a : Action) (ts : List Turn) : Prop where
  entered : ∀ t ∈ (ts.filter fun t => decide (n ≤ t.lineno ∧ t.lineno ≤ m)).head?, t.lineno = n
  left : (∃ t ∈ ts, m < t.lineno) →
    ∀ t ∈ (ts.filter fun t => decide (n ≤ t.lineno ∧ t.lineno ≤ m)).getLast?, t.lineno = m ∧ a.leaves t.space = false
  once : n < m → ∀ t ∈ (ts.filter fun t => decide (n ≤ t.lineno ∧ t.lineno ≤ m)).dropLast,
    t.lineno = m → a.leaves t.space = true

section
variable {n m : ℕ} {a : Action}

theorem flagAfter_line (f : Bool) (t : Turn) :
    flagAfter n (.line m) a f t = ((f || decide (n = t.lineno)) && (a.leaves t.space || decide (m ≠ t.lineno))) := by
  simp [flagAfter, addrMatches]

/-- Within the lines of a range: where the command is applied, and the flag after the last of them. -/
theorem governed_inside {f : Bool} {ts : List Turn} (hsorted : ts.Pairwise fun t u => t.lineno ≤ u.lineno)
    (hin : ∀ t ∈ ts, n ≤ t.lineno ∧ t.lineno ≤ m) (h : Governed n (.line m) a f ts) :
    ((∀ t ∈ ts, t.applied = true) ↔
      (∀ t ∈ ts.head?, f = true ∨ t.lineno = n) ∧ (n < m → ∀ t ∈ ts.dropLast, t.lineno = m → a.leaves t.space = true)) ∧
    ((∀ t ∈ ts, t.applied = true) → ∀ t ∈ ts.getLast?,
      ts.foldl (flagAfter n (.line m) a) f = (a.leaves t.space || decide (m ≠ t.lineno))) := by
  induction ts generalizing f with
  | nil => simp
  | cons t ts ih =>
    obtain ⟨ht, hts⟩ := h
    obtain ⟨hle, hsorted⟩ := List.pairwise_cons.mp hsorted
    obtain ⟨hiff, hflag⟩ := ih hsorted (fun u hu => hin u (List.mem_cons_of_mem _ hu)) hts
    have happlied : t.applied = true ↔ f = true ∨ t.lineno = n := by
      rw [ht, Bool.or_eq_true, decide_eq_true_iff, eq_comm (a := n)]
    have hnext (h : t.applied = true) :
        flagAfter n (.line m) a f t = (a.leaves t.space || decide (m ≠ t.lineno)) := by
      rw [flagAfter_line, ← ht, h, Bool.true_and]
    cases ts with
    | nil =>
      refine ⟨by simpa using happlied, fun hall x hx => ?_⟩
      obtain rfl := Option.some.inj hx
      exact hnext (hall t List.mem_cons_self)
    | cons u us =>
      have hlink (h : t.applied = true) : flagAfter n (.line m) a f t = true ∨ u.lineno = n ↔
          (n < m → t.lineno = m → a.leaves t.space = true) := by
        obtain ⟨-, htm⟩ := hin t List.mem_cons_self
        obtain ⟨hun, hum⟩ := hin u (List.mem_cons_of_mem _ List.mem_cons_self)
        have htu := hle u List.mem_cons_self
        rw [hnext h, Bool.or_eq_true, decide_eq_true_iff]
        refine ⟨fun hor hlt hm => ?_, fun himp => ?_⟩
        · obtain (hl | hne) | hu := hor
          · exact hl
          · exact absurd hm.symm hne
          · omega
        · by_cases hlt : n < m
          · by_cases hm : t.lineno = m
            · exact .inl (.inl (himp hlt hm))
            · exact .inl (.inr (Ne.symm hm))
          · exact .inr (by omega)
      refine ⟨?_, fun hall x hx => ?_⟩
      · rw [List.forall_mem_cons, hiff, List.dropLast_cons_cons]
        simp only [List.head?_cons, Option.mem_some_iff, forall_eq', List.forall_mem_cons]
        refine ⟨fun ⟨h, hu, hlast⟩ => ⟨happlied.mp h, fun hlt => ⟨(hlink h).mp hu hlt, hlast hlt⟩⟩, fun ⟨hf, hall⟩ => ?_⟩
        have h := happlied.mpr hf
        exact ⟨h, (hlink h).mpr fun hlt => (hall hlt).1, fun hlt => (hall hlt).2⟩
      · rw [List.getLast?_cons_cons] at hx
        exact hflag (fun y hy => hall y (List.mem_cons_of_mem _ hy)) x hx

/-- The turns before, within and after the lines of a range -/
theorem sorted_three {ts : List Turn} (h : ts.Pairwise fun t u => t.lineno ≤ u.lineno) (hnm : n ≤ m) :
    ts = ts.filter (fun t => decide (t.lineno < n)) ++
      (ts.filter (fun t => decide (n ≤ t.lineno ∧ t.lineno ≤ m)) ++ ts.filter fun t => decide (m < t.lineno)) := by
  have hlate := sorted_split (h.filter fun t => decide (n ≤ t.lineno)) (m + 1)
  rw [List.filter_filter, List.filter_filter] at hlate
  refine (sorted_split h n).trans (congrArg _ (hlate.trans ?_))
  congr 1
  · refine List.filter_congr fun t _ => ?_
    rw [← Bool.decide_and, decide_eq_decide]
    omega
  · refine List.filter_congr fun t _ => ?_
    rw [← Bool.decide_and, decide_eq_decide]
    omega

theorem lineRange_iff {ts : List Turn} (hsorted : ts.Pairwise fun t u => t.lineno ≤ u.lineno) (hnm : n ≤ m)
    (h : Governed n (.line m) a false ts) :
    (∀ t ∈ ts, (t.applied = true ↔ n ≤ t.lineno ∧ t.lineno ≤ m)) ↔ LineRangeKept n m a ts := by
  set early := ts.filter fun t => decide (t.lineno < n) with hearly
  set inside := ts.filter fun t => decide (n ≤ t.lineno ∧ t.lineno ≤ m) with hinside
  set late := ts.filter fun t => decide (m < t.lineno) with hlate
  have hsplit : ts = early ++ (inside ++ late) := sorted_three hsorted hnm
  have he : ∀ t ∈ early, t.lineno < n := fun t ht => by simpa using (List.mem_filter.mp ht).2
  have hi : ∀ t ∈ inside, n ≤ t.lineno ∧ t.lineno ≤ m := fun t ht => by simpa using (List.mem_filter.mp ht).2
  have hl : ∀ t ∈ late, m < t.lineno := fun t ht => by simpa using (List.mem_filter.mp ht).2
  rw [hsplit, governed_append, governed_append] at h
  obtain ⟨hge, hgi, hgl⟩ := h
  obtain ⟨hoff, hflag⟩ := governed_off (fun t ht => (he t ht).ne) hge
  rw [hflag] at hgi hgl
  obtain ⟨hin, hend⟩ := governed_inside (hsorted.filter _) hi hgi
  have hpast := governed_past (fun t ht => (hnm.trans_lt (hl t ht)).ne') hgl
  have hall : (∀ t ∈ ts, (t.applied = true ↔ n ≤ t.lineno ∧ t.lineno ≤ m)) ↔
      (∀ t ∈ inside, t.applied = true) ∧ ∀ t ∈ late, t.applied = false := by
    refine ⟨fun h => ⟨fun t ht => (h t (List.mem_of_mem_filter ht)).mpr (hi t ht), fun t ht => ?_⟩, fun ⟨hI, hL⟩ t ht => ?_⟩
    · refine Bool.eq_false_iff.mpr fun happ => ?_
      exact absurd ((h t (List.mem_of_mem_filter ht)).mp happ).2 (Nat.not_le.mpr (hl t ht))
    · obtain hlt | hge := Nat.lt_or_ge t.lineno n
      · have := hoff t (List.mem_filter.mpr ⟨ht, by simpa using hlt⟩)
        exact iff_of_false (by simp [this]) (by omega)
      obtain hle | hgt := le_or_gt t.lineno m
      · exact iff_of_true (hI t (List.mem_filter.mpr ⟨ht, by simpa using ⟨hge, hle⟩⟩)) ⟨hge, hle⟩
      · have := hL t (List.mem_filter.mpr ⟨ht, by simpa using hgt⟩)
        exact iff_of_false (by simp [this]) (by omega)
  rw [hall, hpast]
  refine ⟨fun ⟨h, hlast⟩ => ⟨fun t ht => by simpa using (hin.mp h).1 t ht, fun hex t ht => ?_, (hin.mp h).2⟩, fun h => ?_⟩
  · obtain ⟨u, hu, hgt⟩ := hex
    have hflag := hlast.resolve_left (List.ne_nil_of_mem (List.mem_filter.mpr ⟨hu, by simpa using hgt⟩))
    rw [hend h t ht, Bool.or_eq_false_iff, decide_eq_false_iff_not, not_not] at hflag
    exact ⟨hflag.2.symm, hflag.1⟩
  · have happ := hin.mpr ⟨fun t ht => .inr (h.entered t ht), h.once⟩
    refine ⟨happ, or_iff_not_imp_left.mpr fun hne => ?_⟩
    obtain ⟨u, hu⟩ := List.exists_mem_of_ne_nil late hne
    cases ht : inside.getLast? with
    | none =>
      rw [List.getLast?_eq_none_iff.mp ht]
      rfl
    | some t =>
      obtain ⟨hm, hleaves⟩ := h.left ⟨u, List.mem_of_mem_filter hu, hl u hu⟩ t ht
      rw [hend happ t ht, hm, hleaves]
      simp

end

/-! ## Ranges that end at a regular expression -/

def matchesRegex (re ps : List Byte) : Bool := !addrMatches false ps 0 (.regex re)

/-- The turn is on line `n` or later, and none before it on a later line matched. -/
def InRegexRange (n : ℕ) (re : List Byte) (before : List Turn) (t : Turn) : Prop :=
  n ≤ t.lineno ∧ ∀ u ∈ before, n < u.lineno → matchesRegex re u.space = false

/-- On each line of the range that is followed by a further turn, up to the first that matches: the flag stays on just
when the line does not match. The flag stays on where the command leaves the cycle, or the space after it matches. -/
def Stops (re : List Byte) (a : Action) : List Turn → Prop
  | [] => True
  | t :: ts =>
    if matchesRegex re t.space then ts = [] ∨ (a.leaves t.space || matchesRegex re t.after) = false
    else (ts = [] ∨ (a.leaves t.space || matchesRegex re t.after) = true) ∧ Stops re a ts

/-- When a range ends at the first later line that matches: where later lines reach the command, its last turn on
line `n` leaves the flag on, and the flag stays on up to the line that matches. -/
structure RegexRangeKept (n : ℕ) (re : List Byte) (a : Action) (ts : List Turn) : Prop where
  entered : (∃ t ∈ ts, n < t.lineno) → ∃ t ∈ (ts.filter fun t => decide (t.lineno = n)).getLast?,
    (a.leaves t.space || matchesRegex re t.after) = true
  stops : Stops re a (ts.filter fun t => decide (n < t.lineno))

section
variable {n : ℕ} {re : List Byte} {a : Action}

theorem flagAfter_regex (f : Bool) (t : Turn) :
    flagAfter n (.regex re) a f t = ((f || decide (n = t.lineno)) && (a.leaves t.space || matchesRegex re t.after)) := rfl

/-- What holds of each element of a list and those before it -/
theorem forall_split_cons {α : Type} {Q : List α → α → Prop} {x : α} {xs : List α} :
    (∀ pre t post, x :: xs = pre ++ t :: post → Q pre t) ↔
      Q [] x ∧ ∀ pre t post, xs = pre ++ t :: post → Q (x :: pre) t := by
  refine ⟨fun h => ⟨h [] x xs rfl, fun pre t post he => h (x :: pre) t post (by rw [he]; rfl)⟩, fun ⟨hx, hxs⟩ pre t post he => ?_⟩
  cases pre with
  | nil =>
    obtain ⟨rfl, -⟩ := List.cons.inj he
    exact hx
  | cons y pre =>
    obtain ⟨rfl, hrest⟩ := List.cons.inj he
    exact hxs pre t post hrest

theorem forall_split_append {α : Type} {Q : List α → α → Prop} {xs ys : List α} :
    (∀ pre t post, xs ++ ys = pre ++ t :: post → Q pre t) ↔
      (∀ pre t post, xs = pre ++ t :: post → Q pre t) ∧ ∀ pre t post, ys = pre ++ t :: post → Q (xs ++ pre) t := by
  induction xs generalizing Q with
  | nil => simp
  | cons x xs ih => rw [List.cons_append, forall_split_cons, forall_split_cons, ih, and_assoc]; rfl

/-- The later lines of a range that is on -/
theorem stops_iff {ts : List Turn} (hn : ∀ t ∈ ts, t.lineno ≠ n) (h : Governed n (.regex re) a true ts) :
    (∀ pre t post, ts = pre ++ t :: post → (t.applied = true ↔ ∀ u ∈ pre, matchesRegex re u.space = false)) ↔ Stops re a ts := by
  induction ts with
  | nil => simp [Stops]
  | cons t ts ih =>
    obtain ⟨ht, hts⟩ := h
    rw [Bool.true_or] at ht
    rw [flagAfter_regex, Bool.true_or, Bool.true_and] at hts
    have hn' : ∀ u ∈ ts, u.lineno ≠ n := fun u hu => hn u (List.mem_cons_of_mem _ hu)
    rw [forall_split_cons, Stops]
    simp only [ht, List.not_mem_nil, false_implies, implies_true, true_and, List.forall_mem_cons]
    cases hm : matchesRegex re t.space with
    | true =>
      rw [if_pos rfl, ← governed_past hn' hts]
      simp only [Bool.true_eq_false, false_and, iff_false, Bool.not_eq_true]
      refine ⟨fun h u hu => ?_, fun h pre u post he => h u (he ▸ by simp)⟩
      obtain ⟨pre, post, rfl⟩ := List.append_of_mem hu
      exact h pre u post rfl
    | false =>
      rw [if_neg Bool.false_ne_true]
      simp only [true_and]
      cases hflag : a.leaves t.space || matchesRegex re t.after with
      | true =>
        rw [hflag] at hts
        simp only [or_true, true_and]
        exact ih hn' hts
      | false =>
        rw [hflag] at hts
        cases ts with
        | nil => simp [Stops]
        | cons u us =>
          have hoff := (governed_off hn' hts).1 u List.mem_cons_self
          refine iff_of_false (fun h => ?_) (by simp)
          have := (h [] u us rfl).mpr (by simp)
          simp [hoff] at this

/-- On its first line the command is always applied, and its last turn there decides on the flag. -/
theorem governed_first {f : Bool} {ts : List Turn} (hn : ∀ t ∈ ts, t.lineno = n) (h : Governed n (.regex re) a f ts) :
    (∀ t ∈ ts, t.applied = true) ∧
      ∀ t ∈ ts.getLast?, ts.foldl (flagAfter n (.regex re) a) f = (a.leaves t.space || matchesRegex re t.after) := by
  induction ts generalizing f with
  | nil => simp
  | cons t ts ih =>
    obtain ⟨ht, hts⟩ := h
    have hline : decide (n = t.lineno) = true := decide_eq_true (hn t List.mem_cons_self).symm
    rw [hline, Bool.or_true] at ht
    obtain ⟨hall, hlast⟩ := ih (fun u hu => hn u (List.mem_cons_of_mem _ hu)) hts
    refine ⟨List.forall_mem_cons.mpr ⟨ht, hall⟩, fun x hx => ?_⟩
    cases ts with
    | nil =>
      obtain rfl := Option.some.inj hx
      rw [List.foldl_cons, List.foldl_nil, flagAfter_regex, hline, Bool.or_true, Bool.true_and]
      rfl
    | cons u us =>
      rw [List.getLast?_cons_cons] at hx
      exact hlast x hx

theorem regexRange_iff {ts : List Turn} (hsorted : ts.Pairwise fun t u => t.lineno ≤ u.lineno)
    (h : Governed n (.regex re) a false ts) :
    (∀ pre t post, ts = pre ++ t :: post → (t.applied = true ↔ InRegexRange n re pre t)) ↔ RegexRangeKept n re a ts := by
  have hsame : (ts.filter fun t => decide (t.lineno = n)) = ts.filter fun t => decide (n ≤ t.lineno ∧ t.lineno ≤ n) :=
    List.filter_congr fun t _ => by
      rw [decide_eq_decide]
      omega
  set early := ts.filter fun t => decide (t.lineno < n) with hearly
  set first := ts.filter fun t => decide (t.lineno = n) with hfirst
  set late := ts.filter fun t => decide (n < t.lineno) with hlate
  have hsplit : ts = early ++ (first ++ late) := by
    rw [hsame]
    exact sorted_three hsorted le_rfl
  have he : ∀ t ∈ early, t.lineno < n := fun t ht => by simpa using (List.mem_filter.mp ht).2
  have hf : ∀ t ∈ first, t.lineno = n := fun t ht => by simpa using (List.mem_filter.mp ht).2
  have hl : ∀ t ∈ late, n < t.lineno := fun t ht => by simpa using (List.mem_filter.mp ht).2
  have hkept : RegexRangeKept n re a ts ↔ (late = [] ∨ ∃ t ∈ first.getLast?, (a.leaves t.space || matchesRegex re t.after) = true) ∧
      Stops re a late := by
    refine ⟨fun h => ⟨or_iff_not_imp_left.mpr fun hne => ?_, h.stops⟩, fun ⟨hor, hstops⟩ => ⟨fun ⟨t, ht, hlt⟩ => ?_, hstops⟩⟩
    · obtain ⟨t, ht⟩ := List.exists_mem_of_ne_nil late hne
      exact h.entered ⟨t, List.mem_of_mem_filter ht, hl t ht⟩
    · exact hor.resolve_left (List.ne_nil_of_mem (List.mem_filter.mpr ⟨ht, by simpa using hlt⟩))
  rw [hsplit, governed_append, governed_append] at h
  obtain ⟨hge, hgf, hgl⟩ := h
  obtain ⟨hoff, hflag⟩ := governed_off (fun t ht => (he t ht).ne) hge
  rw [hflag] at hgf hgl
  obtain ⟨hon, hend⟩ := governed_first hf hgf
  have hbefore : ∀ pre t post, early = pre ++ t :: post → (t.applied = true ↔ InRegexRange n re pre t) := by
    intro pre t post hpre
    have ht : t ∈ early := hpre ▸ by simp
    exact iff_of_false (by simp [hoff t ht]) fun hin => absurd hin.1 (Nat.not_le.mpr (he t ht))
  have hthere : ∀ pre t post, first = pre ++ t :: post → (t.applied = true ↔ InRegexRange n re (early ++ pre) t) := by
    intro pre t post hpre
    have ht : t ∈ first := hpre ▸ by simp
    refine iff_of_true (hon t ht) ⟨(hf t ht).ge, fun u hu hlt => ?_⟩
    obtain hu | hu := List.mem_append.mp hu
    · exact absurd hlt (he u hu).asymm
    · exact absurd (hf u (hpre ▸ List.mem_append_left _ hu)) hlt.ne'
  have hafter (pre : List Turn) (t : Turn) (post : List Turn) (hpre : late = pre ++ t :: post) :
      InRegexRange n re (early ++ (first ++ pre)) t ↔ ∀ u ∈ pre, matchesRegex re u.space = false := by
    have hmem (u : Turn) (hu : u ∈ pre) : u ∈ late := hpre ▸ List.mem_append_left _ hu
    refine ⟨fun hin u hu => hin.2 u (by simp [hu]) (hl u (hmem u hu)), fun hall => ⟨(hl t (hpre ▸ by simp)).le, fun u hu hlt => ?_⟩⟩
    obtain hu | hu := List.mem_append.mp hu
    · exact absurd hlt (he u hu).asymm
    obtain hu | hu := List.mem_append.mp hu
    · exact absurd (hf u hu) hlt.ne'
    · exact hall u hu
  have hrest : (∀ pre t post, ts = pre ++ t :: post → (t.applied = true ↔ InRegexRange n re pre t)) ↔
      ∀ pre t post, late = pre ++ t :: post → (t.applied = true ↔ ∀ u ∈ pre, matchesRegex re u.space = false) := by
    rw [hsplit, forall_split_append, forall_split_append]
    refine ⟨fun h pre t post hpre => (h.2.2 pre t post hpre).trans (hafter pre t post hpre),
      fun h => ⟨hbefore, hthere, fun pre t post hpre => (h pre t post hpre).trans (hafter pre t post hpre).symm⟩⟩
  rw [hrest, hkept]
  have hne : ∀ t ∈ late, t.lineno ≠ n := fun t ht => (hl t ht).ne'
  cases hstay : first.foldl (flagAfter n (.regex re) a) false with
  | true =>
    rw [hstay] at hgl
    refine (stops_iff hne hgl).trans (iff_and_self.mpr fun _ => .inr ?_)
    cases ht : first.getLast? with
    | none =>
      rw [List.getLast?_eq_none_iff.mp ht] at hstay
      exact absurd hstay Bool.false_ne_true
    | some t => exact ⟨t, rfl, (hend t ht).symm.trans hstay⟩
  | false =>
    rw [hstay] at hgl
    cases hcases : late with
    | nil => simp [Stops]
    | cons t ts =>
      rw [hcases] at hgl hne
      refine iff_of_false (fun h => ?_) fun ⟨hor, _⟩ => ?_
      · have := (h [] t ts rfl).mpr (by simp)
        simp [(governed_off hne hgl).1 t List.mem_cons_self] at this
      · obtain ⟨u, hu, htrue⟩ := hor.resolve_left (by simp)
        rw [← hend u hu, hstay] at htrue
        exact Bool.false_ne_true htrue

end

/-- A range takes the lines it names in every run just where no turn on them leaves its end unlooked at: `RegexRangeKept`
and `LineRangeKept` say when. -/
theorem range_applies (env : Env) (fuel : ℕ) (files : List (Option (List Byte))) {cmds : List SedCmd} {k n : ℕ} {c : SedCmd}
    (hc : cmds[k]? = some c) (hoff : c.inRange = false) (h1 : c.a1 = some (.line n)) :
    (∀ m, c.a2 = some (.line m) → n ≤ m →
      ((∀ t ∈ turnsOf k (processFiles env fuel files (.init cmds)).2.turns, (t.applied = true ↔ n ≤ t.lineno ∧ t.lineno ≤ m)) ↔
        LineRangeKept n m c.action (turnsOf k (processFiles env fuel files (.init cmds)).2.turns))) ∧
    ∀ re, c.a2 = some (.regex re) →
      ((∀ pre t post, turnsOf k (processFiles env fuel files (.init cmds)).2.turns = pre ++ t :: post →
          (t.applied = true ↔ InRegexRange n re pre t)) ↔
        RegexRangeKept n re c.action (turnsOf k (processFiles env fuel files (.init cmds)).2.turns)) := by
  refine ⟨fun m h2 hnm => ?_, fun re h2 => ?_⟩
  · have h := ranged_run h1 h2 Address.noConfusion env fuel files hc hoff
    exact lineRange_iff h.sorted hnm h.governed
  · have h := ranged_run h1 h2 Address.noConfusion env fuel files hc hoff
    exact regexRange_iff h.sorted h.governed

theorem range_applies_print :
    ((turnsOf 0 (processFiles ⟨true, fun _ => none, fun _ => false⟩ 1
          [some [( 'a' : Byte), '\n', 'b', '\n', 'c', '\n', 'd', '\n']]
          (.init [⟨some (.line 2), some (.line 3), false, .p⟩])).2.turns).all
      fun t => t.applied == decide (2 ≤ t.lineno ∧ t.lineno ≤ 3)) = true := by
  have hrange := range_applies ⟨true, fun _ => none, fun _ => false⟩ 1
    [some [( 'a' : Byte), '\n', 'b', '\n', 'c', '\n', 'd', '\n']]
    (show [(⟨some (.line 2), some (.line 3), false, .p⟩ : SedCmd)][0]? = some _ from rfl) rfl rfl
  refine List.all_eq_true.mpr fun t ht => ?_
  have happlied := (hrange.1 3 rfl (by decide)).mpr ⟨by decide +kernel, by decide +kernel, by decide +kernel⟩ t ht
  rw [beq_iff_eq, Bool.eq_iff_iff, happlied, decide_eq_true_iff]

/-- A `d` leaves the cycle before the end of its range is looked for. -/
theorem rangeDelete_not_ended :
    ¬ ∀ t ∈ turnsOf 0 (processFiles ⟨true, fun _ => none, fun _ => false⟩ 1
          [some [( 'a' : Byte), '\n', 'b', '\n', 'c', '\n', 'd', '\n']]
          (.init [⟨some (.line 2), some (.line 3), false, .d⟩])).2.turns,
      (t.applied = true ↔ 2 ≤ t.lineno ∧ t.lineno ≤ 3) := by
  decide +kernel

end ValidcTools.Sed
