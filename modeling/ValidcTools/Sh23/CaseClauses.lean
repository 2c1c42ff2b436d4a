import ValidcTools.Sh23.Backtracking
import ValidcTools.Sh23.Loops

/-! Which item of a case clause is run. -/
namespace ValidcTools.Sh23

/-- An item of a case clause: its patterns, its action and `has_dsemi` -/
abbrev CaseItem (ε : Type) := List (List Byte) × Option (Ast ε) × Bool

variable {ε : Type}

/-- One of the patterns of the item matches the word. -/
def CaseItem.matches (word : List Byte) (item : CaseItem ε) : Bool := item.1.any (matchPattern word)

/-- The first item that matches -/
def firstMatch (word : List Byte) (items : List (CaseItem ε)) : Option (CaseItem ε) := items.find? (CaseItem.matches word)

/-- `executor_run` of an action, which may be absent -/
def runAction {σ : Type} (run : Ast ε → Exec σ ExecStatus) : Option (Ast ε) → Exec σ ExecStatus
  | none => fun exec => some (.success, { exec with lastStatus := 0 })
  | some action => run action

/-- The action of the first item that matches is run and nothing else, whatever running an action is: it may be keeping a
record of what has been run. -/
def RunsFirstMatch (word : List Byte) (items : List (CaseItem ε)) : Prop :=
  ∀ (σ : Type) (run : Ast ε → Exec σ ExecStatus) (exec : Executor σ),
    execCaseClause run word items exec =
      match firstMatch word items with
      | none => some (.success, exec)
      | some item => runAction run item.2.1 exec

/-- No item behind the first one is the first that matches. -/
def FirstOrNone (word : List Byte) (items : List (CaseItem ε)) : Prop :=
  items.head?.any (CaseItem.matches word) = true ∨ ∀ item ∈ items, item.matches word = false

/-- Each item ends with `;;`. -/
def Closed (items : List (CaseItem ε)) : Prop := ∀ item ∈ items, item.2.2 = true

/-! ## The parser -/

section
variable {ts : List Token} {n : ℕ} {call : Symbol → Parse (Option (Ast ε))}

/-- Whatever a function returns has the property. -/
def Parse.Yields {α : Type} (x : Parse α) (P : α → Prop) : Prop := ∀ s r s', x s = some (r, s') → P r

theorem Parse.Yields.bind {α β : Type} {x : Parse α} {f : α → Parse β} {Q : α → Prop} {P : β → Prop}
    (hx : x.Yields Q) (hf : ∀ a, Q a → (f a).Yields P) : (x >>= f).Yields P := by
  intro s r s' h
  obtain ⟨a, s₁, ha, hr⟩ := Parse.bind_eq_some.mp h
  exact hf a (hx s a s₁ ha) s₁ r s' hr

theorem Parse.Yields.then {α β : Type} {x : Parse α} {f : α → Parse β} {P : β → Prop}
    (hf : ∀ a, (f a).Yields P) : (x >>= f).Yields P :=
  Parse.Yields.bind (Q := fun _ => True) (fun _ _ _ _ => trivial) fun a _ => hf a

theorem Parse.Yields.pure {α : Type} {a : α} {P : α → Prop} (h : P a) : Parse.Yields (Pure.pure a) P := by
  intro s r s' heq
  obtain ⟨rfl, -⟩ := Prod.mk.inj (Option.some.inj heq)
  exact h

theorem Parse.Yields.ite {α : Type} {x y : Parse α} {P : α → Prop} {b : Bool} (hx : x.Yields P) (hy : y.Yields P) :
    Parse.Yields (if b = true then x else y) P := by
  split_ifs
  · exact hx
  · exact hy

/-- The parser stores `has_dsemi` with every item. -/
theorem parseCaseItems_closed (m : ℕ) : (parseCaseItems ts n call m).Yields fun r => ∀ items, r = some items → Closed items := by
  have hnone : (Pure.pure none : Parse (Option (List (CaseItem ε)))).Yields fun r => ∀ items, r = some items → Closed items :=
    .pure fun items h => by cases h
  induction m with
  | zero =>
    intro s r s' h
    cases h
  | succ m ih =>
    refine .then fun token => ?_
    split_ifs
    · refine .pure fun items h => ?_
      obtain rfl := Option.some.inj h
      exact fun item hitem => absurd hitem List.not_mem_nil
    · refine .then fun opened => .ite (.then fun patterns => .then fun shut => .ite ?_ hnone) hnone
      refine .then fun action => .then fun token => .ite (.then fun _ => .bind ih fun r hr => ?_) hnone
      cases r with
      | none => exact hnone
      | some items =>
        refine .pure fun items' h => ?_
        obtain rfl := Option.some.inj h
        exact List.forall_mem_cons.mpr ⟨rfl, hr items rfl⟩

theorem closing_yields {keyword : String} {clause : Ast ε} {P : Ast ε → Prop} (h : P clause) :
    (closing ts keyword clause).Yields fun r => ∀ ast, r = some ast → P ast := by
  refine .then fun found => .ite (.pure fun ast heq => ?_) (.pure fun ast heq => ?_)
  · rwa [← Option.some.inj heq]
  · cases heq

theorem parseCaseClause_closed : (parseCaseClause ts n call).Yields fun r =>
    ∀ ast, r = some ast → ∀ word items, ast = .caseClause word items → Closed items := by
  have hnone : (Pure.pure none : Parse (Option (Ast ε))).Yields fun r =>
      ∀ ast, r = some ast → ∀ word items, ast = .caseClause word items → Closed items :=
    .pure fun ast h => by cases h
  refine .then fun found => .ite (.then fun token => ?_) hnone
  split
  · exact hnone
  · refine .then fun _ => .then fun inFound => .ite (.bind (parseCaseItems_closed n) fun r hr => ?_) hnone
    cases r with
    | none => exact hnone
    | some items =>
      refine closing_yields fun word items' h => ?_
      obtain ⟨-, rfl⟩ := Ast.caseClause.inj h
      exact hr items rfl

end

/-! ## The executor -/

variable {word : List Byte} {items : List (CaseItem ε)}

/-- The flag of the first item ends the search. -/
theorem caseAction_of_closed {item : CaseItem ε} (h : item.2.2 = true) :
    caseAction word (item :: items) = if item.matches word = true then some item.2.1 else none := by
  obtain ⟨patterns, action, hasDsemi⟩ := item
  have hflag : hasDsemi = true := h
  rw [caseAction, if_pos hflag]
  rfl

theorem runsFirstMatch_of_caseAction (h : caseAction word items = (firstMatch word items).map fun item => item.2.1) :
    RunsFirstMatch word items := by
  intro σ run exec
  rw [execCaseClause_apply, h]
  cases firstMatch word items with
  | none => rfl
  | some item =>
    obtain ⟨patterns, action, hasDsemi⟩ := item
    cases action <;> rfl

/-- An item is left out, and running it would have shown. -/
theorem not_runsFirstMatch {item : CaseItem ε} (hfirst : firstMatch word items = some item)
    (h : caseAction word items = none) : ¬RunsFirstMatch word items := by
  intro hruns
  have hrun := hruns Unit (fun _ _ => none) ⟨1, 0, 0, 0, ()⟩
  rw [execCaseClause_apply, h, hfirst] at hrun
  obtain ⟨patterns, action, hasDsemi⟩ := item
  cases action with
  | none =>
    have hstatus := congrArg (fun r => Prod.snd r |>.lastStatus) (Option.some.inj hrun)
    exact absurd hstatus one_ne_zero
  | some action => cases hrun

theorem runsFirstMatch_iff_of_closed (h : Closed items) : RunsFirstMatch word items ↔ FirstOrNone word items := by
  cases items with
  | nil =>
    constructor
    · intro _
      exact Or.inr fun item hitem => absurd hitem List.not_mem_nil
    · intro _
      exact runsFirstMatch_of_caseAction rfl
  | cons item items =>
    have haction : caseAction word (item :: items) = if item.matches word = true then some item.2.1 else none :=
      caseAction_of_closed (h item List.mem_cons_self)
    by_cases hmatch : item.matches word = true
    · have hfirst : firstMatch word (item :: items) = some item := List.find?_cons_of_pos hmatch
      constructor
      · intro _
        exact Or.inl hmatch
      · intro _
        apply runsFirstMatch_of_caseAction
        rw [haction, hfirst, if_pos hmatch]
        rfl
    · rw [if_neg hmatch] at haction
      constructor
      · intro hruns
        right
        by_contra hsome
        cases hfirst : firstMatch word (item :: items) with
        | none =>
          refine hsome fun item' hitem' => ?_
          simpa using List.find?_eq_none.mp hfirst item' hitem'
        | some item' => exact not_runsFirstMatch hfirst haction hruns
      · intro hcond
        have hnone : firstMatch word (item :: items) = none := by
          rw [firstMatch, List.find?_eq_none]
          intro item' hitem'
          rcases hcond with hhead | hall
          · exact absurd hhead hmatch
          · rw [hall item' hitem']
            decide
        apply runsFirstMatch_of_caseAction
        rw [haction, hnone]
        rfl

/-- A case clause that has been parsed runs the first item that matches exactly where that is its first item, or none
matches. -/
theorem runsFirstMatch_iff {ts : List Token} {n : ℕ} {call : Symbol → Parse (Option (Ast ε))} {s s' : ParserState}
    (word : List Byte) (items : List (CaseItem ε))
    (h : parseCaseClause ts n call s = some (some (.caseClause word items), s')) :
    RunsFirstMatch word items ↔ FirstOrNone word items :=
  runsFirstMatch_iff_of_closed (parseCaseClause_closed s _ s' h _ rfl word items rfl)

/-- `case b in (a) ;; (b) ;; esac` -/
def twoItems : List Token :=
  [⟨.keyword, lit "case"⟩, ⟨.word, lit "b"⟩, ⟨.keyword, lit "in"⟩, ⟨.operator, lit "("⟩, ⟨.word, lit "a"⟩,
    ⟨.operator, lit ")"⟩, ⟨.dsemi, lit ";;"⟩, ⟨.operator, lit "("⟩, ⟨.word, lit "b"⟩, ⟨.operator, lit ")"⟩,
    ⟨.dsemi, lit ";;"⟩, ⟨.keyword, lit "esac"⟩]

theorem parseCaseClause_twoItems : parseCaseClause (ε := Unit) twoItems 3 (fun _ => pure none) ⟨0, 1⟩ =
    some (some (.caseClause (lit "b") [([lit "a"], none, true), ([lit "b"], none, true)]), ⟨12, 1⟩) := rfl

theorem runsFirstMatch_iff_b :
    RunsFirstMatch (ε := Unit) (lit "b") [([lit "a"], none, true), ([lit "b"], none, true)] ↔
      FirstOrNone (ε := Unit) (lit "b") [([lit "a"], none, true), ([lit "b"], none, true)] :=
  runsFirstMatch_iff _ _ parseCaseClause_twoItems

/-- The second item is not run for `b`. -/
theorem second_item_not_run :
    parseCaseClause (ε := Unit) twoItems 3 (fun _ => pure none) ⟨0, 1⟩ =
      some (some (.caseClause (lit "b") [([lit "a"], none, true), ([lit "b"], none, true)]), ⟨12, 1⟩) ∧
    ¬RunsFirstMatch (ε := Unit) (lit "b") [([lit "a"], none, true), ([lit "b"], none, true)] := by
  have hclosed : Closed (ε := Unit) [([lit "a"], none, true), ([lit "b"], none, true)] :=
    List.forall_mem_cons.mpr ⟨rfl, List.forall_mem_singleton.mpr rfl⟩
  refine ⟨parseCaseClause_twoItems, fun hruns => ?_⟩
  rcases (runsFirstMatch_iff_of_closed hclosed).mp hruns with hhead | hnone
  · revert hhead
    decide
  · have hmatch := hnone ([lit "b"], none, true) (List.mem_cons_of_mem _ List.mem_cons_self)
    revert hmatch
    decide

end ValidcTools.Sh23
