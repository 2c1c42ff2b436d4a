import ValidcTools.Sh23.Ast

/-! The positional parameters in a call of a function. The caller's are remembered by the block in which they stand. -/
namespace ValidcTools.Sh23

/-- A string that is not changed while an array points to it -/
abbrev Text := List Byte

/-! ## The array -/

def INITIAL_CAPACITY : ℕ := 16

def GROW_FACTOR : ℕ := 2

/-- `while (new_capacity < needed) new_capacity *= GROW_FACTOR`, for so many turns at most -/
def enlarge (needed : ℕ) : ℕ → ℕ → ℕ
  | 0, capacity => capacity
  | turns + 1, capacity => if capacity < needed then enlarge needed turns (GROW_FACTOR * capacity) else capacity

/-- The capacity after `ptr_array_ensure_capacity` -/
def grow (capacity needed : ℕ) : ℕ :=
  if needed ≤ capacity then capacity
  else enlarge needed needed (if capacity = 0 then INITIAL_CAPACITY else capacity)

theorem le_enlarge {needed turns capacity : ℕ} (hpos : 0 < capacity) (h : needed ≤ capacity + turns) :
    needed ≤ enlarge needed turns capacity := by
  induction turns generalizing capacity with
  | zero => exact h
  | succ turns ih =>
    rw [enlarge]
    split_ifs with hlt
    · unfold GROW_FACTOR
      exact ih (by omega) (by omega)
    · exact Nat.not_lt.mp hlt

theorem grow_of_le {capacity needed : ℕ} (h : needed ≤ capacity) : grow capacity needed = capacity := if_pos h

theorem le_grow (capacity needed : ℕ) : needed ≤ grow capacity needed := by
  unfold grow
  split_ifs with hle hzero
  · exact hle
  · exact le_enlarge (by decide) (Nat.le_add_left needed _)
  · exact le_enlarge (Nat.pos_of_ne_zero hzero) (Nat.le_add_left needed _)

/-- `PtrArray`, with its block: its number, which `realloc` changes, and what stands in its slots. -/
structure PtrArray where
  block : ℕ
  elements : ℕ → Text
  size : ℕ
  capacity : ℕ
  fits : size ≤ capacity

namespace PtrArray

/-- `ptr_array_append` -/
def append (a : PtrArray) (element : Text) : PtrArray where
  block := if a.size + 1 ≤ a.capacity then a.block else a.block + 1
  elements := Function.update a.elements a.size element
  size := a.size + 1
  capacity := grow a.capacity (a.size + 1)
  fits := le_grow _ _

/-- `ptr_array_clear`, where there is no `free_func` -/
def clear (a : PtrArray) : PtrArray := { a with size := 0, fits := Nat.zero_le _ }

def appendAll (a : PtrArray) (l : List Text) : PtrArray := l.foldl append a

/-- The positional parameters -/
def params (a : PtrArray) : List Text := (List.range a.size).map a.elements

end PtrArray

/-! ## Calls -/

/-- The caller's parameters are appended again, each read from the block that was the array's: `none` if that is freed. -/
def restore (oldParams oldLen : ℕ) (a : PtrArray) : Option PtrArray :=
  (List.range oldLen).foldlM (fun a i => if a.block = oldParams then some (a.append (a.elements i)) else none) a.clear

/-- The call branch of `exec_simple_command` -/
def callFunction (args : List Text) (body : PtrArray → Option PtrArray) (a : PtrArray) : Option PtrArray :=
  (body (a.clear.appendAll args)).bind (restore a.block a.size)

/-- What a body does to the positional parameters until it returns -/
inductive Action
  | call (args : List Text) (body : List Action)
  /-- `set` with operands -/
  | set (first : Text) (rest : List Text)

mutual

def Action.run : Action → PtrArray → Option PtrArray
  | .call args body, a => callFunction args (fun a => runAll body a) a
  | .set first rest, a => some (a.clear.appendAll (first :: rest))

def runAll : List Action → PtrArray → Option PtrArray
  | [], a => some a
  | action :: actions, a => (action.run a).bind fun a => runAll actions a

end

/-- The call is over, and the parameters are the caller's. -/
def RestoresParams (a : PtrArray) (args : List Text) (body : List Action) : Prop :=
  ∃ a', (Action.call args body).run a = some a' ∧ a'.params = a.params

/-! ## What is written to the array -/

mutual

/-- The parameters that are set, one list after the other -/
def Action.writes : Action → List (List Text)
  | .call args body => args :: writesAll body
  | .set first rest => [first :: rest]

def writesAll : List Action → List (List Text)
  | [] => []
  | action :: actions => action.writes ++ writesAll actions

end

def Action.sizeAfter (n : ℕ) : Action → ℕ
  | .call _ _ => n
  | .set _ rest => rest.length + 1

/-- The capacity after so many parameters have been set -/
def growFor (capacity : ℕ) : ℕ → ℕ
  | 0 => capacity
  | n + 1 => grow (growFor capacity n) (n + 1)

/-- No list of parameters is longer. -/
def Within (capacity : ℕ) (writes : List (List Text)) : Prop := ∀ l ∈ writes, l.length ≤ capacity

mutual

/-- Where a call has parameters to restore, their block has room for all the parameters that are set in the call. -/
def Action.Sound (capacity n : ℕ) : Action → Prop
  | .call args body =>
    (n = 0 ∨ Within capacity (args :: writesAll body)) ∧ SoundAll (growFor capacity args.length) args.length body
  | .set _ _ => True

def SoundAll (capacity n : ℕ) : List Action → Prop
  | [] => True
  | action :: actions =>
    action.Sound capacity n ∧
      SoundAll (action.writes.foldl (fun capacity l => growFor capacity l.length) capacity) (action.sizeAfter n) actions

end

/-- The elements with the first of them written over -/
def overwrite (elements : ℕ → Text) (l : List Text) : ℕ → Text := fun i => l[i]?.getD (elements i)

/-! ## One list of parameters -/

theorem growFor_of_le {capacity n : ℕ} (h : n ≤ capacity) : growFor capacity n = capacity := by
  induction n with
  | zero => rfl
  | succ n ih => rw [growFor, ih (by omega), grow_of_le h]

/-- What has been done to an array, by the lists that have been written -/
structure Effect (a : PtrArray) (writes : List (List Text)) (a' : PtrArray) : Prop where
  elements : a'.elements = writes.foldl overwrite a.elements
  capacity : a'.capacity = writes.foldl (fun capacity l => growFor capacity l.length) a.capacity
  block_le : a.block ≤ a'.block
  block_eq_iff : a'.block = a.block ↔ Within a.capacity writes

theorem foldl_growFor_of_within {capacity : ℕ} {writes : List (List Text)} (h : Within capacity writes) :
    writes.foldl (fun capacity l => growFor capacity l.length) capacity = capacity := by
  induction writes with
  | nil => rfl
  | cons l writes ih =>
    obtain ⟨hl, hrest⟩ := List.forall_mem_cons.mp h
    rw [List.foldl_cons, growFor_of_le hl]
    exact ih hrest

theorem within_append {capacity : ℕ} {writes writes' : List (List Text)} :
    Within capacity (writes ++ writes') ↔ Within capacity writes ∧ Within capacity writes' := List.forall_mem_append

variable {a a' a'' : PtrArray}

theorem Effect.refl (a : PtrArray) : Effect a [] a :=
  ⟨rfl, rfl, le_rfl, iff_of_true rfl (List.forall_mem_nil _)⟩

theorem Effect.trans {writes writes' : List (List Text)} (h : Effect a writes a') (h' : Effect a' writes' a'') :
    Effect a (writes ++ writes') a'' := by
  refine ⟨?_, ?_, h.block_le.trans h'.block_le, ?_⟩
  · rw [h'.elements, h.elements, List.foldl_append]
  · rw [h'.capacity, h.capacity, List.foldl_append]
  · rw [within_append]
    by_cases hwithin : Within a.capacity writes
    · have hblock := h.block_eq_iff.mpr hwithin
      have hcapacity := h.capacity.trans (foldl_growFor_of_within hwithin)
      rw [and_iff_right hwithin, ← hblock, h'.block_eq_iff, hcapacity]
    · have hne : a'.block ≠ a.block := fun heq => hwithin (h.block_eq_iff.mp heq)
      have hle := h.block_le
      have hle' := h'.block_le
      exact iff_of_false (by omega) fun hboth => hwithin hboth.1

/-- A list of parameters in an empty array -/
theorem effect_appendAll (a : PtrArray) (l : List Text) :
    (a.clear.appendAll l).size = l.length ∧ Effect a [l] (a.clear.appendAll l) := by
  induction l using List.reverseRecOn with
  | nil =>
    refine ⟨rfl, funext fun i => rfl, rfl, le_rfl, iff_of_true rfl ?_⟩
    exact List.forall_mem_singleton.mpr (Nat.zero_le _)
  | append_singleton l x ih =>
    obtain ⟨hsize, heffect⟩ := ih
    have happend : a.clear.appendAll (l ++ [x]) = (a.clear.appendAll l).append x := List.foldl_concat ..
    have hlen : (l ++ [x]).length = l.length + 1 := by rw [List.length_append, List.length_singleton]
    have hcapacity : (a.clear.appendAll l).capacity = growFor a.capacity l.length := heffect.capacity
    rw [happend]
    refine ⟨by rw [hlen, ← hsize]; rfl, ?_, ?_, ?_, ?_⟩
    · funext i
      have helements : (a.clear.appendAll l).elements i = l[i]?.getD (a.elements i) := congrFun heffect.elements i
      change Function.update (a.clear.appendAll l).elements (a.clear.appendAll l).size x i = (l ++ [x])[i]?.getD (a.elements i)
      rw [hsize]
      by_cases hi : i = l.length
      · subst hi
        simp
      · rw [Function.update_of_ne hi, helements]
        rcases Nat.lt_or_gt_of_ne hi with hlt | hgt
        · rw [List.getElem?_append_left hlt]
        · rw [List.getElem?_eq_none (by omega), List.getElem?_eq_none (by omega)]
    · change grow (a.clear.appendAll l).capacity ((a.clear.appendAll l).size + 1) = growFor a.capacity (l ++ [x]).length
      rw [hlen, hcapacity, hsize]
      rfl
    · refine heffect.block_le.trans ?_
      unfold PtrArray.append
      dsimp only
      split_ifs <;> omega
    · have hone : Within a.capacity [l ++ [x]] ↔ l.length + 1 ≤ a.capacity := by
        rw [← hlen]
        exact List.forall_mem_singleton
      have hle := heffect.block_le
      have hiff : (a.clear.appendAll l).block = a.block ↔ l.length ≤ a.capacity :=
        heffect.block_eq_iff.trans List.forall_mem_singleton
      rw [hone]
      unfold PtrArray.append
      dsimp only
      rw [hsize, hcapacity]
      by_cases hfit : l.length ≤ a.capacity
      · rw [growFor_of_le hfit, hiff.mpr hfit]
        split_ifs with hroom
        · exact iff_of_true rfl hroom
        · exact iff_of_false (by omega) hroom
      · have hne : (a.clear.appendAll l).block ≠ a.block := fun heq => hfit (hiff.mp heq)
        split_ifs <;> exact iff_of_false (by omega) (by omega)

/-! ## What is appended again -/

/-- From its own block, the array is filled with what stands there. -/
theorem restore_same (n : ℕ) (h : n ≤ a.capacity) :
    ∃ a', restore a.block n a = some a' ∧ a'.size = n ∧ a'.elements = a.elements ∧ a'.capacity = a.capacity ∧
      a'.block = a.block := by
  unfold restore
  induction n with
  | zero => exact ⟨a.clear, rfl, rfl, rfl, rfl, rfl⟩
  | succ n ih =>
    obtain ⟨a', hrun, hsize, helements, hcapacity, hblock⟩ := ih (by omega)
    refine ⟨a'.append (a'.elements n), ?_, ?_, ?_, ?_, ?_⟩
    · rw [List.range_succ, List.foldlM_append, hrun, Option.bind_eq_bind, Option.bind_some, List.foldlM_cons,
        if_pos hblock]
      rfl
    · exact congrArg Nat.succ hsize
    · change Function.update a'.elements a'.size (a'.elements n) = a.elements
      rw [hsize, Function.update_eq_self, helements]
    · change grow a'.capacity (a'.size + 1) = a.capacity
      rw [hcapacity, hsize, grow_of_le h]
    · change (if a'.size + 1 ≤ a'.capacity then a'.block else a'.block + 1) = a.block
      rw [hcapacity, hsize, if_pos h, hblock]

/-- A block that has been freed is read. -/
theorem restore_freed {oldParams n : ℕ} (hblock : a.block ≠ oldParams) (hn : n ≠ 0) : restore oldParams n a = none := by
  obtain ⟨n, rfl⟩ := Nat.exists_eq_add_one_of_ne_zero hn
  unfold restore
  have hclear : a.clear.block ≠ oldParams := hblock
  rw [List.range_succ_eq_map, List.foldlM_cons, if_neg hclear]
  rfl

/-! ## Runs -/

/-- What an action comes to: it ends with its effect, or it reads a block that has been freed. -/
def Spec (run : PtrArray → Option PtrArray) (writes : List (List Text)) (sound : ℕ → ℕ → Prop) (sizeAfter : ℕ → ℕ) : Prop :=
  ∀ a, (sound a.capacity a.size → ∃ a', run a = some a' ∧ a'.size = sizeAfter a.size ∧ Effect a writes a') ∧
    (¬sound a.capacity a.size → run a = none)

theorem callFunction_spec (args : List Text) {body : PtrArray → Option PtrArray} {writes : List (List Text)}
    {sound : ℕ → ℕ → Prop} {sizeAfter : ℕ → ℕ} (hbody : Spec body writes sound sizeAfter) :
    Spec (callFunction args body) (args :: writes)
      (fun capacity n => (n = 0 ∨ Within capacity (args :: writes)) ∧ sound (growFor capacity args.length) args.length) id := by
  intro a
  obtain ⟨hsize, heffect⟩ := effect_appendAll a args
  obtain ⟨hends, hfreed⟩ := hbody (a.clear.appendAll args)
  have hcapacity : (a.clear.appendAll args).capacity = growFor a.capacity args.length := heffect.capacity
  rw [hsize, hcapacity] at hends hfreed
  unfold callFunction
  constructor
  · rintro ⟨hroom, hsound⟩
    obtain ⟨a₁, hrun, -, heffect₁⟩ := hends hsound
    have hall : Effect a (args :: writes) a₁ := heffect.trans heffect₁
    rw [hrun, Option.bind_some]
    rcases Nat.eq_zero_or_pos a.size with hzero | hpos
    · rw [hzero]
      exact ⟨a₁.clear, rfl, rfl, hall.elements, hall.capacity, hall.block_le, hall.block_eq_iff⟩
    · have hwithin := hroom.resolve_left (Nat.ne_of_gt hpos)
      have hblock := hall.block_eq_iff.mpr hwithin
      have hsame := hall.capacity.trans (foldl_growFor_of_within hwithin)
      obtain ⟨a₂, hrestore, hsize₂, helements₂, hcapacity₂, hblock₂⟩ := restore_same (a := a₁) a.size (hsame ▸ a.fits)
      rw [← hblock, hrestore]
      refine ⟨a₂, rfl, hsize₂, helements₂.trans hall.elements, hcapacity₂.trans hall.capacity, ?_, ?_⟩
      · rw [hblock₂]
        exact hall.block_le
      · rw [hblock₂]
        exact hall.block_eq_iff
  · intro hno
    by_cases hsound : sound (growFor a.capacity args.length) args.length
    · obtain ⟨a₁, hrun, -, heffect₁⟩ := hends hsound
      have hall : Effect a (args :: writes) a₁ := heffect.trans heffect₁
      have hroom : ¬(a.size = 0 ∨ Within a.capacity (args :: writes)) := fun hroom => hno ⟨hroom, hsound⟩
      rw [not_or] at hroom
      rw [hrun, Option.bind_some]
      exact restore_freed (fun heq => hroom.2 (hall.block_eq_iff.mp heq)) hroom.1
    · rw [hfreed hsound]
      rfl

theorem Spec.nil : Spec (runAll []) (writesAll []) (fun capacity n => SoundAll capacity n []) id := by
  intro a
  refine ⟨fun _ => ⟨a, ?_, rfl, ?_⟩, fun hno => ?_⟩
  · rw [runAll]
  · rw [writesAll]
    exact .refl a
  · beta_reduce at hno
    rw [SoundAll] at hno
    exact absurd trivial hno

theorem Spec.cons {action : Action} {actions : List Action} {sizeAfter : ℕ → ℕ}
    (h : Spec action.run action.writes (fun capacity n => action.Sound capacity n) fun n => action.sizeAfter n)
    (h' : Spec (runAll actions) (writesAll actions) (fun capacity n => SoundAll capacity n actions) sizeAfter) :
    Spec (runAll (action :: actions)) (writesAll (action :: actions))
      (fun capacity n => SoundAll capacity n (action :: actions)) fun n => sizeAfter (action.sizeAfter n) := by
  intro a
  obtain ⟨hends, hfreed⟩ := h a
  beta_reduce at hends hfreed ⊢
  rw [runAll, writesAll, SoundAll]
  constructor
  · rintro ⟨hsound, hrest⟩
    obtain ⟨a₁, hrun, hsize, heffect⟩ := hends hsound
    rw [← hsize, ← heffect.capacity] at hrest
    obtain ⟨a₂, hrun₂, hsize₂, heffect₂⟩ := (h' a₁).1 hrest
    rw [hrun, Option.bind_some]
    exact ⟨a₂, hrun₂, hsize₂.trans (congrArg sizeAfter hsize), heffect.trans heffect₂⟩
  · intro hno
    by_cases hsound : action.Sound a.capacity a.size
    · obtain ⟨a₁, hrun, hsize, heffect⟩ := hends hsound
      rw [hrun, Option.bind_some]
      apply (h' a₁).2
      rw [hsize, heffect.capacity]
      exact fun hrest => hno ⟨hsound, hrest⟩
    · rw [hfreed hsound]
      rfl

theorem Spec.set (first : Text) (rest : List Text) :
    Spec (Action.set first rest).run (Action.set first rest).writes (fun capacity n => (Action.set first rest).Sound capacity n)
      fun n => (Action.set first rest).sizeAfter n := by
  intro a
  obtain ⟨hsize, heffect⟩ := effect_appendAll a (first :: rest)
  beta_reduce
  rw [Action.run, Action.writes, Action.Sound]
  exact ⟨fun _ => ⟨_, rfl, hsize, heffect⟩, fun hno => absurd trivial hno⟩

mutual

theorem Action.run_spec : (action : Action) →
    Spec action.run action.writes (fun capacity n => action.Sound capacity n) fun n => action.sizeAfter n
  | .call args body => by
    obtain ⟨sizeAfter, h⟩ := runAll_spec body
    intro a
    have hcall := callFunction_spec args h a
    beta_reduce
    rw [Action.run, Action.writes, Action.Sound]
    exact hcall
  | .set first rest => .set first rest

theorem runAll_spec : (actions : List Action) → ∃ sizeAfter,
    Spec (runAll actions) (writesAll actions) (fun capacity n => SoundAll capacity n actions) sizeAfter
  | [] => ⟨id, .nil⟩
  | action :: actions => by
    obtain ⟨sizeAfter, h⟩ := runAll_spec actions
    exact ⟨_, .cons action.run_spec h⟩

end

/-! ## The caller's parameters -/

/-- The parameter that is written to a slot last -/
def lastWritten (writes : List (List Text)) (i : ℕ) : Option Text := (writes.filterMap fun l => l[i]?).getLast?

theorem foldl_overwrite (elements : ℕ → Text) (writes : List (List Text)) (i : ℕ) :
    writes.foldl overwrite elements i = (lastWritten writes i).getD (elements i) := by
  induction writes using List.reverseRecOn with
  | nil => rfl
  | append_singleton writes l ih =>
    unfold lastWritten at *
    rw [List.foldl_concat, List.filterMap_append]
    unfold overwrite at ih ⊢
    cases hl : l[i]? with
    | none => simpa [hl] using ih
    | some x => simp [hl]

/-- No parameter that is waiting is written over by another text, and its block is not given up. -/
def LeavesParams (a : PtrArray) (args : List Text) (body : List Action) : Prop :=
  (Action.call args body).Sound a.capacity a.size ∧
    ∀ i < a.size, ∀ x ∈ lastWritten (args :: writesAll body) i, x = a.elements i

end ValidcTools.Sh23
