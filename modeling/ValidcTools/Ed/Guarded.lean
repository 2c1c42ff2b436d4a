import ValidcTools.Ed.Runs

/-! Executions all of whose calls meet a condition, and what holds of them whether they return or not. -/
namespace ValidcTools.Ed
open Outcome

variable (cond : Call → State → Prop)

section

variable [DecidableRel cond]

/-- `execute_command` up to the first call, its own or an inner one, that does not meet the condition. -/
def executeWhile : ℕ → CString → World → Outcome
  | 0, _, _ => outOfFuel
  | fuel + 1, cmd, w =>
    if cond (w.ed.decode cmd) w.toState then
      (w.record (.call (w.ed.decode cmd) w.toState)).perform (executeWhile fuel) fuel (w.ed.decode cmd)
    else outOfFuel

/-- No call of an execution fails the condition: to stop where one does makes no difference. -/
def Meets (fuel : ℕ) (cmd : CString) (w : World) : Prop :=
  executeWhile cond fuel cmd w = executeCommand fuel cmd w

/-- What command lines lead to from a new editor, each executed on an input and files of its own, as long
as all calls meet the condition. -/
inductive Run : Outcome → Prop
  | init (input : Input) (files : Files) : Run (running { input, files })
  | step {w : World} (fuel : ℕ) (cmd : CString) (input : Input) (files : Files) : Run (running w) →
      Meets cond fuel cmd { w with input, files } → Run (executeCommand fuel cmd { w with input, files })

end

/-! ## Outcomes -/

/-- No line outside the buffer has been accessed, and the world that is left is as it should be. -/
structure Outcome.Safe (I : World → Prop) (o : Outcome) : Prop where
  inside : o ≠ fault .lineIndex
  running : ∀ w, o = running w → I w
  exited : ∀ n w, o = exited n w → I w

namespace Outcome

variable {I : World → Prop}

theorem safe_running {w : World} (h : I w) : (running w).Safe I :=
  ⟨Outcome.noConfusion, fun _ hw => Outcome.running.inj hw ▸ h, fun _ _ hw => Outcome.noConfusion hw⟩

theorem safe_exited {n : ℕ} {w : World} (h : I w) : (exited n w).Safe I :=
  ⟨Outcome.noConfusion, fun _ hw => Outcome.noConfusion hw, fun _ _ hw => (Outcome.exited.inj hw).2 ▸ h⟩

theorem safe_critical (w : World) : (critical w).Safe I :=
  ⟨Outcome.noConfusion, fun _ hw => Outcome.noConfusion hw, fun _ _ hw => Outcome.noConfusion hw⟩

theorem safe_outOfFuel : outOfFuel.Safe I :=
  ⟨Outcome.noConfusion, fun _ hw => Outcome.noConfusion hw, fun _ _ hw => Outcome.noConfusion hw⟩

theorem safe_fault {f : Fault} (h : f ≠ .lineIndex) : (fault f).Safe I :=
  ⟨fun hf => h (Outcome.fault.inj hf), fun _ hw => Outcome.noConfusion hw,
    fun _ _ hw => Outcome.noConfusion hw⟩

theorem Safe.bind {o : Outcome} {f : World → Outcome} (h : o.Safe I)
    (hf : ∀ w, o = Outcome.running w → I w → (f w).Safe I) : (o.bind f).Safe I := by
  cases o with
  | running w => exact hf w rfl (h.running w rfl)
  | exited n w => exact safe_exited (h.exited n w rfl)
  | critical w => exact safe_critical w
  | fault f => exact safe_fault fun hf => h.inside (congrArg fault hf)
  | outOfFuel => exact safe_outOfFuel

theorem safe_runAll {ι : Type} {f : ι → World → Outcome} (hf : ∀ x w, I w → (f x w).Safe I) (xs : List ι)
    {w : World} (h : I w) : (runAll f xs w).Safe I := by
  induction xs generalizing w with
  | nil => exact safe_running h
  | cons x xs ih => exact (hf x w h).bind fun w1 _ h1 => ih h1

end Outcome

/-! ## The rule -/

theorem breOk_error {text pat : CString} {f : Fault} (h : breOk text pat = .error f) : f = .matcher := by
  unfold breOk at h
  split at h
  · cases h
  · cases h
  · cases h
  · exact (Except.error.inj h).symm

/-- The matcher is all that can go wrong where lines are selected. -/
theorem collect_error {isG : Bool} {pat : CString} {lines : List Line} {i : ℕ} {f : Fault}
    (h : collect isG pat lines i = .error f) : f = .matcher := by
  induction lines generalizing i with
  | nil => cases h
  | cons line lines ih =>
    unfold collect at h
    cases hmatch : breOk line.text pat with
    | error f' =>
      rw [hmatch] at h
      obtain rfl := Except.error.inj h
      exact breOk_error hmatch
    | ok matched =>
      rw [hmatch] at h
      cases hrest : collect isG pat lines (i + 1) with
      | error f' =>
        rw [hrest] at h
        obtain rfl := Except.error.inj h
        exact ih hrest
      | ok idxs =>
        rw [hrest] at h
        cases h

/-- What has to be shown of an invariant, for it to hold where every call meets the condition. -/
structure Guards (I : World → Prop) : Prop where
  /-- A command line that is no global command. -/
  call : ∀ {exec : CString → World → Outcome} {fuel : ℕ} {cmd : CString} {w : World},
    (w.ed.decode cmd).isGlobal = false → cond (w.ed.decode cmd) w.toState → I w →
      ((w.record (.call (w.ed.decode cmd) w.toState)).perform exec fuel (w.ed.decode cmd)).Safe I
  record : ∀ {w : World} (c : Call), I w → I (w.record (.call c w.toState))
  readList : ∀ {w : World}, I w → I w.readList.2
  target : ∀ {w : World} (t : ℕ), w.ed.lines ≠ [] → I w → I (w.setCurrent (w.clampTarget t))
  input : ∀ {w : World} (input : Input), I w → I { w with input }

namespace Guards

variable {cond} {I : World → Prop} (hI : Guards cond I)
include hI

section

variable {exec : CString → World → Outcome} (hexec : ∀ cmd w, I w → (exec cmd w).Safe I)
include hexec

theorem safe_runLines (n : ℕ) (list : List CString) {w : World} (h : I w) :
    (w.runLines exec n list).Safe I := by
  induction n generalizing list w with
  | zero =>
    cases list with
    | nil => exact safe_running h
    | cons cmdline list => exact safe_outOfFuel
  | succ n ih =>
    cases list with
    | nil => exact safe_running h
    | cons cmdline list =>
      unfold World.runLines
      split_ifs
      · exact ih list h
      · exact (hexec cmdline _ (hI.input _ h)).bind fun w1 _ h1 => ih _ (hI.input _ h1)
      · exact (hexec cmdline w h).bind fun w1 _ h1 => ih list h1

theorem safe_runList (list : List CString) (t : ℕ) {w : World} (h : I w) :
    (w.runList exec list t).Safe I := by
  unfold World.runList
  split_ifs with hlines
  · exact safe_running h
  · exact hI.safe_runLines hexec _ _ (hI.target t hlines h)

theorem safe_turn (inner : CString) (t : ℕ) {w : World} (h : I w) : (w.turn exec inner t).Safe I := by
  unfold World.turn
  split_ifs with hglobal hlines
  · exact hexec inner w h
  · exact hexec inner _ (hI.target t hlines h)
  · exact hexec _ w h

theorem safe_global (isG : Bool) (range : AddressRange) (pat inner : CString) {w : World} (h : I w) :
    (w.global exec isG range pat inner).Safe I := by
  unfold World.global
  split_ifs
  · exact safe_critical w
  · split
    · rename_i f hcollect
      exact safe_fault (by rw [collect_error hcollect]; exact Fault.noConfusion)
    · exact safe_runAll (fun t _ => hI.safe_runList hexec _ t) _ (hI.readList h)
  · split
    · rename_i f hcollect
      exact safe_fault (by rw [collect_error hcollect]; exact Fault.noConfusion)
    · exact safe_runAll (fun t _ => hI.safe_turn hexec inner t) _ h

end

variable [DecidableRel cond]

/-- Where every call meets the condition an execution is safe, by induction on the depth of its global
commands. -/
theorem safe_executeWhile (fuel : ℕ) (cmd : CString) {w : World} (h : I w) :
    (executeWhile cond fuel cmd w).Safe I := by
  induction fuel generalizing cmd w with
  | zero => exact safe_outOfFuel
  | succ fuel ih =>
    unfold executeWhile
    split_ifs with hcond
    · cases hglobal : (w.ed.decode cmd).isGlobal with
      | false => exact hI.call hglobal hcond h
      | true =>
        have hrecord := hI.record (w.ed.decode cmd) h
        generalize w.record (.call (w.ed.decode cmd) w.toState) = w' at hrecord ⊢
        cases hcall : w.ed.decode cmd with
        | global isG range pat inner =>
          exact hI.safe_global (fun cmd _ => ih cmd) isG range pat inner hrecord
        | _ =>
          rw [hcall] at hglobal
          cases hglobal
    · exact safe_outOfFuel

/-- What a run whose calls all meet the condition leads to is safe. -/
theorem safe_run (hinit : ∀ (input : Input) (files : Files), I { input, files })
    (hfiles : ∀ {w : World} (files : Files), I w → I { w with files }) {o : Outcome} (h : Run cond o) :
    o.Safe I := by
  induction h with
  | init input files => exact safe_running (hinit input files)
  | step fuel cmd input files hrun hmeets ih =>
    have hw := hI.input input (hfiles files (ih.running _ rfl))
    have hsafe := hI.safe_executeWhile fuel cmd hw
    exact hmeets ▸ hsafe

end Guards

end ValidcTools.Ed
