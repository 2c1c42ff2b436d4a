import ValidcTools.Bre.Flat
import ValidcTools.Bre.Rules

/-! The captures of a match in the order of the pattern. While there is room for every group, an
attempt that fails leaves no capture behind, so that the captures are those of the match itself. -/
namespace ValidcTools.Bre

variable {σ τ β : Type}

/-- Keep every capture; the groups of a pattern come out in their order in it. -/
def listRecorder : Recorder (List Span) := ⟨fun _ => true, fun l g => g :: l⟩

/-- A guard that at most stops what it is given. -/
def Guard.Mild (guard : Guard) : Prop :=
  ∀ ti tpos, guard ti tpos .noMatch = .noMatch ∧ (∀ s, ∃ s', guard ti tpos (.stop s) = .stop s') ∧
    ∀ n, guard ti tpos (.ok n) = .ok n ∨ ∃ s, guard ti tpos (.ok n) = .stop s

theorem noGuard_mild : noGuard.Mild := fun _ _ => ⟨rfl, fun s => ⟨s, rfl⟩, fun _ => Or.inl rfl⟩

theorem Paired.guard {S₀ S₁ : σ → τ → Prop} {x : Res ℤ × σ} {y : Res ℤ × τ} {guard : Guard}
    (hg : guard.Mild) (ti tpos : ℤ) (h : Paired S₀ S₁ x y) :
    Paired S₀ S₁ (x.map (guard ti tpos) id) (y.map (guard ti tpos) id) := by
  obtain ⟨hno, hstop, hok⟩ := hg ti tpos
  cases h with
  | @ok b m l h =>
    rcases hok b with he | ⟨s, he⟩
    · simpa [he] using Paired.ok b h
    · simpa [he] using Paired.stop s m l
  | noMatch h => simpa [hno] using Paired.noMatch h
  | stop s m l =>
    obtain ⟨s', he⟩ := hstop s
    simpa [he] using Paired.stop s' m l

/-- A run without groups does not depend on what becomes of captures. -/
theorem Prog.run_paired_of_groups_eq_zero {S : σ → τ → Prop} {guard guard' : Guard} {R : Recorder σ}
    {R' : Recorder τ} {text : CString} {P : Prog} (hP : P.groups = 0) (t : ℤ) {m : σ} {l : τ}
    (h : S m l) : Paired S S (P.run guard R text t m) (P.run guard' R' text t l) := by
  induction P generalizing t m l with
  | done => exact .ok 0 h
  | atEnd =>
    unfold Prog.run
    cases text.read? t with
    | none => exact .stop _ m l
    | some b =>
      by_cases hb : b = 0
      · simpa [hb] using Paired.ok 0 h
      · simpa [hb] using Paired.noMatch h
  | bad => exact .stop _ m l
  | one a min max rest ih =>
    have honce (t : ℤ) (m : σ) (l : τ) (h : S m l) :
        Paired S S (a.once text t, m) (a.once text t, l) := by
      cases a.once text t with
      | ok n => exact .ok n h
      | noMatch => exact .noMatch h
      | stop s => exact .stop s m l
    exact (matchRepeated_paired S S honce (fun t m l h => ih hP t h) min max t h).ifOk
      fun x m l h => .ok _ h
  | group inner rest => cases hP
  | dotStar rest => cases hP
  | groupRep inner min max rest => cases hP

/-- Keep no captures. -/
def noRecorder : Recorder Unit := ⟨fun _ => true, fun _ _ => ()⟩

/-- What a run gives, whatever becomes of captures. -/
def Prog.plain (text : CString) (P : Prog) (t : ℤ) : Res ℤ := (P.run noGuard noRecorder text t ()).1

theorem Prog.run_plain {guard : Guard} {R : Recorder σ} {text : CString} {P : Prog}
    (hP : P.groups = 0) (t : ℤ) (m : σ) :
    Paired (fun m' _ => m' = m) (fun m' _ => m' = m) (P.run guard R text t m) (P.plain text t, ()) :=
  run_paired_of_groups_eq_zero hP t rfl

/-- Record the captures of a run one by one, the last group first. -/
def Recorder.recordAll (R : Recorder σ) (m : σ) (l : List Span) : σ := l.foldr (fun g m => R.record m g) m

/-- Nothing has been captured. -/
def Untouched (m m' : σ) (l : List Span) : Prop := m' = m ∧ l = []

/-- Every group of `P` has been captured. -/
def Recorder.Recorded (R : Recorder σ) (P : Prog) (m m' : σ) (l : List Span) : Prop :=
  l.length = P.groups ∧ m' = R.recordAll m l

/-- While a recorder has room, it records what a match has captured, and nothing else. -/
theorem Prog.run_paired {guard : Guard} (hg : guard.Mild) {R : Recorder σ} (text : CString) {P : Prog}
    (hP : P.Flat) {m : σ} (hroom : ∀ l : List Span, l.length < P.groups → R.room (R.recordAll m l))
    (t : ℤ) :
    Paired (Untouched m) (R.Recorded P m) (P.run guard R text t m)
      (P.run guard listRecorder text t []) := by
  induction P generalizing t with
  | done => exact .ok 0 ⟨rfl, rfl⟩
  | atEnd =>
    unfold Prog.run
    cases text.read? t with
    | none => exact .stop _ m _
    | some b =>
      by_cases hb : b = 0
      · simpa [hb, groups] using Paired.ok 0 ⟨rfl, rfl⟩
      · simpa [hb] using Paired.noMatch ⟨rfl, rfl⟩
  | bad => exact .stop _ m _
  | one a min max rest ih =>
    refine (matchRepeated_paired (Untouched m) (R.Recorded rest m) (fun t m' l h => ?_)
      (fun t m' l h => ?_) min max t ⟨rfl, rfl⟩).ifOk fun x m' l h => .ok _ h
    · cases a.once text t with
      | ok n => exact .ok n h
      | noMatch => exact .noMatch h
      | stop s => exact .stop s m' l
    · obtain ⟨rfl, rfl⟩ := h
      exact ih hP hroom t
  | group inner rest ihi ih =>
    refine (scanForward_paired (Untouched m) (R.Recorded rest m) (Untouched m)
      (fun t m' l h => run_paired_of_groups_eq_zero hP.1 t h) (fun t m' l h => ?_) _ t
      ⟨rfl, rfl⟩).ifOk fun x m' l h => .ok _ ?_
    · obtain ⟨rfl, rfl⟩ := h
      exact ih hP.2 (fun l hl => hroom l (hl.trans (Nat.lt_succ_self _))) t
    · obtain ⟨hlen, rfl⟩ := h
      exact ⟨congrArg (· + 1) hlen, rfl⟩
  | dotStar rest ih =>
    unfold Prog.run
    cases scanEnd text t with
    | none => exact .stop _ m _
    | some tcur =>
      refine (scanBack_paired (Untouched m) (R.Recorded rest m) (fun t m' l h => ?_)
        (fun m' l h => ?_) t _ ⟨rfl, rfl⟩).ifOk fun x m' l h => .ok _ ?_
      · obtain ⟨rfl, rfl⟩ := h
        exact ih hP (fun l hl => hroom l (hl.trans (Nat.lt_succ_self _))) t
      · obtain ⟨hlen, rfl⟩ := h
        exact ⟨hroom l (hlen ▸ Nat.lt_succ_self _), rfl⟩
      · obtain ⟨hlen, rfl⟩ := h
        exact ⟨congrArg (· + 1) hlen, rfl⟩
  | groupRep inner min max rest ihi ih =>
    refine (matchRepeated_paired (Untouched m) (R.Recorded rest m)
      (fun t m' l h => run_paired_of_groups_eq_zero hP.1 t h) (fun tpos m' l h => ?_) min max t
      ⟨rfl, rfl⟩).ifOk fun x m' l h => .ok _ ?_
    · obtain ⟨rfl, rfl⟩ := h
      exact (ih hP.2 (fun l hl => hroom l (hl.trans (Nat.lt_succ_self _))) tpos).guard hg t tpos
    · obtain ⟨hlen, rfl⟩ := h
      exact ⟨congrArg (· + 1) hlen, rfl⟩

theorem groups_recordAll {l : List Span} (h : l.length ≤ breMaxGroups) :
    (codeRecorder.recordAll {} l).groups = l.reverse := by
  induction l with
  | nil => rfl
  | cons g l ih =>
    have hl : l.length < breMaxGroups := h
    have ih := ih hl.le
    have hroom : (codeRecorder.recordAll {} l).groups.length < breMaxGroups := by
      simpa [ih] using hl
    rw [List.reverse_cons, ← ih]
    exact congrArg BreMatch.groups (dif_pos hroom)

/-- With at most nine groups, an attempt of the matcher is one that keeps every capture. -/
theorem Prog.run_spans {guard : Guard} (hg : guard.Mild) (text : CString) {P : Prog} (hP : P.Flat)
    (hgroups : P.groups ≤ breMaxGroups) (t : ℤ) :
    Paired (fun m l => m = {} ∧ l = []) (fun m l => l.length = P.groups ∧ m.groups = l.reverse)
      (P.run guard codeRecorder text t {}) (P.run guard listRecorder text t []) := by
  have hpair := Prog.run_paired (R := codeRecorder) (m := ({} : BreMatch)) hg text hP (fun l hl => ?_) t
  · generalize P.run guard codeRecorder text t {} = x, P.run guard listRecorder text t [] = y at hpair
    cases hpair with
    | ok b h => exact .ok b ⟨h.1, by rw [h.2, groups_recordAll (h.1 ▸ hgroups)]⟩
    | noMatch h => exact .noMatch h
    | stop s m l => exact .stop s m l
  · have hlen := congrArg List.length (groups_recordAll (l := l) (by omega))
    rw [List.length_reverse] at hlen
    refine decide_eq_true (?_ : (codeRecorder.recordAll {} l).groups.length < breMaxGroups)
    omega

end ValidcTools.Bre
