import ValidcTools.Bre.Captures
import ValidcTools.Bre.Pattern

/-! Repeated groups. The loop of `match_repeated` that gives iterations back is held to the places
that the iterations have led to: it returns to them as long as it takes back no iteration beyond
the 256th whose length is not one. -/
namespace ValidcTools.Bre

variable {σ β : Type}

/-- The remainder, noting the places where it is tried. -/
def noted (rest : ℤ → σ → Res β × σ) (tpos : ℤ) (m : σ × List ℤ) : Res β × (σ × List ℤ) :=
  ((rest tpos m.1).1, (rest tpos m.1).2, m.2 ++ [tpos])

/-- An iteration, which notes nothing. -/
def unnoted (once : ℤ → σ → Res ℤ × σ) (tpos : ℤ) (m : σ × List ℤ) : Res ℤ × (σ × List ℤ) :=
  ((once tpos m.1).1, (once tpos m.1).2, m.2)

/-- The places where `match_repeated` tries the remainder, in this order. -/
def triedPlaces (once : ℤ → σ → Res ℤ × σ) (rest : ℤ → σ → Res β × σ) (min max ti : ℤ) (m : σ) :
    List ℤ :=
  (matchRepeated (unnoted once) (noted rest) min max ti (m, [])).2.2

/-- The places after all iterations, after all but the last and so on, back to the start `s`. -/
def placesBack (s : ℤ) (advs : List ℤ) : List ℤ := advs.tails.map fun advs => s + advs.sum

/-- The remainder matches at none of the places, tried in this order. -/
def Refused (rest : ℤ → σ → Res β × σ) : List ℤ → σ → Prop
  | [], _ => True
  | p :: ps, m => (rest p m).1 = .noMatch ∧ Refused rest ps (rest p m).2

/-- Every iteration beyond the 256th that is given back has length one. -/
def GivesBackOnes (rest : ℤ → σ → Res β × σ) (s : ℤ) (advs : List ℤ) (m : σ) : Prop :=
  ∀ newer adv older, advs = newer ++ adv :: older → advsSize ≤ older.length →
    Refused rest ((placesBack s advs).take (newer.length + 1)) m → adv = 1

/-- `advs` are the lengths, latest first, of matches that follow each other from `s` to a place. -/
inductive Consecutive (once : ℤ → Res ℤ) (s : ℤ) : List ℤ → ℤ → Prop
  | nil : Consecutive once s [] s
  | cons {advs : List ℤ} {t adv : ℤ} (h : Consecutive once s advs t) (ho : once t = .ok adv) :
    Consecutive once s (adv :: advs) (t + adv)

/-- As many matches that follow each other from `s` as there are, but at most `n`. -/
def Greatest (once : ℤ → Res ℤ) (s : ℤ) (n : ℕ) (advs : List ℤ) (t : ℤ) : Prop :=
  Consecutive once s advs t ∧ (advs.length = n ∨ advs.length < n ∧ once t = .noMatch)

section Loops

variable {once : ℤ → σ → Res ℤ × σ} {rest : ℤ → σ → Res β × σ} {s min : ℤ}

theorem placesBack_cons (s adv : ℤ) (advs : List ℤ) :
    placesBack s (adv :: advs) = (s + (adv + advs.sum)) :: placesBack s advs := by
  simp [placesBack]

theorem placesBack_eq_cons (s : ℤ) (advs : List ℤ) :
    ∃ ps, placesBack s advs = (s + advs.sum) :: ps := by
  cases advs with
  | nil => exact ⟨[], by simp [placesBack]⟩
  | cons adv advs => exact ⟨placesBack s advs, by simp [placesBack]⟩

/-- The first iteration to give back, and the others when the remainder does not match there. -/
theorem givesBackOnes_cons {adv : ℤ} {advs : List ℤ} {m : σ} :
    GivesBackOnes rest s (adv :: advs) m ↔ ((rest (s + (adv + advs.sum)) m).1 = .noMatch →
      (advsSize ≤ advs.length → adv = 1) ∧
        GivesBackOnes rest s advs (rest (s + (adv + advs.sum)) m).2) := by
  unfold GivesBackOnes
  rw [placesBack_cons]
  constructor
  · intro h hno
    refine ⟨fun hlen => h [] adv advs rfl hlen ⟨hno, trivial⟩, fun newer a older he hlen href => ?_⟩
    exact h (adv :: newer) a older (congrArg (adv :: ·) he) hlen ⟨hno, href⟩
  · intro h newer a older he hlen href
    cases newer with
    | nil =>
      obtain ⟨rfl, rfl⟩ : adv = a ∧ advs = older := by simpa using he
      exact (h href.1).1 hlen
    | cons b newer =>
      obtain ⟨-, he'⟩ : adv = b ∧ advs = newer ++ a :: older := by simpa using he
      exact (h href.1).2 newer a older he' hlen href.2

theorem lastAdv_eq_iff {taken : ℕ} {adv : ℤ} :
    lastAdv (taken + 1) adv = adv ↔ (advsSize ≤ taken → adv = 1) := by
  unfold lastAdv
  split_ifs with h
  · exact iff_of_true rfl fun hle => by omega
  · have hle : advsSize ≤ taken := by omega
    exact ⟨fun he _ => he.symm, fun he => (he hle).symm⟩

theorem countDown_noted_nil (t : ℤ) (m : σ) (l : List ℤ) :
    (countDown (noted rest) min [] t (m, l)).2.2 = l ++ if 0 < min then [] else [t] := by
  unfold countDown
  split_ifs
  · simp
  · have hsnd : (noted rest t (m, l)).2.2 = l ++ [t] := rfl
    generalize noted rest t (m, l) = x at hsnd
    rcases x with ⟨r, m'⟩
    cases r <;> exact hsnd

theorem countDown_noted_back {adv : ℤ} {advs : List ℤ} {t : ℤ} {m : σ} (l : List ℤ)
    (hmin : ¬ ((advs.length + 1 : ℕ) : ℤ) < min) (hno : (rest t m).1 = .noMatch) :
    (countDown (noted rest) min (adv :: advs) t (m, l)).2.2 =
      (countDown (noted rest) min advs (t - lastAdv (advs.length + 1) adv)
        ((rest t m).2, l ++ [t])).2.2 := by
  rw [countDown, if_neg hmin, noted, hno]

theorem countDown_noted_stays {adv : ℤ} {advs : List ℤ} {t : ℤ} {m : σ} (l : List ℤ)
    (hmin : ¬ ((advs.length + 1 : ℕ) : ℤ) < min) (hno : (rest t m).1 ≠ .noMatch) :
    (countDown (noted rest) min (adv :: advs) t (m, l)).2.2 = l ++ [t] := by
  rw [countDown, if_neg hmin, noted]
  generalize (rest t m).1 = r at hno
  cases r with
  | noMatch => exact absurd rfl hno
  | ok b => rfl
  | stop e => rfl

/-- Only what is tried is noted. -/
theorem countDown_noted (rest : ℤ → σ → Res β × σ) (min : ℤ) (advs : List ℤ) (t : ℤ) (m : σ)
    (l : List ℤ) :
    ∃ tried, (countDown (noted rest) min advs t (m, l)).2.2 = l ++ tried ∧
      (min ≤ advs.length → ∃ ps, tried = t :: ps) := by
  induction advs generalizing t m l with
  | nil =>
    refine ⟨_, countDown_noted_nil t m l, fun hmin => ⟨[], if_neg ?_⟩⟩
    simpa using hmin
  | cons adv advs ih =>
    by_cases hmin : ((advs.length + 1 : ℕ) : ℤ) < min
    · refine ⟨[], ?_, fun hle => absurd hmin (not_lt.mpr hle)⟩
      rw [countDown, if_pos hmin, List.append_nil]
    by_cases hno : (rest t m).1 = .noMatch
    · rw [countDown_noted_back l hmin hno]
      obtain ⟨tried, he, -⟩ := ih (t - lastAdv (advs.length + 1) adv) (rest t m).2 (l ++ [t])
      exact ⟨t :: tried, by rw [he, List.append_assoc]; rfl, fun _ => ⟨tried, rfl⟩⟩
    · exact ⟨[t], countDown_noted_stays l hmin hno, fun _ => ⟨[], rfl⟩⟩

/-- From the place after all iterations, the loop returns to the places they have led to exactly
when it gives back ones. -/
theorem countDown_noted_iff (rest : ℤ → σ → Res β × σ) (s : ℤ) (hmin : min ≤ advsSize) (advs : List ℤ)
    (m : σ) (l : List ℤ) :
    ∃ tried, (countDown (noted rest) min advs (s + advs.sum) (m, l)).2.2 = l ++ tried ∧
      (tried <+: placesBack s advs ↔ GivesBackOnes rest s advs m) := by
  induction advs generalizing m l with
  | nil =>
    refine ⟨_, countDown_noted_nil _ m l, iff_of_true ?_ fun newer adv older he => ?_⟩
    · split_ifs
      · exact List.nil_prefix
      · exact List.prefix_rfl
    · simp at he
  | cons adv advs ih =>
    by_cases hlt : ((advs.length + 1 : ℕ) : ℤ) < min
    · refine ⟨[], by rw [countDown, if_pos hlt, List.append_nil], iff_of_true List.nil_prefix ?_⟩
      intro newer a older he hlen
      have hlen' := congrArg List.length he
      simp only [List.length_cons, List.length_append] at hlen'
      omega
    rw [givesBackOnes_cons, placesBack_cons, List.sum_cons]
    by_cases hno : (rest (s + (adv + advs.sum)) m).1 = .noMatch
    swap
    · exact ⟨_, countDown_noted_stays l hlt hno, iff_of_true (by simp) fun h => absurd h hno⟩
    rw [countDown_noted_back l hlt hno, imp_iff_right hno]
    by_cases hone : advsSize ≤ advs.length → adv = 1
    · -- the step leads to the place before the iteration
      rw [lastAdv_eq_iff.mpr hone, show s + (adv + advs.sum) - adv = s + advs.sum by ring]
      obtain ⟨tried, he, hiff⟩ := ih (rest (s + (adv + advs.sum)) m).2 (l ++ [s + (adv + advs.sum)])
      refine ⟨(s + (adv + advs.sum)) :: tried, by rw [he, List.append_assoc]; rfl, ?_⟩
      rw [List.cons_prefix_cons, and_iff_right rfl, and_iff_right hone]
      exact hiff
    · -- it leads to another place, where the remainder is tried next
      obtain ⟨tried, he, hhead⟩ := countDown_noted rest min advs
        (s + (adv + advs.sum) - lastAdv (advs.length + 1) adv) (rest (s + (adv + advs.sum)) m).2
        (l ++ [s + (adv + advs.sum)])
      have hlen : advsSize ≤ advs.length := (Classical.not_imp.mp hone).1
      obtain ⟨ps, rfl⟩ := hhead (by omega)
      refine ⟨(s + (adv + advs.sum)) :: (s + (adv + advs.sum) - lastAdv (advs.length + 1) adv) :: ps,
        by rw [he, List.append_assoc]; rfl, ?_⟩
      refine iff_of_false (fun hpre => hone (lastAdv_eq_iff.mp ?_)) fun h => hone h.1
      obtain ⟨qs, hq⟩ := placesBack_eq_cons s advs
      rw [hq, List.cons_prefix_cons, List.cons_prefix_cons] at hpre
      omega

theorem countUp_unnoted {n : ℕ} {t t' : ℤ} {advs advs' : List ℤ} {m m' : σ} (l : List ℤ)
    (h : countUp once n t advs m = (.ok (t', advs'), m')) :
    countUp (unnoted once) n t advs (m, l) = (.ok (t', advs'), (m', l)) := by
  have honce (t : ℤ) (m : σ) (p : σ × List ℤ) (hp : p = (m, l)) :
      Paired (fun m p => p = (m, l)) (fun m p => p = (m, l)) (once t m) (unnoted once t p) := by
    subst hp
    unfold unnoted
    rcases once t m with ⟨r, m'⟩
    cases r with
    | ok adv => exact .ok adv rfl
    | noMatch => exact .noMatch rfl
    | stop e => exact .stop e m' _
  have hpair := countUp_paired honce n t advs (rfl : (m, l) = (m, l))
  rw [h] at hpair
  generalize countUp (unnoted once) n t advs (m, l) = x at hpair
  cases hpair with
  | ok b hp => rw [hp]

/-- A match of the repeated part does not depend on the captures and leaves them alone. -/
def Stateless (once : ℤ → σ → Res ℤ × σ) (f : ℤ → Res ℤ) : Prop :=
  ∀ t m, once t m = (f t, m) ∨ ∃ e m', once t m = (.stop e, m') ∧ f t = .stop e

theorem countUp_of_consecutive {f : ℤ → Res ℤ} (hf : Stateless once f) {advs : List ℤ} {t : ℤ}
    (hc : Consecutive f s advs t) (k : ℕ) (m : σ) :
    countUp once (advs.length + k) s [] m = countUp once k t advs m := by
  induction hc generalizing k with
  | nil => rw [List.length_nil, Nat.zero_add]
  | @cons advs t adv hc ho ih =>
    have hstep : once t m = (.ok adv, m) := by
      rcases hf t m with he | ⟨e, m', -, he⟩
      · rw [he, ho]
      · rw [he] at ho
        cases ho
    rw [List.length_cons, show advs.length + 1 + k = advs.length + (k + 1) by omega, ih, countUp,
      hstep]

/-- The first loop makes as many iterations as there are. -/
theorem countUp_greatest {f : ℤ → Res ℤ} (hf : Stateless once f) {n : ℕ} {t t' : ℤ} {advs advs' : List ℤ}
    {m m' : σ} (hc : Consecutive f s advs t)
    (h : countUp once n t advs m = (.ok (t', advs'), m')) :
    Greatest f s (advs.length + n) advs' t' ∧ m' = m := by
  induction n generalizing t advs m with
  | zero =>
    obtain ⟨⟨rfl, rfl⟩, rfl⟩ : (t = t' ∧ advs = advs') ∧ m = m' := by simpa [countUp] using h
    exact ⟨⟨hc, Or.inl rfl⟩, rfl⟩
  | succ n ih =>
    unfold countUp at h
    rcases hf t m with he | ⟨e, m₁, he, -⟩
    swap
    · rw [he] at h
      cases h
    rw [he] at h
    cases hr : f t with
    | ok adv =>
      rw [hr] at h
      have hrec := ih (hc.cons hr) h
      rwa [List.length_cons, show advs.length + 1 + n = advs.length + (n + 1) by omega] at hrec
    | noMatch =>
      rw [hr] at h
      obtain ⟨⟨rfl, rfl⟩, rfl⟩ : (t = t' ∧ advs = advs') ∧ m = m' := by simpa using h
      exact ⟨⟨hc, Or.inr ⟨by omega, hr⟩⟩, rfl⟩
    | stop e =>
      rw [hr] at h
      cases h

theorem countUp_eq_ok_iff {f : ℤ → Res ℤ} (hf : Stateless once f) {n : ℕ} {t : ℤ} {advs : List ℤ}
    {m m' : σ} : countUp once n s [] m = (.ok (t, advs), m') ↔ Greatest f s n advs t ∧ m' = m := by
  constructor
  · intro h
    simpa using countUp_greatest hf .nil h
  · rintro ⟨⟨hc, hlen⟩, rfl⟩
    rcases hlen with rfl | ⟨hlt, hno⟩
    · exact countUp_of_consecutive hf hc 0 m'
    · obtain ⟨k, rfl⟩ : ∃ k, n = advs.length + (k + 1) := ⟨n - advs.length - 1, by omega⟩
      rw [countUp_of_consecutive hf hc, countUp]
      rcases hf t m' with he | ⟨e, m₁, -, he⟩
      · rw [he, hno]
      · rw [he] at hno
        cases hno

theorem Consecutive.eq_add_sum {f : ℤ → Res ℤ} {advs : List ℤ} {t : ℤ} (h : Consecutive f s advs t) :
    t = s + advs.sum := by
  induction h with
  | nil => simp
  | cons _ _ ih => rw [List.sum_cons, ih]; ring

/-- The earlier ones of consecutive matches. -/
theorem Consecutive.of_suffix {f : ℤ → Res ℤ} {advs older : List ℤ} {t : ℤ}
    (h : Consecutive f s advs t) (hs : older <:+ advs) : Consecutive f s older (s + older.sum) := by
  induction h with
  | nil =>
    obtain rfl := List.suffix_nil.mp hs
    simpa using Consecutive.nil
  | cons h ho ih =>
    rcases List.suffix_cons_iff.mp hs with rfl | hs
    · have hc := h.cons ho
      rwa [← hc.eq_add_sum]
    · exact ih hs

/-- The loop tries the remainder at the places that the iterations have led to exactly when it
gives back ones. -/
theorem triedPlaces_prefix_iff {max t : ℤ} {advs : List ℤ} {m m' : σ} (hmin : min ≤ advsSize)
    (h : countUp once (maxPossible max) s [] m = (.ok (t, advs), m')) (ht : t = s + advs.sum) :
    triedPlaces once rest min max s m <+: placesBack s advs ↔ GivesBackOnes rest s advs m' := by
  obtain ⟨tried, he, hiff⟩ := countDown_noted_iff rest s hmin advs m' []
  rw [← hiff, ← List.nil_append tried, ← he, ← ht]
  unfold triedPlaces matchRepeated
  rw [countUp_unnoted [] h, ifOk_ok]
  dsimp only
  rcases countDown (noted rest) min advs t (m', []) with ⟨r, x⟩
  cases r <;> rfl

/-- A success of the loop that gives back ones is at a place that iterations have led to. -/
theorem countDown_eq_ok {advs : List ℤ} {m m' : σ} {tpos : ℤ} {b : β}
    (hones : GivesBackOnes rest s advs m)
    (h : countDown rest min advs (s + advs.sum) m = (.ok (tpos, b), m')) :
    ∃ older m₁, older <:+ advs ∧ min ≤ older.length ∧ tpos = s + older.sum ∧
      rest tpos m₁ = (.ok b, m') := by
  induction advs generalizing m with
  | nil =>
    unfold countDown at h
    split_ifs at h with hmin
    · cases h
    rcases hr : rest (s + ([] : List ℤ).sum) m with ⟨r, m₁⟩
    rw [hr] at h
    cases r with
    | ok c =>
      obtain ⟨⟨rfl, rfl⟩, rfl⟩ : (s + ([] : List ℤ).sum = tpos ∧ c = b) ∧ m₁ = m' := by simpa using h
      exact ⟨[], m, List.suffix_rfl, by simpa using hmin, rfl, hr⟩
    | noMatch => cases h
    | stop e => cases h
  | cons adv advs ih =>
    rw [givesBackOnes_cons, ← List.sum_cons] at hones
    unfold countDown at h
    split_ifs at h with hmin
    · cases h
    rcases hr : rest (s + (adv :: advs).sum) m with ⟨r, m₁⟩
    rw [hr] at h hones
    cases r with
    | ok c =>
      obtain ⟨⟨rfl, rfl⟩, rfl⟩ : (s + (adv :: advs).sum = tpos ∧ c = b) ∧ m₁ = m' := by simpa using h
      exact ⟨adv :: advs, m, List.suffix_rfl, not_lt.mp hmin, rfl, hr⟩
    | noMatch =>
      obtain ⟨hone, hones⟩ := hones rfl
      have hplace : s + (adv :: advs).sum - lastAdv (advs.length + 1) adv = s + advs.sum := by
        rw [lastAdv_eq_iff.mpr hone, List.sum_cons]
        ring
      obtain ⟨older, m₂, hs, hle, ht, hr⟩ := ih hones (hplace ▸ h)
      exact ⟨older, m₂, hs.trans (List.suffix_cons adv advs), hle, ht, hr⟩
    | stop e => cases h

end Loops

theorem Prog.run_one_ok {guard : Guard} {R : Recorder σ} {text : CString} {a : Atom} {rest : Prog}
    {t n : ℤ} {m m' : σ} (h : a.once text t = .ok 1)
    (hrest : rest.run guard R text (t + 1) m = (.ok n, m')) :
    (Prog.one a 1 1 rest).run guard R text t m = (.ok (1 + n), m') := by
  simp [Prog.run, matchRepeated, maxPossible, countUp, countDown, h, hrest]

theorem Prog.run_one_noMatch {guard : Guard} {R : Recorder σ} {text : CString} {a : Atom}
    {rest : Prog} {t : ℤ} {m : σ} (h : a.once text t = .noMatch) :
    (Prog.one a 1 1 rest).run guard R text t m = (.noMatch, m) := by
  simp [Prog.run, matchRepeated, maxPossible, countUp, countDown, h]

/-- Matches of one length. -/
theorem consecutive_replicate {f : ℤ → Res ℤ} {s adv : ℤ} {n : ℕ}
    (h : ∀ j : ℕ, j < n → f (s + j * adv) = .ok adv) :
    Consecutive f s (List.replicate n adv) (s + n * adv) := by
  induction n with
  | zero => simpa using Consecutive.nil
  | succ n ih =>
    have hc := (ih fun j hj => h j (by omega)).cons (h n (by omega))
    rwa [add_assoc, ← add_one_mul, ← Nat.cast_add_one] at hc

theorem Paired.fst {τ : Type} {S₀ S₁ : σ → τ → Prop} {x : Res β × σ} {y : Res β × τ}
    (h : Paired S₀ S₁ x y) : x.1 = y.1 := by
  cases h with
  | ok b h => rfl
  | noMatch h => rfl
  | stop e m l => rfl

/-- A pattern `\(X\)QR`. The content ends at the first `\)`; a `\(` in it would be malformed. -/
structure RepeatedGroup where
  content : List Byte
  quantifier : Quantifier
  rest : List Byte
  closed : ¬ (['\\', ')'] : List Byte) <:+: content
  nulFree : (0 : Byte) ∉ content ++ (quantifier.render ++ rest)

/-- `bre_match` attempts a match at `s`. -/
def ComesTo (text pattern : CString) (s : ℕ) : Prop :=
  s ≤ lastStart text pattern ∧ ∀ s' : ℕ, s' < s → (attempt text pattern s').1 = .noMatch

theorem closeGroup_append {inner : List Byte} (h : ¬ (['\\', ')'] : List Byte) <:+: inner)
    (l : List Byte) : closeGroup (inner ++ ((['\\', ')'] : List Byte) ++ l)) = some (inner, l) := by
  induction inner with
  | nil => simp [closeGroup, after]
  | cons c inner ih =>
    have hc : after ['\\', ')'] (c :: (inner ++ ((['\\', ')'] : List Byte) ++ l))) = none := by
      rw [Option.eq_none_iff_forall_ne_some]
      intro t ht
      have he := after_eq ht
      cases inner with
      | nil => simp +decide at he
      | cons d inner =>
        obtain ⟨rfl, rfl, -⟩ : c = '\\' ∧ d = ')' ∧ _ := by simpa using he
        exact h ⟨[], inner, rfl⟩
    rw [List.cons_append, closeGroup, hc, ih fun hi => h (hi.trans (List.suffix_cons c inner).isInfix)]
    rfl

theorem Quantifier.mem_counts {q : Quantifier} {k : ℕ} (hmin : q.bounds.1 ≤ k)
    (hmax : k ≤ maxPossible q.bounds.2) : k ∈ q.counts := by
  cases q with
  | star => trivial
  | plus => simpa [bounds, counts] using hmin
  | exactly n =>
    simp only [bounds, maxPossible_natCast] at hmin hmax
    exact le_antisymm hmax (by exact_mod_cast hmin)
  | atLeast n => simpa [bounds, counts] using hmin
  | between n m h =>
    simp only [bounds, maxPossible_natCast] at hmin hmax
    exact ⟨by exact_mod_cast hmin, hmax⟩

theorem Quantifier.min_le (q : Quantifier) : q.bounds.1 ≤ advsSize := by
  cases q with
  | star => decide
  | plus => decide
  | exactly n => have := n.le; simp only [bounds, Bound.value, advsSize]; omega
  | atLeast n => have := n.le; simp only [bounds, Bound.value, advsSize]; omega
  | between n m h => have := n.le; simp only [bounds, Bound.value, advsSize]; omega

namespace RepeatedGroup

def render (g : RepeatedGroup) : CString where
  bytes := (['\\', '('] : List Byte) ++ (g.content ++ ((['\\', ')'] : List Byte) ++
    (g.quantifier.render ++ g.rest)))
  nulFree := by
    have h := g.nulFree
    simp only [List.mem_append, not_or] at h ⊢
    exact ⟨by decide, h.1, by decide, h.2⟩

/-- `match_here` on the content. -/
def once (g : RepeatedGroup) (text : CString) : ℤ → BreMatch → Res ℤ × BreMatch :=
  (Prog.parse g.content).run noGuard codeRecorder text

/-- `match_here` on what follows the quantifier. -/
def remainder (g : RepeatedGroup) (text : CString) : ℤ → BreMatch → Res ℤ × BreMatch :=
  (Prog.parse g.rest).run noGuard codeRecorder text

/-- The length of the match of the content at a place. -/
def contentAt (g : RepeatedGroup) (text : CString) (t : ℤ) : Res ℤ := (g.once text t {}).1

/-- `advs` are all iterations from `s` on, up to the limit for an open quantifier. -/
def Iterations (g : RepeatedGroup) (text : CString) (s : ℤ) (advs : List ℤ) (t : ℤ) : Prop :=
  Greatest (g.contentAt text) s (maxPossible g.quantifier.bounds.2) advs t

/-- In an attempt at `s`, the remainder is tried at the place after all iterations, then after all
but one and so on. -/
def ReturnsExactly (g : RepeatedGroup) (text : CString) (s : ℤ) : Prop :=
  ∀ advs t, g.Iterations text s advs t →
    triedPlaces (g.once text) (g.remainder text) g.quantifier.bounds.1 g.quantifier.bounds.2 s {} <+:
      placesBack s advs

/-- The group of the match spans as many matches of the content, one after the other, as the
quantifier allows; the remainder matches next to them. -/
def IsRepetition (g : RepeatedGroup) (text : CString) (m : BreMatch) : Prop :=
  ∃ (advs : List ℤ) (span total : ℤ) (m₀ m₁ : BreMatch), advs.length ∈ g.quantifier.counts ∧
    Consecutive (g.contentAt text) m.start advs (m.start + span) ∧
    g.remainder text (m.start + span) m₀ = (.ok total, m₁) ∧
    m = (m₁.record ⟨m.start, span⟩).finish m.start (span + total)

def Repeats (g : RepeatedGroup) (text : CString) : Prop :=
  (∀ s, ComesTo text g.render s → g.ReturnsExactly text s) ∧
    ∀ m, breMatch text g.render = .ok m → g.IsRepetition text m

/-- No iteration beyond the 256th is given back in an attempt at `s` unless its length is one. -/
def KeepsLong (g : RepeatedGroup) (text : CString) (s : ℤ) : Prop :=
  ∀ advs t, g.Iterations text s advs t → GivesBackOnes (g.remainder text) s advs {}

variable {g : RepeatedGroup} {text : CString}

theorem ofPattern_render (g : RepeatedGroup) : Prog.ofPattern g.render =
    .groupRep (Prog.parse g.content) g.quantifier.bounds.1 g.quantifier.bounds.2
      (Prog.parse g.rest) := by
  have hanchor : anchoredStart g.render = false := by
    refine decide_eq_false fun h => ?_
    exact (show ¬ ((('\\' : Char) : Byte) = ('^' : Char)) by decide) h.2
  have hhead : head g.render.bytes =
      .groupRep g.content g.quantifier.bounds.1 g.quantifier.bounds.2 g.rest := by
    have hdollar : ¬ ((('\\' : Char) : Byte) = ('$' : Char)) := by decide
    change head ((('\\' : Char) : Byte) :: (('(' : Char) : Byte) :: (g.content ++
      ((['\\', ')'] : List Byte) ++ (g.quantifier.render ++ g.rest)))) = _
    rw [head, if_neg fun h => hdollar h.1, if_pos ⟨rfl, rfl⟩, List.tail_cons,
      closeGroup_append g.closed]
    dsimp only
    rw [groupHead, quantifier_render]
  rw [Prog.ofPattern, hanchor, if_neg Bool.false_ne_true, Prog.parse_eq, hhead]
  rfl

theorem attempt_render (g : RepeatedGroup) (text : CString) (s : ℤ) :
    attempt text g.render s =
      ifOk (matchRepeated (g.once text) (g.remainder text) g.quantifier.bounds.1
        g.quantifier.bounds.2 s {}) fun x m => (.ok (x.1 + x.2), m.record ⟨s, x.1⟩) := by
  unfold attempt
  rw [ofPattern_render]
  rfl

/-- The content has no groups. -/
theorem once_stateless (g : RepeatedGroup) (text : CString) : Stateless (g.once text) (g.contentAt text) := by
  have hflat := Prog.ofPattern_flat g.render
  rw [ofPattern_render] at hflat
  intro t m
  have hplain : g.contentAt text t = (Prog.parse g.content).plain text t :=
    (Prog.run_plain hflat.1 t ({} : BreMatch)).fst
  have hpair : Paired _ _ (g.once text t m) _ := Prog.run_plain hflat.1 t m
  rw [hplain]
  generalize g.once text t m = x, (Prog.parse g.content).plain text t = r at hpair
  cases hpair with
  | ok n hm => exact Or.inl (by rw [hm])
  | noMatch hm => exact Or.inl (by rw [hm])
  | stop e m' l => exact Or.inr ⟨e, m', rfl, rfl⟩

theorem countUp_once_eq_ok_iff {s t : ℤ} {advs : List ℤ} {m : BreMatch} :
    countUp (g.once text) (maxPossible g.quantifier.bounds.2) s [] {} = (.ok (t, advs), m) ↔
      g.Iterations text s advs t ∧ m = {} :=
  countUp_eq_ok_iff (g.once_stateless text)

theorem returnsExactly_iff {s : ℤ} : g.ReturnsExactly text s ↔ g.KeepsLong text s := by
  refine forall_congr' fun advs => forall_congr' fun t => forall_congr' fun h => ?_
  exact triedPlaces_prefix_iff g.quantifier.min_le (countUp_once_eq_ok_iff.mpr ⟨h, rfl⟩)
    h.1.eq_add_sum

theorem isRepetition_of_keepsLong {s : ℕ} {n : ℤ} {m : BreMatch} (hkeeps : g.KeepsLong text s)
    (h : attempt text g.render s = (.ok n, m)) : g.IsRepetition text (m.finish s n) := by
  rw [attempt_render, matchRepeated] at h
  rcases hup : countUp (g.once text) (maxPossible g.quantifier.bounds.2) s [] {} with ⟨r, m₀⟩
  rw [hup] at h
  cases r with
  | noMatch => cases h
  | stop e => cases h
  | ok x =>
    obtain ⟨t, advs⟩ := x
    obtain ⟨hiter, rfl⟩ := countUp_once_eq_ok_iff.mp hup
    obtain rfl := hiter.1.eq_add_sum
    rw [ifOk_ok] at h
    dsimp only at h
    rcases hdown : countDown (g.remainder text) g.quantifier.bounds.1 advs (s + advs.sum) {} with
      ⟨r, m₁⟩
    rw [hdown] at h
    cases r with
    | noMatch => cases h
    | stop e => cases h
    | ok y =>
      obtain ⟨tpos, total⟩ := y
      obtain ⟨older, m₂, hs, hmin, rfl, hrest⟩ := countDown_eq_ok (hkeeps _ _ hiter) hdown
      obtain ⟨rfl, rfl⟩ : s + older.sum - s + total = n ∧
          m₁.record ⟨s, s + older.sum - s⟩ = m := by simpa using h
      rw [add_sub_cancel_left]
      refine ⟨older, older.sum, total, m₂, m₁, ?_, hiter.1.of_suffix hs, hrest, rfl⟩
      have hlen : advs.length ≤ maxPossible g.quantifier.bounds.2 := by
        rcases hiter.2 with he | ⟨hlt, -⟩
        · exact he.le
        · exact hlt.le
      exact Quantifier.mem_counts hmin (hs.length_le.trans hlen)

/-- A repeated group is repeated, and its iterations are given back one by one, exactly when no
long iteration beyond the 256th is given back in an attempt that `bre_match` makes. -/
theorem repeats_iff (g : RepeatedGroup) (text : CString) :
    g.Repeats text ↔ ∀ s, ComesTo text g.render s → g.KeepsLong text s := by
  constructor
  · intro h s hs
    exact returnsExactly_iff.mp (h.1 s hs)
  · intro h
    refine ⟨fun s hs => returnsExactly_iff.mpr (h s hs), fun m hm => ?_⟩
    rcases breMatch_cases text g.render with ⟨hno, -⟩ | ⟨s, hs, hbefore, -, heq⟩
    · rw [hno] at hm
      cases hm
    · rw [heq] at hm
      rcases ha : attempt text g.render s with ⟨r, m'⟩
      rw [ha] at hm
      cases r with
      | noMatch => cases hm
      | stop e => cases hm
      | ok n =>
        obtain rfl := Res.ok.inj hm
        exact isRepetition_of_keepsLong (h s ⟨hs, hbefore⟩) ha

/-- `\(ab\)*b` -/
def starAb : RepeatedGroup where
  content := ['a', 'b']
  quantifier := .star
  rest := ['b']
  closed := by decide
  nulFree := by decide

def abs (n : ℕ) : CString where
  bytes := (List.replicate n (['a', 'b'] : List Byte)).flatten
  nulFree := by simp +decide

theorem length_abs (n : ℕ) : (abs n).length = 2 * n := by
  simp [abs, CString.length, Nat.mul_comm]

theorem getElem?_abs {n j : ℕ} (h : j < n) :
    (abs n).bytes[2 * j]? = some ((('a' : Char) : Byte)) ∧
      (abs n).bytes[2 * j + 1]? = some ((('b' : Char) : Byte)) := by
  induction n generalizing j with
  | zero => omega
  | succ n ih =>
    have hbytes : (abs (n + 1)).bytes = (('a' : Char) : Byte) :: (('b' : Char) : Byte) :: (abs n).bytes := by
      simp [abs, List.replicate_succ]
    rw [hbytes]
    cases j with
    | zero => exact ⟨rfl, rfl⟩
    | succ j => exact ih (Nat.lt_of_succ_lt_succ h)

theorem parse_ab : Prog.parse starAb.content =
    .one (.literal ('a' : Char)) 1 1 (.one (.literal ('b' : Char)) 1 1 .done) := by
  rw [Prog.parse_eq]
  change Prog.one _ 1 1 (Prog.parse (['b'] : List Byte)) = _
  rw [Prog.parse_eq]
  change Prog.one _ 1 1 (Prog.one _ 1 1 (Prog.parse [])) = _
  rw [Prog.parse_eq]
  rfl

theorem contentAt_abs {n j : ℕ} (h : j < n) : starAb.contentAt (abs n) (2 * j : ℕ) = .ok 2 := by
  have hlen := length_abs n
  obtain ⟨ha, hb⟩ := getElem?_abs h
  have hfirst : (Atom.literal ('a' : Char)).once (abs n) (2 * j : ℕ) = .ok 1 := by
    rw [Atom.once_natCast _ (by omega), Greedy.hits, ha]
    rfl
  have hsecond : (Atom.literal ('b' : Char)).once (abs n) ((2 * j : ℕ) + 1) = .ok 1 := by
    have hplace : ((2 * j : ℕ) : ℤ) + 1 = (2 * j + 1 : ℕ) := (Nat.cast_add_one _).symm
    rw [hplace, Atom.once_natCast _ (by omega), Greedy.hits, hb]
    rfl
  have hdone : Prog.done.run noGuard codeRecorder (abs n) ((2 * j : ℕ) + 1 + 1) {} = (.ok 0, {}) := rfl
  rw [contentAt, once, parse_ab]
  exact congrArg Prod.fst (Prog.run_one_ok hfirst (Prog.run_one_ok hsecond hdone))

/-- At the end of the text there is nothing to match. -/
theorem literal_end (c : Byte) (text : CString) : (Atom.literal c).once text text.length = .noMatch := by
  have hnone : text.bytes[text.length]? = none := List.getElem?_eq_none le_rfl
  rw [Atom.once_natCast _ le_rfl, Greedy.hits, hnone]
  rfl

theorem iterations_abs {n : ℕ} (h : n < 10000) :
    starAb.Iterations (abs n) 0 (List.replicate n 2) (abs n).length := by
  have hend : (((abs n).length : ℕ) : ℤ) = 0 + n * 2 := by
    rw [length_abs]
    push_cast
    ring
  refine ⟨?_, Or.inr ⟨by rwa [List.length_replicate], ?_⟩⟩
  · rw [hend]
    refine consecutive_replicate fun j hj => ?_
    rw [show (0 : ℤ) + j * 2 = (2 * j : ℕ) by push_cast; ring]
    exact contentAt_abs hj
  · rw [contentAt, once, parse_ab]
    exact congrArg Prod.fst (Prog.run_one_noMatch (literal_end _ _))

theorem remainder_abs (n : ℕ) : (starAb.remainder (abs n) (abs n).length {}).1 = .noMatch := by
  unfold remainder
  rw [Prog.parse_eq]
  exact congrArg Prod.fst (Prog.run_one_noMatch (literal_end _ _))

/-- The last of more than 256 times `ab` is given back as if it were one character. -/
theorem not_keepsLong_abs {n : ℕ} (hlong : advsSize ≤ n) (h : n + 1 < 10000) :
    ¬ starAb.KeepsLong (abs (n + 1)) 0 := by
  intro hkeeps
  have hend : (0 : ℤ) + (List.replicate (n + 1) (2 : ℤ)).sum = (abs (n + 1)).length := by
    rw [length_abs, List.sum_replicate, nsmul_eq_mul]
    push_cast
    ring
  have hrefused := remainder_abs (n + 1)
  rw [← hend] at hrefused
  have hone := hkeeps _ _ (iterations_abs h) [] 2 (List.replicate n 2) rfl
    (by rwa [List.length_replicate]) ⟨hrefused, trivial⟩
  exact absurd hone (by decide)

theorem not_repeats : ¬ ∀ (g : RepeatedGroup) (text : CString), g.Repeats text := by
  intro h
  have hstart : ComesTo (abs 257) starAb.render 0 :=
    ⟨Nat.zero_le _, fun s hs => absurd hs (Nat.not_lt_zero s)⟩
  have hreturns := (h starAb (abs 257)).1 0 hstart
  exact not_keepsLong_abs (n := 256) le_rfl (by decide) (returnsExactly_iff.mp hreturns)

end RepeatedGroup

end ValidcTools.Bre
