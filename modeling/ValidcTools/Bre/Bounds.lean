import ValidcTools.Bre.Captures

/-! Where the matcher stays inside its text. Backtracking out of a repeated group steps back by 1
for the iterations beyond the 256 recorded ones, also over an empty one: so it can get before the
place where the repetition began. -/
namespace ValidcTools.Bre

variable {σ : Type}

/-- Stop where the remainder is taken up from before the beginning of the repetition. -/
def startGuard : Guard := fun ti tpos r =>
  match r with
  | .ok n => if tpos < ti then .stop .misstep else .ok n
  | .stop .outOfBounds => if tpos < ti then .stop .misstep else .stop .outOfBounds
  | r => r

/-- The program has a `\(.*\)`. -/
def Prog.dotStars : Prog → Bool
  | .done | .atEnd | .bad => false
  | .one _ _ _ rest => rest.dotStars
  | .group _ rest => rest.dotStars
  | .dotStar _ => true
  | .groupRep _ _ _ rest => rest.dotStars

theorem Prog.dotStars_of_groups_eq_zero {P : Prog} (h : P.groups = 0) : P.dotStars = false := by
  induction P with
  | one a min max rest ih => exact ih h
  | done | atEnd | bad => rfl
  | group inner rest => cases h
  | dotStar rest => cases h
  | groupRep inner min max rest => cases h

def Span.Within (lo hi : ℤ) (g : Span) : Prop := lo ≤ g.start ∧ 0 ≤ g.length ∧ g.start + g.length ≤ hi

theorem Span.Within.mono {lo hi lo' hi' : ℤ} {g : Span} (h : g.Within lo hi) (hlo : lo' ≤ lo)
    (hhi : hi ≤ hi') : g.Within lo' hi' :=
  ⟨hlo.trans h.1, h.2.1, h.2.2.trans hhi⟩

namespace BreMatch

theorem groups_record (m : BreMatch) (g : Span) :
    (m.record g).groups = m.groups ++ [g] ∨ (m.record g).groups = m.groups := by
  unfold record
  split_ifs
  · exact Or.inl rfl
  · exact Or.inr rfl

theorem room_record {m : BreMatch} (h : m.room = false) (g : Span) : (m.record g).room = false := by
  have hfull : ¬ m.groups.length < breMaxGroups := of_decide_eq_false h
  rw [record, dif_neg hfull]
  exact h

/-- The captures of `m` that are not in `m₀` lie between `lo` and `hi`, the last group first. -/
def Grown (m₀ m : BreMatch) (lo hi : ℤ) : Prop :=
  ∃ new, m.groups = m₀.groups ++ new ∧ (∀ g ∈ new, g.Within lo hi) ∧
    new.Pairwise fun a b => b.start + b.length ≤ a.start

theorem Grown.refl (m : BreMatch) (lo hi : ℤ) : Grown m m lo hi := ⟨[], by simp⟩

theorem Grown.mono {m₀ m : BreMatch} {lo hi lo' hi' : ℤ} (h : Grown m₀ m lo hi) (hlo : lo' ≤ lo)
    (hhi : hi ≤ hi') : Grown m₀ m lo' hi' := by
  obtain ⟨new, heq, hin, hord⟩ := h
  exact ⟨new, heq, fun g hg => (hin g hg).mono hlo hhi, hord⟩

theorem Grown.record {m₀ m : BreMatch} {lo hi lo' : ℤ} {g : Span} (h : Grown m₀ m lo hi)
    (hg : g.Within lo' lo) (hhi : lo ≤ hi) : Grown m₀ (m.record g) lo' hi := by
  obtain ⟨hg0, hg1, hg2⟩ := hg
  rcases m.groups_record g with hrec | hrec
  · obtain ⟨new, heq, hin, hord⟩ := h
    refine ⟨new ++ [g], by rw [hrec, heq, List.append_assoc], fun x hx => ?_, ?_⟩
    · rcases List.mem_append.mp hx with hx | hx
      · exact (hin x hx).mono (by omega) le_rfl
      · obtain rfl : x = g := by simpa using hx
        exact ⟨hg0, hg1, by omega⟩
    · refine List.pairwise_append.mpr ⟨hord, List.pairwise_singleton _ g, fun a ha b hb => ?_⟩
      obtain rfl : b = g := by simpa using hb
      exact hg2.trans (hin a ha).1
  · have hwide : Grown m₀ m lo' hi := h.mono (by omega) le_rfl
    obtain ⟨new, heq, hin, hord⟩ := hwide
    exact ⟨new, hrec.trans heq, hin, hord⟩

end BreMatch

/-- What an attempt that does not match leaves behind: captures are kept by mistake only when a
`\(.*\)` finds no room. -/
def Prog.Leaves (P : Prog) (m₀ m : BreMatch) : Prop := m = m₀ ∨ m.room = false ∧ P.dotStars

/-- What a match of `n` bytes at `t` guarantees. -/
structure Prog.Fits (P : Prog) (text : CString) (t : ℤ) (m₀ : BreMatch) (n : ℤ) (m : BreMatch) :
    Prop where
  free : P.groups = 0 → m = m₀
  room : P.dotStars → m₀.room
  full : m₀.room = false → m.room = false
  inside : 0 ≤ t → t ≤ text.length →
    0 ≤ n ∧ t + n ≤ text.length ∧ m₀.Grown m t (t + n)

/-- The stops that a guarded run can have. -/
def Sound (text : CString) (t : ℤ) (s : Stop) : Prop :=
  s ≠ .outOfFuel ∧ (0 ≤ t → t ≤ text.length → s ≠ .outOfBounds)

theorem CString.read?_some_pos {text : CString} {t : ℤ} {b : Byte} (h : text.read? t = some b)
    (hb : b ≠ 0) : 0 ≤ t ∧ t < text.length := by
  unfold CString.read? at h
  split_ifs at h with ht
  have hget := Option.some.inj h
  refine ⟨ht.1, lt_of_le_of_ne ht.2 fun he => hb ?_⟩
  rw [← hget, he]
  simp

theorem Atom.once_ok {a : Atom} {text : CString} {t adv : ℤ} (h : a.once text t = .ok adv) :
    adv = 1 ∧ 0 ≤ t ∧ t < text.length := by
  unfold Atom.once at h
  split_ifs at h
  split at h
  · cases h
  · rename_i b hb
    split_ifs at h with hcond
    exact ⟨(Res.ok.inj h).symm, CString.read?_some_pos hb hcond.1⟩

theorem Atom.once_stop {a : Atom} {text : CString} {t : ℤ} {s : Stop} (h : a.once text t = .stop s) :
    s = .outOfBounds ∧ ¬ (0 ≤ t ∧ t ≤ text.length) := by
  unfold Atom.once at h
  split_ifs at h
  split at h
  · rename_i hn
    exact ⟨(Res.stop.inj h).symm, (CString.read?_eq_none_iff _ _).mp hn⟩
  · split_ifs at h

section Contract

variable {text : CString} {P rest : Prog} {t : ℤ} {m₀ m : BreMatch}

theorem Prog.Leaves.trans {m' : BreMatch} (hP : P.dotStars = rest.dotStars) (h : P.Leaves m₀ m)
    (h' : rest.Leaves m m') : P.Leaves m₀ m' := by
  rcases h' with rfl | ⟨hroom, hdot⟩
  · exact h
  · exact Or.inr ⟨hroom, hP ▸ hdot⟩

/-- A remainder that matches has been started from the captures of the attempt. -/
theorem Prog.Leaves.eq_of_fits {m' : BreMatch} {n : ℤ} (hP : P.dotStars = rest.dotStars)
    (h : P.Leaves m₀ m) (h' : rest.Fits text t m n m') : m = m₀ := by
  rcases h with rfl | ⟨hroom, hdot⟩
  · rfl
  · have := h'.room (hP ▸ hdot)
    simp [hroom] at this

theorem Prog.run_one_fits {a : Atom} {min max : ℤ}
    (ih : ∀ t m, Meets (rest.Leaves m) (rest.Fits text t m) (Sound text t)
      (rest.run startGuard codeRecorder text t m)) (t : ℤ) (m₀ : BreMatch) :
    Meets ((Prog.one a min max rest).Leaves m₀) ((Prog.one a min max rest).Fits text t m₀)
      (Sound text t) ((Prog.one a min max rest).run startGuard codeRecorder text t m₀) := by
  have hdot : (Prog.one a min max rest).dotStars = rest.dotStars := rfl
  let Inv (advs : List ℤ) (t' : ℤ) : Prop :=
    (∀ adv ∈ advs, adv = 1) ∧ t' = t + advs.length ∧ (0 ≤ t → t ≤ text.length → t' ≤ text.length)
  have hrep : Meets ((Prog.one a min max rest).Leaves m₀)
      (fun x m => (Prog.one a min max rest).Fits text t m₀ (x.1 + x.2) m) (Sound text t)
      (matchRepeated (fun tpos m => (a.once text tpos, m)) (rest.run startGuard codeRecorder text)
        min max t m₀) := by
    refine matchRepeated_rule Inv Inv ?once (fun _ _ h => h) ?rest ?back
      ⟨by simp, by simp, fun _ h => h⟩ (Or.inl rfl)
    case once =>
      intro advs t' m hinv hQ
      obtain ⟨hones, ht', hle⟩ := hinv
      cases ho : a.once text t' with
      | ok adv =>
        obtain ⟨rfl, h0, hlt⟩ := Atom.once_ok ho
        refine ⟨⟨by simpa using hones, ?_, fun _ _ => by omega⟩, hQ⟩
        rw [ht', List.length_cons]
        push_cast
        ring
      | noMatch => exact hQ
      | stop s =>
        obtain ⟨rfl, hout⟩ := Atom.once_stop ho
        refine ⟨by simp, fun h0 hl => absurd ⟨?_, hle h0 hl⟩ hout⟩
        omega
    case rest =>
      intro advs t' m hinv hQ
      obtain ⟨-, ht', hle⟩ := hinv
      refine (ih t' m).mono (fun m' h => hQ.trans hdot h) (fun b m' h => ?_) fun s h =>
        ⟨h.1, fun h0 hl => h.2 (by omega) (hle h0 hl)⟩
      obtain rfl := hQ.eq_of_fits hdot h
      refine ⟨h.free, h.room, h.full, fun h0 hl => ?_⟩
      obtain ⟨hb, hend, hgroups⟩ := h.inside (by omega) (hle h0 hl)
      exact ⟨by omega, by omega, hgroups.mono (by omega) (by omega)⟩
    case back =>
      intro adv advs t' hinv
      obtain ⟨hones, ht', hle⟩ := hinv
      obtain rfl : adv = 1 := hones adv (by simp)
      have hone : lastAdv (advs.length + 1) 1 = 1 := by simp [lastAdv]
      rw [hone]
      refine ⟨fun x hx => hones x (by simp [hx]), ?_, fun h0 hl => ?_⟩
      · rw [ht', List.length_cons]
        push_cast
        ring
      · have := hle h0 hl
        omega
  exact hrep.ifOk (fun _ h => h) fun _ _ h => h

theorem Prog.run_group_fits {inner : Prog} (hfree : inner.groups = 0)
    (ihi : ∀ t m, Meets (inner.Leaves m) (inner.Fits text t m) (Sound text t)
      (inner.run startGuard codeRecorder text t m))
    (ih : ∀ t m, Meets (rest.Leaves m) (rest.Fits text t m) (Sound text t)
      (rest.run startGuard codeRecorder text t m)) (t : ℤ) (m₀ : BreMatch) :
    Meets ((Prog.group inner rest).Leaves m₀) ((Prog.group inner rest).Fits text t m₀)
      (Sound text t) ((Prog.group inner rest).run startGuard codeRecorder text t m₀) := by
  have hdot : (Prog.group inner rest).dotStars = rest.dotStars := rfl
  have hscan : Meets ((Prog.group inner rest).Leaves m₀)
      (fun x m => (Prog.group inner rest).Fits text t m₀ (x.1 - t + x.2.1 + x.2.2)
        (m.record ⟨x.1, x.2.1⟩)) (Sound text t)
      (scanForward text (inner.run startGuard codeRecorder text)
        (rest.run startGuard codeRecorder text) ((text.length - t).toNat + 1) t m₀) := by
    refine scanForward_rule (fun t' => 0 ≤ t → t ≤ text.length → t ≤ t' ∧ t' ≤ text.length)
      ?read ?step ?inner _ (fun _ hl => ⟨le_rfl, hl⟩) (Or.inl rfl)
    case read =>
      intro t' hpos hread
      refine ⟨by simp, fun h0 hl => absurd ?_ ((CString.read?_eq_none_iff _ _).mp hread)⟩
      obtain ⟨hle, hend⟩ := hpos h0 hl
      exact ⟨by omega, hend⟩
    case step =>
      intro t' b hpos hread hb h0 hl
      have hlt := (CString.read?_some_pos hread hb).2
      have hle := (hpos h0 hl).1
      exact ⟨by omega, by omega⟩
    case inner =>
      intro t' b m hpos hread hb hQ
      refine (ihi t' m).mono (fun m' h => ?_) (fun adv m' hin => ?_) fun s h =>
        ⟨h.1, fun h0 hl => ?_⟩
      · rcases h with rfl | ⟨-, hd⟩
        · exact hQ
        · rw [Prog.dotStars_of_groups_eq_zero hfree] at hd
          cases hd
      · obtain rfl := hin.free hfree
        refine (ih (t' + adv) m').mono (fun m'' h => hQ.trans hdot h) (fun b m'' h => ?_) fun s h =>
          ⟨h.1, fun h0 hl => ?_⟩
        · obtain rfl := hQ.eq_of_fits hdot h
          refine ⟨fun h0 => absurd h0 (Nat.succ_ne_zero _), h.room, fun hf => BreMatch.room_record (h.full hf) _,
            fun h0 hl => ?_⟩
          obtain ⟨hle, hend⟩ := hpos h0 hl
          obtain ⟨hadv, hend', -⟩ := hin.inside (by omega) hend
          obtain ⟨hb, hend'', hgroups⟩ := h.inside (by omega) hend'
          dsimp only
          exact ⟨by omega, by omega,
            (hgroups.mono le_rfl (by omega)).record ⟨hle, hadv, le_rfl⟩ (by omega)⟩
        · obtain ⟨hle, hend⟩ := hpos h0 hl
          obtain ⟨hadv, hend', -⟩ := hin.inside (by omega) hend
          exact h.2 (by omega) hend'
      · obtain ⟨hle, hend⟩ := hpos h0 hl
        exact h.2 (by omega) hend
  exact hscan.ifOk (fun _ h => h) fun _ _ h => h

theorem Prog.run_dotStar_fits
    (ih : ∀ t m, Meets (rest.Leaves m) (rest.Fits text t m) (Sound text t)
      (rest.run startGuard codeRecorder text t m)) (t : ℤ) (m₀ : BreMatch) :
    Meets ((Prog.dotStar rest).Leaves m₀) ((Prog.dotStar rest).Fits text t m₀)
      (Sound text t) ((Prog.dotStar rest).run startGuard codeRecorder text t m₀) := by
  by_cases hin : 0 ≤ t ∧ t ≤ text.length
  swap
  · have hend : scanEnd text t = none := if_neg hin
    simp only [Prog.run, hend]
    exact ⟨by simp, fun h0 hl => absurd ⟨h0, hl⟩ hin⟩
  have hend : scanEnd text t = some (text.length : ℤ) := if_pos hin
  have hscan : Meets ((Prog.dotStar rest).Leaves m₀)
      (fun x m => (Prog.dotStar rest).Fits text t m₀ (x.1 - t + x.2) (m.record ⟨t, x.1 - t⟩))
      (Sound text t)
      (scanBack codeRecorder.room (rest.run startGuard codeRecorder text) t
        ((text.length : ℤ) - t).toNat m₀) := by
    refine scanBack_rule (fun j m hj hQ => ?_) (Or.inl rfl)
    refine (ih (t + j) m).mono (fun m' h => ?_) (fun b m' h => ?_) fun s h =>
      ⟨h.1, fun h0 hl => h.2 (by omega) (by omega)⟩
    · rcases h with rfl | ⟨hroom, -⟩
      · exact hQ
      · exact Or.inr ⟨hroom, rfl⟩
    · by_cases hroom : m'.room
      · have hfree : m.room = true := by
          by_contra hm
          have := h.full (by simpa using hm)
          simp [hroom] at this
        obtain rfl : m = m₀ := by
          rcases hQ with rfl | ⟨hm, -⟩
          · rfl
          · rw [hfree] at hm
            cases hm
        rw [if_pos (show codeRecorder.room m' = true from hroom)]
        refine ⟨fun h0 => absurd h0 (Nat.succ_ne_zero _), fun _ => hfree, fun hf => absurd (hfree.symm.trans hf) Bool.true_eq_false.mp,
          fun h0 hl => ?_⟩
        obtain ⟨hb, hend', hgroups⟩ := h.inside (by omega) (by omega)
        simp only at hb hend' ⊢
        exact ⟨by omega, by omega, (hgroups.mono le_rfl (by omega)).record
          ⟨le_rfl, by simp only; omega, by simp only; omega⟩ (by omega)⟩
      · rw [if_neg (show ¬ codeRecorder.room m' = true from hroom)]
        exact Or.inr ⟨by simpa using hroom, rfl⟩
  simp only [Prog.run, hend]
  exact hscan.ifOk (fun _ h => h) fun _ _ h => h

theorem Prog.run_groupRep_fits {inner : Prog} {min max : ℤ} (hfree : inner.groups = 0)
    (ihi : ∀ t m, Meets (inner.Leaves m) (inner.Fits text t m) (Sound text t)
      (inner.run startGuard codeRecorder text t m))
    (ih : ∀ t m, Meets (rest.Leaves m) (rest.Fits text t m) (Sound text t)
      (rest.run startGuard codeRecorder text t m)) (t : ℤ) (m₀ : BreMatch) :
    Meets ((Prog.groupRep inner min max rest).Leaves m₀)
      ((Prog.groupRep inner min max rest).Fits text t m₀)
      (Sound text t) ((Prog.groupRep inner min max rest).run startGuard codeRecorder text t m₀) := by
  have hdot : (Prog.groupRep inner min max rest).dotStars = rest.dotStars := rfl
  let Up (advs : List ℤ) (t' : ℤ) : Prop :=
    0 ≤ t → t ≤ text.length → (∀ adv ∈ advs, 0 ≤ adv) ∧ t ≤ t' ∧ t' ≤ text.length
  -- On the way back only the upper bound is left.
  let Down (advs : List ℤ) (t' : ℤ) : Prop :=
    0 ≤ t → t ≤ text.length → (∀ adv ∈ advs, 0 ≤ adv) ∧ t' ≤ text.length
  have hrep : Meets ((Prog.groupRep inner min max rest).Leaves m₀)
      (fun x m => (Prog.groupRep inner min max rest).Fits text t m₀ (x.1 + x.2)
        (m.record ⟨t, x.1⟩)) (Sound text t)
      (matchRepeated (inner.run startGuard codeRecorder text)
        (fun tpos m => (rest.run startGuard codeRecorder text tpos m).map (startGuard t tpos) id)
        min max t m₀) := by
    refine matchRepeated_rule Up Down ?once (fun advs t' h h0 hl => ?_) ?rest ?back
      (fun _ hl => ⟨by simp, le_rfl, hl⟩) (Or.inl rfl)
    case once =>
      intro advs t' m hinv hQ
      refine (ihi t' m).mono (fun m' h => ?_) (fun adv m' h => ⟨fun h0 hl => ?_, ?_⟩) fun s h =>
        ⟨h.1, fun h0 hl => ?_⟩
      · rcases h with rfl | ⟨-, hd⟩
        · exact hQ
        · rw [Prog.dotStars_of_groups_eq_zero hfree] at hd
          cases hd
      · obtain ⟨hadvs, hle, hend⟩ := hinv h0 hl
        obtain ⟨hadv, hend', -⟩ := h.inside (by omega) hend
        exact ⟨by simpa using ⟨hadv, hadvs⟩, by omega, hend'⟩
      · obtain rfl := h.free hfree
        exact hQ
      · obtain ⟨-, hle, hend⟩ := hinv h0 hl
        exact h.2 (by omega) hend
    · obtain ⟨hadvs, -, hend⟩ := h h0 hl
      exact ⟨hadvs, hend⟩
    case rest =>
      intro advs t' m hinv hQ
      have h := ih t' m
      rcases hr : rest.run startGuard codeRecorder text t' m with ⟨r, m'⟩
      rw [hr] at h
      cases r with
      | noMatch => exact hQ.trans hdot h
      | ok b =>
        by_cases hlt : t' < t
        · simp [startGuard, hlt, Sound]
        simp only [Prod.map, startGuard, hlt, if_false, id_eq]
        rw [meets_ok] at h ⊢
        obtain rfl := hQ.eq_of_fits hdot h
        refine ⟨fun h0 => absurd h0 (Nat.succ_ne_zero _), h.room, fun hf => BreMatch.room_record (h.full hf) _,
          fun h0 hl => ?_⟩
        obtain ⟨-, hend⟩ := hinv h0 hl
        obtain ⟨hb, hend', hgroups⟩ := h.inside (by omega) hend
        exact ⟨by omega, by omega, (hgroups.mono le_rfl (by omega)).record
          ⟨le_rfl, by simp only; omega, by simp only; omega⟩ (by omega)⟩
      | stop s =>
        by_cases hs : s = .outOfBounds
        · subst hs
          by_cases hlt : t' < t
          · simp [startGuard, hlt, Sound]
          simp only [Prod.map, startGuard, hlt, if_false]
          refine ⟨by simp, fun h0 hl => ?_⟩
          exact absurd rfl (h.2 (by omega) (hinv h0 hl).2)
        · have hsame : startGuard t t' (.stop s) = .stop s := by
            cases s <;> first | rfl | exact absurd rfl hs
          simp only [Prod.map, hsame]
          exact ⟨h.1, fun _ _ => hs⟩
    case back =>
      intro adv advs t' hinv h0 hl
      obtain ⟨hadvs, hend⟩ := hinv h0 hl
      have hadv := hadvs adv (by simp)
      have hpos : 0 ≤ lastAdv (advs.length + 1) adv := by
        unfold lastAdv
        split_ifs <;> omega
      exact ⟨fun x hx => hadvs x (by simp [hx]), by omega⟩
  exact hrep.ifOk (fun _ h => h) fun _ _ h => h

variable (text) in
/-- A run that takes no false step stays in the text. -/
theorem Prog.run_fits (hflat : P.Flat) (t : ℤ) (m : BreMatch) :
    Meets (P.Leaves m) (P.Fits text t m) (Sound text t) (P.run startGuard codeRecorder text t m) := by
  induction P generalizing t m with
  | done =>
    exact ⟨fun _ => rfl, fun h => absurd h Bool.false_ne_true, id, fun _ hl => ⟨le_rfl, by omega, .refl m _ _⟩⟩
  | atEnd =>
    unfold Prog.run
    cases hr : text.read? t with
    | none =>
      exact ⟨by simp, fun h0 hl => absurd ⟨h0, hl⟩ ((CString.read?_eq_none_iff _ _).mp hr)⟩
    | some b =>
      by_cases hb : b = 0
      · simp only [hb, if_true]
        exact ⟨fun _ => rfl, fun h => absurd h Bool.false_ne_true, id,
          fun _ hl => ⟨le_rfl, by omega, .refl m _ _⟩⟩
      · simp only [hb, if_false]
        exact Or.inl rfl
  | bad => exact ⟨by simp, fun _ _ => by simp⟩
  | one a min max rest ih => exact Prog.run_one_fits (ih hflat) t m
  | group inner rest ihi ih =>
    exact Prog.run_group_fits hflat.1 (ihi (flat_of_groups_eq_zero hflat.1)) (ih hflat.2) t m
  | dotStar rest ih => exact Prog.run_dotStar_fits (ih hflat) t m
  | groupRep inner min max rest ihi ih =>
    exact Prog.run_groupRep_fits hflat.1 (ihi (flat_of_groups_eq_zero hflat.1)) (ih hflat.2) t m

end Contract

theorem Prog.run_eq_of_groups_eq_zero (guard guard' : Guard) {R : Recorder σ} {text : CString}
    {P : Prog} (hP : P.groups = 0) : P.run guard R text = P.run guard' R text := by
  induction P with
  | one a min max rest ih =>
    funext t m
    simp only [run, ih hP]
  | done | atEnd | bad => rfl
  | group inner rest => cases hP
  | dotStar rest => cases hP
  | groupRep inner min max rest => cases hP

/-- What an unguarded run may do where the guard would have stopped it. -/
structure Escape (R : Recorder σ) (E : Res ℤ × σ → Prop) : Prop where
  noMatch : ∀ m, E (.noMatch, m) → ∀ y, E y
  full : ∀ n m, E (.ok n, m) → R.room m = false → ∀ y, E y
  ok : ∀ n n' m, E (.ok n, m) → E (.ok n', m)
  record : ∀ n m g, E (.ok n, m) → E (.ok n, R.record m g)
  negative : ∀ n m g, g.length < 0 → E (.ok n, R.record m g)
  out : ∀ m, E (.stop .outOfBounds, m)

/-- The outcome of a remainder taken up at `tpos`, under the guard and without it. -/
theorem Tracks.startGuard {E : Res ℤ × σ → Prop} {x y : Res ℤ × σ} (h : Tracks E x y) (ti tpos : ℤ) :
    Tracks (fun y => E y ∨ tpos < ti ∧ ((∃ n, y.1 = .ok n) ∨ y.1 = .stop .outOfBounds))
      (x.map (Bre.startGuard ti tpos) id) (y.map (noGuard ti tpos) id) := by
  rcases h with rfl | ⟨hx, hy⟩
  · rcases x with ⟨r, m⟩
    by_cases hlt : tpos < ti
    · cases r with
      | ok n => exact Or.inr ⟨by simp [Bre.startGuard, hlt], Or.inr ⟨hlt, Or.inl ⟨n, rfl⟩⟩⟩
      | noMatch => exact Or.inl rfl
      | stop s =>
        cases s with
        | outOfBounds => exact Or.inr ⟨by simp [Bre.startGuard, hlt], Or.inr ⟨hlt, Or.inr rfl⟩⟩
        | error | outOfFuel | misstep => exact Or.inl rfl
    · left
      cases r with
      | ok n => simp [Bre.startGuard, noGuard, hlt]
      | noMatch => rfl
      | stop s => cases s <;> simp [Bre.startGuard, noGuard, hlt]
  · exact Or.inr ⟨by simp [hx, Bre.startGuard], Or.inl hy⟩

/-- The guard changes nothing before it stops a run. -/
theorem Prog.run_tracks {R : Recorder σ} {E : Res ℤ × σ → Prop} (hE : Escape R E) (text : CString)
    {P : Prog} (hP : P.Flat) (t : ℤ) (m : σ) :
    Tracks E (P.run Bre.startGuard R text t m) (P.run noGuard R text t m) := by
  induction P generalizing t m with
  | done | atEnd | bad => exact Or.inl rfl
  | one a min max rest ih =>
    have hrep : Tracks (fun y => E (Bre.ifOk y fun p m => (.ok (p.1 + p.2), m)))
        (matchRepeated (fun tpos m => (a.once text tpos, m)) (rest.run Bre.startGuard R text) min max t m)
        (matchRepeated (fun tpos m => (a.once text tpos, m)) (rest.run noGuard R text) min max t m) :=
      matchRepeated_tracks (E := fun _ => E) (ih hP) (fun _ _ _ h => hE.ok _ _ _ h)
        (fun _ _ h y => hE.noMatch _ h _) (fun _ _ _ h => h) m
    exact hrep.ifOk fun y hy => hy
  | group inner rest ihi ih =>
    have hscan (n : ℕ) : Tracks (fun y => E (Bre.ifOk y fun p m =>
          (.ok (p.1 - t + p.2.1 + p.2.2), R.record m ⟨p.1, p.2.1⟩)))
        (scanForward text (inner.run Bre.startGuard R text) (rest.run Bre.startGuard R text) n t m)
        (scanForward text (inner.run Bre.startGuard R text) (rest.run noGuard R text) n t m) :=
      scanForward_tracks (E := fun _ => E) (ih hP.2)
        (fun t' adv b m h => hE.record _ m _ (hE.ok _ _ m h)) (fun _ _ h y => hE.noMatch _ h _)
        (fun _ _ _ h => h) n t m
    simp only [run, run_eq_of_groups_eq_zero noGuard Bre.startGuard hP.1]
    exact (hscan _).ifOk fun y hy => hy
  | dotStar rest ih =>
    unfold run
    cases scanEnd text t with
    | none => exact Or.inl rfl
    | some tcur =>
      have hscan (k : ℕ) : Tracks (fun y => E (Bre.ifOk y fun p m =>
            (.ok (p.1 - t + p.2), R.record m ⟨t, p.1 - t⟩)))
          (scanBack R.room (rest.run Bre.startGuard R text) t k m)
          (scanBack R.room (rest.run noGuard R text) t k m) :=
        scanBack_tracks (E := fun _ => E) (ih hP) (fun _ _ m h _ => hE.record _ m _ (hE.ok _ _ m h))
          (fun _ _ _ h hroom y => hE.full _ _ h hroom _) (fun _ _ h y => hE.noMatch _ h _)
          (fun _ _ _ h => h) k m
      exact (hscan _).ifOk fun y hy => hy
  | groupRep inner min max rest ihi ih =>
    have hrep : Tracks (fun y => E (Bre.ifOk y fun p m =>
          (.ok (p.1 + p.2), R.record m ⟨t, p.1⟩)))
        (matchRepeated (inner.run Bre.startGuard R text)
          (fun tpos m => (rest.run Bre.startGuard R text tpos m).map (Bre.startGuard t tpos) id)
          min max t m)
        (matchRepeated (inner.run Bre.startGuard R text)
          (fun tpos m => (rest.run noGuard R text tpos m).map (noGuard t tpos) id) min max t m) :=
      matchRepeated_tracks (fun tpos m => (ih hP.2 tpos m).startGuard t tpos) ?ok ?no ?stop m
    · simp only [run, run_eq_of_groups_eq_zero noGuard Bre.startGuard hP.1]
      exact hrep.ifOk fun y hy => hy
    case ok =>
      rintro tpos b m (h | ⟨hlt, -⟩)
      · exact hE.record _ m _ (hE.ok _ _ m h)
      · exact hE.negative _ m _ (by simp only; omega)
    case no =>
      rintro tpos m (h | ⟨-, ⟨n, hn⟩ | hs⟩) y
      · exact hE.noMatch _ h _
      · cases hn
      · cases hs
    case stop =>
      rintro tpos s m (h | ⟨-, ⟨n, hn⟩ | hs⟩)
      · exact h
      · cases hn
      · obtain rfl := Res.stop.inj hs
        exact hE.out m

/-- A run that is not stopped is the run of the code. -/
theorem Prog.run_eq_of_ne_misstep {R : Recorder σ} {text : CString} {P : Prog} (hP : P.Flat) {t : ℤ}
    {m : σ} (h : (P.run Bre.startGuard R text t m).1 ≠ .stop .misstep) :
    P.run noGuard R text t m = P.run Bre.startGuard R text t m := by
  have hE : Escape R fun _ => True :=
    ⟨fun _ _ _ => trivial, fun _ _ _ _ _ => trivial, fun _ _ _ _ => trivial,
      fun _ _ _ _ => trivial, fun _ _ _ _ => trivial, fun _ => trivial⟩
  rcases Prog.run_tracks hE text hP t m with heq | ⟨hs, -⟩
  · exact heq.symm
  · exact absurd hs h

/-- Where a run that keeps every capture is stopped, the code gets no verdict or captures a span
of negative length. -/
theorem Prog.run_of_misstep {text : CString} {P : Prog} (hP : P.Flat) {t : ℤ}
    (h : (P.run Bre.startGuard listRecorder text t []).1 = .stop .misstep) :
    (∃ s, s ≠ .error ∧ (P.run noGuard listRecorder text t []).1 = .stop s) ∨
      ∃ n l, P.run noGuard listRecorder text t [] = (.ok n, l) ∧ ∃ g ∈ l, g.length < 0 := by
  let E (y : Res ℤ × List Span) : Prop :=
    (∃ s, s ≠ .error ∧ y.1 = .stop s) ∨ ∃ n l, y = (.ok n, l) ∧ ∃ g ∈ l, g.length < 0
  have hE : Escape listRecorder E := by
    refine ⟨?_, fun _ _ _ h => absurd h Bool.noConfusion, ?_, ?_, ?_, fun _ => Or.inl ⟨_, by simp, rfl⟩⟩
    · rintro m (⟨s, -, h⟩ | ⟨n, l, h, -⟩)
      · cases h
      · cases h
    · rintro n n' m (⟨s, -, h⟩ | ⟨n, l, h, hneg⟩)
      · cases h
      · cases h
        exact Or.inr ⟨n', m, rfl, hneg⟩
    · rintro n m g (⟨s, -, h⟩ | ⟨n, l, h, g', hg', hneg⟩)
      · cases h
      · cases h
        exact Or.inr ⟨n, g :: m, rfl, g', by simp [hg'], hneg⟩
    · exact fun n m g hneg => Or.inr ⟨n, g :: m, rfl, g, by simp, hneg⟩
  rcases Prog.run_tracks hE text hP t [] with heq | ⟨-, h⟩
  · exact Or.inl ⟨.misstep, by simp, heq ▸ h⟩
  · exact h

theorem startGuard_mild : startGuard.Mild := by
  intro ti tpos
  refine ⟨rfl, fun s => ?_, fun n => ?_⟩
  · cases s with
    | outOfBounds => by_cases h : tpos < ti <;> simp [startGuard, h]
    | error | outOfFuel | misstep => exact ⟨_, rfl⟩
  · by_cases h : tpos < ti <;> simp [startGuard, h]

/-- An attempt that `bre_match` gets to takes up what follows a repeated group from before the
place where the repetition began, and it matches there or is out of the text. -/
def Missteps (text pattern : CString) : Prop :=
  ∃ s : ℕ, s ≤ lastStart text pattern ∧
    (∀ s' : ℕ, s' < s → (attempt text pattern s').1 = .noMatch) ∧
    ((Prog.ofPattern pattern).run startGuard codeRecorder text s {}).1 = .stop .misstep

/-- No read leaves the text, a match and its captures lie in it, and so do the copies that
`bre_substitute` makes. -/
structure StaysInside (text pattern : CString) : Prop where
  reads : breMatch text pattern ≠ .stop .outOfBounds
  spans : ∀ m, breMatch text pattern = .ok m →
    (⟨m.start, m.length⟩ : Span).Within 0 text.length ∧
      ∀ g ∈ m.groups, g.Within m.start (m.start + m.length)
  copies : ∀ replacement, breSubstitute text pattern replacement ≠ .undefined

theorem mem_insertFromRight {g x : Span} {l : List Span} :
    x ∈ insertFromRight g l ↔ x = g ∨ x ∈ l := by
  induction l with
  | nil => simp [insertFromRight]
  | cons h hs ih =>
    unfold insertFromRight
    split_ifs
    · simp
    · simp only [List.mem_cons, ih]
      tauto

theorem mem_sortGroups {x : Span} {gs : List Span} : x ∈ sortGroups gs ↔ x ∈ gs := by
  have h (acc : List Span) :
      x ∈ gs.foldl (fun sorted g => insertFromRight g sorted) acc ↔ x ∈ acc ∨ x ∈ gs := by
    induction gs generalizing acc with
    | nil => simp
    | cons g gs ih =>
      simp only [List.foldl_cons, ih, mem_insertFromRight, List.mem_cons]
      tauto
  simp [sortGroups, h]

theorem copyBytes_isSome (text : CString) (i n : ℤ) (h : (⟨i, n⟩ : Span).Within 0 text.length) :
    (copyBytes text i n).isSome := by
  obtain ⟨h0, hn, hle⟩ := h
  unfold copyBytes
  rw [if_pos ⟨h0, hn, hle⟩]
  rfl

theorem expandReplacement_isSome (text : CString) (m : BreMatch)
    (h : ∀ g ∈ m.groups, g.Within 0 text.length) (l : List Byte) :
    (expandReplacement text m l).isSome := by
  fun_induction expandReplacement text m l with
  | case1 => rfl
  | case2 r => rfl
  | case3 r d rest hd g hg h0 ih =>
    obtain ⟨span, hspan⟩ := Option.isSome_iff_exists.mp
      (copyBytes_isSome text g.start g.length (h g (List.mem_of_getElem? hg)))
    obtain ⟨tail, htail⟩ := Option.isSome_iff_exists.mp ih
    simp [hspan, htail]
  | case4 r d rest hd g hg h0 ih => exact ih
  | case5 r d rest hd hg ih => exact ih
  | case6 r d rest hd ih => simpa using ih

/-- The copies of `bre_substitute` are fine when the match it is given is. -/
theorem breSubstitute_ne_undefined {text pattern : CString}
    (hstop : ∀ s, breMatch text pattern = .stop s → s = .error)
    (hspans : ∀ m, breMatch text pattern = .ok m →
      (⟨m.start, m.length⟩ : Span).Within 0 text.length ∧
        ∀ g ∈ m.groups, g.Within m.start (m.start + m.length)) (replacement : CString) :
    breSubstitute text pattern replacement ≠ .undefined := by
  unfold breSubstitute
  cases hb : breMatch text pattern with
  | noMatch => simp
  | stop s =>
    obtain rfl := hstop s hb
    simp
  | ok m =>
    obtain ⟨⟨h0, hlen, hend⟩, hgroups⟩ := hspans m hb
    simp only at h0 hlen hend
    obtain ⟨pre, hpre⟩ := Option.isSome_iff_exists.mp
      (copyBytes_isSome text 0 m.start ⟨le_rfl, h0, by simp only; omega⟩)
    obtain ⟨suf, hsuf⟩ := Option.isSome_iff_exists.mp
      (copyBytes_isSome text (m.start + m.length) (text.length - (m.start + m.length))
        ⟨by simp only; omega, by simp only; omega, by simp⟩)
    obtain ⟨mid, hmid⟩ := Option.isSome_iff_exists.mp
      (expandReplacement_isSome text m
        (fun g hg => (hgroups g hg).mono h0 hend) replacement.bytes)
    simp [hpre, hmid, hsuf, not_lt.mpr h0]

/-- The attempts that `bre_match` gets to, when none of them takes a false step. -/
theorem attempt_fits {text pattern : CString} (h : ¬ Missteps text pattern) {s : ℕ}
    (hs : s ≤ lastStart text pattern)
    (hbefore : ∀ s' : ℕ, s' < s → (attempt text pattern s').1 = .noMatch) :
    Meets ((Prog.ofPattern pattern).Leaves {}) ((Prog.ofPattern pattern).Fits text s {}) (· = .error)
      (attempt text pattern s) := by
  have hflat := Prog.ofPattern_flat pattern
  have hguard : ((Prog.ofPattern pattern).run startGuard codeRecorder text s {}).1 ≠ .stop .misstep :=
    fun hstop => h ⟨s, hs, hbefore, hstop⟩
  have hsame : attempt text pattern s = (Prog.ofPattern pattern).run startGuard codeRecorder text s {} :=
    Prog.run_eq_of_ne_misstep hflat hguard
  have hfits := Prog.run_fits text hflat s {}
  rw [← hsame] at hfits hguard
  have hin : (s : ℤ) ≤ text.length := by
    unfold lastStart at hs
    split_ifs at hs <;> omega
  rcases hatt : attempt text pattern s with ⟨r, m⟩
  rw [hatt] at hfits hguard
  cases r with
  | noMatch => exact hfits
  | ok n => exact hfits
  | stop e =>
    obtain ⟨hfuel, hout⟩ := hfits
    cases e with
    | error => rfl
    | outOfBounds => exact absurd rfl (hout (by omega) hin)
    | outOfFuel => exact absurd rfl hfuel
    | misstep => exact absurd rfl hguard

theorem staysInside_of_not_missteps {text pattern : CString} (h : ¬ Missteps text pattern) :
    StaysInside text pattern := by
  rcases breMatch_cases text pattern with ⟨hno, -⟩ | ⟨s, hs, hbefore, hne, heq⟩
  · exact ⟨by simp [hno], by simp [hno], breSubstitute_ne_undefined (by simp [hno]) (by simp [hno])⟩
  have hfits := attempt_fits h hs hbefore
  have hin := hs.trans (lastStart_le text pattern)
  rcases hatt : attempt text pattern s with ⟨r, m⟩
  rw [hatt] at hfits heq hne
  cases r with
  | noMatch => exact absurd rfl hne
  | stop e =>
    obtain rfl : e = .error := hfits
    simp only [report] at heq
    exact ⟨by simp [heq], by simp [heq], breSubstitute_ne_undefined (by simp [heq]) (by simp [heq])⟩
  | ok n =>
    obtain ⟨hn, hend, hgroups⟩ := hfits.inside (by omega) (by omega)
    have hspans : ∀ m', breMatch text pattern = .ok m' →
        (⟨m'.start, m'.length⟩ : Span).Within 0 text.length ∧
          ∀ g ∈ m'.groups, g.Within m'.start (m'.start + m'.length) := by
      intro m' hm'
      obtain rfl := Res.ok.inj (heq.symm.trans hm')
      obtain ⟨new, heq, hin, -⟩ := hgroups
      have hnew : m.groups = new := heq
      exact ⟨⟨by simp [BreMatch.finish], hn, hend⟩,
        fun g hg => hin g (hnew ▸ mem_sortGroups.mp hg)⟩
    simp only [report] at heq
    exact ⟨by simp [heq], hspans, breSubstitute_ne_undefined (by simp [heq]) hspans⟩

theorem not_staysInside_of_missteps {text pattern : CString}
    (hgroups : (Prog.ofPattern pattern).groups ≤ breMaxGroups) (h : Missteps text pattern) :
    ¬ StaysInside text pattern := by
  obtain ⟨s, hs, hbefore, hstop⟩ := h
  have hflat := Prog.ofPattern_flat pattern
  have hguarded := Prog.run_spans startGuard_mild text hflat hgroups s
  have hcode : Paired _ _ (attempt text pattern s) _ :=
    Prog.run_spans noGuard_mild text hflat hgroups s
  have hlist : ((Prog.ofPattern pattern).run startGuard listRecorder text s []).1 = .stop .misstep := by
    generalize (Prog.ofPattern pattern).run startGuard codeRecorder text s {} = x,
      (Prog.ofPattern pattern).run startGuard listRecorder text s [] = y at hguarded hstop
    cases hguarded with
    | ok b _ => cases hstop
    | noMatch _ => cases hstop
    | stop e _ _ => exact hstop
  have hbad := Prog.run_of_misstep hflat hlist
  have hreport := breMatch_eq_report hs hbefore
  rintro ⟨hreads, hspans, hcopies⟩
  generalize attempt text pattern s = x, (Prog.ofPattern pattern).run noGuard listRecorder text s [] = y
    at hcode hbad hreport
  cases hcode with
  | noMatch _ =>
    rcases hbad with ⟨e, -, he⟩ | ⟨n, l, he, -⟩
    · cases he
    · cases he
  | stop e m l =>
    rcases hbad with ⟨e', hne, he⟩ | ⟨n, l, he, -⟩
    · obtain rfl := Res.stop.inj he
      have hb : breMatch text pattern = .stop e := hreport (by simp)
      refine hcopies text ?_
      unfold breSubstitute
      rw [hb]
      cases e with
      | error => exact absurd rfl hne
      | outOfBounds | outOfFuel | misstep => rfl
    · cases he
  | @ok n m l hm =>
    rcases hbad with ⟨e, -, he⟩ | ⟨n', l', he, g, hg, hneg⟩
    · cases he
    · obtain rfl : l = l' := (Prod.mk.inj he).2
      have hb : breMatch text pattern = .ok (m.finish s n) := hreport (by simp)
      have hmem : g ∈ (m.finish s n).groups := mem_sortGroups.mpr (by simpa [hm.2] using hg)
      have hpos := ((hspans _ hb).2 g hmem).2.1
      omega

/-- The matcher stays inside its text unless it takes a false step; with at most nine groups, a
false step always shows. -/
theorem staysInside_iff (text pattern : CString) :
    (¬ Missteps text pattern → StaysInside text pattern) ∧
      ((Prog.ofPattern pattern).groups ≤ breMaxGroups →
        (StaysInside text pattern ↔ ¬ Missteps text pattern)) :=
  ⟨staysInside_of_not_missteps, fun hgroups =>
    ⟨fun h hm => not_staysInside_of_missteps hgroups hm h, staysInside_of_not_missteps⟩⟩

theorem staysInside_iff_ab :
    (Prog.ofPattern (.lit "\\(a\\)*b")).groups ≤ breMaxGroups ∧
      ¬ Missteps (.lit "ab") (.lit "\\(a\\)*b") ∧ StaysInside (.lit "ab") (.lit "\\(a\\)*b") := by
  have hno : ¬ Missteps (.lit "ab") (.lit "\\(a\\)*b") := by
    rintro ⟨s, hs, -, h⟩
    have hs : s = 0 ∨ s = 1 ∨ s = 2 := by
      have hlast : lastStart (.lit "ab") (.lit "\\(a\\)*b") = 2 := by decide
      omega
    rcases hs with rfl | rfl | rfl <;> revert h <;> decide +kernel
  have hgroups : (Prog.ofPattern (.lit "\\(a\\)*b")).groups ≤ breMaxGroups := by decide +kernel
  exact ⟨by decide +kernel, hno, ((staysInside_iff _ _).2 hgroups).mpr hno⟩

/-- An iteration that stays where it is is repeated to the end. -/
theorem countUp_stuck {once : ℤ → σ → Res ℤ × σ} {t : ℤ} {m : σ} (h : once t m = (.ok 0, m)) (n : ℕ)
    (advs : List ℤ) :
    countUp once n t advs m = (.ok (t, List.replicate n 0 ++ advs), m) := by
  induction n generalizing advs with
  | zero => rfl
  | succ n ih =>
    unfold countUp
    simp only [h, add_zero, ih]
    rw [List.replicate_succ', List.append_assoc]
    rfl

/-- An open repetition of nothing steps back although it has not moved. -/
theorem matchRepeated_stuck {once rest : ℤ → σ → Res ℤ × σ} {t : ℤ} {m m' : σ} {s : Stop}
    (honce : once t m = (.ok 0, m)) (hno : rest t m = (.noMatch, m))
    (hstop : rest (t - 1) m = (.stop s, m')) :
    matchRepeated once rest 0 (-1) t m = (.stop s, m') := by
  have hdown (n : ℕ) (hn : advsSize ≤ n) :
      countDown rest 0 (List.replicate (n + 2) 0) t m = (.stop s, m') := by
    rw [List.replicate_succ, List.replicate_succ]
    unfold countDown
    unfold countDown
    have hback : lastAdv (n + 1 + 1) 0 = 1 := if_neg (by omega)
    simp only [List.length_cons, List.length_replicate, hno, hback, hstop]
    rw [if_neg (by omega), if_neg (by omega)]
  unfold matchRepeated
  rw [countUp_stuck honce, List.append_nil, ifOk_ok]
  dsimp only
  rw [show maxPossible (-1) = 9998 + 2 from rfl, hdown 9998 (by decide)]
  rfl

theorem not_staysInside : ¬ ∀ text pattern, StaysInside text pattern := by
  intro h
  have hparse : Prog.ofPattern (.lit "\\(a*\\)*.") =
      .groupRep (.one (.literal 'a') 0 (-1) .done) 0 (-1) (.one .dot 1 1 .done) := by decide +kernel
  have ha : attempt (.lit "") (.lit "\\(a*\\)*.") 0 = (.stop .outOfBounds, {}) := by
    unfold attempt
    rw [hparse]
    have hbefore : (Prog.one .dot 1 1 .done).run noGuard codeRecorder (.lit "") (0 - 1) {} =
        (.stop .outOfBounds, {}) := by decide
    unfold Prog.run
    rw [matchRepeated_stuck (by decide) (by decide) (congrArg _ hbefore)]
    rfl
  refine (h (.lit "") (.lit "\\(a*\\)*.")).reads ?_
  rw [breMatch_eq_report (s := 0) (by decide) (by omega) (by simp [ha]), Nat.cast_zero, ha]
  rfl

end ValidcTools.Bre
