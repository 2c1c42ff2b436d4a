import ValidcTools.Bre.Program

/-! Rules for the loops of the matcher: what they do when the parts they call meet a contract. -/
namespace ValidcTools.Bre

variable {σ β : Type}

/-- A result: `Q` of the state when there is no match, `Ok` of a match, `Bad` of the other stops. -/
def Meets (Q : σ → Prop) (Ok : β → σ → Prop) (Bad : Stop → Prop) : Res β × σ → Prop
  | (.ok b, m) => Ok b m
  | (.noMatch, m) => Q m
  | (.stop s, _) => Bad s

@[simp] theorem meets_ok {Q : σ → Prop} {Ok : β → σ → Prop} {Bad : Stop → Prop} (b : β) (m : σ) :
    Meets Q Ok Bad (.ok b, m) ↔ Ok b m := Iff.rfl

@[simp] theorem meets_noMatch {Q : σ → Prop} {Ok : β → σ → Prop} {Bad : Stop → Prop} (m : σ) :
    Meets Q Ok Bad (.noMatch, m) ↔ Q m := Iff.rfl

@[simp] theorem meets_stop {Q : σ → Prop} {Ok : β → σ → Prop} {Bad : Stop → Prop} (s : Stop)
    (m : σ) : Meets Q Ok Bad (.stop s, m) ↔ Bad s := Iff.rfl

theorem Meets.mono {Q Q' : σ → Prop} {Ok Ok' : β → σ → Prop} {Bad Bad' : Stop → Prop}
    {r : Res β × σ} (h : Meets Q Ok Bad r) (hQ : ∀ m, Q m → Q' m)
    (hOk : ∀ b m, Ok b m → Ok' b m) (hBad : ∀ s, Bad s → Bad' s) : Meets Q' Ok' Bad' r := by
  rcases r with ⟨r, m⟩
  cases r with
  | ok b => exact hOk b m h
  | noMatch => exact hQ m h
  | stop s => exact hBad s h

theorem Meets.ifOk {α : Type} {Q Q' : σ → Prop} {Ok : α → σ → Prop} {Ok' : β → σ → Prop}
    {Bad : Stop → Prop} {r : Res α × σ} {f : α → σ → Res β × σ} (h : Meets Q' Ok Bad r)
    (hQ : ∀ m, Q' m → Q m) (hf : ∀ a m, Ok a m → Meets Q Ok' Bad (f a m)) :
    Meets Q Ok' Bad (Bre.ifOk r f) := by
  rcases r with ⟨r, m⟩
  cases r with
  | ok a => exact hf a m h
  | noMatch => exact hQ m h
  | stop s => exact h

section Loops

variable {Q : σ → Prop} {Bad : Stop → Prop} {rest : ℤ → σ → Res β × σ}

/-- The invariant `Inv` relates the advances made so far to the position. -/
theorem countUp_rule {Inv : List ℤ → ℤ → Prop} {once : ℤ → σ → Res ℤ × σ}
    (honce : ∀ advs t m, Inv advs t → Q m →
      Meets Q (fun adv m => Inv (adv :: advs) (t + adv) ∧ Q m) Bad (once t m))
    (n : ℕ) {advs : List ℤ} {t : ℤ} {m : σ} (hinv : Inv advs t) (hQ : Q m) :
    Meets (fun _ => False) (fun x m => Inv x.2 x.1 ∧ Q m) Bad (countUp once n t advs m) := by
  induction n generalizing advs t m with
  | zero => exact ⟨hinv, hQ⟩
  | succ n ih =>
    have h := honce advs t m hinv hQ
    unfold countUp
    rcases honce' : once t m with ⟨r, m'⟩
    rw [honce'] at h
    cases r with
    | ok adv => exact ih h.1 h.2
    | noMatch => exact ⟨hinv, h⟩
    | stop s => exact h

theorem countDown_rule {Inv : List ℤ → ℤ → Prop} {Ok : ℤ × β → σ → Prop} {min : ℤ}
    (hrest : ∀ advs t m, Inv advs t → Q m → Meets Q (fun b => Ok (t, b)) Bad (rest t m))
    (hback : ∀ adv advs t, Inv (adv :: advs) t → Inv advs (t - lastAdv (advs.length + 1) adv))
    {advs : List ℤ} {t : ℤ} {m : σ} (hinv : Inv advs t) (hQ : Q m) :
    Meets Q Ok Bad (countDown rest min advs t m) := by
  induction advs generalizing t m with
  | nil =>
    unfold countDown
    split_ifs
    · exact hQ
    · exact (hrest [] t m hinv hQ).ifOk (fun _ h => h) fun b m h => h
  | cons adv advs ih =>
    have h := hrest (adv :: advs) t m hinv hQ
    unfold countDown
    split_ifs
    · exact hQ
    · rcases hrest' : rest t m with ⟨r, m'⟩
      rw [hrest'] at h
      cases r with
      | ok b => exact h
      | noMatch => exact ih (hback adv advs t hinv) h
      | stop s => exact h

theorem matchRepeated_rule (Up Down : List ℤ → ℤ → Prop) {Ok : ℤ × β → σ → Prop}
    {once : ℤ → σ → Res ℤ × σ} {min max ti : ℤ}
    (honce : ∀ advs t m, Up advs t → Q m →
      Meets Q (fun adv m => Up (adv :: advs) (t + adv) ∧ Q m) Bad (once t m))
    (hdown : ∀ advs t, Up advs t → Down advs t)
    (hrest : ∀ advs t m, Down advs t → Q m → Meets Q (fun b => Ok (t - ti, b)) Bad (rest t m))
    (hback : ∀ adv advs t, Down (adv :: advs) t → Down advs (t - lastAdv (advs.length + 1) adv))
    {m : σ} (hinv : Up [] ti) (hQ : Q m) :
    Meets Q Ok Bad (matchRepeated once rest min max ti m) := by
  refine (countUp_rule honce (maxPossible max) hinv hQ).ifOk (fun _ h => h.elim) fun x m h => ?_
  have hd : Meets Q (fun x => Ok (x.1 - ti, x.2)) Bad (countDown rest min x.2 x.1 m) :=
    countDown_rule hrest hback (hdown _ _ h.1) h.2
  exact hd.ifOk (fun _ h => h) fun _ _ h => h

theorem scanBack_rule {room : σ → Bool} {Ok : ℤ × β → σ → Prop} {ti : ℤ} {k : ℕ}
    (hrest : ∀ (j : ℕ) m, j ≤ k → Q m →
      Meets Q (fun b m => if room m then Ok (ti + j, b) m else Q m) Bad (rest (ti + j) m))
    {m : σ} (hQ : Q m) : Meets Q Ok Bad (scanBack room rest ti k m) := by
  induction k generalizing m with
  | zero =>
    have h := hrest 0 m le_rfl hQ
    rw [Nat.cast_zero, add_zero] at h
    unfold scanBack
    rcases hrest' : rest ti m with ⟨r, m'⟩
    rw [hrest'] at h
    cases r with
    | ok b => by_cases hroom : room m' <;> simpa [Meets, hroom] using h
    | noMatch => exact h
    | stop s => exact h
  | succ k ih =>
    have h := hrest (k + 1) m le_rfl hQ
    have hbelow {m : σ} (hQ : Q m) := ih (fun j m hj => hrest j m (by omega)) hQ
    unfold scanBack
    rcases hrest' : rest (ti + (k + 1 : ℕ)) m with ⟨r, m'⟩
    rw [hrest'] at h
    cases r with
    | ok b =>
      by_cases hroom : room m'
      · simpa [Meets, hroom] using h
      · have h : Q m' := by simpa [Meets, hroom] using h
        simpa [hroom] using hbelow h
    | noMatch => exact hbelow h
    | stop s => exact h

theorem scanForward_rule {text : CString} {inner : ℤ → σ → Res ℤ × σ}
    (Pos : ℤ → Prop) {Ok : ℤ × ℤ × β → σ → Prop}
    (hread : ∀ t, Pos t → text.read? t = none → Bad .outOfBounds)
    (hstep : ∀ t b, Pos t → text.read? t = some b → b ≠ 0 → Pos (t + 1))
    (hinner : ∀ t b m, Pos t → text.read? t = some b → b ≠ 0 → Q m →
      Meets Q (fun adv m => Meets Q (fun b => Ok (t, adv, b)) Bad (rest (t + adv) m)) Bad (inner t m))
    (n : ℕ) {t : ℤ} {m : σ} (ht : Pos t) (hQ : Q m) :
    Meets Q Ok Bad (scanForward text inner rest n t m) := by
  induction n generalizing t m with
  | zero => exact hQ
  | succ n ih =>
    unfold scanForward
    cases hr : text.read? t with
    | none => exact hread t ht hr
    | some b =>
      by_cases hb : b = 0
      · simp only [hb, if_true]
        exact hQ
      have h := hinner t b m ht hr hb hQ
      simp only [hb, if_false]
      rcases hinner' : inner t m with ⟨r, m'⟩
      rw [hinner'] at h
      cases r with
      | stop s => exact h
      | noMatch => exact ih (hstep t b ht hr hb) h
      | ok adv =>
        rw [meets_ok] at h
        rcases hrest' : rest (t + adv) m' with ⟨r, m''⟩
        rw [hrest'] at h
        cases r with
        | ok b' => simpa [hrest'] using h
        | noMatch => simpa [hrest'] using ih (hstep t b ht hr hb) h
        | stop s => simpa [hrest'] using h

end Loops

/-- `x` is `y`, unless a guard stopped `x` where `y` satisfies `E`. -/
def Tracks (E : Res β × σ → Prop) (x y : Res β × σ) : Prop :=
  x = y ∨ x.1 = .stop .misstep ∧ E y

section Tracking

variable {γ : Type} {E : ℤ → Res β × σ → Prop} {E' : Res (ℤ × β) × σ → Prop}
  {rest rest' : ℤ → σ → Res β × σ}

theorem Tracks.ifOk {E : Res β × σ → Prop} {E' : Res γ × σ → Prop} {x y : Res β × σ}
    {f : β → σ → Res γ × σ} (h : Tracks E x y) (hE : ∀ y, E y → E' (Bre.ifOk y f)) :
    Tracks E' (Bre.ifOk x f) (Bre.ifOk y f) := by
  rcases h with rfl | ⟨hx, hy⟩
  · exact Or.inl rfl
  · rcases x with ⟨r, m⟩
    obtain rfl : r = .stop .misstep := hx
    exact Or.inr ⟨rfl, hE y hy⟩

theorem countDown_tracks {min : ℤ} (hrest : ∀ t m, Tracks (E t) (rest t m) (rest' t m))
    (hok : ∀ t b m, E t (.ok b, m) → E' (.ok (t, b), m))
    (hno : ∀ t m, E t (.noMatch, m) → ∀ y, E' y) (hstop : ∀ t s m, E t (.stop s, m) → E' (.stop s, m))
    (advs : List ℤ) (t : ℤ) (m : σ) :
    Tracks E' (countDown rest min advs t m) (countDown rest' min advs t m) := by
  induction advs generalizing t m with
  | nil =>
    unfold countDown
    split_ifs
    · exact Or.inl rfl
    · refine (hrest t m).ifOk fun y hy => ?_
      rcases y with ⟨r, m'⟩
      cases r with
      | ok b => exact hok t b m' hy
      | noMatch => exact hno t m' hy _
      | stop s => exact hstop t s m' hy
  | cons adv advs ih =>
    unfold countDown
    split_ifs
    · exact Or.inl rfl
    · rcases hrest t m with heq | ⟨hx, hy⟩
      · rw [heq]
        rcases rest' t m with ⟨r, m'⟩
        cases r with
        | ok b => exact Or.inl rfl
        | noMatch => exact ih _ m'
        | stop s => exact Or.inl rfl
      · refine Or.inr ⟨?_, ?_⟩
        · rcases hr : rest t m with ⟨r, m'⟩
          rw [hr] at hx
          obtain rfl : r = .stop .misstep := hx
          rfl
        · rcases hr : rest' t m with ⟨r, m'⟩
          rw [hr] at hy
          cases r with
          | ok b => exact hok t b m' hy
          | noMatch => exact hno t m' hy _
          | stop s => exact hstop t s m' hy

theorem matchRepeated_tracks {once : ℤ → σ → Res ℤ × σ} {min max ti : ℤ}
    (hrest : ∀ t m, Tracks (E t) (rest t m) (rest' t m))
    (hok : ∀ t b m, E t (.ok b, m) → E' (.ok (t - ti, b), m))
    (hno : ∀ t m, E t (.noMatch, m) → ∀ y, E' y) (hstop : ∀ t s m, E t (.stop s, m) → E' (.stop s, m))
    (m : σ) :
    Tracks E' (matchRepeated once rest min max ti m) (matchRepeated once rest' min max ti m) := by
  unfold matchRepeated
  rcases countUp once (maxPossible max) ti [] m with ⟨r, m'⟩
  cases r with
  | noMatch => exact Or.inl rfl
  | stop s => exact Or.inl rfl
  | ok x =>
    have hdown : Tracks (fun y => E' (Bre.ifOk y fun p m => (.ok (p.1 - ti, p.2), m)))
        (countDown rest min x.2 x.1 m') (countDown rest' min x.2 x.1 m') :=
      countDown_tracks hrest (fun t b m h => hok t b m h) (fun t m h y => hno t m h _)
        (fun t s m h => hstop t s m h) x.2 x.1 m'
    exact hdown.ifOk fun y hy => hy

theorem scanBack_tracks {room : σ → Bool} {ti : ℤ}
    (hrest : ∀ t m, Tracks (E t) (rest t m) (rest' t m))
    (hok : ∀ t b m, E t (.ok b, m) → room m → E' (.ok (t, b), m))
    (hfull : ∀ t b m, E t (.ok b, m) → room m = false → ∀ y, E' y)
    (hno : ∀ t m, E t (.noMatch, m) → ∀ y, E' y) (hstop : ∀ t s m, E t (.stop s, m) → E' (.stop s, m))
    (k : ℕ) (m : σ) :
    Tracks E' (scanBack room rest ti k m) (scanBack room rest' ti k m) := by
  have hstep (t : ℤ) (m : σ) (next : σ → Res (ℤ × β) × σ) (next' : σ → Res (ℤ × β) × σ)
      (hnext : ∀ m, Tracks E' (next m) (next' m)) :
      Tracks E'
        (match rest t m with
          | (.ok b, m) => if room m then (.ok (t, b), m) else next m
          | (.noMatch, m) => next m
          | (.stop s, m) => (.stop s, m))
        (match rest' t m with
          | (.ok b, m) => if room m then (.ok (t, b), m) else next' m
          | (.noMatch, m) => next' m
          | (.stop s, m) => (.stop s, m)) := by
    rcases hrest t m with heq | ⟨hx, hy⟩
    · rw [heq]
      rcases rest' t m with ⟨r, m'⟩
      cases r with
      | ok b =>
        by_cases hroom : room m'
        · simp [hroom, Tracks]
        · simpa [hroom] using hnext m'
      | noMatch => exact hnext m'
      | stop s => exact Or.inl rfl
    · refine Or.inr ⟨?_, ?_⟩
      · rcases hr : rest t m with ⟨r, m'⟩
        rw [hr] at hx
        obtain rfl : r = .stop .misstep := hx
        rfl
      · rcases hr : rest' t m with ⟨r, m'⟩
        rw [hr] at hy
        cases r with
        | ok b =>
          by_cases hroom : room m'
          · simpa [hroom] using hok t b m' hy hroom
          · exact hfull t b m' hy (by simpa using hroom) _
        | noMatch => exact hno t m' hy _
        | stop s => exact hstop t s m' hy
  induction k generalizing m with
  | zero => exact hstep ti m (fun m => (.noMatch, m)) (fun m => (.noMatch, m)) fun m => Or.inl rfl
  | succ k ih => exact hstep (ti + (k + 1 : ℕ)) m _ _ ih

theorem scanForward_tracks {text : CString} {inner : ℤ → σ → Res ℤ × σ}
    {E' : Res (ℤ × ℤ × β) × σ → Prop} (hrest : ∀ t m, Tracks (E t) (rest t m) (rest' t m))
    (hok : ∀ t adv b m, E (t + adv) (.ok b, m) → E' (.ok (t, adv, b), m))
    (hno : ∀ t m, E t (.noMatch, m) → ∀ y, E' y) (hstop : ∀ t s m, E t (.stop s, m) → E' (.stop s, m))
    (n : ℕ) (t : ℤ) (m : σ) :
    Tracks E' (scanForward text inner rest n t m) (scanForward text inner rest' n t m) := by
  induction n generalizing t m with
  | zero => exact Or.inl rfl
  | succ n ih =>
    unfold scanForward
    cases text.read? t with
    | none => exact Or.inl rfl
    | some b =>
      by_cases hb : b = 0
      · simp [hb, Tracks]
      simp only [hb, if_false]
      rcases inner t m with ⟨r, m⟩
      cases r with
      | noMatch => exact ih (t + 1) m
      | stop s => exact Or.inl rfl
      | ok adv =>
        rcases hrest (t + adv) m with heq | ⟨hx, hy⟩
        · simp only [heq]
          rcases rest' (t + adv) m with ⟨r, m'⟩
          cases r with
          | ok b => exact Or.inl rfl
          | noMatch => exact ih (t + 1) m'
          | stop s => exact Or.inl rfl
        · refine Or.inr ⟨?_, ?_⟩
          · rcases hr : rest (t + adv) m with ⟨r, m'⟩
            rw [hr] at hx
            obtain rfl : r = .stop .misstep := hx
            simp [hr]
          · rcases hr : rest' (t + adv) m with ⟨r, m'⟩
            rw [hr] at hy
            cases r with
            | ok b => simpa [hr] using hok t adv b m' hy
            | noMatch => exact hno _ m' hy _
            | stop s => simpa [hr] using hstop _ s m' hy

end Tracking

/-- Two runs with the same result, over states related by `S₁` after a match and by `S₀` where
there is none. -/
inductive Paired {τ : Type} (S₀ S₁ : σ → τ → Prop) : Res β × σ → Res β × τ → Prop
  | ok (b : β) {m : σ} {l : τ} (h : S₁ m l) : Paired S₀ S₁ (.ok b, m) (.ok b, l)
  | noMatch {m : σ} {l : τ} (h : S₀ m l) : Paired S₀ S₁ (.noMatch, m) (.noMatch, l)
  | stop (s : Stop) (m : σ) (l : τ) : Paired S₀ S₁ (.stop s, m) (.stop s, l)

section Pairing

variable {τ γ : Type} {S₀ S₁ : σ → τ → Prop} {rest : ℤ → σ → Res β × σ} {rest' : ℤ → τ → Res β × τ}
  {once : ℤ → σ → Res ℤ × σ} {once' : ℤ → τ → Res ℤ × τ}

theorem Paired.ifOk {S : σ → τ → Prop} {x : Res β × σ} {y : Res β × τ} {f : β → σ → Res γ × σ}
    {g : β → τ → Res γ × τ} (h : Paired S₀ S x y)
    (hf : ∀ b m l, S m l → Paired S₀ S₁ (f b m) (g b l)) :
    Paired S₀ S₁ (Bre.ifOk x f) (Bre.ifOk y g) := by
  cases h with
  | ok b h => exact hf b _ _ h
  | noMatch h => exact .noMatch h
  | stop s m l => exact .stop s m l

theorem countUp_paired
    (honce : ∀ t m l, S₀ m l → Paired S₀ S₀ (once t m) (once' t l)) (n : ℕ) (t : ℤ) (advs : List ℤ)
    {m : σ} {l : τ} (h : S₀ m l) :
    Paired S₀ S₀ (countUp once n t advs m) (countUp once' n t advs l) := by
  induction n generalizing t advs m l with
  | zero => exact .ok _ h
  | succ n ih =>
    have hstep := honce t m l h
    unfold countUp
    generalize once t m = x, once' t l = y at hstep
    cases hstep with
    | ok adv h => exact ih (t + adv) (adv :: advs) h
    | noMatch h => exact .ok _ h
    | stop s m l => exact .stop s m l

theorem countDown_paired
    (hrest : ∀ t m l, S₀ m l → Paired S₀ S₁ (rest t m) (rest' t l)) (min : ℤ) (advs : List ℤ)
    (t : ℤ) {m : σ} {l : τ} (h : S₀ m l) :
    Paired S₀ S₁ (countDown rest min advs t m) (countDown rest' min advs t l) := by
  induction advs generalizing t m l with
  | nil =>
    unfold countDown
    split_ifs
    · exact .noMatch h
    · exact (hrest t m l h).ifOk fun b m l h => .ok _ h
  | cons adv advs ih =>
    have hstep := hrest t m l h
    unfold countDown
    split_ifs
    · exact .noMatch h
    · generalize rest t m = x, rest' t l = y at hstep
      cases hstep with
      | ok b h => exact .ok _ h
      | noMatch h => exact ih _ h
      | stop s m l => exact .stop s m l

variable (S₀ S₁) in
theorem matchRepeated_paired
    (honce : ∀ t m l, S₀ m l → Paired S₀ S₀ (once t m) (once' t l))
    (hrest : ∀ t m l, S₀ m l → Paired S₀ S₁ (rest t m) (rest' t l)) (min max t : ℤ)
    {m : σ} {l : τ} (h : S₀ m l) :
    Paired S₀ S₁ (matchRepeated once rest min max t m) (matchRepeated once' rest' min max t l) := by
  refine (countUp_paired honce _ t [] h).ifOk fun x m l h => ?_
  exact (countDown_paired hrest min x.2 x.1 h).ifOk fun y m l h => .ok _ h

variable (S₀ S₁) in
theorem scanBack_paired {room : σ → Bool} {room' : τ → Bool}
    (hrest : ∀ t m l, S₀ m l → Paired S₀ S₁ (rest t m) (rest' t l))
    (hroom : ∀ m l, S₁ m l → room m ∧ room' l) (t : ℤ) (k : ℕ) {m : σ} {l : τ} (h : S₀ m l) :
    Paired S₀ S₁ (scanBack room rest t k m) (scanBack room' rest' t k l) := by
  induction k generalizing m l with
  | zero =>
    have hstep := hrest t m l h
    unfold scanBack
    generalize rest t m = x, rest' t l = y at hstep
    cases hstep with
    | ok b h => simpa [hroom _ _ h] using Paired.ok _ h
    | noMatch h => exact .noMatch h
    | stop s m l => exact .stop s m l
  | succ k ih =>
    have hstep := hrest (t + (k + 1 : ℕ)) m l h
    unfold scanBack
    generalize rest (t + (k + 1 : ℕ)) m = x, rest' (t + (k + 1 : ℕ)) l = y at hstep
    cases hstep with
    | ok b h => simpa [hroom _ _ h] using Paired.ok _ h
    | noMatch h => exact ih h
    | stop s m l => exact .stop s m l

variable (S₀ S₁) in
theorem scanForward_paired {text : CString} (S : σ → τ → Prop)
    (hinner : ∀ t m l, S₀ m l → Paired S₀ S (once t m) (once' t l))
    (hrest : ∀ t m l, S m l → Paired S₀ S₁ (rest t m) (rest' t l)) (n : ℕ) (t : ℤ)
    {m : σ} {l : τ} (h : S₀ m l) :
    Paired S₀ S₁ (scanForward text once rest n t m) (scanForward text once' rest' n t l) := by
  induction n generalizing t m l with
  | zero => exact .noMatch h
  | succ n ih =>
    have hstep := hinner t m l h
    unfold scanForward
    cases text.read? t with
    | none => exact .stop _ m l
    | some b =>
      by_cases hb : b = 0
      · simpa [hb] using Paired.noMatch h
      simp only [hb, if_false]
      generalize once t m = x, once' t l = y at hstep
      cases hstep with
      | noMatch h => exact ih (t + 1) h
      | stop s m l => exact .stop s m l
      | @ok adv m l h =>
        have hafter := hrest (t + adv) m l h
        dsimp only
        generalize rest (t + adv) m = x, rest' (t + adv) l = y at hafter
        cases hafter with
        | ok b h => exact .ok _ h
        | noMatch h => exact ih (t + 1) h
        | stop s m l => exact .stop s m l

end Pairing

end ValidcTools.Bre
