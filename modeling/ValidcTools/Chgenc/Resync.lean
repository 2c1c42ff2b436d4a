import ValidcTools.Chgenc.RoundTrip

/-! What malformed UTF-8 takes with it when `chgenc` decodes it. -/
namespace ValidcTools.Chgenc

/-- How many bytes are read after a first byte, before any of them is looked at. -/
def announced (c : Byte) : ℕ :=
  if c < 0x80 then 0 else if c &&& 0xE0 = 0xC0 then 1 else if c &&& 0xF0 = 0xE0 then 2
  else if c &&& 0xF8 = 0xF0 then 3 else 0

/-- No byte below 0x80 is among those that a first byte announces. -/
inductive Undisturbed : List Byte → Prop
  | nil : Undisturbed []
  | cons {c : Byte} {s : List Byte} : (∀ b ∈ s.take (announced c), ¬b < 0x80) →
      Undisturbed (s.drop (announced c)) → Undisturbed (c :: s)

/-- The input behind its byte order mark. -/
def body (enc : Encoding) (b : List Byte) : List Byte :=
  if enc.mark <+: b then b.drop enc.mark.length else b

/-- The bytes below 0x80, as code points. -/
def asciiOf (s : List Byte) : List ℕ := (s.filter (· < 0x80)).map UInt8.toNat

/-- Only scalar values come out, and among them the bytes below 0x80 in their order. -/
def KeepsAscii (enc : Encoding) (b : List Byte) : Prop :=
  (∀ c ∈ (decode b enc).getD [], IsScalar c) ∧ (asciiOf (body enc b)).Sublist ((decode b enc).getD [])

/-! ## One sequence -/

/-- A scalar value that is not a byte below 0x80. -/
def IsHigh (v : ℕ) : Prop := 0x80 ≤ v ∧ IsScalar v

theorem isHigh_replacement : IsHigh 0xFFFD := ⟨by decide, by decide, by decide⟩

theorem toNat_and_le (c m : Byte) : (c &&& m).toNat ≤ m.toNat := by
  rw [UInt8.toNat_and]
  exact Nat.and_le_right

theorem toNat_and_lt (c : Byte) : (c &&& 0x3F).toNat < 2 ^ 6 :=
  Nat.lt_succ_of_le (toNat_and_le c 0x3F)

theorem isHigh_twoBytes (c c1 : Byte) : IsHigh ((twoBytes c c1).getD 0xFFFD) := by
  have hlead : (c &&& 0x1F).toNat ≤ 31 := toNat_and_le c 0x1F
  have hlow := toNat_and_lt c1
  unfold twoBytes
  split_ifs with htail
  · exact isHigh_replacement
  · dsimp only
    rw [shiftLeft_or _ hlow]
    split_ifs with hshort
    · exact isHigh_replacement
    · simp only [Option.getD_some, IsHigh, IsScalar]
      omega

theorem isHigh_threeBytes (c c1 c2 : Byte) : IsHigh ((threeBytes c c1 c2).getD 0xFFFD) := by
  have hlead : (c &&& 0x0F).toNat ≤ 15 := toNat_and_le c 0x0F
  have hlow1 := toNat_and_lt c1
  have hlow2 := toNat_and_lt c2
  unfold threeBytes
  split_ifs with htail
  · exact isHigh_replacement
  · dsimp only
    rw [three_fields _ hlow1 hlow2]
    split_ifs with hshort
    · exact isHigh_replacement
    · simp only [Option.getD_some, IsHigh, IsScalar]
      omega

theorem isHigh_fourBytes (c c1 c2 c3 : Byte) : IsHigh ((fourBytes c c1 c2 c3).getD 0xFFFD) := by
  unfold fourBytes
  split_ifs with htail
  · exact isHigh_replacement
  · dsimp only
    rw [four_fields _ (toNat_and_lt c1) (toNat_and_lt c2) (toNat_and_lt c3)]
    split_ifs with hrange
    · exact isHigh_replacement
    · simp only [Option.getD_some, IsHigh, IsScalar]
      omega

/-! ## The loop, one first byte at a time -/

/-- What the loop pushes. -/
def decoded (s : List Byte) : List ℕ := (decodeUtf8 s).map fun cp => cp.getD 0xFFFD

theorem decoded_nil : decoded [] = [] := rfl

theorem decoded_ascii {c : Byte} (h : c < 0x80) (s : List Byte) : decoded (c :: s) = c.toNat :: decoded s := by
  unfold decoded
  rw [decodeUtf8_one h]
  rfl

/-- One code point is pushed for a first byte and all it announces, also where the input ends before. -/
theorem decoded_lead {c : Byte} (h : ¬c < 0x80) (s : List Byte) :
    ∃ v, IsHigh v ∧ decoded (c :: s) = v :: decoded (s.drop (announced c)) := by
  unfold announced decoded
  conv => enter [1, v, 2, 1]; unfold decodeUtf8
  rw [if_neg h, if_neg h]
  by_cases htwo : c &&& 0xE0 = 0xC0
  · rw [if_pos htwo, if_pos htwo]
    cases s with
    | nil => exact ⟨_, isHigh_replacement, rfl⟩
    | cons c1 s => exact ⟨_, isHigh_twoBytes c c1, rfl⟩
  rw [if_neg htwo, if_neg htwo]
  by_cases hthree : c &&& 0xF0 = 0xE0
  · rw [if_pos hthree, if_pos hthree]
    rcases s with - | ⟨c1, - | ⟨c2, s⟩⟩
    · exact ⟨_, isHigh_replacement, rfl⟩
    · exact ⟨_, isHigh_replacement, rfl⟩
    · exact ⟨_, isHigh_threeBytes c c1 c2, rfl⟩
  rw [if_neg hthree, if_neg hthree]
  by_cases hfour : c &&& 0xF8 = 0xF0
  · rw [if_pos hfour, if_pos hfour]
    rcases s with - | ⟨c1, - | ⟨c2, - | ⟨c3, s⟩⟩⟩
    · exact ⟨_, isHigh_replacement, rfl⟩
    · exact ⟨_, isHigh_replacement, rfl⟩
    · exact ⟨_, isHigh_replacement, rfl⟩
    · exact ⟨_, isHigh_fourBytes c c1 c2 c3, rfl⟩
  rw [if_neg hfour, if_neg hfour]
  exact ⟨_, isHigh_replacement, rfl⟩

/-- What holds of a text when it holds of what a first byte leaves. -/
theorem byLead {motive : List Byte → Prop} (nil : motive [])
    (ascii : ∀ (c : Byte) (s : List Byte), c < 0x80 → motive s → motive (c :: s))
    (lead : ∀ (c : Byte) (s : List Byte), ¬c < 0x80 → motive (s.drop (announced c)) → motive (c :: s))
    (s : List Byte) : motive s := by
  induction hn : s.length using Nat.strong_induction_on generalizing s with
  | _ n ih =>
    cases s with
    | nil => exact nil
    | cons c s =>
      by_cases hc : c < 0x80
      · exact ascii c s hc (ih s.length (by rw [← hn]; exact Nat.lt_succ_self _) s rfl)
      · apply lead c s hc
        apply ih (s.drop (announced c)).length _ _ rfl
        rw [← hn, List.length_drop, List.length_cons]
        omega

/-! ## What comes out -/

theorem isScalar_of_mem_decoded (s : List Byte) : ∀ v ∈ decoded s, IsScalar v := by
  induction s using byLead with
  | nil => simp [decoded_nil]
  | ascii c s hc ih =>
    rw [decoded_ascii hc, List.forall_mem_cons]
    have hlt : c.toNat < 0x80 := hc
    exact ⟨⟨by omega, by omega⟩, ih⟩
  | lead c s hc ih =>
    obtain ⟨v, hv, heq⟩ := decoded_lead hc s
    rw [heq, List.forall_mem_cons]
    exact ⟨hv.2, ih⟩

theorem asciiOf_cons {c : Byte} (h : c < 0x80) (s : List Byte) : asciiOf (c :: s) = c.toNat :: asciiOf s := by
  unfold asciiOf
  rw [List.filter_cons_of_pos (by exact decide_eq_true h), List.map_cons]

/-- The bytes below 0x80 behind a byte that is none: those it announces and those behind. -/
theorem asciiOf_lead {c : Byte} (h : ¬c < 0x80) (s : List Byte) :
    asciiOf (c :: s) = asciiOf (s.take (announced c)) ++ asciiOf (s.drop (announced c)) := by
  unfold asciiOf
  rw [List.filter_cons_of_neg (by simpa using h), ← List.map_append, ← List.filter_append, List.take_append_drop]

theorem asciiOf_eq_nil_iff (s : List Byte) : asciiOf s = [] ↔ ∀ b ∈ s, ¬b < 0x80 := by
  simp [asciiOf, List.filter_eq_nil_iff]

theorem lt_of_mem_asciiOf {s : List Byte} {v : ℕ} (h : v ∈ asciiOf s) : v < 0x80 := by
  obtain ⟨b, hb, rfl⟩ := List.mem_map.mp h
  exact of_decide_eq_true (List.mem_filter.mp hb).2

theorem filter_asciiOf (s : List Byte) : (asciiOf s).filter (· < 0x80) = asciiOf s := by
  rw [List.filter_eq_self]
  intro v hv
  exact decide_eq_true (lt_of_mem_asciiOf hv)

/-- Nothing below 0x80 is made up. -/
theorem filter_decoded_sublist (s : List Byte) : ((decoded s).filter (· < 0x80)).Sublist (asciiOf s) := by
  induction s using byLead with
  | nil => exact List.Sublist.refl _
  | ascii c s hc ih =>
    have hlt : c.toNat < 0x80 := hc
    rw [decoded_ascii hc, asciiOf_cons hc, List.filter_cons_of_pos (by exact decide_eq_true hlt)]
    exact ih.cons_cons _
  | lead c s hc ih =>
    obtain ⟨v, hv, heq⟩ := decoded_lead hc s
    have hge : ¬v < 0x80 := Nat.not_lt.mpr hv.1
    rw [heq, asciiOf_lead hc, List.filter_cons_of_neg (by simpa using hge)]
    exact ih.trans (List.sublist_append_right _ _)

theorem undisturbed_ascii {c : Byte} (h : c < 0x80) (s : List Byte) : Undisturbed (c :: s) ↔ Undisturbed s := by
  have hnone : announced c = 0 := if_pos h
  constructor
  · intro hcons
    cases hcons with
    | cons hno hrest => rwa [hnone] at hrest
  · intro hrest
    apply Undisturbed.cons
    · rw [hnone]
      simp
    · rwa [hnone]

theorem undisturbed_lead (c : Byte) (s : List Byte) :
    Undisturbed (c :: s) ↔ asciiOf (s.take (announced c)) = [] ∧ Undisturbed (s.drop (announced c)) := by
  rw [asciiOf_eq_nil_iff]
  constructor
  · intro hcons
    cases hcons with
    | cons hno hrest => exact ⟨hno, hrest⟩
  · intro h
    exact .cons h.1 h.2

theorem asciiOf_sublist_iff (s : List Byte) : (asciiOf s).Sublist (decoded s) ↔ Undisturbed s := by
  induction s using byLead with
  | nil => exact ⟨fun _ => .nil, fun _ => List.Sublist.refl _⟩
  | ascii c s hc ih => rw [decoded_ascii hc, asciiOf_cons hc, undisturbed_ascii hc, List.cons_sublist_cons, ih]
  | lead c s hc ih =>
    obtain ⟨v, hv, heq⟩ := decoded_lead hc s
    have hge : ¬v < 0x80 := Nat.not_lt.mpr hv.1
    rw [heq, asciiOf_lead hc, undisturbed_lead, ← ih]
    constructor
    · intro h
      -- What is below 0x80 on the right comes from behind the announced bytes.
      have hbelow := h.filter (· < 0x80)
      rw [List.filter_append, filter_asciiOf, filter_asciiOf, List.filter_cons_of_neg (by simpa using hge)] at hbelow
      have hlen := (hbelow.trans (filter_decoded_sublist _)).length_le
      rw [List.length_append] at hlen
      have hnil : asciiOf (s.take (announced c)) = [] := List.length_eq_zero_iff.mp (by omega)
      refine ⟨hnil, ?_⟩
      rw [hnil, List.nil_append] at hbelow
      exact hbelow.trans List.filter_sublist
    · rintro ⟨hnil, hrest⟩
      rw [hnil, List.nil_append]
      exact hrest.cons v

theorem buffer_getD {α : Type} (out : List α) : (buffer out).getD [] = out := by
  unfold buffer
  split_ifs with h
  · exact h.symm
  · rfl

theorem decode_getD {enc : Encoding} (h : enc.decodeLoop = decodeUtf8) (b : List Byte) :
    (decode b enc).getD [] = decoded (body enc b) := by
  unfold decode decoded body
  rw [buffer_getD, h]

theorem keepsAscii_iff {enc : Encoding} (h : enc.decodeLoop = decodeUtf8) (b : List Byte) :
    KeepsAscii enc b ↔ Undisturbed (body enc b) := by
  unfold KeepsAscii
  rw [decode_getD h, asciiOf_sublist_iff, and_iff_right (isScalar_of_mem_decoded _)]

/-- Both names for UTF-8: what comes out are always scalar values, and the bytes below 0x80 are all
among them exactly when no first byte announces one. -/
theorem keepsAscii_iff_undisturbed (b : List Byte) :
    (KeepsAscii .utf8 b ↔ Undisturbed (body .utf8 b)) ∧ (KeepsAscii .utf8Bom b ↔ Undisturbed (body .utf8Bom b)) ∧
      ∀ c ∈ (decode b .utf8).getD [], IsScalar c := by
  refine ⟨keepsAscii_iff rfl b, keepsAscii_iff rfl b, ?_⟩
  rw [decode_getD rfl]
  exact isScalar_of_mem_decoded _

/-- `\xC2A` is decoded to U+FFFD alone, and so is `\xE2A`. -/
theorem not_keepsAscii : ¬KeepsAscii .utf8 [0xC2, 0x41] ∧ ¬KeepsAscii .utf8 [0xE2, 0x41] := by
  have hlost : ∀ c : Byte, decode [c, 0x41] .utf8 = some [0xFFFD] → body .utf8 [c, 0x41] = [c, 0x41] →
      asciiOf [c, 0x41] = [0x41] → ¬KeepsAscii .utf8 [c, 0x41] := by
    intro c hdecode hbody hascii hkeeps
    have hsub := hkeeps.2
    rw [hdecode, hbody, hascii] at hsub
    have hmem : (0x41 : ℕ) ∈ [0xFFFD] := hsub.subset List.mem_cons_self
    revert hmem
    decide
  exact ⟨hlost 0xC2 (by decide) (by decide) (by decide), hlost 0xE2 (by decide) (by decide) (by decide)⟩

end ValidcTools.Chgenc
