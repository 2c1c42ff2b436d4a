import ValidcTools.CString
import ValidcTools.Lib.Occurrences

/-! The shell's own strings. -/
namespace ValidcTools.Sh23

open Occurrences

/-- `INT_MAX` -/
def intMax : ℕ := 2147483647

/-- `String`; of the memory at `data`, the part that has been written -/
structure Str where
  data : Option (List Byte)
  length : ℕ
  capacity : ℕ
deriving DecidableEq

/-- What the functions that make and change strings leave. -/
inductive Str.Valid : Str → Prop
  | null : Valid ⟨none, 0, 0⟩
  | text (t : CString) (rest : List Byte) {capacity : ℕ} : t.length + 1 + rest.length ≤ capacity →
      capacity ≤ intMax → Valid ⟨some (t.bytes ++ 0 :: rest), t.length, capacity⟩

/-- The bytes up to `length` -/
def Str.bytes (s : Str) : List Byte := (s.data.getD []).take s.length

@[simp] theorem Str.bytes_null : Str.bytes ⟨none, 0, 0⟩ = [] := rfl

@[simp] theorem Str.bytes_text (t : CString) (rest : List Byte) (capacity : ℕ) :
    Str.bytes ⟨some (t.bytes ++ rest), t.length, capacity⟩ = t.bytes := List.take_left

theorem Str.Valid.length_bytes {s : Str} (h : s.Valid) : s.bytes.length = s.length := by
  cases h with
  | null => rfl
  | text t rest _ _ => rw [Str.bytes_text]; rfl

theorem Str.Valid.length_lt {s : Str} (h : s.Valid) : s.length < intMax := by
  cases h with
  | null => decide
  | text t rest hcap hmax => simp only at *; omega

/-! ## The functions

`none` is undefined behaviour, an end of the program by `log_fatal`, or a length that is no `int`. -/

/-- The loop of `string_ensure_capacity` -/
def growCapacity (needed newCapacity : ℕ) : Option ℕ :=
  if newCapacity < needed then
    if newCapacity = 0 ∨ intMax < newCapacity * 2 then none else growCapacity needed (newCapacity * 2)
  else some newCapacity
termination_by needed - newCapacity
decreasing_by omega

/-- `string_ensure_capacity` -/
def stringEnsureCapacity (str : Str) (needed : ℕ) : Option Str :=
  if needed ≤ str.capacity then some str
  else (growCapacity needed (if str.capacity = 0 then 16 else str.capacity)).map fun newCapacity =>
    { str with data := some (str.data.getD []), capacity := newCapacity }

/-- `memcpy(data + pos, bytes, ..)` -/
def memcpyAt (data : List Byte) (pos : ℕ) (bytes : List Byte) : List Byte :=
  data.take pos ++ bytes ++ data.drop (pos + bytes.length)

/-- `string_create_empty` -/
def stringCreateEmpty (capacity : ℕ) : Option Str :=
  if 0 < capacity then
    (stringEnsureCapacity ⟨none, 0, 0⟩ capacity).map fun str => { str with data := str.data.map (memcpyAt · 0 [0]) }
  else some ⟨none, 0, 0⟩

/-- `string_append_cstr` -/
def stringAppendCstr (str : Str) (data : List Byte) : Option Str :=
  let newLen := str.length + data.length + 1
  if intMax < newLen then none
  else
    (stringEnsureCapacity str newLen).bind fun str => str.data.map fun old =>
      { str with data := some (memcpyAt old str.length (data ++ [0])), length := str.length + data.length }

/-- `string_set_cstr` -/
def stringSetCstr (str : Str) (data : List Byte) : Option Str :=
  let newLen := data.length + 1
  if intMax < newLen then none
  else
    (stringEnsureCapacity str newLen).bind fun str => str.data.map fun old =>
      { str with data := some (memcpyAt old 0 (data ++ [0])), length := newLen - 1 }

/-- `strstr` -/
def strstr (haystack needle : List Byte) : Option ℕ := firstAt needle haystack

/-- The loop of `string_replace_cstr` -/
def replaceLoop (find : List Byte) (hfind : find ≠ []) (replace : List Byte) (maxReplacements : ℤ)
    (current : List Byte) (result : Str) (replacements : ℕ) : Option Str :=
  if current ≠ [] ∧ (maxReplacements = 0 ∨ replacements < maxReplacements) then
    match strstr current find with
    | none => stringAppendCstr result current
    | some next =>
      (stringAppendCstr result (current.take next)).bind fun result =>
        (stringAppendCstr result replace).bind fun result =>
          replaceLoop find hfind replace maxReplacements (current.drop (next + find.length)) result (replacements + 1)
  else some result
termination_by current.length
decreasing_by
  have hpos := List.length_pos_iff.mpr hfind
  have hcurrent := List.length_pos_iff.mpr (by tauto : current ≠ [])
  rw [List.length_drop]
  omega

/-- `string_replace_cstr`, with what it returns -/
def stringReplaceCstr (str : Str) (find replace : CString) (maxReplacements : ℤ) : Option (ℤ × Str) :=
  if hfind : find.bytes = [] then some (-1, str)
  else
    (stringCreateEmpty (str.length + 1)).bind fun result => str.data.bind fun data =>
      (replaceLoop find.bytes hfind replace.bytes maxReplacements (CString.ofBytes data).bytes result 0).bind
        fun result => (stringSetCstr str (CString.ofBytes (result.data.getD [])).bytes).map (0, ·)

/-! ## Capacities -/

/-- Doubling ends below twice what is needed. -/
theorem exists_growCapacity {needed capacity : ℕ} (hpos : 0 < capacity) (hmax : capacity ≤ intMax)
    (hneeded : needed ≤ 2 ^ 30) :
    ∃ c, growCapacity needed capacity = some c ∧ needed ≤ c ∧ capacity ≤ c ∧ c ≤ intMax := by
  have hint : (2 : ℕ) ^ 30 * 2 = intMax + 1 := by decide
  fun_induction growCapacity needed capacity with
  | case1 capacity hlt hstop => omega
  | case2 capacity hlt hstop ih =>
    obtain ⟨c, hc, hle, hcapacity, hcmax⟩ := ih (by omega) (by omega)
    exact ⟨c, hc, hle, by omega, hcmax⟩
  | case3 capacity hle => exact ⟨capacity, rfl, not_lt.mp hle, le_rfl, hmax⟩

/-- From 16 on the capacities are powers of two, of which 2^30 is the last that is an `int`. -/
theorem growCapacity_pow {needed j : ℕ} (hj : j ≤ 30) :
    (needed ≤ 2 ^ 30 → ∃ k ≤ 30, growCapacity needed (2 ^ j) = some (2 ^ k) ∧ needed ≤ 2 ^ k ∧ 2 ^ j ≤ 2 ^ k) ∧
      (2 ^ 30 < needed → growCapacity needed (2 ^ j) = none) := by
  induction hm : 30 - j generalizing j with
  | zero =>
    have hj30 : j = 30 := by omega
    subst hj30
    unfold growCapacity
    constructor
    · intro hneeded
      exact ⟨30, le_rfl, by rw [if_neg (by omega)], hneeded, le_rfl⟩
    · intro hneeded
      rw [if_pos hneeded, if_pos (by decide)]
  | succ m ih =>
    have hdouble : 2 ^ j * 2 = 2 ^ (j + 1) := (pow_succ 2 j).symm
    have hle : 2 ^ (j + 1) ≤ 2 ^ 30 := Nat.pow_le_pow_right (by decide) (by omega)
    have hmax : (2 : ℕ) ^ 30 < intMax := by decide
    have hpos : 0 < 2 ^ j := Nat.two_pow_pos j
    obtain ⟨hsome, hnone⟩ := ih (j := j + 1) (by omega) (by omega)
    unfold growCapacity
    rw [hdouble, if_neg (show ¬(2 ^ j = 0 ∨ intMax < 2 ^ (j + 1)) by omega)]
    constructor
    · intro hneeded
      split_ifs with hlt
      · obtain ⟨k, hk, hgrow, hfits, hmono⟩ := hsome hneeded
        exact ⟨k, hk, hgrow, hfits, by omega⟩
      · exact ⟨j, by omega, rfl, not_lt.mp hlt, le_rfl⟩
    · intro hneeded
      rw [if_pos (by omega), hnone hneeded]

/-! ## Building a text -/

/-- A text that has been built from an empty string. -/
inductive Built (t : List Byte) : Str → Prop
  | mk (rest : List Byte) (j : ℕ) : (0 : Byte) ∉ t → j ≤ 30 → t.length + 1 + rest.length ≤ 2 ^ j →
      Built t ⟨some (t ++ 0 :: rest), t.length, 2 ^ j⟩

theorem exists_stringCreateEmpty {capacity : ℕ} (hpos : 0 < capacity) (h : capacity ≤ 2 ^ 30) :
    ∃ str, stringCreateEmpty capacity = some str ∧ Built [] str := by
  obtain ⟨k, hk, hgrow, hfits, -⟩ := (growCapacity_pow (j := 4) (by decide)).1 h
  refine ⟨⟨some [0], 0, 2 ^ k⟩, ?_, .mk [] k List.not_mem_nil hk (by simpa using Nat.one_le_two_pow)⟩
  unfold stringCreateEmpty stringEnsureCapacity
  rw [if_pos hpos, if_neg (by simpa using hpos.ne'), if_pos rfl, show (16 : ℕ) = 2 ^ 4 by rfl, hgrow]
  rfl

theorem stringCreateEmpty_eq_none {capacity : ℕ} (h : 2 ^ 30 < capacity) : stringCreateEmpty capacity = none := by
  unfold stringCreateEmpty stringEnsureCapacity
  rw [if_pos (by omega), if_neg (by simp only; omega), if_pos rfl, show (16 : ℕ) = 2 ^ 4 by rfl,
    (growCapacity_pow (by decide)).2 h]
  rfl

theorem memcpyAt_append (t rest u : List Byte) :
    memcpyAt (t ++ 0 :: rest) t.length (u ++ [0]) = t ++ u ++ 0 :: rest.drop u.length := by
  unfold memcpyAt
  rw [List.take_left, List.length_append, List.length_singleton, ← List.drop_drop, List.drop_left,
    List.append_assoc, List.append_assoc, List.append_assoc, List.drop_succ_cons]
  rfl

theorem built_memcpyAt {t rest u : List Byte} {j : ℕ} (ht : (0 : Byte) ∉ t) (hu : (0 : Byte) ∉ u) (hj : j ≤ 30)
    (hrest : t.length + 1 + rest.length ≤ 2 ^ j) (hfits : t.length + u.length + 1 ≤ 2 ^ j) :
    Built (t ++ u) ⟨some (memcpyAt (t ++ 0 :: rest) t.length (u ++ [0])), t.length + u.length, 2 ^ j⟩ := by
  have hnul : (0 : Byte) ∉ t ++ u := by
    rw [List.mem_append]
    exact fun h => h.elim ht hu
  rw [memcpyAt_append, ← List.length_append]
  refine .mk (rest.drop u.length) j hnul hj ?_
  rw [List.length_append, List.length_drop]
  omega

theorem Built.exists_stringAppendCstr {t u : List Byte} {str : Str} (h : Built t str) (hu : (0 : Byte) ∉ u)
    (hfits : t.length + u.length + 1 ≤ 2 ^ 30) :
    ∃ str', stringAppendCstr str u = some str' ∧ Built (t ++ u) str' := by
  have hint : (2 : ℕ) ^ 30 < intMax := by decide
  cases h with
  | mk rest j ht hj hrest =>
    unfold stringAppendCstr stringEnsureCapacity
    simp only
    rw [if_neg (by omega)]
    split_ifs with hroom hzero
    · exact ⟨_, rfl, built_memcpyAt ht hu hj hrest hroom⟩
    · exact absurd hzero (Nat.two_pow_pos j).ne'
    · obtain ⟨k, hk, hgrow, hle, hmono⟩ := (growCapacity_pow hj).1 hfits
      rw [hgrow]
      exact ⟨_, rfl, built_memcpyAt ht hu hk (hrest.trans hmono) hle⟩

theorem Built.stringAppendCstr_eq_none {t u : List Byte} {str : Str} (h : Built t str)
    (hfits : 2 ^ 30 < t.length + u.length + 1) : stringAppendCstr str u = none := by
  cases h with
  | mk rest j ht hj hcapacity =>
    have hpow : 2 ^ j ≤ 2 ^ 30 := Nat.pow_le_pow_right (by decide) hj
    unfold stringAppendCstr stringEnsureCapacity
    simp only
    split_ifs with hmax hroom hzero
    · rfl
    · omega
    · exact absurd hzero (Nat.two_pow_pos j).ne'
    · rw [(growCapacity_pow hj).2 hfits]
      rfl

/-! ## Replacement -/

/-- How many replacements the limit still allows -/
def remaining (maxReplacements : ℤ) (replacements : ℕ) : ℕ∞ :=
  if maxReplacements = 0 then ⊤ else ((maxReplacements - replacements).toNat : ℕ∞)

theorem remaining_ne_zero_iff (m : ℤ) (n : ℕ) : remaining m n ≠ 0 ↔ m = 0 ∨ (n : ℤ) < m := by
  unfold remaining
  split_ifs with h0
  · simp [h0]
  · rw [Ne, Nat.cast_eq_zero]
    omega

theorem remaining_eq_succ {m : ℤ} {n : ℕ} (h : remaining m n ≠ 0) : remaining m n = remaining m (n + 1) + 1 := by
  rw [remaining_ne_zero_iff] at h
  unfold remaining
  split_ifs with h0
  · rfl
  · have hnat : (m - n).toNat = (m - (n + 1 : ℕ)).toNat + 1 := by omega
    rw [hnat, Nat.cast_succ]

/-- What the loop makes of a text cut at the occurrences: at the limit it leaves out the rest. -/
def loopText (k : ℕ∞) (replace : List Byte) (pres : List (List Byte)) (last : List Byte) : List Byte :=
  replaced replace pres (if pres.length = k then [] else last)

theorem loopText_succ (k : ℕ∞) (replace pre last : List Byte) (pres : List (List Byte)) :
    loopText (k + 1) replace (pre :: pres) last = pre ++ replace ++ loopText k replace pres last := by
  unfold loopText
  have hiff : ((pre :: pres).length : ℕ∞) = k + 1 ↔ (pres.length : ℕ∞) = k := by
    rw [List.length_cons, Nat.cast_succ]
    exact (ENat.add_left_injective_of_ne_top ENat.one_ne_top).eq_iff
  rw [replaced_cons]
  simp only [hiff]

theorem Built.length_lt {t : List Byte} {str : Str} (h : Built t str) : t.length + 1 ≤ 2 ^ 30 := by
  cases h with
  | mk rest j ht hj hrest =>
    have hpow : 2 ^ j ≤ 2 ^ 30 := Nat.pow_le_pow_right (by decide) hj
    omega

theorem replaceLoop_spec {find replace : List Byte} (hfind : find ≠ []) (hreplace : (0 : Byte) ∉ replace) {m : ℤ}
    {pres : List (List Byte)} {last : List Byte} {n : ℕ} {current t : List Byte} {result : Str}
    (h : FirstN (remaining m n) find current pres last) (hcurrent : (0 : Byte) ∉ current) (hbuilt : Built t result) :
    (t.length + (loopText (remaining m n) replace pres last).length + 1 ≤ 2 ^ 30 →
      ∃ str, replaceLoop find hfind replace m current result n = some str ∧
        Built (t ++ loopText (remaining m n) replace pres last) str) ∧
    (2 ^ 30 < t.length + (loopText (remaining m n) replace pres last).length + 1 →
      replaceLoop find hfind replace m current result n = none) := by
  induction pres generalizing n current t result with
  | nil =>
    obtain ⟨rfl, hstop⟩ := (firstN_nil_iff _ last).mp h
    have hlen := hbuilt.length_lt
    unfold replaceLoop
    by_cases h0 : remaining m n = 0
    · have hloop : ¬(last ≠ [] ∧ (m = 0 ∨ (n : ℤ) < m)) := by
        rw [← remaining_ne_zero_iff]
        exact fun hgo => hgo.2 h0
      rw [if_neg hloop, h0]
      exact ⟨fun _ => ⟨result, rfl, by simpa [loopText] using hbuilt⟩, fun hover => by simp [loopText] at hover; omega⟩
    have htext : loopText (remaining m n) replace [] last = last := by
      unfold loopText
      rw [if_neg (by simpa using Ne.symm h0), replaced_nil]
    rw [htext]
    by_cases hnil : last = []
    · rw [if_neg fun hgo => hgo.1 hnil]
      subst hnil
      exact ⟨fun _ => ⟨result, rfl, by simpa using hbuilt⟩, fun hover => by simp at hover; omega⟩
    · have hnone : strstr last find = none := firstAt_eq_none_iff.mpr (hstop.resolve_left h0)
      rw [if_pos ⟨hnil, (remaining_ne_zero_iff m n).mp h0⟩, hnone]
      exact ⟨hbuilt.exists_stringAppendCstr hcurrent, hbuilt.stringAppendCstr_eq_none⟩
  | cons pre pres ih =>
    have h0 : remaining m n ≠ 0 := by
      obtain ⟨k, hk⟩ := h.exists_succ
      simp [hk]
    rw [remaining_eq_succ h0, loopText_succ]
    rw [remaining_eq_succ h0] at h
    obtain ⟨rest, rfl, hfirst, hrest⟩ := (firstN_cons_iff _ pre last pres).mp h
    obtain ⟨hat, htake⟩ := firstAt_eq_some_length_iff.mpr ⟨rest, rfl, hfirst⟩
    have hdrop : (pre ++ find ++ rest).drop (pre.length + find.length) = rest := by
      rw [← List.length_append, List.drop_left]
    have hne : pre ++ find ++ rest ≠ [] := by simp [hfind]
    have hnul : (0 : Byte) ∉ pre ∧ (0 : Byte) ∉ rest := by
      simp only [List.mem_append, not_or] at hcurrent
      exact ⟨hcurrent.1.1, hcurrent.2⟩
    have hat' : strstr (pre ++ find ++ rest) find = some pre.length := hat
    unfold replaceLoop
    rw [if_pos ⟨hne, (remaining_ne_zero_iff m n).mp h0⟩, hat']
    simp only
    rw [htake, hdrop, List.length_append, List.length_append]
    by_cases hpre : t.length + pre.length + 1 ≤ 2 ^ 30
    · obtain ⟨r1, hr1, hbuilt1⟩ := hbuilt.exists_stringAppendCstr hnul.1 hpre
      rw [hr1, Option.bind_some]
      by_cases hrep : (t ++ pre).length + replace.length + 1 ≤ 2 ^ 30
      · obtain ⟨r2, hr2, hbuilt2⟩ := hbuilt1.exists_stringAppendCstr hreplace hrep
        have hnext := ih hrest hnul.2 hbuilt2
        rw [hr2, Option.bind_some]
        simp only [List.length_append, List.append_assoc] at hnext ⊢
        constructor
        · intro hfits
          exact hnext.1 (by omega)
        · intro hover
          exact hnext.2 (by omega)
      · rw [hbuilt1.stringAppendCstr_eq_none (not_le.mp hrep), Option.bind_none]
        rw [List.length_append] at hrep
        exact ⟨fun hfits => by omega, fun _ => rfl⟩
    · rw [hbuilt.stringAppendCstr_eq_none (not_le.mp hpre), Option.bind_none]
      exact ⟨fun hfits => by omega, fun _ => rfl⟩

theorem exists_stringSetCstr {t u : List Byte} {rest : List Byte} {capacity : ℕ} (hu : (0 : Byte) ∉ u)
    (hcapacity : t.length + 1 + rest.length ≤ capacity) (hmax : capacity ≤ intMax) (hfits : u.length + 1 ≤ 2 ^ 30) :
    ∃ str, stringSetCstr ⟨some (t ++ 0 :: rest), t.length, capacity⟩ u = some str ∧ str.Valid ∧ str.data ≠ none ∧
      str.bytes = u := by
  have hint : (2 : ℕ) ^ 30 < intMax := by decide
  have hcopy : memcpyAt (t ++ 0 :: rest) 0 (u ++ [0]) = u ++ 0 :: (t ++ 0 :: rest).drop (u.length + 1) := by
    unfold memcpyAt
    rw [List.take_zero, List.nil_append, Nat.zero_add, List.append_assoc, List.length_append]
    rfl
  have hresult (c : ℕ) (hle : u.length + 1 ≤ c) (hmono : capacity ≤ c) (hc : c ≤ intMax) :
      Str.Valid ⟨some (memcpyAt (t ++ 0 :: rest) 0 (u ++ [0])), u.length, c⟩ ∧
        Str.bytes ⟨some (memcpyAt (t ++ 0 :: rest) 0 (u ++ [0])), u.length, c⟩ = u := by
    rw [hcopy]
    refine ⟨.text ⟨u, hu⟩ _ ?_ hc, Str.bytes_text ⟨u, hu⟩ _ c⟩
    rw [List.length_drop, List.length_append, List.length_cons]
    change u.length + 1 + _ ≤ c
    omega
  unfold stringSetCstr stringEnsureCapacity
  simp only
  rw [if_neg (by omega)]
  split_ifs with hroom hzero
  · obtain ⟨hvalid, hbytes⟩ := hresult capacity hroom le_rfl hmax
    exact ⟨_, rfl, hvalid, Option.some_ne_none _, hbytes⟩
  · omega
  · obtain ⟨c, hgrow, hle, hmono, hc⟩ := exists_growCapacity (Nat.pos_of_ne_zero hzero) hmax hfits
    obtain ⟨hvalid, hbytes⟩ := hresult c hle hmono hc
    rw [hgrow]
    exact ⟨_, rfl, hvalid, Option.some_ne_none _, hbytes⟩

/-- The text ends at the NUL that `strlen` finds, where `length` says, within the capacity. -/
def Str.Holds (str : Str) (text : List Byte) : Prop :=
  ∃ data, str.data = some data ∧ 0 ∈ data ∧ (CString.ofBytes data).bytes = text ∧
    str.length = (CString.ofBytes data).length ∧ str.length < str.capacity

theorem Str.Valid.holds_iff {str : Str} (h : str.Valid) (hdata : str.data ≠ none) (text : List Byte) :
    str.Holds text ↔ str.bytes = text := by
  cases h with
  | null => exact absurd rfl hdata
  | text t rest hcapacity hmax =>
    rw [Str.bytes_text]
    constructor
    · rintro ⟨data, heq, -, htext, -⟩
      obtain rfl := Option.some.inj heq
      rwa [CString.ofBytes_append_zero] at htext
    · intro htext
      refine ⟨_, rfl, by simp, ?_, ?_, ?_⟩
      · rwa [CString.ofBytes_append_zero]
      · rw [CString.ofBytes_append_zero]
      · simp only
        omega

theorem loopText_eq_iff (k : ℕ∞) (replace : List Byte) (pres : List (List Byte)) (last : List Byte) :
    loopText k replace pres last = replaced replace pres last ↔ (pres.length = k → last = []) := by
  unfold loopText
  split_ifs with hk
  · unfold replaced
    rw [List.append_cancel_left_eq, eq_comm]
    exact ⟨fun h _ => h, fun h => h hk⟩
  · exact iff_of_true rfl fun h => absurd h hk

/-- The first occurrences are replaced, up to the limit, and the rest of the text is kept. -/
def Replaces (str : Str) (find replace : CString) (maxReplacements : ℤ) : Prop :=
  ∃ str', stringReplaceCstr str find replace maxReplacements = some (0, str') ∧
    ∀ pres last, FirstN (remaining maxReplacements 0) find.bytes str.bytes pres last →
      str'.Holds (replaced replace.bytes pres last)

section

variable {str : Str} (h : str.Valid) {find : CString} (hfind : find.bytes ≠ []) (replace : CString) (maxReplacements : ℤ)
  {pres : List (List Byte)} {last : List Byte}

include h hfind

/-- What the function makes of the string, when the sizes stay within the powers of two -/
theorem exists_stringReplaceCstr (hdata : str.data ≠ none) (hlen : str.length < 2 ^ 30)
    (hfirst : FirstN (remaining maxReplacements 0) find.bytes str.bytes pres last)
    (hfits : (loopText (remaining maxReplacements 0) replace.bytes pres last).length < 2 ^ 30) :
    ∃ str', stringReplaceCstr str find replace maxReplacements = some (0, str') ∧ str'.Valid ∧ str'.data ≠ none ∧
      str'.bytes = loopText (remaining maxReplacements 0) replace.bytes pres last := by
  cases h with
  | null => exact absurd rfl hdata
  | text t rest hcapacity hmax =>
    rw [Str.bytes_text] at hfirst
    obtain ⟨result, hempty, hbuilt⟩ := exists_stringCreateEmpty (Nat.succ_pos t.length) hlen
    obtain ⟨result', hloop, hbuilt'⟩ := (replaceLoop_spec hfind replace.nulFree hfirst t.nulFree hbuilt).1
      (by rw [List.length_nil]; omega)
    unfold stringReplaceCstr
    rw [dif_neg hfind, hempty]
    simp only [Option.bind_some]
    rw [CString.ofBytes_append_zero, hloop, Option.bind_some]
    rw [List.nil_append] at hbuilt'
    cases hbuilt' with
    | mk rest' j hnul hj hrest' =>
      rw [Option.getD_some, CString.ofBytes_append_zero ⟨_, hnul⟩]
      obtain ⟨str', hset, hvalid, hdata', hbytes⟩ := exists_stringSetCstr hnul hcapacity hmax (Nat.succ_le_iff.mpr hfits)
      exact ⟨str', congrArg (Option.map _) hset, hvalid, hdata', hbytes⟩

theorem stringReplaceCstr_eq_none
    (hfirst : FirstN (remaining maxReplacements 0) find.bytes str.bytes pres last)
    (hover : str.data = none ∨ 2 ^ 30 ≤ str.length ∨
      2 ^ 30 ≤ (loopText (remaining maxReplacements 0) replace.bytes pres last).length) :
    stringReplaceCstr str find replace maxReplacements = none := by
  unfold stringReplaceCstr
  rw [dif_neg hfind]
  by_cases hlen : str.length < 2 ^ 30
  · obtain ⟨result, hempty, hbuilt⟩ := exists_stringCreateEmpty (Nat.succ_pos str.length) hlen
    rw [hempty, Option.bind_some]
    cases h with
    | null => rfl
    | text t rest hcapacity hmax =>
      rw [Str.bytes_text] at hfirst
      have hlong := hover.resolve_left (Option.some_ne_none _) |>.resolve_left (not_le.mpr hlen)
      have hloop := (replaceLoop_spec hfind replace.nulFree hfirst t.nulFree hbuilt).2
        (by rw [List.length_nil]; omega)
      simp only [Option.bind_some]
      rw [CString.ofBytes_append_zero, hloop, Option.bind_none]
  · rw [stringCreateEmpty_eq_none (by omega), Option.bind_none]

/-- The string must hold a buffer, the text and the replaced text must be shorter than 2^30, and nothing may
stand behind the occurrence at which the limit is reached. -/
theorem replaces_iff :
    Replaces str find replace maxReplacements ↔ str.data ≠ none ∧ str.length < 2 ^ 30 ∧
      ∀ pres last, FirstN (remaining maxReplacements 0) find.bytes str.bytes pres last →
        (pres.length = remaining maxReplacements 0 → last = []) ∧ (replaced replace.bytes pres last).length < 2 ^ 30 := by
  obtain ⟨pres, last, hfirst⟩ := exists_firstN hfind (remaining maxReplacements 0) str.bytes
  have hall {P : List (List Byte) → List Byte → Prop} :
      (∀ pres last, FirstN (remaining maxReplacements 0) find.bytes str.bytes pres last → P pres last) ↔ P pres last := by
    constructor
    · intro hP
      exact hP pres last hfirst
    · intro hP pres' last' hfirst'
      obtain ⟨rfl, rfl⟩ := hfirst.unique hfirst'
      exact hP
  unfold Replaces
  simp only [hall]
  rw [← loopText_eq_iff]
  constructor
  · rintro ⟨str', hrun, hholds⟩
    have hran : stringReplaceCstr str find replace maxReplacements ≠ none := by simp [hrun]
    have hsizes := mt (stringReplaceCstr_eq_none h hfind replace maxReplacements hfirst) hran
    simp only [not_or, not_le] at hsizes
    obtain ⟨hdata, hlen, hfits⟩ := hsizes
    obtain ⟨str'', hrun', hvalid, hdata', hbytes⟩ :=
      exists_stringReplaceCstr h hfind replace maxReplacements hdata hlen hfirst hfits
    obtain rfl : str' = str'' := congrArg Prod.snd (Option.some.inj (hrun.symm.trans hrun'))
    rw [hvalid.holds_iff hdata', hbytes] at hholds
    exact ⟨hdata, hlen, hholds, hholds ▸ hfits⟩
  · rintro ⟨hdata, hlen, htext, hfits⟩
    obtain ⟨str', hrun, hvalid, hdata', hbytes⟩ :=
      exists_stringReplaceCstr h hfind replace maxReplacements hdata hlen hfirst (htext ▸ hfits)
    refine ⟨str', hrun, ?_⟩
    rw [hvalid.holds_iff hdata', hbytes]
    exact htext

end

/-- `aXbXc` -/
def twoMatches : Str := ⟨some [0x61, 0x58, 0x62, 0x58, 0x63, 0], 5, 16⟩

theorem twoMatches_valid : twoMatches.Valid :=
  .text ⟨[0x61, 0x58, 0x62, 0x58, 0x63], by decide⟩ [] (by decide) (by decide)

/-- One replacement leaves `a-`. -/
theorem not_replaces : twoMatches.Valid ∧ CString.bytes ⟨[0x58], by decide⟩ ≠ [] ∧
    ¬Replaces twoMatches ⟨[0x58], by decide⟩ ⟨[0x2D], by decide⟩ 1 := by
  refine ⟨twoMatches_valid, by decide, ?_⟩
  have hfirst : FirstN (remaining 1 0) [0x58] twoMatches.bytes [[0x61]] [0x62, 0x58, 0x63] := by
    have hchosen : Chosen [(0x58 : Byte)] ([0x61] ++ [0x58] ++ [0x62, 0x58, 0x63]) [[0x61]] [0x62, 0x58, 0x63] :=
      .next (by decide) (.rest _)
    exact ⟨hchosen, Or.inl (by simp [remaining])⟩
  have hfind : CString.bytes ⟨[0x58], by decide⟩ ≠ [] := by decide
  obtain ⟨str, hrun, hvalid, hdata, hbytes⟩ := exists_stringReplaceCstr twoMatches_valid hfind ⟨[0x2D], by decide⟩ 1 (Option.some_ne_none _) (by decide) hfirst (by simp [loopText, remaining, replaced])
  rintro ⟨str', hrun', hholds⟩
  obtain rfl : str = str' := congrArg Prod.snd (Option.some.inj (hrun.symm.trans hrun'))
  have htext := (hvalid.holds_iff hdata _).mp (hholds [[0x61]] [0x62, 0x58, 0x63] hfirst)
  rw [hbytes] at htext
  simp [loopText, remaining, replaced] at htext

theorem replaces_iff_twoMatches :
    Replaces twoMatches ⟨[0x58], by decide⟩ ⟨[0x2D], by decide⟩ 0 ↔
      twoMatches.data ≠ none ∧ twoMatches.length < 2 ^ 30 ∧
      ∀ pres last, FirstN (remaining 0 0) [0x58] twoMatches.bytes pres last →
        (pres.length = remaining 0 0 → last = []) ∧ (replaced [0x2D] pres last).length < 2 ^ 30 :=
  replaces_iff twoMatches_valid (by decide) ⟨[0x2D], by decide⟩ 0

end ValidcTools.Sh23
