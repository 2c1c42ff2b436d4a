import ValidcTools.Tr.Operand

/-! What the notes at the head of `tr.c` say of the output, beside what the loop writes. -/
namespace ValidcTools.Tr

/-! ## What the loop writes -/

/-- What the loop makes of one byte before it squeezes. -/
def Tables.image (o : Options) (t : Tables) (uc : Byte) : Option Byte :=
  if inLogicalSet1 o t.inSet1 uc then if o.delete then none else some (t.map uc) else some uc

/-- Runs of a byte of the set come down to one. -/
def squeezed (set : Byte → Bool) (l : List Byte) : List Byte := l.destutter fun a b => ¬(a = b ∧ set b = true)

/-- The last byte sent, and all of them -/
abbrev Sent := Option Byte × List Byte

def squeezeStep (set : Byte → Bool) (s : Sent) (b : Byte) : Sent :=
  if set b = true ∧ s.1 = some b then s else (some b, s.2 ++ [b])

theorem foldl_squeezeStep (set : Byte → Bool) (l : List Byte) :
    (l.foldl (squeezeStep set) (none, [])).2 = squeezed set l := by
  have hafter (l : List Byte) (a : Byte) (out : List Byte) :
      (l.foldl (squeezeStep set) (some a, out ++ [a])).2 =
        out ++ l.destutter' (fun a b => ¬(a = b ∧ set b = true)) a := by
    induction l generalizing a out with
    | nil => rfl
    | cons b l ih =>
      rw [List.foldl_cons]
      by_cases h : a = b ∧ set b = true
      · obtain ⟨rfl, ha⟩ := h
        have hstep : squeezeStep set (some a, out ++ [a]) a = (some a, out ++ [a]) := if_pos ⟨ha, rfl⟩
        rw [hstep, ih, List.destutter'_cons_neg _ (not_not.mpr ⟨rfl, ha⟩)]
      · have hstep : squeezeStep set (some a, out ++ [a]) b = (some b, (out ++ [a]) ++ [b]) :=
          if_neg fun hb => h ⟨Option.some.inj hb.2, hb.1⟩
        rw [hstep, ih, List.destutter'_cons_pos _ h, List.append_assoc]
        rfl
  cases l with
  | nil => rfl
  | cons b l =>
    have hstep : squeezeStep set (none, []) b = (some b, [] ++ [b]) := if_neg fun h => Option.some_ne_none b h.2.symm
    rw [List.foldl_cons, hstep]
    exact hafter l b []

/-- The state remembers the last byte sent when it is of the set. -/
structure Follows (set : Byte → Bool) (st : Carried) (written : List Byte) (s : Sent) : Prop where
  written : written = s.2
  last : ∀ b, set b = true → ((st.haveLastOut = true ∧ st.lastOut = b) ↔ s.1 = some b)

theorem Carried.append_sent (st : Carried) (uc : Byte) :
    (st.append uc).written ++ (st.append uc).outbuf = st.written ++ st.outbuf ++ [uc] := by
  unfold append
  split_ifs
  · exact (List.append_assoc _ _ _).symm
  · rfl

theorem Carried.append_last (st : Carried) (uc : Byte) :
    (st.append uc).haveLastOut = st.haveLastOut ∧ (st.append uc).lastOut = st.lastOut := by
  unfold append
  split_ifs
  · exact ⟨rfl, rfl⟩
  · exact ⟨rfl, rfl⟩

/-- The set that `-s` squeezes over -/
def Tables.set (o : Options) (t : Tables) (b : Byte) : Bool := o.squeeze && t.inSqueeze b

theorem Follows.send {o : Options} {t : Tables} {st : Carried} {s : Sent}
    (h : Follows (t.set o) st (st.written ++ st.outbuf) s) (b : Byte) :
    Follows (t.set o) (st.send o t b) ((st.send o t b).written ++ (st.send o t b).outbuf)
      (squeezeStep (t.set o) s b) := by
  unfold Carried.send
  by_cases hset : t.set o b = true
  · have hif : o.squeeze = true ∧ t.inSqueeze b = true := Bool.and_eq_true_iff.mp hset
    rw [if_pos hif]
    by_cases hlast : st.haveLastOut = true ∧ st.lastOut = b
    · rw [if_pos hlast]
      unfold squeezeStep
      rw [if_pos ⟨hset, (h.last b hset).mp hlast⟩]
      exact h
    · rw [if_neg hlast]
      unfold squeezeStep
      rw [if_neg fun hs => hlast ((h.last b hset).mpr hs.2)]
      refine ⟨?_, fun c hc => ?_⟩
      · rw [Carried.append_sent, h.written]
      · rw [(Carried.append_last _ b).1, (Carried.append_last _ b).2]
        exact ⟨fun hb => congrArg some hb.2, fun hb => ⟨rfl, Option.some.inj hb⟩⟩
  · have hif : ¬(o.squeeze = true ∧ t.inSqueeze b = true) := fun hb => hset (Bool.and_eq_true_iff.mpr hb)
    rw [if_neg hif]
    unfold squeezeStep
    rw [if_neg fun hs => hset hs.1]
    refine ⟨?_, fun c hc => ?_⟩
    · rw [Carried.append_sent, h.written]
    · rw [(Carried.append_last _ b).1]
      refine iff_of_false (fun hfalse => Bool.false_ne_true hfalse.1) fun hb => ?_
      rw [Option.some.inj hb] at hset
      exact hset hc

theorem Carried.take_eq (o : Options) (t : Tables) (st : Carried) (uc : Byte) :
    st.take o t uc = (t.image o uc).elim st (st.send o t) := by
  unfold Carried.take Tables.image
  split_ifs
  · rfl
  · rfl
  · rfl
  · rfl

theorem Follows.bytes {o : Options} {t : Tables} {st : Carried} {s : Sent}
    (h : Follows (t.set o) st (st.written ++ st.outbuf) s) (l : List Byte) :
    Follows (t.set o) (l.foldl (Carried.take o t) st)
      ((l.foldl (Carried.take o t) st).written ++ (l.foldl (Carried.take o t) st).outbuf)
      ((l.filterMap (t.image o)).foldl (squeezeStep (t.set o)) s) := by
  induction l generalizing st s with
  | nil => exact h
  | cons b l ih =>
    rw [List.foldl_cons, Carried.take_eq, List.filterMap_cons]
    cases t.image o b with
    | none => exact ih h
    | some c => exact ih (h.send c)

theorem Follows.block {o : Options} {t : Tables} {st : Carried} {s : Sent}
    (h : Follows (t.set o) st st.written s) (b : Block) :
    Follows (t.set o) (st.block o t b) (st.block o t b).written
      ((b.bytes.filterMap (t.image o)).foldl (squeezeStep (t.set o)) s) := by
  have hstart : Follows (t.set o) { st with outbuf := [] } (st.written ++ []) s :=
    ⟨(List.append_nil _).trans h.written, h.last⟩
  have hbytes := hstart.bytes b.bytes
  unfold Carried.block
  dsimp only
  split_ifs with hout
  · exact ⟨hbytes.written, hbytes.last⟩
  · rw [List.eq_nil_iff_length_eq_zero.mpr (Nat.eq_zero_of_not_pos hout), List.append_nil] at hbytes
    exact hbytes

/-- The output does not depend on the blocks in which the input comes. -/
theorem written_eq (o : Options) (t : Tables) (input : List Block) :
    (input.foldl (Carried.block o t) {}).written =
      squeezed (t.set o) ((input.flatMap Block.bytes).filterMap (t.image o)) := by
  have hrun (st : Carried) (s : Sent) (h : Follows (t.set o) st st.written s) :
      Follows (t.set o) (input.foldl (Carried.block o t) st) (input.foldl (Carried.block o t) st).written
        (((input.flatMap Block.bytes).filterMap (t.image o)).foldl (squeezeStep (t.set o)) s) := by
    induction input generalizing st s with
    | nil => exact h
    | cons b input ih =>
      rw [List.foldl_cons, List.flatMap_cons, List.filterMap_append, List.foldl_append]
      exact ih _ _ (h.block b)
  rw [← foldl_squeezeStep]
  refine (hrun {} (none, []) ⟨rfl, fun b _ => ?_⟩).written
  exact iff_of_false (fun h => Bool.false_ne_true h.1) (Option.some_ne_none b).symm

/-! ## The notes -/

/-- STRING1, and under `-c` the bytes that are not in it -/
def source (o : Options) (string1 : List Byte) : List Byte :=
  if o.complement then allBytes.filter (· ∉ string1) else string1

/-- STRING2, with its last element again for what is left of STRING1 -/
def extended (string1 string2 : List Byte) : List Byte :=
  match string2.getLast? with
  | none => []
  | some last => string2 ++ List.replicate (string1.length - string2.length) last

/-- The element of STRING2 that stands where `b` stands in STRING1; where it stands twice, the later
place counts. A byte that is not in STRING1 is its own. -/
def transliterate (string1 string2 : List Byte) (b : Byte) : Byte :=
  ((string1.zip (extended string1 string2)).reverse.lookup b).getD b

/-- What is left of the input by `-d`, or by transliteration -/
def mapped (o : Options) (string1 : List Byte) (string2 : Option (List Byte)) (input : List Byte) : List Byte :=
  if o.delete then input.filter (· ∉ source o string1)
  else
    match string2 with
    | none => input
    | some string2 => input.map (transliterate (source o string1) string2)

/-- The squeeze set: STRING2, or in its absence STRING1 -/
def squeezeSet (o : Options) (string1 : List Byte) (string2 : Option (List Byte)) (b : Byte) : Bool :=
  decide (b ∈ string2.getD (source o string1))

/-- The output that the notes describe. -/
def documented (o : Options) (string1 : List Byte) (string2 : Option (List Byte)) (input : List Byte) : List Byte :=
  if o.squeeze then squeezed (squeezeSet o string1 string2) (mapped o string1 string2 input)
  else mapped o string1 string2 input

/-- `main` writes what the notes describe, whatever the input. -/
def Implements (o : Options) (s1 : Operand false) (s2 : Option (Operand true)) : Prop :=
  ∀ input : List Block, main o (s1.string :: (s2.map Operand.string).toList) input =
    { status := 0, output := documented o s1.bytes (s2.map Operand.bytes) (input.flatMap Block.bytes) }

/-! ## The tables -/

theorem mark_iff (table : Byte → Bool) (buf : List Byte) (b : Byte) :
    mark table buf b = true ↔ b ∈ buf ∨ table b = true := by
  unfold mark
  induction buf generalizing table with
  | nil => simp
  | cons c buf ih =>
    rw [List.foldl_cons, ih, List.mem_cons]
    by_cases hb : b = c
    · simp [hb]
    · simp [hb]

theorem inSet1_iff (o : Options) (set1 set2 : List Byte) (b : Byte) :
    (buildTables o set1 set2).inSet1 b = true ↔ b ∈ set1 := by
  have heq : (buildTables o set1 set2).inSet1 = mark (fun _ => false) set1 := by
    unfold buildTables buildMembership
    dsimp only
    split_ifs
    · rfl
    · rfl
    · rfl
  rw [heq, mark_iff]
  exact or_iff_left Bool.false_ne_true

theorem inLogicalSet1_iff {o : Options} {inSet1 : Byte → Bool} {set1 : List Byte}
    (h : ∀ b, inSet1 b = true ↔ b ∈ set1) (b : Byte) : inLogicalSet1 o inSet1 b = true ↔ b ∈ source o set1 := by
  unfold inLogicalSet1 source
  split_ifs
  · rw [List.mem_filter, and_iff_right (mem_allBytes b), decide_eq_true_eq, ← h b, Bool.not_eq_true',
      Bool.not_eq_true]
  · exact h b

/-- The bytes that `-s` squeezes. -/
theorem set_iff (o : Options) (set1 set2 : List Byte) (b : Byte) :
    (buildTables o set1 set2).set o b = true ↔
      o.squeeze = true ∧ if o.delete = true ∨ set2 ≠ [] then b ∈ set2 else b ∈ source o set1 := by
  have hmark (buf : List Byte) : mark (fun _ => false) buf b = true ↔ b ∈ buf := by
    rw [mark_iff]
    exact or_iff_left Bool.false_ne_true
  unfold Tables.set
  rw [Bool.and_eq_true]
  refine and_congr_right fun hsqueeze => ?_
  unfold buildTables buildMembership
  dsimp only
  rw [if_pos hsqueeze]
  have hpos : set2.length > 0 ↔ set2 ≠ [] := List.length_pos_iff
  by_cases h : o.delete = true ∨ set2 ≠ []
  · rw [if_pos h, if_pos (h.imp_right hpos.mpr)]
    exact hmark set2
  · rw [if_neg h, if_neg fun h' => h (h'.imp_right hpos.mp)]
    refine inLogicalSet1_iff (fun c => ?_) b
    rw [mark_iff]
    exact or_iff_left Bool.false_ne_true

/-! ## The map -/

theorem foldl_update (f : Byte → Byte) (ps : List (Byte × Byte)) (b : Byte) :
    ps.foldl (fun m p => Function.update m p.1 p.2) f b = (ps.reverse.lookup b).getD (f b) := by
  induction ps using List.reverseRecOn with
  | nil => rfl
  | append_singleton ps p ih =>
    obtain ⟨src, c⟩ := p
    rw [List.foldl_append, List.reverse_append]
    by_cases hb : b = src
    · simp [hb]
    · have hne : (b == src) = false := beq_eq_false_iff_ne.mpr hb
      simp [hb, ih, List.lookup_cons, hne]

/-- Every entry of the map is one of the pairs in which STRING1 stands beside STRING2. -/
theorem zip_extended {set1 set2 : List Byte} (h : set2 ≠ []) :
    set1.zip (extended set1 set2) =
      (set1.take (min set1.length set2.length)).zip (set2.take (min set1.length set2.length)) ++
        (set1.drop (min set1.length set2.length)).map fun src => (src, set2.getD (set2.length - 1) 0) := by
  have hlast : set2.getLast? = some (set2.getD (set2.length - 1) 0) := by
    have hlt : set2.length - 1 < set2.length := Nat.sub_lt (List.length_pos_iff.mpr h) Nat.one_pos
    rw [List.getLast?_eq_getElem?, List.getD_eq_getElem _ _ hlt, List.getElem?_eq_getElem hlt]
  have hextended : extended set1 set2 =
      set2 ++ List.replicate (set1.length - set2.length) (set2.getD (set2.length - 1) 0) := by
    unfold extended
    rw [hlast]
  rw [hextended]
  have hreplicate (l : List Byte) (c : Byte) : l.zip (List.replicate l.length c) = l.map fun src => (src, c) := by
    induction l with
    | nil => rfl
    | cons b l ih => exact congrArg ((b, c) :: ·) ih
  cases Nat.le_total set1.length set2.length with
  | inl hle =>
    rw [Nat.sub_eq_zero_of_le hle, min_eq_left hle, List.take_length, List.drop_length, List.replicate_zero,
      List.append_nil, List.map_nil, List.append_nil, List.zip_eq_zip_take_min, min_eq_left hle, List.take_length]
  | inr hle =>
    have hlength : (set1.drop set2.length).length = set1.length - set2.length := List.length_drop
    rw [min_eq_right hle, List.take_length, ← hreplicate, hlength]
    conv_lhs => rw [← List.take_append_drop set2.length set1]
    rw [List.length_append, List.length_take, List.length_drop, min_eq_left hle, Nat.add_sub_cancel' hle]
    exact List.zip_append (List.length_take_of_le hle)

theorem setEntry_eq {o : Options} {inSet1 : Byte → Bool} {src : Byte} (h : inLogicalSet1 o inSet1 src = true)
    (map : Byte → Byte) (c : Byte) : setEntry o inSet1 map src c = Function.update map src c :=
  if_pos h

/-- The two loops of `build_transliteration_map`, for bytes that are all treated alike -/
theorem map_eq_foldl (o : Options) (set1 set2 : List Byte) :
    (buildTables o set1 set2).map = if o.delete = true then id
      else (set1.zip (extended set1 set2)).foldl
        (fun m p => setEntry o (buildTables o set1 set2).inSet1 m p.1 p.2) id := by
  change buildTransliterationMap o (buildTables o set1 set2).inSet1 set1 set2 = _
  unfold buildTransliterationMap
  by_cases hdelete : o.delete = true
  · rw [if_pos hdelete, if_pos hdelete]
  rw [if_neg hdelete, if_neg hdelete]
  have hmin : (if set1.length < set2.length then set1.length else set2.length) = min set1.length set2.length := by
    split_ifs <;> omega
  dsimp only
  rw [hmin]
  by_cases hset2 : set2 = []
  · subst hset2
    rw [if_neg fun h => absurd h.2 (lt_irrefl 0), List.take_nil, List.zip_nil_right]
    exact congrArg (List.foldl _ id) List.zip_nil_right.symm
  · rw [zip_extended hset2, List.foldl_append, List.foldl_map]
    by_cases hlonger : set1.length > min set1.length set2.length
    · rw [if_pos ⟨hlonger, List.length_pos_iff.mpr hset2⟩]
    · rw [if_neg fun h => hlonger h.1, List.drop_of_length_le (not_lt.mp hlonger)]
      rfl

theorem map_eq_id_of_complement {o : Options} (h : o.complement = true) (set1 set2 : List Byte) :
    (buildTables o set1 set2).map = id := by
  rw [map_eq_foldl]
  split_ifs
  · rfl
  · have hstay (ps : List (Byte × Byte)) (hps : ∀ p ∈ ps, p.1 ∈ set1) :
        ps.foldl (fun m p => setEntry o (buildTables o set1 set2).inSet1 m p.1 p.2) id = id := by
      induction ps with
      | nil => rfl
      | cons p ps ih =>
        have hmem : (buildTables o set1 set2).inSet1 p.1 = true :=
          (inSet1_iff o set1 set2 p.1).mpr (hps p List.mem_cons_self)
        have hno : setEntry o (buildTables o set1 set2).inSet1 id p.1 p.2 = id := by
          unfold setEntry inLogicalSet1
          rw [if_pos h, hmem]
          rfl
        rw [List.foldl_cons, hno]
        exact ih fun q hq => hps q (List.mem_cons_of_mem p hq)
    exact hstay _ fun p hp => (List.of_mem_zip hp).1

theorem map_eq_transliterate {o : Options} (hdelete : o.delete = false) (hcomplement : o.complement = false)
    (set1 set2 : List Byte) : (buildTables o set1 set2).map = transliterate set1 set2 := by
  rw [map_eq_foldl, if_neg (Bool.eq_false_iff.mp hdelete)]
  have hupdate (ps : List (Byte × Byte)) (hps : ∀ p ∈ ps, p.1 ∈ set1) (f : Byte → Byte) :
      ps.foldl (fun m p => setEntry o (buildTables o set1 set2).inSet1 m p.1 p.2) f =
        ps.foldl (fun m p => Function.update m p.1 p.2) f := by
    induction ps generalizing f with
    | nil => rfl
    | cons p ps ih =>
      have hmem : inLogicalSet1 o (buildTables o set1 set2).inSet1 p.1 = true := by
        unfold inLogicalSet1
        rw [if_neg (Bool.eq_false_iff.mp hcomplement)]
        exact (inSet1_iff o set1 set2 p.1).mpr (hps p List.mem_cons_self)
      rw [List.foldl_cons, List.foldl_cons, setEntry_eq hmem]
      exact ih (fun q hq => hps q (List.mem_cons_of_mem p hq)) _
  rw [hupdate _ (fun p hp => (List.of_mem_zip hp).1)]
  exact funext fun b => foldl_update id _ b

/-! ## Squeezing -/

theorem squeezed_congr {set set' : Byte → Bool} {l : List Byte} (h : ∀ b ∈ l, set b = set' b) :
    squeezed set l = squeezed set' l := by
  unfold squeezed
  have hmap : (l.destutter fun a b => ¬(a = b ∧ set b = true)).map id =
      (l.map id).destutter fun a b => ¬(a = b ∧ set' b = true) :=
    List.map_destutter fun a _ b hb => by rw [h b hb]; rfl
  rw [List.map_id, List.map_id] at hmap
  exact hmap

theorem squeezed_eq_self {set : Byte → Bool} {l : List Byte} (h : ∀ b ∈ l, set b = false) : squeezed set l = l := by
  rw [squeezed_congr h]
  refine List.destutter_of_isChain _ l (List.Pairwise.isChain ?_)
  exact List.pairwise_of_forall fun a b hab => Bool.false_ne_true hab.2

/-! ## STRING2 without a marker -/

/-- The bytes `0xFF`, `0xFE` and one more, which is how a request for padding is kept. -/
def HasMarker (string2 : List Byte) : Prop := ∃ u c v, string2 = u ++ 0xFF :: 0xFE :: c :: v

theorem resolveLoop_eq {len1 len2 : ℕ} {str : ℕ → Byte} (hlen : len2 < MAX_STRING)
    (h : ∀ i, i + 2 < len2 → ¬(str i = 0xFF ∧ str (i + 1) = 0xFE)) (i : ℕ) (hi : i ≤ len2) :
    resolveLoop len1 len2 str i i = some (str, len2) := by
  unfold resolveLoop
  by_cases hlt : i < len2
  · have hnext : resolveLoop len1 len2 str (i + 1) (i + 1) = some (str, len2) := resolveLoop_eq hlen h (i + 1) hlt
    rw [if_pos hlt, if_neg fun hmarker => h i hmarker.1 hmarker.2, if_neg (by omega), Function.update_eq_self]
    exact hnext
  · rw [if_neg hlt, le_antisymm hi (not_lt.mp hlt)]
termination_by len2 - i

theorem resolveString2Padding_eq {string2 : List Byte} (hlen : string2.length < MAX_STRING) (h : ¬HasMarker string2)
    (len1 : ℕ) : resolveString2Padding string2 len1 = some string2 := by
  have hno (i : ℕ) (hi : i + 2 < string2.length) : ¬(string2.getD i 0 = 0xFF ∧ string2.getD (i + 1) 0 = 0xFE) := by
    intro hmarker
    rw [List.getD_eq_getElem _ _ (by omega), List.getD_eq_getElem _ _ (by omega)] at hmarker
    refine h ⟨string2.take i, string2[i + 2], string2.drop (i + 3), ?_⟩
    rw [← hmarker.1, ← hmarker.2, ← List.drop_eq_getElem_cons hi, ← List.drop_eq_getElem_cons (by omega),
      ← List.drop_eq_getElem_cons (by omega), List.take_append_drop]
  unfold resolveString2Padding
  rw [resolveLoop_eq hlen hno 0 (Nat.zero_le _), Option.map_some]
  refine congrArg some (List.ext_getElem (by simp) fun i h1 h2 => ?_)
  simp [h2]

/-! ## The program and its notes -/

/-- The operands are read without loss: they fit, and STRING2 has nothing that looks like a marker. -/
structure Lossless (s1 : Operand false) (s2 : Option (Operand true)) : Prop where
  room1 : s1.bytes.length ≤ MAX_STRING
  room2 : ∀ t ∈ s2, t.bytes.length < MAX_STRING
  noMarker : ∀ t ∈ s2, ¬HasMarker t.bytes

/-- The notes are followed for the options: without `-d` there is a STRING2, under `-c` it leaves
every byte outside STRING1 as it is, and `-s` does not meet an empty one. -/
structure Served (o : Options) (s1 : Operand false) (s2 : Option (Operand true)) : Prop where
  given : o.delete = true ∨ s2 ≠ none
  complement : o.complement = true → o.delete = false →
    ∀ t ∈ s2, ∀ b, transliterate (source o s1.bytes) t.bytes b = b
  empty : o.squeeze = true → o.delete = false → ∀ t ∈ s2, t.bytes = [] → source o s1.bytes = []

theorem transliterate_of_notMem {string1 : List Byte} {b : Byte} (h : b ∉ string1) (string2 : List Byte) :
    transliterate string1 string2 b = b := by
  have hlookup : (string1.zip (extended string1 string2)).reverse.lookup b = none := by
    refine List.lookup_eq_none_iff.mpr fun p hp => ?_
    have hmem := (List.of_mem_zip (List.mem_reverse.mp hp)).1
    exact bne_iff_ne.mpr (ne_of_mem_of_not_mem hmem h).symm
  unfold transliterate
  rw [hlookup]
  rfl

theorem filterMap_image {o : Options} {set1 set2 : List Byte} (input : List Byte) :
    input.filterMap ((buildTables o set1 set2).image o) =
      if o.delete = true then input.filter (· ∉ source o set1)
      else input.map fun b => if b ∈ source o set1 then (buildTables o set1 set2).map b else b := by
  have himage (b : Byte) : (buildTables o set1 set2).image o b =
      if b ∈ source o set1 then if o.delete = true then none else some ((buildTables o set1 set2).map b)
      else some b := by
    unfold Tables.image
    simp only [inLogicalSet1_iff (inSet1_iff o set1 set2)]
  split_ifs with hdelete
  · rw [← List.filterMap_eq_filter]
    refine List.filterMap_congr fun b _ => ?_
    rw [himage, if_pos hdelete]
    by_cases hb : b ∈ source o set1
    · simp [Option.guard, hb]
    · simp [Option.guard, hb]
  · rw [← List.filterMap_eq_map]
    refine List.filterMap_congr fun b _ => ?_
    rw [himage, if_neg hdelete]
    exact (apply_ite some _ _ _).symm

theorem main_eq {o : Options} {s1 : CString} {s2 : Option CString} (h : o.delete = true ∨ s2 ≠ none)
    (input : List Block) : main o (s1 :: s2.toList) input =
      (expandOperands s1 s2).elim { status := 2 } fun sets =>
        { status := 0, output := squeezed ((buildTables o sets.1 sets.2).set o)
            ((input.flatMap Block.bytes).filterMap ((buildTables o sets.1 sets.2).image o)) } := by
  have hgiven : ¬((!o.delete) = true ∧ s2.toList = []) := by
    rw [Bool.not_eq_true', Option.toList_eq_nil_iff]
    exact fun hno => h.elim (Bool.eq_false_iff.mp hno.1) (· hno.2)
  have hfew : ¬s2.toList.length > 1 := by
    cases s2 with
    | none => exact Nat.not_lt_zero 1
    | some s2 => exact lt_irrefl 1
  have hhead : s2.toList.head? = s2 := by
    cases s2 with
    | none => rfl
    | some s2 => rfl
  unfold main
  dsimp only
  rw [if_neg hgiven, if_neg hfew, hhead]
  cases expandOperands s1 s2 with
  | none => rfl
  | some sets => exact congrArg (Outcome.mk 0) (written_eq o _ input)

theorem expandOperands_eq {s1 : Operand false} {s2 : Option (Operand true)} (h : Lossless s1 s2) :
    expandOperands s1.string (s2.map Operand.string) = some (s1.bytes, (s2.map Operand.bytes).getD []) := by
  unfold expandOperands
  rw [expandString_of_fits s1 h.room1]
  cases s2 with
  | none => rfl
  | some t =>
    dsimp only [Option.map_some]
    rw [expandString_of_fits t (h.room2 t rfl).le, Option.bind_some,
      resolveString2Padding_eq (h.room2 t rfl) (h.noMarker t rfl)]
    rfl

/-- Before squeezing, the loop does what the notes say. -/
theorem mapped_eq {o : Options} {s1 : Operand false} {s2 : Option (Operand true)} (h : Served o s1 s2)
    (input : List Byte) :
    input.filterMap ((buildTables o s1.bytes ((s2.map Operand.bytes).getD [])).image o) =
      mapped o s1.bytes (s2.map Operand.bytes) input := by
  rw [filterMap_image]
  unfold mapped
  by_cases hdelete : o.delete = true
  · rw [if_pos hdelete, if_pos hdelete]
  rw [if_neg hdelete, if_neg hdelete]
  cases s2 with
  | none => exact absurd rfl (h.given.resolve_left hdelete)
  | some t =>
    refine List.map_congr_left fun b _ => ?_
    dsimp only [Option.map_some, Option.getD_some]
    by_cases hcomplement : o.complement = true
    · rw [map_eq_id_of_complement hcomplement, h.complement hcomplement (Bool.eq_false_iff.mpr hdelete) t rfl, id,
        ite_self]
    · have hsource : source o s1.bytes = s1.bytes := if_neg hcomplement
      rw [map_eq_transliterate (Bool.eq_false_iff.mpr hdelete) (Bool.eq_false_iff.mpr hcomplement), hsource]
      by_cases hb : b ∈ s1.bytes
      · rw [if_pos hb]
      · rw [if_neg hb, transliterate_of_notMem hb]

/-- The loop squeezes over the set that the notes give, as far as its bytes can be sent. -/
theorem set_eq {o : Options} {s1 : Operand false} {s2 : Option (Operand true)} (h : Served o s1 s2)
    (hsqueeze : o.squeeze = true) {input : List Byte} {b : Byte}
    (hb : b ∈ mapped o s1.bytes (s2.map Operand.bytes) input) :
    (buildTables o s1.bytes ((s2.map Operand.bytes).getD [])).set o b =
      squeezeSet o s1.bytes (s2.map Operand.bytes) b := by
  unfold squeezeSet
  rw [Bool.eq_iff_iff, set_iff, decide_eq_true_eq, and_iff_right hsqueeze]
  cases s2 with
  | none =>
    have hdelete := h.given.resolve_right fun hno => hno rfl
    unfold mapped at hb
    rw [if_pos hdelete] at hb
    rw [if_pos (Or.inl hdelete)]
    exact iff_of_false List.not_mem_nil (of_decide_eq_true (List.mem_filter.mp hb).2)
  | some t =>
    dsimp only [Option.map_some, Option.getD_some]
    split_ifs with hif
    · exact Iff.rfl
    · push Not at hif
      rw [h.empty hsqueeze (Bool.eq_false_iff.mpr hif.1) t rfl hif.2, hif.2]

theorem implements_of_served {o : Options} {s1 : Operand false} {s2 : Option (Operand true)} (h : Served o s1 s2)
    (hlossless : Lossless s1 s2) : Implements o s1 s2 := by
  intro input
  have hgiven : o.delete = true ∨ s2.map Operand.string ≠ none := h.given.imp_right (mt Option.map_eq_none_iff.mp)
  rw [main_eq hgiven, expandOperands_eq hlossless]
  refine congrArg (Outcome.mk 0) ?_
  dsimp only
  rw [mapped_eq h]
  unfold documented
  split_ifs with hsqueeze
  · exact squeezed_congr fun b hb => set_eq h hsqueeze hb
  · refine squeezed_eq_self fun b _ => ?_
    rw [Bool.eq_false_iff, Ne, set_iff]
    exact fun hset => hsqueeze hset.1

/-! ## What following the notes needs -/

theorem given_of_implements {o : Options} {s1 : Operand false} {s2 : Option (Operand true)}
    (h : Implements o s1 s2) : o.delete = true ∨ s2 ≠ none := by
  by_contra hno
  push Not at hno
  obtain ⟨hdelete, rfl⟩ := hno
  have hmissing : main o [s1.string] [] = { status := 2 } :=
    if_pos ⟨(Bool.not_eq_true' _).mpr (Bool.eq_false_iff.mpr hdelete), rfl⟩
  exact absurd (congrArg Outcome.status (hmissing.symm.trans (h []))) (show (2 : ℕ) ≠ 0 by decide)

/-- Where the notes are followed the operands were expanded, and the tables give the output. -/
theorem sets_of_implements {o : Options} {s1 : Operand false} {s2 : Option (Operand true)}
    (h : Implements o s1 s2) : ∃ sets, expandOperands s1.string (s2.map Operand.string) = some sets ∧
      ∀ bytes : List Byte, 0 < bytes.length → bytes.length ≤ 4096 →
        squeezed ((buildTables o sets.1 sets.2).set o) (bytes.filterMap ((buildTables o sets.1 sets.2).image o)) =
          documented o s1.bytes (s2.map Operand.bytes) bytes := by
  have hgiven : o.delete = true ∨ s2.map Operand.string ≠ none :=
    (given_of_implements h).imp_right (mt Option.map_eq_none_iff.mp)
  have hrun (input : List Block) := (main_eq hgiven input).symm.trans (h input)
  cases hsets : expandOperands s1.string (s2.map Operand.string) with
  | none =>
    have hnone := hrun []
    rw [hsets] at hnone
    exact absurd (congrArg Outcome.status hnone) (show (2 : ℕ) ≠ 0 by decide)
  | some sets =>
    refine ⟨sets, rfl, fun bytes hpos hle => ?_⟩
    have hone := hrun [⟨bytes, hpos, hle⟩]
    rw [hsets, List.flatMap_singleton] at hone
    exact congrArg Outcome.output hone

theorem squeezed_singleton (set : Byte → Bool) (b : Byte) : squeezed set [b] = [b] := rfl

theorem squeezed_pair (set : Byte → Bool) (b : Byte) :
    squeezed set [b, b] = if set b = true then [b] else [b, b] := by
  unfold squeezed
  rw [List.destutter_pair]
  cases set b with
  | false => simp
  | true => simp

/-- A byte by itself, without `-d` -/
theorem documented_singleton {o : Options} (hdelete : o.delete = false) (string1 string2 : List Byte) (b : Byte) :
    documented o string1 (some string2) [b] = [transliterate (source o string1) string2 b] := by
  have hmapped : mapped o string1 (some string2) [b] = [transliterate (source o string1) string2 b] :=
    if_neg (Bool.eq_false_iff.mp hdelete)
  unfold documented
  rw [hmapped, squeezed_singleton, ite_self]

/-- An empty STRING2 changes and squeezes nothing. -/
theorem documented_nil {o : Options} (hdelete : o.delete = false) (string1 input : List Byte) :
    documented o string1 (some []) input = input := by
  have hstay (b : Byte) : transliterate (source o string1) [] b = b := by
    unfold transliterate extended
    rw [List.getLast?_nil, List.zip_nil_right]
    rfl
  have hmapped : mapped o string1 (some []) input = input := by
    unfold mapped
    rw [if_neg (Bool.eq_false_iff.mp hdelete)]
    exact List.map_id'' hstay input
  have hnone (b : Byte) : squeezeSet o string1 (some []) b = false := decide_eq_false List.not_mem_nil
  unfold documented
  rw [hmapped, squeezed_eq_self fun b _ => hnone b, ite_self]

theorem image_of_id {o : Options} {t : Tables} (hdelete : o.delete = false) (hmap : t.map = id) (bytes : List Byte) :
    bytes.filterMap (t.image o) = bytes := by
  have himage : t.image o = some := by
    funext b
    unfold Tables.image
    rw [if_neg (Bool.eq_false_iff.mp hdelete), hmap, id, ite_self]
  rw [himage, List.filterMap_some]

/-- A byte of STRING1 is in what was expanded of it, or one outside it is outside. -/
theorem exists_mem_source {o : Options} {string1 : List Byte} (h : source o string1 ≠ []) :
    ∃ b, b ∈ source o string1 ∧ b ∈ source o (string1.take MAX_STRING) := by
  unfold source at h ⊢
  split_ifs with hcomplement
  · rw [if_pos hcomplement] at h
    obtain ⟨b, hb⟩ := List.exists_mem_of_ne_nil _ h
    refine ⟨b, hb, ?_⟩
    rw [List.mem_filter, decide_eq_true_eq] at hb ⊢
    exact ⟨hb.1, fun hin => hb.2 (List.mem_of_mem_take hin)⟩
  · rw [if_neg hcomplement] at h
    cases string1 with
    | nil => exact absurd rfl h
    | cons b string1 => exact ⟨b, List.mem_cons_self, List.mem_cons_self⟩

theorem expandOperands_of_nil {s1 : Operand false} {t : Operand true} (h : t.bytes = []) {sets : List Byte × List Byte}
    (hsets : expandOperands s1.string (some t.string) = some sets) :
    sets = (s1.bytes.take MAX_STRING, []) := by
  have hroom : t.bytes.length < MAX_STRING := by
    rw [h]
    decide
  have hmarker : ¬HasMarker t.bytes := by
    rw [h]
    rintro ⟨u, c, v, huv⟩
    exact absurd (congrArg List.length huv) (by simp)
  unfold expandOperands at hsets
  cases hset1 : expandString s1.string false with
  | none =>
    rw [hset1] at hsets
    cases hsets
  | some set1 =>
    rw [hset1] at hsets
    dsimp only at hsets
    rw [expandString_of_fits t hroom.le, Option.bind_some, resolveString2Padding_eq hroom hmarker, h] at hsets
    rw [← Option.some.inj hsets, expandString_eq_some hset1]

theorem served_of_implements {o : Options} {s1 : Operand false} {s2 : Option (Operand true)}
    (h : Implements o s1 s2) : Served o s1 s2 := by
  obtain ⟨sets, hsets, hrun⟩ := sets_of_implements h
  refine ⟨given_of_implements h, fun hcomplement hdelete t ht b => ?_, fun hsqueeze hdelete t ht hnil => ?_⟩
  · obtain rfl := Option.mem_def.mp ht
    have hone := hrun [b] Nat.one_pos (show 1 ≤ 4096 by decide)
    rw [image_of_id hdelete (map_eq_id_of_complement hcomplement _ _), squeezed_singleton] at hone
    rw [Option.map_some, documented_singleton hdelete] at hone
    exact (List.cons.inj hone).1.symm
  · obtain rfl := Option.mem_def.mp ht
    obtain rfl := expandOperands_of_nil hnil hsets
    by_contra hne
    obtain ⟨b, hb, hbtake⟩ := exists_mem_source hne
    have hrun := hrun [b, b] Nat.two_pos (show 2 ≤ 4096 by decide)
    have hmap : (buildTables o (s1.bytes.take MAX_STRING) []).map = id := by
      rw [map_eq_foldl]
      split_ifs
      · rfl
      · exact congrArg (List.foldl _ id) List.zip_nil_right
    have hset : (buildTables o (s1.bytes.take MAX_STRING) []).set o b = true := by
      rw [set_iff, if_neg (by simp [hdelete])]
      exact ⟨hsqueeze, hbtake⟩
    rw [image_of_id hdelete hmap, squeezed_pair, if_pos hset, Option.map_some, hnil, documented_nil hdelete] at hrun
    exact absurd (congrArg List.length hrun) (show 1 ≠ 2 by decide)

/-- The notes are followed on operands that are read without loss exactly when the options and the
operands let them; and where those do not, never. -/
theorem implements_iff (o : Options) (s1 : Operand false) (s2 : Option (Operand true)) :
    (Lossless s1 s2 → (Implements o s1 s2 ↔ Served o s1 s2)) ∧ (¬Served o s1 s2 → ¬Implements o s1 s2) :=
  ⟨fun h => ⟨served_of_implements, fun hserved => implements_of_served hserved h⟩, mt served_of_implements⟩

/-- A literal byte by itself. -/
def Operand.byte (isString2 : Bool) (s : CString) (b : Byte) (hs : s.bytes = [b]) (hb : b ≠ '[') : Operand isString2 where
  string := s
  elements := [.literal b]
  spells := by
    have hplain : Plain isString2 [b] := by
      refine ⟨fun _ h => ?_, fun h => ?_, fun h => ?_⟩
      · obtain ⟨c, n, rest, heq, -⟩ := h
        exact hb (List.cons.inj heq).1
      · obtain ⟨name, rest, -, heq⟩ := h
        exact hb (List.cons.inj heq).1
      · obtain ⟨body, rest, heq⟩ := h
        exact hb (List.cons.inj heq).1
    rw [hs]
    exact .literal (fun c rest h => nomatch h) hplain .nil

set_option maxRecDepth 8192 in
/-- `tr -c a b` leaves `x` as it is. -/
theorem not_implements : ¬Implements { complement := true } (.byte false (.lit "a") 0x61 (by decide) (by decide))
    (some (.byte true (.lit "b") 0x62 (by decide) (by decide))) := by
  intro h
  have hstay := (served_of_implements h).complement rfl rfl _ rfl 0x78
  exact absurd hstay (by decide)

end ValidcTools.Tr
