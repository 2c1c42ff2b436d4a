import ValidcTools.Lib.Memory
import ValidcTools.Tr.Documented

/-! How the input of `tr` comes in blocks: what the blocks do to the output, and what the shared buffer does to them. -/
namespace ValidcTools.Tr
open Memory

/-! ## One stream -/

/-- The loop's body on a byte, without buffers: the squeezed byte that was sent last, if any, and what is sent. -/
def Tables.pass (o : Options) (t : Tables) (last : Option Byte) (uc : Byte) : Option Byte × List Byte :=
  match t.image o uc with
  | none => (last, [])
  | some c => if t.set o c then if last = some c then (last, []) else (some c, [c]) else (none, [c])

/-- What is made of a whole input, byte by byte. -/
def Tables.stream (o : Options) (t : Tables) : Option Byte → List Byte → List Byte
  | _, [] => []
  | last, uc :: rest => (t.pass o last uc).2 ++ t.stream o (t.pass o last uc).1 rest

theorem foldl_squeezeStep_image (o : Options) (t : Tables) (l : List Byte) {last : Option Byte} {s : Sent}
    (h : ∀ b, t.set o b = true → (last = some b ↔ s.1 = some b)) :
    ((l.filterMap (t.image o)).foldl (squeezeStep (t.set o)) s).2 = s.2 ++ t.stream o last l := by
  induction l generalizing last s with
  | nil => exact (List.append_nil _).symm
  | cons uc l ih =>
    rw [Tables.stream, Tables.pass, List.filterMap_cons]
    cases t.image o uc with
    | none => exact ih h
    | some c =>
      dsimp only
      rw [List.foldl_cons, squeezeStep]
      by_cases hset : t.set o c = true
      · rw [if_pos hset]
        by_cases hlast : last = some c
        · rw [if_pos hlast, if_pos ⟨hset, (h c hset).mp hlast⟩]
          exact ih h
        · rw [if_neg hlast, if_neg fun hs => hlast ((h c hset).mpr hs.2), ih fun b _ => Iff.rfl, List.append_assoc]
      · rw [if_neg hset, if_neg fun hs => hset hs.1]
        have hnext : ∀ b, t.set o b = true → (none = some b ↔ some c = some b) := by
          intro b hb
          refine iff_of_false (Option.some_ne_none b).symm fun hcb => hset ?_
          rw [Option.some.inj hcb]
          exact hb
        rw [ih hnext, List.append_assoc]

/-- The blocks leave no trace in the output, and no byte of the squeeze set stands beside itself. -/
theorem written_unbuffered (o : Options) (t : Tables) (input : List Block) :
    (input.foldl (Carried.block o t) {}).written = t.stream o none (input.flatMap Block.bytes) ∧
      (o.squeeze = true → (input.foldl (Carried.block o t) {}).written.IsChain
        fun a b => ¬(a = b ∧ t.inSqueeze b = true)) := by
  constructor
  · rw [written_eq, ← foldl_squeezeStep,
      @foldl_squeezeStep_image o t _ none (none, []) fun b _ => Iff.rfl]
    rfl
  · intro hsqueeze
    rw [written_eq]
    have hchain := List.isChain_destutter (fun a b => ¬(a = b ∧ t.set o b = true))
      ((input.flatMap Block.bytes).filterMap (t.image o))
    refine hchain.imp fun a b hab heq => hab ⟨heq.1, ?_⟩
    rw [Tables.set, hsqueeze, heq.2]
    rfl

/-! ## One array for two -/

/-- The `FILE` that `setvbuf` gave `inbuf` to: the array, and the stretch of it that is read but not delivered -/
structure Stream where
  inbuf : ℕ → Byte
  pos : ℕ
  stop : ℕ

/-- The next `n` bytes of the stream's buffer go to `inbuf + done`. -/
def Stream.copy (s : Stream) (done n : ℕ) : Stream :=
  { s with inbuf := store s.inbuf done (bytesAt s.inbuf s.pos n), pos := s.pos + n }

/-- `fread(inbuf, 1, sizeof inbuf, in)` when `done` bytes are delivered: their number in the end, the stream, and the
reads that are left -/
def freadLoop : List Block → Stream → ℕ → ℕ × Stream × List Block
  | [], s, done =>
    if 4096 - done ≤ s.stop - s.pos then (4096, s.copy done (4096 - done), [])
    else (done + (s.stop - s.pos), s.copy done (s.stop - s.pos), [])
  | b :: reads, s, done =>
    if 4096 - done ≤ s.stop - s.pos then (4096, s.copy done (4096 - done), b :: reads)
    else
      let mem := (s.copy done (s.stop - s.pos)).inbuf
      let copied := done + (s.stop - s.pos)
      if 4096 - copied < 4096 then
        -- less than a buffer is wanted: the buffer is filled again, from its start
        freadLoop reads { inbuf := store mem 0 b.bytes, pos := 0, stop := b.bytes.length } copied
      else freadLoop reads { inbuf := store mem copied b.bytes, pos := 0, stop := 0 } (copied + b.bytes.length)

def fread (reads : List Block) (s : Stream) : ℕ × Stream × List Block := freadLoop reads s 0

/-- How many bytes are still to come -/
def remaining (reads : List Block) (s : Stream) : ℕ := s.stop - s.pos + (reads.map fun b => b.bytes.length).sum

theorem freadLoop_remaining (reads : List Block) (s : Stream) {done : ℕ} (h : done ≤ 4096) :
    done ≤ (freadLoop reads s done).1 ∧
      (freadLoop reads s done).1 + remaining (freadLoop reads s done).2.2 (freadLoop reads s done).2.1 =
        done + remaining reads s := by
  induction reads generalizing s done with
  | nil =>
    unfold freadLoop remaining Stream.copy
    split_ifs
    · dsimp only
      omega
    · dsimp only
      omega
  | cons b reads ih =>
    unfold freadLoop
    dsimp only
    split_ifs
    · unfold remaining Stream.copy
      dsimp only
      omega
    · have hcopied : done + (s.stop - s.pos) ≤ 4096 := by omega
      have hrest := ih
        { inbuf := store (s.copy done (s.stop - s.pos)).inbuf 0 b.bytes, pos := 0, stop := b.bytes.length } hcopied
      refine ⟨by omega, hrest.2.trans ?_⟩
      unfold remaining
      rw [List.map_cons, List.sum_cons]
      dsimp only
      omega
    · have hb := b.le
      have hcopied : done + (s.stop - s.pos) + b.bytes.length ≤ 4096 := by omega
      have hrest := ih
        { inbuf := store (s.copy done (s.stop - s.pos)).inbuf (done + (s.stop - s.pos)) b.bytes, pos := 0, stop := 0 }
        hcopied
      refine ⟨by omega, hrest.2.trans ?_⟩
      unfold remaining
      rw [List.map_cons, List.sum_cons]
      dsimp only
      omega

/-- What the loop takes from `inbuf`: `while ((nread = fread(inbuf, 1, sizeof inbuf, in)) > 0)`, byte by byte -/
def taken (reads : List Block) (s : Stream) : List Byte :=
  if _h : (fread reads s).1 = 0 then []
  else bytesAt (fread reads s).2.1.inbuf 0 (fread reads s).1 ++ taken (fread reads s).2.2 (fread reads s).2.1
termination_by remaining reads s
decreasing_by
  have hfread := (freadLoop_remaining reads s (Nat.zero_le 4096)).2
  unfold fread at _h ⊢
  omega

/-- The stream before the first read -/
def Stream.opened (inbuf : ℕ → Byte) : Stream := { inbuf, pos := 0, stop := 0 }

theorem store_nil (mem : ℕ → Byte) (a : ℕ) : store mem a [] = mem :=
  funext fun _ => store_of_outside (by rw [List.length_nil]; omega)

theorem Stream.copy_zero (s : Stream) (done : ℕ) : s.copy done 0 = s := by
  rw [copy, Nat.add_zero]
  exact congrArg (fun inbuf => ({ s with inbuf } : Stream)) (store_nil ..)

theorem fread_opened (b : Block) (reads : List Block) (inbuf : ℕ → Byte) :
    fread (b :: reads) (.opened inbuf) = freadLoop reads (.opened (store inbuf 0 b.bytes)) b.bytes.length := by
  have hempty : (Stream.opened inbuf).stop - (Stream.opened inbuf).pos = 0 := rfl
  rw [fread, freadLoop, hempty]
  dsimp only
  rw [if_neg (by decide), if_neg (by decide), Stream.copy_zero, Nat.add_zero, Nat.zero_add]
  rfl

theorem freadLoop_filled (reads : List Block) (inbuf : ℕ → Byte) :
    freadLoop reads (.opened inbuf) 4096 = (4096, .opened inbuf, reads) := by
  cases reads with
  | nil =>
    rw [freadLoop, if_pos (Nat.zero_le _), Nat.sub_self, Stream.copy_zero]
  | cons b reads =>
    rw [freadLoop, if_pos (Nat.zero_le _), Nat.sub_self, Stream.copy_zero]

theorem freadLoop_end (inbuf : ℕ → Byte) {done : ℕ} (h : done < 4096) :
    freadLoop [] (.opened inbuf) done = (done, .opened inbuf, []) := by
  rw [freadLoop, if_neg (by dsimp only [Stream.opened]; omega)]
  dsimp only [Stream.opened]
  rw [Nat.sub_zero, Nat.add_zero, Stream.copy_zero]

theorem taken_nil (inbuf : ℕ → Byte) : taken [] (.opened inbuf) = [] := by
  rw [taken, fread, freadLoop_end inbuf (by decide)]
  exact dif_pos rfl

/-- A full read is delivered as it came. -/
theorem taken_full {b : Block} (h : b.bytes.length = 4096) (reads : List Block) (inbuf : ℕ → Byte) :
    taken (b :: reads) (.opened inbuf) = b.bytes ++ taken reads (.opened (store inbuf 0 b.bytes)) := by
  have hread := bytesAt_store inbuf 0 b.bytes
  rw [h] at hread
  rw [taken, fread_opened, h, freadLoop_filled, dif_neg (Nat.succ_ne_zero 4095)]
  exact congrArg (· ++ taken reads (.opened (store inbuf 0 b.bytes))) hread

/-- So is the last one. -/
theorem taken_last (b : Block) (inbuf : ℕ → Byte) : taken [b] (.opened inbuf) = b.bytes := by
  obtain h | h := b.le.lt_or_eq
  · rw [taken, fread_opened, freadLoop_end _ h, dif_neg b.pos.ne', taken_nil, List.append_nil]
    exact bytesAt_store ..
  · rw [taken_full h, taken_nil, List.append_nil]

/-- Once something is delivered, what the array begins with is what the last refill began with. -/
theorem freadLoop_zero {reads : List Block} (hreads : ∀ b ∈ reads, b.bytes.getD 0 0 = 0) {s : Stream} (hs : s.inbuf 0 = 0)
    {done : ℕ} (hdone : 0 < done) : (freadLoop reads s done).2.1.inbuf 0 = 0 := by
  have hcopy (n : ℕ) : (s.copy done n).inbuf 0 = 0 := (store_of_outside (.inl hdone)).trans hs
  induction reads generalizing s done with
  | nil =>
    rw [freadLoop]
    split_ifs
    · exact hcopy _
    · exact hcopy _
  | cons b reads ih =>
    rw [freadLoop]
    dsimp only
    split_ifs
    · exact hcopy _
    · have hfilled : store (s.copy done (s.stop - s.pos)).inbuf 0 b.bytes 0 = 0 := by
        rw [store, if_pos ⟨le_refl 0, by have := b.pos; omega⟩]
        exact hreads b List.mem_cons_self
      exact ih (fun b hb => hreads b (List.mem_cons_of_mem _ hb)) hfilled (by omega)
        fun n => (store_of_outside (.inl (by omega))).trans hfilled
    · omega

/-- The read of this size that brings zeros -/
def Block.zeros (b : Block) : Block where
  bytes := List.replicate b.bytes.length 0
  pos := by rw [List.length_replicate]; exact b.pos
  le := by rw [List.length_replicate]; exact b.le

/-- The one that brings a one before them -/
def Block.one (b : Block) : Block where
  bytes := 1 :: List.replicate (b.bytes.length - 1) 0
  pos := Nat.succ_pos _
  le := by
    have hpos := b.pos
    have hle := b.le
    rw [List.length_cons, List.length_replicate]
    omega

@[simp] theorem Block.length_zeros (b : Block) : b.zeros.bytes.length = b.bytes.length := List.length_replicate

@[simp] theorem Block.length_one (b : Block) : b.one.bytes.length = b.bytes.length := by
  have hpos := b.pos
  rw [one, List.length_cons, List.length_replicate]
  omega

theorem Block.exists_full {l : List Byte} (h : l.length = 4096) : ∃ b : Block, b.bytes = l :=
  ⟨⟨l, by omega, h.le⟩, rfl⟩

theorem Block.getD_zeros (b : Block) (k : ℕ) : b.zeros.bytes.getD k 0 = 0 := by
  rw [zeros, List.getD_eq_getElem?_getD, List.getElem?_replicate]
  split_ifs
  · rfl
  · rfl

/-- A short read that another one follows loses its first byte to it. -/
theorem taken_short {b : Block} (h : b.bytes.length < 4096) {c : Block} {reads : List Block}
    (hreads : ∀ b ∈ c :: reads, b.bytes.getD 0 0 = 0) (inbuf : ℕ → Byte) :
    (taken (b :: c :: reads) (.opened inbuf)).head? = some 0 := by
  have hpos := b.pos
  have hc := c.pos
  have hfread : fread (b :: c :: reads) (.opened inbuf) =
      freadLoop reads { inbuf := store (store inbuf 0 b.bytes) 0 c.bytes, pos := 0, stop := c.bytes.length }
        b.bytes.length := by
    have hempty : (Stream.opened (store inbuf 0 b.bytes)).stop - (Stream.opened (store inbuf 0 b.bytes)).pos = 0 := rfl
    rw [fread_opened, freadLoop, hempty]
    dsimp only
    rw [if_neg (by omega), if_pos (by omega), Stream.copy_zero, Nat.add_zero]
    rfl
  have hsome := (freadLoop_remaining reads
    { inbuf := store (store inbuf 0 b.bytes) 0 c.bytes, pos := 0, stop := c.bytes.length } h.le).1
  have hfirst : store (store inbuf 0 b.bytes) 0 c.bytes 0 = 0 := by
    rw [store, if_pos ⟨le_refl 0, by omega⟩]
    exact hreads c List.mem_cons_self
  have hzero := freadLoop_zero (fun b hb => hreads b (List.mem_cons_of_mem _ hb))
    (s := { inbuf := store (store inbuf 0 b.bytes) 0 c.bytes, pos := 0, stop := c.bytes.length }) hfirst hpos
  rw [← hfread] at hsome hzero
  have hn : (fread (b :: c :: reads) (.opened inbuf)).1 = (fread (b :: c :: reads) (.opened inbuf)).1 - 1 + 1 := by omega
  rw [taken, dif_neg (by omega), hn, bytesAt, List.range_succ_eq_map, List.map_cons, List.cons_append, List.head?_cons,
    Nat.add_zero, hzero]

/-- Reads of these sizes are delivered as they came, whatever they bring. -/
def Intact (reads : List Block) : Prop :=
  ∀ inbuf (reads' : List Block), reads'.map (fun b => b.bytes.length) = reads.map (fun b => b.bytes.length) →
    taken reads' (.opened inbuf) = reads'.flatMap Block.bytes

theorem intact_cons (b c : Block) (reads : List Block) :
    Intact (b :: c :: reads) ↔ b.bytes.length = 4096 ∧ Intact (c :: reads) := by
  constructor
  · intro h
    have hfull : b.bytes.length = 4096 := by
      by_contra hne
      have hzeros : ∀ d ∈ c.zeros :: reads.map Block.zeros, d.bytes.getD 0 0 = 0 := by
        intro d hd
        obtain ⟨e, -, rfl⟩ := List.mem_map.mp (List.map_cons (f := Block.zeros) ▸ hd)
        exact e.getD_zeros 0
      have hshort := taken_short (b := b.one) (by rw [b.length_one]; have := b.le; omega) hzeros fun _ => 0
      rw [h (fun _ => 0) _ (by simp [Function.comp_def])] at hshort
      exact absurd (Option.some.inj hshort) (by decide)
    refine ⟨hfull, fun inbuf reads' hsizes => ?_⟩
    have hstored : store inbuf 0 (bytesAt inbuf 0 4096) = inbuf := by
      funext k
      by_cases hk : k < 4096
      · have hin : store inbuf 0 (bytesAt inbuf 0 4096) (0 + k) = _ := store_of_inside (by rwa [length_bytesAt])
        rw [Nat.zero_add] at hin
        rw [hin]
        simp [bytesAt]
      · exact store_of_outside (.inr (by rw [length_bytesAt]; omega))
    have hlength : (bytesAt inbuf 0 4096).length = 4096 := by rw [length_bytesAt]
    obtain ⟨b', hbytes⟩ := Block.exists_full hlength
    have hb' : b'.bytes.length = 4096 := by rw [hbytes, hlength]
    have htaken := h inbuf (b' :: reads') (by rw [List.map_cons, List.map_cons, hsizes, hb', hfull])
    rw [taken_full hb', List.flatMap_cons, hbytes, hstored] at htaken
    exact List.append_cancel_left htaken
  · rintro ⟨hfull, h⟩ inbuf reads' hsizes
    cases reads' with
    | nil => cases hsizes
    | cons b' reads' =>
      rw [List.map_cons, List.map_cons] at hsizes
      obtain ⟨hb', hsizes⟩ := List.cons.inj hsizes
      rw [taken_full (hb'.trans hfull), h _ reads' hsizes, List.flatMap_cons]

/-- The bytes taken are those of the input, in order, just when no short read has one behind it. -/
theorem intactReads_iff (reads : List Block) : Intact reads ↔ ∀ b ∈ reads.dropLast, b.bytes.length = 4096 := by
  induction reads with
  | nil =>
    refine iff_of_true (fun inbuf reads' hsizes => ?_) fun b hb => absurd hb List.not_mem_nil
    rw [List.map_nil, List.map_eq_nil_iff] at hsizes
    rw [hsizes]
    exact taken_nil inbuf
  | cons b reads ih =>
    cases reads with
    | nil =>
      refine iff_of_true (fun inbuf reads' hsizes => ?_) fun b hb => absurd hb List.not_mem_nil
      obtain ⟨b', rfl⟩ := List.length_eq_one_iff.mp ((List.length_map _).symm.trans (congrArg List.length hsizes))
      rw [taken_last, List.flatMap_singleton]
    | cons c reads => rw [intact_cons, ih, List.dropLast_cons_cons, List.forall_mem_cons]

/-- A terminal that sends a line of one letter, then another: the second letter comes twice. -/
theorem not_intactReads : ¬∀ reads : List Block, ∀ inbuf,
    taken reads (.opened inbuf) = reads.flatMap Block.bytes := by
  intro h
  have hshort : (taken [⟨[1], by decide, by decide⟩, ⟨[0], by decide, by decide⟩] (.opened fun _ => 0)).head? = some 0 :=
    taken_short (by decide) (fun b hb => by rw [List.mem_singleton.mp hb]; rfl) _
  rw [h] at hshort
  exact absurd (Option.some.inj hshort) (by decide)

end ValidcTools.Tr
