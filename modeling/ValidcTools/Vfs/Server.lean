import ValidcTools.Lib.Framing
import ValidcTools.Vfs.Agreement

/-! The loop of the VFS server over its clients: what it reads from each socket, and which requests it serves. -/
namespace ValidcTools.Vfs

open Bytes Framing

/-- The room in the table of clients -/
def MAX_EVENTS : ℕ := 100

/-! ## Clients -/

/-- `client_state`: what has been read is at the start of the buffer, and old bytes are behind it. -/
structure ClientState where
  sock : ℕ
  buffer : List Byte
  buffer_pos : ℕ
  hbuffer : buffer.length = BUFFER_SIZE
  hpos : buffer_pos ≤ BUFFER_SIZE

/-- What the server does with a client, as its system calls and its calls of the file system show it -/
inductive Entry
  | accepted (sock : ℕ)
  | read (sock : ℕ) (data : List Byte)
  -- the bytes of a request, and the call that was made, if the type is one of the switch
  | request (sock : ℕ) (bytes : List Byte) (call : Option Call)

namespace ClientState

variable {c : ClientState} {data : List Byte} {n : ℕ}

/-- What has been read and is not served yet -/
def pending (c : ClientState) : List Byte := c.buffer.take c.buffer_pos

/-- The third argument of `read` -/
def room (c : ClientState) : ℕ := BUFFER_SIZE - c.buffer_pos

@[simp] theorem length_pending (c : ClientState) : c.pending.length = c.buffer_pos := by
  rw [pending, List.length_take, c.hbuffer, min_eq_left c.hpos]

/-- What `read` puts behind the bytes that are there -/
def receive (c : ClientState) (data : List Byte) (hroom : data.length ≤ c.room) : ClientState where
  sock := c.sock
  buffer := c.buffer.take c.buffer_pos ++ (data ++ c.buffer.drop (c.buffer_pos + data.length))
  buffer_pos := c.buffer_pos + data.length
  hbuffer := by
    have hpos := c.hpos
    rw [room] at hroom
    simp only [List.length_append, List.length_take, List.length_drop, c.hbuffer]
    omega
  hpos := by
    have hpos := c.hpos
    rw [room] at hroom
    omega

theorem pending_receive {hroom : data.length ≤ c.room} : (c.receive data hroom).pending = c.pending ++ data := by
  have hlen := c.length_pending
  dsimp only [pending, receive] at hlen ⊢
  rw [← List.append_assoc]
  exact List.take_left' (by rw [List.length_append, hlen])

/-- The `memmove` behind the switch -/
def consume (c : ClientState) (n : ℕ) (hle : n ≤ c.buffer_pos) : ClientState where
  sock := c.sock
  buffer := (c.buffer.drop n).take (c.buffer_pos - n) ++ c.buffer.drop (c.buffer_pos - n)
  buffer_pos := c.buffer_pos - n
  hbuffer := by
    have hpos := c.hpos
    simp only [List.length_append, List.length_take, List.length_drop, c.hbuffer]
    omega
  hpos := (Nat.sub_le ..).trans c.hpos

theorem pending_consume {hle : n ≤ c.buffer_pos} : (c.consume n hle).pending = c.pending.drop n := by
  have hpos := c.hpos
  have hlen : ((c.buffer.drop n).take (c.buffer_pos - n)).length = c.buffer_pos - n := by
    rw [List.length_take, List.length_drop, c.hbuffer]
    omega
  dsimp only [pending, consume]
  rw [List.take_left' hlen, List.drop_take]

/-- The `while` loop, at most `fuel` turns of it: `none` is a loop that goes on, or a read outside the buffer. -/
def requests : ℕ → ClientState → Option (List Entry × ClientState)
  | 0, _ => none
  | fuel + 1, c =>
    if c.buffer_pos < 5 then some ([], c)
    else
      let n := word (5 + numAt c.buffer 1 4)
      if hle : n ≤ c.buffer_pos then
        (dispatch c.buffer).bind fun call =>
          (requests fuel (c.consume n hle)).map fun (log, c') => (.request c.sock (c.buffer.take n) call :: log, c')
      else some ([], c)

end ClientState

/-! ## The table of clients -/

/-- The first `num_clients` entries of the table, and the others -/
structure Server where
  clients : List ClientState
  free : List ClientState
  hlen : clients.length + free.length = MAX_EVENTS

namespace Server

/-- The entry of a client that has gone gets the last client, whose own entry is free from then on. -/
def remove (s : Server) (j : ℕ) (hj : j < s.clients.length) : Server where
  clients := (s.clients.set j (s.clients.getLast (List.ne_nil_of_length_pos (by omega)))).dropLast
  free := s.clients.getLast (List.ne_nil_of_length_pos (by omega)) :: s.free
  hlen := by
    have hlen := s.hlen
    simp only [List.length_dropLast, List.length_set, List.length_cons]
    omega

/-- The next entry, with the buffer that was there: `none` is a store behind the table. -/
def accept (s : Server) (client_sock : ℕ) : Option Server :=
  match hfree : s.free with
  | [] => none
  | slot :: free => some {
      clients := s.clients ++ [{ slot with sock := client_sock, buffer_pos := 0, hpos := Nat.zero_le _ }]
      free := free
      hlen := by
        have hlen := s.hlen
        rw [hfree] at hlen
        simp only [List.length_append, List.length_cons, List.length_nil] at hlen ⊢
        omega }

/-- What `epoll_wait` reports: a client that `accept` gives, and a socket with what can be read from it. There
is nothing to read from a socket whose other end has gone, or that has failed. -/
inductive Event
  | accept (client_sock : ℕ)
  | readable (sock : ℕ) (available : List Byte)

/-- One turn of the loop over the events: `none` is a turn that never ends, or an access outside of a buffer. -/
def step (s : Server) : Event → Option (Server × List Entry)
  | .accept client_sock => (s.accept client_sock).map fun s' => (s', [.accepted client_sock])
  | .readable sock available =>
    match hfind : s.clients.findIdx? (·.sock = sock) with
    | none => some (s, [])
    | some j =>
      have hj : j < s.clients.length := (List.findIdx?_eq_some_iff_getElem.mp hfind).1
      let client := s.clients[j]
      let data := available.take client.room
      if data = [] then some (s.remove j hj, [])
      else
        ((client.receive data (List.length_take_le ..)).requests (BUFFER_SIZE + 1)).map fun (log, client') =>
          ({ s with clients := s.clients.set j client', hlen := by rw [List.length_set, s.hlen] },
            .read sock data :: log)

/-- `calloc` -/
def initial : Server where
  clients := []
  free := List.replicate MAX_EVENTS ⟨0, List.replicate BUFFER_SIZE 0, 0, List.length_replicate, Nat.zero_le _⟩
  hlen := by rw [List.length_replicate, List.length_nil, Nat.zero_add]

/-- A new descriptor is not one that is open. -/
def Possible (s : Server) : Event → Prop
  | .accept client_sock => client_sock ∉ s.clients.map (·.sock)
  | .readable .. => True

end Server

open Server

/-- The states of the server, whatever its clients do, with what it has done so far -/
inductive Reached : Server → List Entry → Prop
  | start : Reached Server.initial []
  | step {s s' : Server} {log new : List Entry} {e : Event} (hreached : Reached s log) (he : s.Possible e)
      (hstep : s.step e = some (s', new)) : Reached s' (log ++ new)

/-! ## What one connection sees -/

/-- The socket that an entry is about -/
def Entry.sock : Entry → ℕ
  | .accepted sock | .read sock _ | .request sock .. => sock

/-- What has been done for a socket since it was given to a client -/
def since (sock : ℕ) : List Entry → List Entry :=
  List.foldl (fun done e => if e.sock = sock then match e with
    | .accepted _ => []
    | e => done ++ [e] else done) []

/-- The bytes read -/
def bytesRead (log : List Entry) : List Byte :=
  log.flatMap fun
    | .read _ data => data
    | _ => []

/-- The requests served -/
def served (log : List Entry) : List (List Byte) :=
  log.filterMap fun
    | .request _ bytes _ => some bytes
    | _ => none

/-- The calls made -/
def calls (log : List Entry) : List (Option Call) :=
  log.filterMap fun
    | .request _ _ call => some call
    | _ => none

/-- Where the request ends that a buffer starts with -/
def requestSize (l : List Byte) : Option ℕ := if l.length < 5 then none else some (word (5 + numAt l 1 4))

section

variable {sock : ℕ} {log new : List Entry} {e : Entry}

theorem since_concat (sock : ℕ) (log : List Entry) (e : Entry) : since sock (log ++ [e]) =
    if e.sock = sock then match e with
      | .accepted _ => []
      | e => since sock log ++ [e] else since sock log := by
  rw [since, List.foldl_append]
  rfl

theorem since_accepted (sock : ℕ) (log : List Entry) : since sock (log ++ [.accepted sock]) = [] := by
  rw [since_concat, Entry.sock, if_pos rfl]

/-- What is done for another socket -/
theorem since_append_of_ne (hne : ∀ e ∈ new, e.sock ≠ sock) : since sock (log ++ new) = since sock log := by
  induction new generalizing log with
  | nil => rw [List.append_nil]
  | cons e new ih =>
    rw [List.append_cons, ih (fun e' he' => hne e' (List.mem_cons_of_mem e he')), since_concat,
      if_neg (hne e (List.mem_cons_self ..))]

/-- What is done for the socket while it is open -/
theorem since_append (hsock : ∀ e ∈ new, e.sock = sock) (hopen : .accepted sock ∉ new) :
    since sock (log ++ new) = since sock log ++ new := by
  induction new generalizing log with
  | nil => rw [List.append_nil, List.append_nil]
  | cons e new ih =>
    have he := hsock e (List.mem_cons_self ..)
    have hconcat : since sock (log ++ [e]) = since sock log ++ [e] := by
      rw [since_concat, if_pos he]
      cases e with
      | accepted k =>
        obtain rfl : k = sock := he
        exact absurd (List.mem_cons_self ..) hopen
      | read => rfl
      | request => rfl
    rw [List.append_cons, ih (fun e' he' => hsock e' (List.mem_cons_of_mem e he'))
      (fun hmem => hopen (List.mem_cons_of_mem e hmem)), hconcat, List.append_assoc, List.singleton_append]

@[simp] theorem bytesRead_append (log new : List Entry) : bytesRead (log ++ new) = bytesRead log ++ bytesRead new :=
  List.flatMap_append ..

@[simp] theorem served_append (log new : List Entry) : served (log ++ new) = served log ++ served new :=
  List.filterMap_append ..

@[simp] theorem calls_append (log new : List Entry) : calls (log ++ new) = calls log ++ calls new :=
  List.filterMap_append ..

end

/-! ## The loop over the buffer of one client -/

theorem numAt_take {l : List Byte} {a w n : ℕ} (h : a + w ≤ n) : numAt (l.take n) a w = numAt l a w := by
  rw [numAt, numAt, List.drop_take, List.take_take, min_eq_left (by omega)]

theorem numAt_append_left {l r : List Byte} {a w : ℕ} (h : a + w ≤ l.length) : numAt (l ++ r) a w = numAt l a w := by
  rw [numAt, numAt, List.drop_append_of_le_length (by omega),
    List.take_append_of_le_length (by rw [List.length_drop]; omega)]

theorem stable_requestSize : Stable requestSize := by
  intro l d n h
  unfold requestSize at h ⊢
  by_cases hlen : l.length < 5
  · rw [if_pos hlen] at h
    cases h
  · rw [if_neg hlen] at h
    rw [if_neg (by rw [List.length_append]; omega), numAt_append_left (by omega), h]

/-- A call is made of a buffer that starts with its request. -/
def Makes (bytes : List Byte) (call : Option Call) : Prop :=
  ∃ buffer, bytes <+: buffer ∧ buffer.length = BUFFER_SIZE ∧ dispatch buffer = some call

namespace ClientState

variable {c c' : ClientState} {log : List Entry} {fuel : ℕ}

theorem requestSize_pending (c : ClientState) :
    requestSize c.pending = if c.buffer_pos < 5 then none else some (word (5 + numAt c.buffer 1 4)) := by
  rw [requestSize, length_pending]
  by_cases hlen : c.buffer_pos < 5
  · rw [if_pos hlen, if_pos hlen]
  · rw [if_neg hlen, if_neg hlen, pending, numAt_take (by omega)]

/-- What one run of the loop does -/
structure Serves (c : ClientState) (log : List Entry) (c' : ClientState) : Prop where
  sock : c'.sock = c.sock
  frames : Frames requestSize c.pending (served log) c'.pending
  each : ∀ e ∈ log, ∃ bytes call, e = .request c.sock bytes call ∧ Makes bytes call

theorem serves_of_requests (h : c.requests fuel = some (log, c')) : c.Serves log c' := by
  induction fuel generalizing c log with
  | zero => cases h
  | succ fuel ih =>
    have hsize := c.requestSize_pending
    rw [requests] at h
    dsimp only at h
    split_ifs at h with hshort hle
    · obtain ⟨rfl, rfl⟩ := Prod.mk.inj (Option.some.inj h)
      rw [if_pos hshort] at hsize
      exact ⟨rfl, .wait fun n hn => by simp [hsize] at hn, fun e he => nomatch he⟩
    · rw [if_neg hshort] at hsize
      obtain ⟨call, hcall, hmap⟩ := Option.bind_eq_some_iff.mp h
      obtain ⟨⟨log, c''⟩, hrest, heq⟩ := Option.map_eq_some_iff.mp hmap
      obtain ⟨rfl, rfl⟩ := Prod.mk.inj heq
      obtain ⟨hsock, hframes, hcalls⟩ := ih hrest
      refine ⟨hsock, ?_, ?_⟩
      · have hnext := Frames.next hsize (by rwa [length_pending]) (pending_consume ▸ hframes)
        rwa [pending, List.take_take, min_eq_left hle] at hnext
      · intro e he
        rcases List.mem_cons.mp he with rfl | he
        · exact ⟨_, call, rfl, c.buffer, List.take_prefix .., c.hbuffer, hcall⟩
        · exact hcalls e he
    · obtain ⟨rfl, rfl⟩ := Prod.mk.inj (Option.some.inj h)
      rw [if_neg hshort] at hsize
      refine ⟨rfl, .wait fun n hn => ?_, fun e he => nomatch he⟩
      rw [hsize] at hn
      obtain rfl := Option.some.inj hn
      rw [length_pending]
      exact Nat.lt_of_not_le hle

/-- The loop comes to a request whose arguments do not lie in the buffer. -/
inductive Strays : ClientState → Prop
  | here {c : ClientState} {n : ℕ} (hsize : requestSize c.pending = some n) (hle : n ≤ c.buffer_pos)
      (hdispatch : dispatch c.buffer = none) : Strays c
  | next {c : ClientState} {n : ℕ} (hsize : requestSize c.pending = some n) (hle : n ≤ c.buffer_pos)
      (hrest : Strays (c.consume n hle)) : Strays c

theorem not_strays_of_requests (h : c.requests fuel = some (log, c')) : ¬ c.Strays := by
  induction fuel generalizing c log with
  | zero => cases h
  | succ fuel ih =>
    have hsize := c.requestSize_pending
    intro hstrays
    obtain ⟨n, hn, hle⟩ : ∃ n, requestSize c.pending = some n ∧ n ≤ c.buffer_pos := by
      cases hstrays with
      | here hsize hle => exact ⟨_, hsize, hle⟩
      | next hsize hle => exact ⟨_, hsize, hle⟩
    rw [requests] at h
    dsimp only at h
    split_ifs at h with hshort hfits
    · rw [if_pos hshort, hn] at hsize
      cases hsize
    · rw [if_neg hshort] at hsize
      obtain ⟨call, hcall, hmap⟩ := Option.bind_eq_some_iff.mp h
      obtain ⟨⟨log', c''⟩, hrest, heq⟩ := Option.map_eq_some_iff.mp hmap
      obtain ⟨rfl, rfl⟩ := Prod.mk.inj heq
      cases hstrays with
      | here _ _ hdispatch =>
        rw [hcall] at hdispatch
        cases hdispatch
      | next hsize' _ hstrays =>
        obtain rfl := Option.some.inj (hsize'.symm.trans hsize)
        exact ih hrest hstrays
    · rw [if_neg hshort, hn] at hsize
      obtain rfl := Option.some.inj hsize
      exact hfits hle

theorem exists_requests_of_not_jams (hjams : ¬ Jams requestSize c.pending) (hstrays : ¬ c.Strays)
    (hfuel : c.buffer_pos < fuel) : ∃ r, c.requests fuel = some r := by
  induction fuel generalizing c with
  | zero => exact absurd hfuel (Nat.not_lt_zero _)
  | succ fuel ih =>
    have hsize := c.requestSize_pending
    rw [requests]
    dsimp only
    by_cases hshort : c.buffer_pos < 5
    · exact ⟨_, if_pos hshort⟩
    rw [if_neg hshort] at hsize ⊢
    by_cases hle : word (5 + numAt c.buffer 1 4) ≤ c.buffer_pos
    · rw [dif_pos hle]
      have hpos : word (5 + numAt c.buffer 1 4) ≠ 0 := by
        intro hzero
        rw [hzero] at hsize
        exact hjams (.here hsize)
      have hless : (c.consume _ hle).buffer_pos < fuel := by
        dsimp only [consume]
        omega
      have hrest : ¬ Jams requestSize (c.consume _ hle).pending := by
        rw [pending_consume]
        exact fun h => hjams (.next hsize (by rwa [length_pending]) h)
      obtain ⟨r, hr⟩ := ih hrest (fun h => hstrays (.next hsize hle h)) hless
      cases hcall : dispatch c.buffer with
      | none => exact absurd (.here hsize hle hcall) hstrays
      | some call =>
        rw [Option.bind_some, hr]
        exact ⟨_, rfl⟩
    · exact ⟨_, dif_neg hle⟩

theorem Serves.sock_eq (h : c.Serves log c') : ∀ e ∈ log, e.sock = c.sock := by
  intro e he
  obtain ⟨_, _, rfl, -⟩ := h.each e he
  rfl

theorem Serves.not_accepted (h : c.Serves log c') (sock : ℕ) : .accepted sock ∉ log := by
  intro hmem
  obtain ⟨_, _, heq, -⟩ := h.each _ hmem
  cases heq

theorem Serves.bytesRead_eq_nil (h : c.Serves log c') : bytesRead log = [] := by
  apply List.flatMap_eq_nil_iff.mpr
  intro e he
  obtain ⟨_, _, rfl, -⟩ := h.each e he
  rfl

theorem Serves.since_read {data : List Byte} {hroom : data.length ≤ c.room} (h : (c.receive data hroom).Serves log c')
    (before : List Entry) : since c.sock (before ++ .read c.sock data :: log) = since c.sock before ++ .read c.sock data :: log := by
  refine since_append (fun e he => ?_) fun hmem => ?_
  · rcases List.mem_cons.mp he with rfl | he
    · rfl
    · exact h.sock_eq e he
  · rcases List.mem_cons.mp hmem with heq | hmem
    · cases heq
    · exact h.not_accepted _ hmem

theorem Serves.bytesRead_read (h : c.Serves log c') (sock : ℕ) (data : List Byte) :
    bytesRead (.read sock data :: log) = data := by
  change data ++ bytesRead log = data
  rw [h.bytesRead_eq_nil, List.append_nil]

theorem Serves.makes (h : c.Serves log c') : List.Forall₂ Makes (served log) (calls log) := by
  have hcalls := h.each
  clear h
  induction log with
  | nil => exact .nil
  | cons e log ih =>
    obtain ⟨bytes, call, rfl, hmakes⟩ := hcalls e (List.mem_cons_self ..)
    exact .cons hmakes (ih fun e' he' => hcalls e' (List.mem_cons_of_mem _ he'))

end ClientState

/-! ## What one event does -/

/-- The last element in the place of another -/
theorem getElem_cons_dropLast_set_perm {α : Type*} (l : List α) {j : ℕ} (hj : j < l.length) (hne : l ≠ []) :
    (l[j] :: (l.set j (l.getLast hne)).dropLast).Perm l := by
  obtain ⟨init, x, rfl⟩ := (List.eq_nil_or_concat' l).resolve_left hne
  rw [List.getLast_append_singleton]
  by_cases hlt : j < init.length
  · rw [List.set_append_left _ _ hlt, List.dropLast_concat, List.getElem_append_left hlt]
    have hset : (init[j] :: init.set j x).Perm (init[j] :: x :: init.eraseIdx j) :=
      (List.set_perm_cons_eraseIdx hlt x).cons _
    have herase : (x :: init[j] :: init.eraseIdx j).Perm (x :: init) := (List.getElem_cons_eraseIdx_perm hlt).cons _
    exact hset.trans ((List.Perm.swap ..).trans (herase.trans (List.perm_append_singleton x init).symm))
  · obtain rfl : j = init.length := by
      rw [List.length_append, List.length_singleton] at hj
      omega
    rw [List.set_append_right _ _ le_rfl, Nat.sub_self, List.set_cons_zero, List.dropLast_concat]
    simpa using (List.perm_append_singleton x init).symm

namespace Server

variable {s s' : Server} {e : Event} {new : List Entry}

/-- All that the loop does on an event -/
inductive Stepped (s : Server) : Event → Server → List Entry → Prop
  | accepted {s' : Server} {slot : ClientState} (hclients : s'.clients = s.clients ++ [slot]) (hpos : slot.buffer_pos = 0) :
      Stepped s (.accept slot.sock) s' [.accepted slot.sock]
  | ignored {sock : ℕ} {available : List Byte} (hsock : sock ∉ s.clients.map (·.sock)) :
      Stepped s (.readable sock available) s []
  | dropped {s' : Server} {c : ClientState} {available : List Byte} (hclients : (c :: s'.clients).Perm s.clients)
      (hnone : available.take c.room = []) : Stepped s (.readable c.sock available) s' []
  | read {s' : Server} {a b : List ClientState} {c c' : ClientState} {available data : List Byte} {log : List Entry}
      (hclients : s.clients = a ++ c :: b) (hdata : available.take c.room = data) (hne : data ≠ [])
      (hroom : data.length ≤ c.room) (hserves : (c.receive data hroom).Serves log c')
      (hclients' : s'.clients = a ++ c' :: b) : Stepped s (.readable c.sock available) s' (.read c.sock data :: log)

theorem stepped_of_accept {client_sock : ℕ} (h : s.accept client_sock = some s') :
    s.Stepped (.accept client_sock) s' [.accepted client_sock] := by
  unfold accept at h
  split at h
  case h_1 => cases h
  case h_2 slot free hfree =>
    obtain rfl := Option.some.inj h
    let client : ClientState := { slot with sock := client_sock, buffer_pos := 0, hpos := Nat.zero_le _ }
    change s.Stepped (.accept client.sock) _ [.accepted client.sock]
    exact .accepted rfl rfl

theorem stepped_of_step (h : s.step e = some (s', new)) : s.Stepped e s' new := by
  cases e with
  | accept client_sock =>
    obtain ⟨s₁, haccept, heq⟩ := Option.map_eq_some_iff.mp h
    obtain ⟨rfl, rfl⟩ := Prod.mk.inj heq
    exact stepped_of_accept haccept
  | readable sock available =>
    rw [step] at h
    split at h
    case h_1 hfind =>
      obtain ⟨rfl, rfl⟩ := Prod.mk.inj (Option.some.inj h)
      apply Stepped.ignored
      simpa using List.findIdx?_eq_none_iff.mp hfind
    case h_2 j hfind =>
      obtain ⟨hj, hsock, -⟩ := List.findIdx?_eq_some_iff_getElem.mp hfind
      obtain rfl : s.clients[j].sock = sock := of_decide_eq_true hsock
      dsimp only at h
      split_ifs at h with hnone
      · obtain ⟨rfl, rfl⟩ := Prod.mk.inj (Option.some.inj h)
        exact .dropped (getElem_cons_dropLast_set_perm s.clients hj _) hnone
      · obtain ⟨⟨log, c'⟩, hrequests, heq⟩ := Option.map_eq_some_iff.mp h
        obtain ⟨rfl, rfl⟩ := Prod.mk.inj heq
        have hsplit : s.clients = s.clients.take j ++ s.clients[j] :: s.clients.drop (j + 1) := by
          rw [List.getElem_cons_drop, List.take_append_drop]
        have hset : s.clients.set j c' = s.clients.take j ++ c' :: s.clients.drop (j + 1) := by
          rw [List.set_eq_take_append_cons_drop, if_pos hj]
        exact .read hsplit rfl hnone (List.length_take_le ..) (ClientState.serves_of_requests hrequests) hset

end Server

/-! ## Every run -/

/-- What one socket has sent is served in order, up to a request that is not all there. -/
structure Streams (sock : ℕ) (log : List Entry) (rest : List Byte) : Prop where
  frames : Frames requestSize (bytesRead (since sock log)) (served (since sock log)) rest
  makes : List.Forall₂ Makes (served (since sock log)) (calls (since sock log))

theorem streams_accepted (sock : ℕ) (log : List Entry) : Streams sock (log ++ [.accepted sock]) [] := by
  constructor
  · rw [since_accepted]
    exact .wait fun n hn => nomatch hn
  · rw [since_accepted]
    exact .nil

theorem Streams.of_ne {sock : ℕ} {log new : List Entry} {rest : List Byte} (h : Streams sock log rest)
    (hne : ∀ e ∈ new, e.sock ≠ sock) : Streams sock (log ++ new) rest := by
  constructor
  · rw [since_append_of_ne hne]
    exact h.frames
  · rw [since_append_of_ne hne]
    exact h.makes

/-- What is read of the socket goes on where the buffer of the client ends. -/
theorem Streams.read {log new : List Entry} {c c' : ClientState} {data : List Byte} {hroom : data.length ≤ c.room}
    (h : Streams c.sock log c.pending) (hserves : (c.receive data hroom).Serves new c') :
    Streams c.sock (log ++ .read c.sock data :: new) c'.pending := by
  constructor
  · rw [hserves.since_read, bytesRead_append, served_append, hserves.bytesRead_read]
    exact h.frames.append stable_requestSize (ClientState.pending_receive ▸ hserves.frames)
  · rw [hserves.since_read, served_append, calls_append]
    exact List.rel_append h.makes hserves.makes

/-- The clients in the table, each at the end of what it has sent, and those that have gone -/
structure Tracks (s : Server) (log : List Entry) : Prop where
  nodup : (s.clients.map (·.sock)).Nodup
  clients : ∀ c ∈ s.clients, Streams c.sock log c.pending
  streams : ∀ sock, ∃ rest, Streams sock log rest

section

variable {s s' : Server} {log new : List Entry} {e : Event}

theorem tracks_initial : Tracks initial [] where
  nodup := List.nodup_nil
  clients _ hc := nomatch hc
  streams _ := ⟨[], ⟨.wait (fun _ hn => nomatch hn), .nil⟩⟩

/-- Two clients have two sockets. -/
theorem Tracks.sock_ne (h : Tracks s log) {a b : List ClientState} {c d : ClientState} (hclients : s.clients = a ++ c :: b)
    (hd : d ∈ a ++ b) : d.sock ≠ c.sock := by
  have hnodup := h.nodup
  rw [hclients, List.map_append, List.map_cons] at hnodup
  have hmem := (List.nodup_middle.mp hnodup).notMem
  rw [← List.map_append] at hmem
  intro heq
  exact hmem (heq ▸ List.mem_map_of_mem hd)

theorem Tracks.step (h : Tracks s log) (he : s.Possible e) (hstep : s.Stepped e s' new) : Tracks s' (log ++ new) := by
  cases hstep with
  | @accepted _ slot hclients hpos =>
    have hother {sock : ℕ} (hne : slot.sock ≠ sock) : ∀ e ∈ [Entry.accepted slot.sock], e.sock ≠ sock := by
      simpa [Entry.sock] using hne
    constructor
    · rw [hclients, List.map_append, List.map_singleton]
      rw [← List.concat_eq_append]
      exact h.nodup.concat he
    · intro c hc
      rw [hclients] at hc
      rcases List.mem_append.mp hc with hc | hc
      · apply (h.clients c hc).of_ne
        apply hother
        rintro heq
        exact he (heq ▸ List.mem_map_of_mem hc)
      · obtain rfl := List.mem_singleton.mp hc
        have hpending : c.pending = [] := List.eq_nil_of_length_eq_zero (by rw [ClientState.length_pending, hpos])
        rw [hpending]
        exact streams_accepted c.sock log
    · intro sock
      by_cases hsock : slot.sock = sock
      · exact ⟨[], hsock ▸ streams_accepted slot.sock log⟩
      · obtain ⟨rest, hrest⟩ := h.streams sock
        exact ⟨rest, hrest.of_ne (hother hsock)⟩
  | ignored hsock =>
    rw [List.append_nil]
    exact h
  | @dropped _ c available hclients hnone =>
    rw [List.append_nil]
    have hperm := (hclients.map ClientState.sock).nodup_iff.mpr h.nodup
    exact ⟨hperm.of_cons, fun d hd => h.clients d (hclients.subset (List.mem_cons_of_mem c hd)), h.streams⟩
  | @read _ a b c c' available data new hclients hdata hne hroom hserves hclients' =>
    have hc : c ∈ s.clients := by
      rw [hclients]
      exact List.mem_append_cons_self
    have hown := (h.clients c hc).read hserves
    have hother {sock : ℕ} (hne : sock ≠ c.sock) : ∀ e ∈ Entry.read c.sock data :: new, e.sock ≠ sock := by
      intro e he
      rcases List.mem_cons.mp he with rfl | he
      · exact hne.symm
      · rw [hserves.sock_eq e he]
        exact hne.symm
    have hsock : c'.sock = c.sock := hserves.sock
    constructor
    · have hnodup := h.nodup
      rw [hclients] at hnodup
      rw [hclients', List.map_append, List.map_cons, hsock]
      rwa [List.map_append, List.map_cons] at hnodup
    · intro d hd
      rw [hclients', List.mem_append, List.mem_cons] at hd
      by_cases hd' : d ∈ a ++ b
      · apply (h.clients d _).of_ne (hother (h.sock_ne hclients hd'))
        rw [hclients]
        simp only [List.mem_append, List.mem_cons] at hd' ⊢
        exact hd'.imp_right .inr
      · obtain rfl : d = c' := by
          simp only [List.mem_append, not_or] at hd'
          exact (hd.resolve_left hd'.1).resolve_right hd'.2
        rw [hsock]
        exact hown
    · intro sock
      by_cases heq : sock = c.sock
      · subst heq
        exact ⟨_, hown⟩
      · obtain ⟨rest, hrest⟩ := h.streams sock
        exact ⟨rest, hrest.of_ne (hother heq)⟩

theorem Reached.tracks (h : Reached s log) : Tracks s log := by
  induction h with
  | start => exact tracks_initial
  | step _ he hstep ih => exact ih.step he (Server.stepped_of_step hstep)

/-! ## Clients that speak the protocol -/

theorem take_put? {l l' bs : List Byte} {a k : ℕ} (h : put? l a bs = some l') (hk : k ≤ a) : l'.take k = l.take k := by
  unfold put? at h
  split_ifs at h with hle
  obtain rfl := Option.some.inj h
  rw [List.take_append_of_le_length (by rw [List.length_take]; omega), List.take_take, min_eq_left hk]

theorem take_stores {ops : List (ℕ × List Byte)} {l l' : List Byte} {k : ℕ} (h : stores ops l = some l')
    (hk : ∀ op ∈ ops, k ≤ op.1) : l'.take k = l.take k := by
  induction ops generalizing l with
  | nil => rw [Option.some.inj h]
  | cons op ops ih =>
    obtain ⟨l₁, hput, hrest⟩ := Option.bind_eq_some_iff.mp h
    rw [ih hrest fun op' hop' => hk op' (List.mem_cons_of_mem op hop'), take_put? hput (hk op (List.mem_cons_self ..))]

/-- A request announces as many bytes as it has, as far as 32 bits tell. -/
theorem requestSize_stores {t : Byte} {n : ℕ} {ops : List (ℕ × List Byte)} {memory : ℕ → Byte} {f : List Byte}
    (h : stores ((0, [t]) :: (1, ofNat 4 n) :: ops) (malloc memory (word (5 + n))) = some f) (hops : ∀ op ∈ ops, 5 ≤ op.1) :
    requestSize f = some f.length := by
  have hlen : f.length = word (5 + n) := by rw [length_of_stores h, length_malloc]
  have hheader : [[t], ofNat 4 n].flatten = t :: ofNat 4 n := by simp
  have hheaderLen : (t :: ofNat 4 n).length = 5 := by rw [List.length_cons, length_ofNat]
  have hparts := stores_layout [[t], ofNat 4 n] [] (malloc memory (word (5 + n)))
  rw [hheader, hheaderLen, List.nil_append] at hparts
  change stores (layout 0 [[t], ofNat 4 n] ++ ops) _ = _ at h
  rw [stores_append, show layout 0 [[t], ofNat 4 n] = layout ([] : List Byte).length [[t], ofNat 4 n] from rfl, hparts,
    length_malloc] at h
  split_ifs at h with hle
  · have htake := take_stores h hops
    rw [List.nil_append, List.take_left' hheaderLen] at htake
    have hnum : numAt f 1 4 = word n := by
      rw [← numAt_take (show 1 + 4 ≤ 5 from le_rfl), htake, numAt_cons_succ, ← List.append_nil (ofNat 4 n), numAt_ofNat]
      rfl
    rw [requestSize, if_neg (by omega), hnum, hlen, word, word, word, Nat.add_mod_mod]
  · cases h

theorem requestSize_request {c : Call} {memory : ℕ → Byte} {f : List Byte} (h : request memory c = some f) :
    requestSize f = some f.length := by
  cases c with
  | fclose | ftell | closedir | readdir | rewinddir => exact requestSize_stores (n := 4) h (by simp)
  | fread | fseek => exact requestSize_stores (n := 12) h (by simp)
  | fopen | rename =>
    refine requestSize_stores h ?_
    simp only [List.mem_cons, List.not_mem_nil, or_false, forall_eq_or_imp, forall_eq]
    omega
  | fwrite | mkdir | remove | opendir => exact requestSize_stores h (by simp)

/-- A call that is delivered is made whatever comes behind its request. -/
theorem Delivers.dispatch_eq {c : Call} (hc : Delivers c) {memory : ℕ → Byte} {f : List Byte} (h : request memory c = some f) :
    f.length ≤ BUFFER_SIZE ∧ ∀ buffer, f <+: buffer → buffer.length = BUFFER_SIZE → dispatch buffer = some (some c) := by
  have hsize := requestSize_request h
  have hbuffer : BUFFER_SIZE = 4096 := rfl
  have hdecode (stale : ℕ → Byte) : decode (received stale f) (min f.length BUFFER_SIZE) = some (some c) := by
    obtain ⟨f', hf', hdecode⟩ := hc memory stale
    obtain rfl := Option.some.inj (h.symm.trans hf')
    exact hdecode
  have hshort : ¬ f.length < 5 := by
    intro hlt
    rw [requestSize, if_pos hlt] at hsize
    cases hsize
  have hlen : word (5 + numAt f 1 4) = f.length := by
    rw [requestSize, if_neg hshort] at hsize
    exact Option.some.inj hsize
  have hnum (stale : ℕ → Byte) : numAt (received stale f) 1 4 = numAt f 1 4 := by
    rw [received, numAt_append_left (by rw [List.length_take]; omega), numAt_take (by omega)]
  have hle : f.length ≤ BUFFER_SIZE := by
    by_contra hlong
    have hwait := hdecode fun _ => 0
    rw [decode, hnum, hlen, min_eq_right (by omega), if_neg (by omega), if_pos (by omega)] at hwait
    cases hwait
  refine ⟨hle, ?_⟩
  rintro buffer ⟨r, rfl⟩ hlength
  have hreceived : received (fun i => (f ++ r).getD i 0) f = f ++ r := by
    have hmalloc : malloc (fun i => (f ++ r).getD i 0) BUFFER_SIZE = f ++ r := by
      apply List.ext_getElem
      · rw [length_malloc, hlength]
      · intro i hi hi'
        simp only [malloc, List.getElem_map, List.getElem_range, List.getD_eq_getElem _ _ hi']
    rw [received, hmalloc, List.take_of_length_le hle, List.drop_left]
  have hserved := hdecode fun i => (f ++ r).getD i 0
  have hnum' := hnum fun i => (f ++ r).getD i 0
  rw [hreceived] at hserved hnum'
  rwa [decode, hnum', hlen, min_eq_left hle, if_neg hshort, if_neg (lt_irrefl _)] at hserved

/-- The requests of calls that are delivered -/
def Sends (cs : List Call) (fs : List (List Byte)) : Prop :=
  List.Forall₂ (fun c f => Delivers c ∧ ∃ memory, request memory c = some f) cs fs

theorem Sends.requestSize {cs : List Call} {fs : List (List Byte)} (h : Sends cs fs) :
    ∀ f ∈ fs, requestSize f = some f.length := by
  induction h with
  | nil => exact fun f hf => nomatch hf
  | cons hfirst _ ih =>
    obtain ⟨-, memory, hrequest⟩ := hfirst
    intro f hf
    rcases List.mem_cons.mp hf with rfl | hf
    · exact requestSize_request hrequest
    · exact ih f hf

/-- Calls are made as they were sent. -/
theorem Sends.calls_eq {cs : List Call} {fs : List (List Byte)} {made : List (Option Call)} (h : Sends cs fs)
    {k : ℕ} (hmade : List.Forall₂ Makes (fs.take k) made) : made = (cs.take k).map some := by
  induction h generalizing k made with
  | nil =>
    rw [List.take_nil] at hmade
    cases hmade
    rw [List.take_nil, List.map_nil]
  | cons hfirst _ ih =>
    obtain ⟨hdelivers, memory, hrequest⟩ := hfirst
    cases k with
    | zero =>
      cases hmade
      rfl
    | succ k =>
      rw [List.take_succ_cons] at hmade ⊢
      cases hmade with
      | cons hcall hrest =>
        obtain ⟨buffer, hpre, hlen, hdispatch⟩ := hcall
        rw [(hdelivers.dispatch_eq hrequest).2 buffer hpre hlen] at hdispatch
        rw [List.map_cons, ih hrest, Option.some.inj hdispatch]

theorem requestSize_eq_zero_iff {l : List Byte} : requestSize l = some 0 ↔ 5 ≤ l.length ∧ numAt l 1 4 = 2 ^ 32 - 5 := by
  have hlt := numAt_lt l 1
  rw [requestSize]
  by_cases hlen : l.length < 5
  · rw [if_pos hlen]
    simp only [reduceCtorEq, false_iff]
    omega
  · rw [if_neg hlen, Option.some_inj, word]
    omega

/-- The loop ends on a buffer with requests of calls that are delivered. -/
theorem ClientState.exists_requests {cs : List Call} {fs : List (List Byte)} (hsends : Sends cs fs) {c : ClientState}
    (hpre : c.pending <+: fs.flatten) {fuel : ℕ} (hfuel : c.buffer_pos < fuel) : ∃ r, c.requests fuel = some r := by
  induction fuel generalizing c cs fs with
  | zero => exact absurd hfuel (Nat.not_lt_zero _)
  | succ fuel ih =>
    have hsize := c.requestSize_pending
    rw [requests]
    dsimp only
    by_cases hshort : c.buffer_pos < 5
    · exact ⟨_, if_pos hshort⟩
    rw [if_neg hshort] at hsize ⊢
    by_cases hle : word (5 + numAt c.buffer 1 4) ≤ c.buffer_pos
    · cases hsends with
      | nil =>
        have hlen := hpre.length_le
        rw [length_pending, List.flatten_nil, List.length_nil] at hlen
        omega
      | @cons call f cs fs hfirst hsends =>
        obtain ⟨hdelivers, memory, hrequest⟩ := hfirst
        obtain ⟨u, hu⟩ := hpre
        have hf := requestSize_request hrequest
        have hn : word (5 + numAt c.buffer 1 4) = f.length := by
          have hlong := stable_requestSize _ u _ hsize
          rw [hu, List.flatten_cons, stable_requestSize _ _ _ hf] at hlong
          exact (Option.some.inj hlong).symm
        have hpos : 0 < f.length := by
          by_contra hnil
          obtain rfl := List.eq_nil_of_length_eq_zero (Nat.eq_zero_of_not_pos hnil)
          cases hf
        have hlen : f.length ≤ c.pending.length := by rw [length_pending, ← hn]; exact hle
        have hfirst : f <+: c.pending :=
          List.prefix_of_prefix_length_le ⟨fs.flatten, rfl⟩ ⟨u, hu⟩ hlen
        have hbuffer : f <+: c.buffer := hfirst.trans (List.take_prefix ..)
        have hrest : (c.consume _ hle).pending <+: fs.flatten := by
          refine ⟨u, ?_⟩
          rw [pending_consume, hn, ← List.drop_append_of_le_length hlen, hu, List.flatten_cons, List.drop_left]
        have hless : (c.consume _ hle).buffer_pos < fuel := by
          dsimp only [consume]
          omega
        obtain ⟨r, hr⟩ := ih hsends hrest hless
        rw [dif_pos hle, (hdelivers.dispatch_eq hrequest).2 _ hbuffer c.hbuffer, Option.bind_some, hr]
        exact ⟨_, rfl⟩
    · exact ⟨_, dif_neg hle⟩

theorem Server.step_readable (hnodup : (s.clients.map (·.sock)).Nodup) {c c' : ClientState} (hc : c ∈ s.clients)
    {available : List Byte} (hdata : available.take c.room ≠ [])
    (hrequests : (c.receive (available.take c.room) (List.length_take_le ..)).requests (BUFFER_SIZE + 1) = some (new, c')) :
    ∃ s', s.step (.readable c.sock available) = some (s', .read c.sock (available.take c.room) :: new) ∧ c' ∈ s'.clients := by
  rw [Server.step]
  split
  case h_1 hfind =>
    have hnone := List.findIdx?_eq_none_iff.mp hfind c hc
    exact absurd rfl (of_decide_eq_false hnone)
  case h_2 j hfind =>
    obtain ⟨hj, hsock, -⟩ := List.findIdx?_eq_some_iff_getElem.mp hfind
    obtain rfl : s.clients[j] = c := List.inj_on_of_nodup_map hnodup (List.getElem_mem hj) hc (of_decide_eq_true hsock)
    dsimp only
    rw [if_neg hdata, hrequests]
    exact ⟨_, rfl, List.mem_set hj _⟩

/-- A first client, before it has sent anything -/
theorem Reached.exists_accepted (sock : ℕ) :
    ∃ s c, Reached s [.accepted sock] ∧ c ∈ s.clients ∧ c.sock = sock ∧ c.buffer_pos = 0 := by
  have hreached := Reached.start.step (e := .accept sock) (fun hmem => nomatch hmem) rfl
  exact ⟨_, _, hreached, List.mem_singleton.mpr rfl, rfl, rfl⟩

theorem sends_ftell (fd_id : UInt32) : Sends [.ftell fd_id] [frame 6 (ofNat 4 fd_id.toNat)] := by
  have hdelivers : Delivers (.ftell fd_id) := by
    refine (delivers_iff_fits (c := .ftell fd_id) trivial trivial).mpr ?_
    rw [payload_len_handle rfl]
    decide
  exact .cons ⟨hdelivers, fun _ => 0, rfl⟩ .nil

/-- A client that has asked for the position of a file -/
theorem Reached.exists_ftell (sock : ℕ) (fd_id : UInt32) :
    ∃ s log, Reached s log ∧ bytesRead (since sock log) = frame 6 (ofNat 4 fd_id.toNat) := by
  obtain ⟨s, c, hreached, hc, rfl, hpos⟩ := Reached.exists_accepted sock
  have hroom : c.room = BUFFER_SIZE := by rw [ClientState.room, hpos, Nat.sub_zero]
  have htake : (frame 6 (ofNat 4 fd_id.toNat)).take c.room = frame 6 (ofNat 4 fd_id.toNat) :=
    List.take_of_length_le (by rw [hroom, length_frame, length_ofNat]; decide)
  have hpending : c.pending = [] := List.eq_nil_of_length_eq_zero (by rw [ClientState.length_pending, hpos])
  obtain ⟨⟨new, c'⟩, hrequests⟩ := ClientState.exists_requests (sends_ftell fd_id)
    (c := c.receive ((frame 6 (ofNat 4 fd_id.toNat)).take c.room) (List.length_take_le ..))
    (by rw [ClientState.pending_receive, hpending, htake]; simp) (Nat.lt_succ_of_le (ClientState.hpos _))
  obtain ⟨s', hstep, -⟩ := Server.step_readable hreached.tracks.nodup hc (by rw [htake, frame]; simp) hrequests
  refine ⟨s', _, hreached.step (e := .readable c.sock _) trivial hstep, ?_⟩
  have hserves := ClientState.serves_of_requests hrequests
  rw [hserves.since_read, bytesRead_append, hserves.bytesRead_read, htake]
  have hsince : since c.sock [.accepted c.sock] = [] := since_accepted c.sock []
  rw [hsince]
  rfl

end

end ValidcTools.Vfs
