import ValidcTools.Vfs.Protocol

/-! Which calls of the VFS client reach the server as they were made, and which results come back. -/
namespace ValidcTools.Vfs

open Bytes

variable {c : Call} {t : Byte} {body rest : List Byte} {memory stale : ℕ → Byte}

/-! ## Frames -/

/-- A request: its type, the length of its payload, and the payload -/
def frame (t : Byte) (body : List Byte) : List Byte := t :: (ofNat 4 body.length ++ body)

theorem length_frame : (frame t body).length = 5 + body.length := by
  rw [frame, List.length_cons, List.length_append, length_ofNat]
  omega

@[simp] theorem length_malloc (memory : ℕ → Byte) (n : ℕ) : (malloc memory n).length = n := by
  simp [malloc]

@[simp] theorem length_strcpy (s : CString) : (strcpy s).length = s.length + 1 := by
  simp [strcpy, CString.length]

/-- Parts stored one behind the other behind a header that announces their length -/
theorem stores_frame (t : Byte) (parts : List (List Byte)) (memory : ℕ → Byte) :
    stores ((0, [t]) :: (1, ofNat 4 parts.flatten.length) :: layout 5 parts) (malloc memory (5 + parts.flatten.length)) =
      some (frame t parts.flatten) := by
  have hlen : ([t] :: ofNat 4 parts.flatten.length :: parts).flatten.length =
      (malloc memory (5 + parts.flatten.length)).length := by
    simp only [List.flatten_cons, List.length_append, length_ofNat, length_malloc, List.length_singleton]
    omega
  have hstores := stores_layout_full _ hlen
  simpa [layout, frame] using hstores

theorem numAt_ofNat_four {n : ℕ} (h : n < 2 ^ 32) (l : List Byte) : numAt (ofNat 4 n ++ l) 0 4 = n := by
  rw [numAt_ofNat, show 256 ^ 4 = 2 ^ 32 by decide, Nat.mod_eq_of_lt h]

theorem numAt_frame (hlen : body.length < 2 ^ 32) (rest : List Byte) : numAt (frame t body ++ rest) 1 4 = body.length := by
  rw [frame, List.cons_append, List.append_assoc, numAt_cons_succ, numAt_ofNat_four hlen]

theorem received_of_le (stale : ℕ → Byte) {f : List Byte} (h : f.length ≤ BUFFER_SIZE) : ∃ rest, received stale f = f ++ rest :=
  ⟨_, by rw [received, List.take_of_length_le h]⟩

/-- A request that fits the buffer is decoded as soon as it is there. -/
theorem decode_frame (hlen : 5 + body.length ≤ BUFFER_SIZE) (rest : List Byte) :
    decode (frame t body ++ rest) (frame t body).length = dispatch (frame t body ++ rest) := by
  have hbuffer : BUFFER_SIZE = 4096 := rfl
  have hword : word (5 + body.length) = 5 + body.length := word_of_lt (by omega)
  rw [decode, numAt_frame (by omega), hword, length_frame, if_neg (by omega), if_neg (lt_irrefl _)]

/-- The server waits for ever for the rest of a request that does not fit the buffer. -/
theorem decode_long (hlen : BUFFER_SIZE < 5 + body.length) (hword : 5 + body.length < 2 ^ 32) :
    decode (received stale (frame t body)) (min (frame t body).length BUFFER_SIZE) = some none := by
  have hbuffer : BUFFER_SIZE = 4096 := rfl
  have hnum : numAt (received stale (frame t body)) 1 4 = body.length := by
    have htake : (frame t body).take BUFFER_SIZE = t :: (ofNat 4 body.length ++ body.take (BUFFER_SIZE - 5)) := by
      rw [frame, hbuffer, List.take_succ_cons, List.take_append, length_ofNat,
        List.take_of_length_le (by rw [length_ofNat]; omega)]
    rw [received, htake, List.cons_append, numAt_cons_succ, List.append_assoc, numAt_ofNat_four (by omega)]
  rw [decode, hnum, word_of_lt hword, length_frame, min_eq_right hlen.le, if_neg (by omega), if_pos hlen]

/-! ## Requests -/

theorem not_delivers_of_none (h : request (fun _ => 0) c = none) : ¬ Delivers c := by
  intro hc
  obtain ⟨_, hreq, -⟩ := hc (fun _ => 0) (fun _ => 0)
  rw [h] at hreq
  cases hreq

/-- A call whose request carries its arguments is delivered when the request fits the buffer. -/
theorem delivers_iff (hreq : ∀ memory, request memory c = some (frame t body)) (hword : 5 + body.length < 2 ^ 32)
    (hdispatch : ∀ rest, dispatch (frame t body ++ rest) = some (some c)) :
    Delivers c ↔ 5 + body.length ≤ BUFFER_SIZE := by
  constructor
  · intro hc
    by_contra hlong
    obtain ⟨f, hf, hdecode⟩ := hc (fun _ => 0) (fun _ => 0)
    obtain rfl := Option.some.inj ((hreq _).symm.trans hf)
    rw [decode_long (by omega) hword] at hdecode
    cases hdecode
  · intro hle memory stale
    refine ⟨_, hreq memory, ?_⟩
    obtain ⟨rest, hrest⟩ := received_of_le stale ((length_frame (t := t)).trans_le hle)
    rw [hrest, min_eq_left (by rwa [length_frame]), decode_frame hle, hdispatch]

/-- A string and its terminator, wherever they lie in the buffer -/
theorem stringAt?_eq_some {l r : List Byte} {a : ℕ} {s : CString} (h : l.drop a = strcpy s ++ r) :
    stringAt? l a = some s := by
  have hbytes : l.drop a = s.bytes ++ 0 :: r := by rw [h, strcpy, List.append_assoc, List.singleton_append]
  rw [stringAt?, hbytes, CString.ofBytes_append_zero, if_pos (List.mem_append_right _ (List.mem_cons_self ..))]

/-- What the fields of a payload are meant to be -/
def payload : Call → List (List Byte)
  | .fopen path mode => [ofNat 4 (mode.length + 1), strcpy mode, strcpy path]
  | .fread fd_id size nmemb => [ofNat 4 fd_id.toNat, ofNat 4 size.toNat, ofNat 4 nmemb.toNat]
  | .fwrite fd_id size nmemb data _ => [ofNat 4 fd_id.toNat, ofNat 4 size.toNat, ofNat 4 nmemb.toNat, data]
  | .fseek fd_id offset whence => [ofNat 4 fd_id.toNat, ofNat 8 offset.toUInt64.toNat, ofNat 4 whence.toUInt32.toNat]
  | .mkdir path mode => [ofNat 2 mode.toNat, strcpy path]
  | .remove path | .opendir path => [strcpy path]
  | .rename old_path new_path => [ofNat 4 (old_path.length + 1), strcpy old_path, strcpy new_path]
  | .fclose id | .ftell id | .closedir id | .readdir id | .rewinddir id => [ofNat 4 id.toNat]

/-- The type of a request -/
def req_type : Call → Byte
  | .fopen .. => 1
  | .fclose _ => 2
  | .fread .. => 3
  | .fwrite .. => 4
  | .fseek .. => 5
  | .ftell _ => 6
  | .mkdir .. => 7
  | .remove _ => 8
  | .rename .. => 9
  | .opendir _ => 10
  | .closedir _ => 11
  | .readdir _ => 12
  | .rewinddir _ => 13

/-- The length of the payload that the arguments of a call need -/
def payload_len (c : Call) : ℕ := (payload c).flatten.length

theorem payload_len_fopen (path mode : CString) :
    payload_len (.fopen path mode) = 4 + (mode.length + 1) + (path.length + 1) := by
  simp [payload_len, payload]
  omega

theorem payload_len_fread (fd_id : UInt32) (size nmemb : UInt64) : payload_len (.fread fd_id size nmemb) = 12 := by
  simp [payload_len, payload]

theorem payload_len_fwrite (fd_id : UInt32) {size nmemb : UInt64} {data : List Byte}
    (hdata : data.length = (size * nmemb).toNat) :
    payload_len (.fwrite fd_id size nmemb data hdata) = 12 + (size * nmemb).toNat := by
  simp [payload_len, payload, hdata]
  omega

theorem payload_len_mkdir (path : CString) (mode : UInt16) : payload_len (.mkdir path mode) = 2 + (path.length + 1) := by
  simp [payload_len, payload]

theorem payload_len_rename (old_path new_path : CString) :
    payload_len (.rename old_path new_path) = 4 + (old_path.length + 1) + (new_path.length + 1) := by
  simp [payload_len, payload]
  omega

/-- A call with a path and nothing else -/
theorem payload_len_path {path : CString} (h : payload c = [strcpy path]) : payload_len c = path.length + 1 := by
  simp [payload_len, h]

/-- A call with a handle and nothing else -/
theorem payload_len_handle {id : UInt32} (h : payload c = [ofNat 4 id.toNat]) : payload_len c = 4 := by
  simp [payload_len, h]

/-- The layouts of the client fit every call but `vfs_fseek`, and `vfs_fopen` for one length of the mode only. -/
def LaidOut : Call → Prop
  | .fopen _ mode => mode.length = 3
  | .fseek .. => False
  | _ => True

/-- Where the layout fits, the request is the payload behind its header. -/
theorem request_eq_frame (hc : LaidOut c) (hlen : 5 + payload_len c < 2 ^ 32) :
    request memory c = some (frame (req_type c) (payload c).flatten) := by
  rw [← stores_frame (req_type c) (payload c) memory, ← payload_len]
  cases c with
  | fopen path mode =>
    have hmode : mode.length = 3 := hc
    have hL : payload_len (.fopen path mode) = 8 + (path.length + 1) := by rw [payload_len_fopen, hmode]
    rw [hL] at hlen
    have hmode_len : word (mode.length + 1) = 4 := by rw [hmode]; rfl
    have hpath : word (path.length + 1) = path.length + 1 := word_of_lt (by omega)
    have hpayload : word (8 + (path.length + 1)) = 8 + (path.length + 1) := word_of_lt (by omega)
    rw [request, hmode_len, hpath, hpayload, word_of_lt hlen, hL, payload, layout, layout, layout, layout, length_strcpy,
      hmode]
    rfl
  | fseek => exact hc.elim
  | fwrite fd_id size nmemb data hdata =>
    rw [payload_len_fwrite] at hlen ⊢
    have hpayload : word (12 + (size * nmemb).toNat) = 12 + (size * nmemb).toNat := word_of_lt (by omega)
    rw [request, hpayload, word_of_lt hlen]
    rfl
  | mkdir path mode =>
    rw [payload_len_mkdir] at hlen ⊢
    have hpath : word (path.length + 1) = path.length + 1 := word_of_lt (by omega)
    have hpayload : word (2 + (path.length + 1)) = 2 + (path.length + 1) := word_of_lt (by omega)
    rw [request, hpath, hpayload, word_of_lt hlen]
    rfl
  | remove path | opendir path =>
    rw [payload_len_path rfl] at hlen ⊢
    have hpath : word (path.length + 1) = path.length + 1 := word_of_lt (by omega)
    rw [request, hpath, word_of_lt hlen]
    rfl
  | rename old_path new_path =>
    rw [payload_len_rename] at hlen ⊢
    have hold : word (old_path.length + 1) = old_path.length + 1 := word_of_lt (by omega)
    have hnew : word (new_path.length + 1) = new_path.length + 1 := word_of_lt (by omega)
    have hpayload : word (4 + (old_path.length + 1) + (new_path.length + 1)) =
        4 + (old_path.length + 1) + (new_path.length + 1) := word_of_lt (by omega)
    rw [request, hold, hnew, hpayload, word_of_lt hlen, payload, layout, layout, layout, layout, length_strcpy]
    rfl
  | fread fd_id size nmemb =>
    rw [payload_len_fread]
    rfl
  | fclose id | ftell id | closedir id | readdir id | rewinddir id =>
    rw [payload_len_handle rfl]
    rfl

/-- A request of 2 ^ 32 bytes or more is written past the end of its buffer. -/
theorem request_eq_none (hc : LaidOut c) (hlen : 2 ^ 32 ≤ 5 + payload_len c) : request memory c = none := by
  have hword (n : ℕ) : (malloc memory (word n)).length < 2 ^ 32 := by
    rw [length_malloc]
    exact word_lt n
  cases c with
  | fopen path mode =>
    have hmode : mode.length = 3 := hc
    have hL := payload_len_fopen path mode
    have hmode_len : word (mode.length + 1) = 4 := by rw [hmode]; rfl
    refine stores_eq_none (show (9 + word (mode.length + 1), strcpy path) ∈ _ by simp) ((hword _).trans_le ?_)
    rw [hmode_len, length_strcpy]
    omega
  | fseek => exact hc.elim
  | fwrite fd_id size nmemb data hdata =>
    have hL := payload_len_fwrite fd_id hdata
    refine stores_eq_none (show (17, data) ∈ _ by simp) ((hword _).trans_le ?_)
    omega
  | mkdir path mode =>
    have hL := payload_len_mkdir path mode
    refine stores_eq_none (show (7, strcpy path) ∈ _ by simp) ((hword _).trans_le ?_)
    rw [length_strcpy]
    omega
  | remove path | opendir path =>
    rw [payload_len_path rfl] at hlen
    refine stores_eq_none (show (5, strcpy path) ∈ _ by simp) ((hword _).trans_le ?_)
    rw [length_strcpy]
    omega
  | rename old_path new_path =>
    have hL := payload_len_rename old_path new_path
    by_cases hold : old_path.length + 1 < 2 ^ 32
    · refine stores_eq_none (show (9 + word (old_path.length + 1), strcpy new_path) ∈ _ by simp) ((hword _).trans_le ?_)
      rw [word_of_lt hold, length_strcpy]
      omega
    · refine stores_eq_none (show (9, strcpy old_path) ∈ _ by simp) ((hword _).trans_le ?_)
      rw [length_strcpy]
      omega
  | fread fd_id size nmemb =>
    rw [payload_len_fread] at hlen
    omega
  | fclose id | ftell id | closedir id | readdir id | rewinddir id =>
    rw [payload_len_handle rfl] at hlen
    omega

/-- The sizes of a call fit the fields that carry them. -/
def SizesFit : Call → Prop
  | .fread _ size nmemb | .fwrite _ size nmemb .. => size.toNat < 2 ^ 32 ∧ nmemb.toNat < 2 ^ 32
  | _ => True

/-- The payload is at `buffer + 5`. -/
theorem drop_frame (t : Byte) (body : List Byte) (a : ℕ) (rest : List Byte) : (frame t body ++ rest).drop (5 + a) = (body ++ rest).drop a := by
  rw [frame, List.cons_append, show 5 + a = (4 + a) + 1 by omega, List.drop_succ_cons, List.append_assoc,
    drop_ofNat_append (by omega), Nat.add_sub_cancel_left]

theorem numAt_payload (t : Byte) (body : List Byte) (a w : ℕ) (rest : List Byte) : numAt (frame t body ++ rest) (5 + a) w = numAt (body ++ rest) a w := by
  rw [numAt, drop_frame, numAt]

/-- A handle is the whole payload. -/
theorem handle_frame (id : UInt32) (rest : List Byte) :
    UInt32.ofNat (numAt (frame t [ofNat 4 id.toNat].flatten ++ rest) 5 4) = id := by
  rw [numAt_payload _ _ 0]
  simp [numAt_ofNat_four id.toNat_lt]

/-- The server finds the arguments where the payload has them. -/
theorem dispatch_frame (hc : LaidOut c) (hsizes : SizesFit c) (hlen : 5 + payload_len c < 2 ^ 32) (rest : List Byte) :
    dispatch (frame (req_type c) (payload c).flatten ++ rest) = some (some c) := by
  have hnum (a w) := numAt_payload (req_type c) (payload c).flatten a w rest
  have hdrop (a) := drop_frame (req_type c) (payload c).flatten a rest
  generalize hb : frame (req_type c) (payload c).flatten ++ rest = b at hnum hdrop
  cases c with
  | fopen path mode =>
    have hmode : (strcpy mode).length = 4 := by rw [length_strcpy, show mode.length = 3 from hc]
    have hmodeAt : stringAt? b 9 = some mode :=
      stringAt?_eq_some (r := strcpy path ++ rest) (by rw [hdrop 4]; simp [payload])
    have hpathAt : stringAt? b 13 = some path := by
      refine stringAt?_eq_some (r := rest) ?_
      rw [hdrop 8, payload, List.flatten_cons, List.append_assoc, drop_ofNat_append (by decide)]
      simp [hmode]
    have hdispatch : dispatch b = (stringAt? b 9).bind fun mode => (stringAt? b 13).map fun path => some (.fopen path mode) := by
      rw [← hb]
      rfl
    rw [hdispatch, hmodeAt, Option.bind_some, hpathAt, Option.map_some]
  | fseek => exact hc.elim
  | fread fd_id size nmemb =>
    obtain ⟨hsize, hnmemb⟩ := hsizes
    have hfd : numAt b 5 4 = fd_id.toNat := by
      rw [hnum 0]
      simp [payload, numAt_ofNat_four fd_id.toNat_lt]
    have hsizeAt : numAt b 9 4 = size.toNat := by
      rw [hnum 4]
      simp [payload, numAt_ofNat_append, numAt_ofNat_four hsize]
    have hnmembAt : numAt b 13 4 = nmemb.toNat := by
      rw [hnum 8]
      simp [payload, numAt_ofNat_append, numAt_ofNat_four hnmemb]
    have hdispatch : dispatch b = some (some (.fread (.ofNat (numAt b 5 4)) (.ofNat (numAt b 9 4)) (.ofNat (numAt b 13 4)))) := by
      rw [← hb]
      rfl
    rw [hdispatch, hfd, hsizeAt, hnmembAt, UInt32.ofNat_toNat, UInt64.ofNat_toNat, UInt64.ofNat_toNat]
  | fwrite fd_id size nmemb data hdata =>
    obtain ⟨hsize, hnmemb⟩ := hsizes
    have hfd : numAt b 5 4 = fd_id.toNat := by
      rw [hnum 0]
      simp [payload, numAt_ofNat_four fd_id.toNat_lt]
    have hsizeAt : UInt64.ofNat (numAt b 9 4) = size := by
      rw [hnum 4]
      simp [payload, numAt_ofNat_append, numAt_ofNat_four hsize]
    have hnmembAt : UInt64.ofNat (numAt b 13 4) = nmemb := by
      rw [hnum 8]
      simp [payload, numAt_ofNat_append, numAt_ofNat_four hnmemb]
    have hdataAt : (b.drop 17).take (size * nmemb).toNat = data := by
      rw [hdrop 12, ← hdata]
      simp [payload, drop_ofNat_append]
    have hdispatch : dispatch b =
        let size := UInt64.ofNat (numAt b 9 4)
        let nmemb := UInt64.ofNat (numAt b 13 4)
        let data := (b.drop 17).take (size * nmemb).toNat
        if h : data.length = (size * nmemb).toNat then some (some (.fwrite (.ofNat (numAt b 5 4)) size nmemb data h))
        else none := by
      rw [← hb]
      rfl
    simp only [hdispatch, hfd, hsizeAt, hnmembAt, hdataAt, hdata, UInt32.ofNat_toNat, dite_true]
  | mkdir path mode =>
    have hpathAt : stringAt? b 7 = some path :=
      stringAt?_eq_some (r := rest) (by rw [hdrop 2]; simp [payload])
    have hmodeAt : numAt b 5 2 = mode.toNat := by
      rw [hnum 0]
      simp [payload, numAt_ofNat]
    have hdispatch : dispatch b = (stringAt? b 7).map fun path => some (.mkdir path (.ofNat (numAt b 5 2))) := by
      rw [← hb]
      rfl
    rw [hdispatch, hpathAt, Option.map_some, hmodeAt, UInt16.ofNat_toNat]
  | remove path | opendir path =>
    have hpathAt : stringAt? b 5 = some path :=
      stringAt?_eq_some (r := rest) (by rw [hdrop 0]; simp [payload])
    subst hb
    exact congrArg (Option.map _) hpathAt
  | rename old_path new_path =>
    have hL := payload_len_rename old_path new_path
    have holdAt : stringAt? b 9 = some old_path :=
      stringAt?_eq_some (r := strcpy new_path ++ rest) (by rw [hdrop 4]; simp [payload])
    have hlenAt : numAt b 5 4 = old_path.length + 1 := by
      rw [hnum 0]
      simp [payload, numAt_ofNat_four (show old_path.length + 1 < 2 ^ 32 by omega)]
    have hnewAt : stringAt? b (9 + (old_path.length + 1)) = some new_path := by
      refine stringAt?_eq_some (r := rest) ?_
      rw [show 9 + (old_path.length + 1) = 5 + (4 + (old_path.length + 1)) by omega, hdrop, payload, List.flatten_cons,
        List.append_assoc, drop_ofNat_append (by omega), Nat.add_sub_cancel_left]
      simp
    have hdispatch : dispatch b = (stringAt? b 9).bind fun old_path =>
        (stringAt? b (9 + numAt b 5 4)).map fun new_path => some (.rename old_path new_path) := by
      rw [← hb]
      rfl
    rw [hdispatch, holdAt, Option.bind_some, hlenAt, hnewAt, Option.map_some]
  | fclose id =>
    subst hb
    exact congrArg (fun id => some (some (Call.fclose id))) (handle_frame id rest)
  | ftell id =>
    subst hb
    exact congrArg (fun id => some (some (Call.ftell id))) (handle_frame id rest)
  | closedir id =>
    subst hb
    exact congrArg (fun id => some (some (Call.closedir id))) (handle_frame id rest)
  | readdir id =>
    subst hb
    exact congrArg (fun id => some (some (Call.readdir id))) (handle_frame id rest)
  | rewinddir id =>
    subst hb
    exact congrArg (fun id => some (some (Call.rewinddir id))) (handle_frame id rest)

/-- A request that is laid out right is delivered when it fits the buffer of the server. -/
theorem delivers_iff_fits (hc : LaidOut c) (hsizes : SizesFit c) : Delivers c ↔ 5 + payload_len c ≤ BUFFER_SIZE := by
  have hbuffer : BUFFER_SIZE = 4096 := rfl
  by_cases hlen : 5 + payload_len c < 2 ^ 32
  · exact delivers_iff (fun memory => request_eq_frame hc hlen) hlen (dispatch_frame hc hsizes hlen)
  · constructor
    · intro h
      exact absurd h (not_delivers_of_none (request_eq_none hc (by omega)))
    · intro h
      omega

/-! ## Requests that say something else -/

theorem numAt_lt (l : List Byte) (a : ℕ) : numAt l a 4 < 2 ^ 32 := by
  have hlt := toNat_lt ((l.drop a).take 4)
  have hpow : 256 ^ ((l.drop a).take 4).length ≤ 256 ^ 4 := Nat.pow_le_pow_right (by decide) (List.length_take_le ..)
  exact hlt.trans_le hpow

/-- The server reads sizes from fields of four bytes. -/
theorem sizesFit_of_dispatch {b : List Byte} (h : dispatch b = some (some c)) : SizesFit c := by
  have hsize (a : ℕ) : (UInt64.ofNat (numAt b a 4)).toNat < 2 ^ 32 :=
    (UInt64.toNat_ofNat_of_lt' ((numAt_lt b a).trans (by decide))).trans_lt (numAt_lt b a)
  cases c with
  | fread fd_id size nmemb =>
    unfold dispatch at h
    split at h
    case h_3 =>
      cases h
      exact ⟨hsize 9, hsize 13⟩
    case h_4 =>
      dsimp only at h
      split_ifs at h
      cases h
    all_goals simp [Option.map_eq_some_iff, Option.bind_eq_some_iff] at h
  | fwrite fd_id size nmemb data hdata =>
    unfold dispatch at h
    split at h
    case h_4 =>
      dsimp only at h
      split_ifs at h
      cases h
      exact ⟨hsize 9, hsize 13⟩
    all_goals simp [Option.map_eq_some_iff, Option.bind_eq_some_iff] at h
  | _ => trivial

/-- The server takes the origin of a `vfs_fseek` from behind the payload. -/
theorem whence_of_dispatch {b : List Byte} {fd_id : UInt32} {offset : Int64} {whence : Int32}
    (h : dispatch b = some (some (.fseek fd_id offset whence))) : (UInt32.ofNat (numAt b 17 4)).toInt32 = whence := by
  unfold dispatch at h
  split at h
  case h_5 =>
    cases h
    rfl
  case h_4 =>
    dsimp only at h
    split_ifs at h
    cases h
  all_goals simp [Option.map_eq_some_iff, Option.bind_eq_some_iff] at h

/-- The server takes the path of a `vfs_fopen` from a place where the mode has four bytes. -/
theorem path_of_dispatch {b : List Byte} {path mode : CString} (h : dispatch b = some (some (.fopen path mode))) :
    CString.ofBytes (b.drop 13) = path := by
  unfold dispatch at h
  split at h
  case h_1 =>
    obtain ⟨_, -, h⟩ := Option.bind_eq_some_iff.mp h
    obtain ⟨p, hp, h⟩ := Option.map_eq_some_iff.mp h
    cases h
    unfold stringAt? at hp
    split_ifs at hp
    exact Option.some.inj hp
  case h_4 =>
    dsimp only at h
    split_ifs at h
    cases h
  all_goals simp [Option.map_eq_some_iff, Option.bind_eq_some_iff] at h

theorem dispatch_of_decode {b : List Byte} {n : ℕ} (h : decode b n = some (some c)) : dispatch b = some (some c) := by
  unfold decode at h
  split_ifs at h
  · cases h
  · cases h
  · exact h

theorem Delivers.sizesFit (h : Delivers c) : SizesFit c := by
  obtain ⟨_, -, hdecode⟩ := h (fun _ => 0) (fun _ => 0)
  exact sizesFit_of_dispatch (dispatch_of_decode hdecode)

theorem malloc_const (b : Byte) (n : ℕ) : malloc (fun _ => b) n = List.replicate n b := by
  rw [malloc, List.map_const', List.length_range]

/-- The high half of the offset and the origin share their bytes, and the origin is read elsewhere. -/
theorem not_delivers_fseek (fd_id : UInt32) (offset : Int64) (whence : Int32) : ¬ Delivers (.fseek fd_id offset whence) := by
  intro h
  have hwhence (b : Byte) : (UInt32.ofNat (toNat (List.replicate 4 b))).toInt32 = whence := by
    obtain ⟨f, hf, hdecode⟩ := h (fun _ => 0) (fun _ => b)
    have hlen : f.length = 17 := (length_of_stores hf).trans (length_malloc _ _)
    have hnum : numAt (received (fun _ => b) f) 17 4 = toNat (List.replicate 4 b) := by
      have hmin : min 4 (BUFFER_SIZE - 17) = 4 := by decide
      rw [received, List.take_of_length_le (by rw [hlen]; decide), numAt, malloc_const, ← hlen, List.drop_left, hlen,
        List.drop_replicate, List.take_replicate, hmin]
    rw [← hnum]
    exact whence_of_dispatch (dispatch_of_decode hdecode)
  exact absurd ((hwhence 0).trans (hwhence 1).symm) (by decide)

/-- A path whose first bytes are skipped, or what the memory held where it was looked for -/
theorem ofBytes_drop_ne {path : CString} {k : ℕ} (hk : 0 < k) (rest : List Byte) :
    CString.ofBytes ((strcpy path ++ (List.replicate k 1 ++ rest)).drop k) ≠ path := by
  intro h
  by_cases hle : k ≤ path.length
  · have hdrop : (strcpy path ++ (List.replicate k 1 ++ rest)).drop k =
        path.bytes.drop k ++ 0 :: (List.replicate k 1 ++ rest) := by
      rw [strcpy, List.append_assoc, List.drop_append_of_le_length hle, List.singleton_append]
    have hstring := CString.ofBytes_append_zero ⟨path.bytes.drop k, fun h0 => path.nulFree (List.mem_of_mem_drop h0)⟩
      (List.replicate k 1 ++ rest)
    rw [hdrop, hstring] at h
    have hlen := congrArg CString.length h
    rw [CString.length, List.length_drop] at hlen
    change path.length - k = path.length at hlen
    omega
  · have hdrop : (strcpy path ++ (List.replicate k 1 ++ rest)).drop k = List.replicate (path.length + 1) 1 ++ rest := by
      rw [List.drop_append, List.drop_eq_nil_of_le (by rw [length_strcpy]; omega), List.nil_append, length_strcpy,
        List.drop_append_of_le_length (by rw [List.length_replicate]; omega), List.drop_replicate,
        show k - (k - (path.length + 1)) = path.length + 1 by omega]
    have hlen : path.length + 1 ≤ (CString.ofBytes (List.replicate (path.length + 1) 1 ++ rest)).length := by
      change _ ≤ ((List.replicate (path.length + 1) 1 ++ rest).takeWhile (· ≠ 0)).length
      rw [List.takeWhile_append_of_pos (by simp), List.length_append, List.length_replicate]
      omega
    rw [← hdrop, h] at hlen
    omega

/-- The request of a `vfs_fopen` whose mode is too short for it -/
theorem request_fopen_short {path mode : CString} (hmode : mode.length < 3) (hlen : 14 + path.length < 2 ^ 32) :
    request (fun _ => 1) (.fopen path mode) = some (frame 1 (ofNat 4 (mode.length + 1) ++
      (strcpy mode ++ (strcpy path ++ List.replicate (3 - mode.length) 1)))) := by
  have hmode_len : word (mode.length + 1) = (strcpy mode).length := by
    rw [length_strcpy]
    exact word_of_lt (by omega)
  have hpath_len : word (path.length + 1) = path.length + 1 := word_of_lt (by omega)
  have hpayload : word (8 + (path.length + 1)) = 9 + path.length := (word_of_lt (by omega)).trans (by omega)
  have hroom : word (5 + (9 + path.length)) = 14 + path.length := (word_of_lt (by omega)).trans (by omega)
  have hparts : [[1], ofNat 4 (9 + path.length), ofNat 4 (strcpy mode).length, strcpy mode, strcpy path].flatten.length =
      11 + mode.length + path.length := by
    simp
    omega
  have hstores := stores_layout_zero [[1], ofNat 4 (9 + path.length), ofNat 4 (strcpy mode).length, strcpy mode, strcpy path]
    (l := malloc (fun _ => 1) (14 + path.length)) (by rw [hparts, length_malloc]; omega)
  have hbody : (ofNat 4 (mode.length + 1) ++
      (strcpy mode ++ (strcpy path ++ List.replicate (3 - mode.length) 1))).length = 9 + path.length := by
    simp
    omega
  rw [hparts, malloc_const, List.drop_replicate, show 14 + path.length - (11 + mode.length + path.length) =
    3 - mode.length by omega] at hstores
  rw [request, hmode_len, hpath_len, hpayload, hroom, malloc_const, frame, hbody]
  refine Eq.trans ?_ (hstores.trans ?_)
  · simp [layout]
  · simp

/-- The client leaves room for a mode of three bytes, and the server expects one. -/
theorem not_delivers_fopen {path mode : CString} (hmode : mode.length ≠ 3) : ¬ Delivers (.fopen path mode) := by
  have hbuffer : word (5 + word (8 + word (path.length + 1))) = word (14 + path.length) := by
    unfold word
    omega
  by_cases hlong : 3 < mode.length ∨ 2 ^ 32 ≤ 14 + path.length
  · apply not_delivers_of_none
    by_cases hword : mode.length + 1 < 2 ^ 32
    · refine stores_eq_none (show (9 + word (mode.length + 1), strcpy path) ∈ _ by simp) ?_
      rw [length_malloc, hbuffer, word_of_lt hword, length_strcpy]
      unfold word
      omega
    · refine stores_eq_none (show (9, strcpy mode) ∈ _ by simp) ?_
      have := word_lt (5 + word (8 + word (path.length + 1)))
      rw [length_malloc, length_strcpy]
      omega
  · intro h
    obtain ⟨f, hf, hdecode⟩ := h (fun _ => 1) (fun _ => 0)
    obtain rfl := Option.some.inj ((request_fopen_short (by omega) (by omega)).symm.trans hf)
    have hbody : (ofNat 4 (mode.length + 1) ++
        (strcpy mode ++ (strcpy path ++ List.replicate (3 - mode.length) 1))).length = 9 + path.length := by
      simp
      omega
    by_cases hle : 5 + (9 + path.length) ≤ BUFFER_SIZE
    · obtain ⟨rest, hrest⟩ := received_of_le (fun _ => 0) (length_frame (t := 1).trans_le (by rw [hbody]; exact hle))
      have hpath := path_of_dispatch (dispatch_of_decode (hrest ▸ hdecode))
      rw [show 13 = 5 + 8 from rfl, drop_frame, List.append_assoc, drop_ofNat_append (by decide), List.append_assoc,
        List.drop_append, List.drop_eq_nil_of_le (by rw [length_strcpy]; omega), List.nil_append, length_strcpy,
        List.append_assoc, show 8 - 4 - (mode.length + 1) = 3 - mode.length by omega] at hpath
      exact ofBytes_drop_ne (by omega) rest hpath
    · rw [decode_long (by omega) (by omega)] at hdecode
      cases hdecode

/-- The layout of the request fits the call, its sizes fit their fields, and the request fits the buffer of the
server. -/
def Carried (c : Call) : Prop := LaidOut c ∧ SizesFit c ∧ 5 + payload_len c ≤ BUFFER_SIZE

theorem Delivers.laidOut (h : Delivers c) : LaidOut c := by
  cases c with
  | fopen path mode =>
    by_contra hmode
    exact not_delivers_fopen hmode h
  | fseek fd_id offset whence => exact not_delivers_fseek fd_id offset whence h
  | _ => trivial

theorem delivers_iff_carried : Delivers c ↔ Carried c := by
  constructor
  · intro h
    exact ⟨h.laidOut, h.sizesFit, (delivers_iff_fits h.laidOut h.sizesFit).mp h⟩
  · intro ⟨hlaid, hsizes, hfits⟩
    exact (delivers_iff_fits hlaid hsizes).mpr hfits

/-! ## Responses -/

theorem response_eq_frame (failed : Prop) [Decidable failed] (body : List Byte) :
    response failed body = frame (if failed then 1 else 0) body := rfl

theorem numAt_body (a w : ℕ) : numAt (frame t body) (5 + a) w = numAt body a w := by
  have h := numAt_payload t body a w []
  rwa [List.append_nil, List.append_nil] at h

theorem numAt_length (hlen : body.length < 2 ^ 32) : numAt (frame t body) 1 4 = body.length := by
  have h := numAt_frame (t := t) hlen []
  rwa [List.append_nil] at h

theorem numAt_ofNat_full {w n : ℕ} (h : n < 256 ^ w) : numAt (ofNat w n) 0 w = n := by
  have hnum := numAt_ofNat w n []
  rwa [List.append_nil, Nat.mod_eq_of_lt h] at hnum

theorem numAt_word (n : ℕ) : numAt (ofNat 4 n) 0 4 = n % 2 ^ 32 := by
  have hnum := numAt_ofNat 4 n []
  rwa [List.append_nil] at hnum

/-- An `int` arrives as it was sent. -/
theorem intOf_intResponse (result : Int32) : intOf (intResponse result) = result := by
  rw [intOf, intResponse, response_eq_frame, numAt_body 0, numAt_ofNat_full result.toUInt32.toNat_lt, UInt32.ofNat_toNat]
  rfl

theorem ofNat_mod_eq_iff (p : UInt64) : UInt64.ofNat (p.toNat % 2 ^ 32) = p ↔ p.toNat < 2 ^ 32 := by
  have hlt : p.toNat % 2 ^ 32 < 2 ^ 32 := Nat.mod_lt _ (by decide)
  have hnat : (UInt64.ofNat (p.toNat % 2 ^ 32)).toNat = p.toNat % 2 ^ 32 :=
    UInt64.toNat_ofNat_of_lt' (hlt.trans (by decide))
  constructor
  · intro h
    rw [h] at hnat
    omega
  · intro h
    rw [Nat.mod_eq_of_lt h, UInt64.ofNat_toNat]

/-- Half of a pointer arrives. -/
theorem handleOf_handleResponse (p : UInt64) (msg : CString) : handleOf (handleResponse p msg) = p ↔ p.toNat < 2 ^ 32 := by
  rw [← ofNat_mod_eq_iff]
  by_cases hp : p = 0
  · subst hp
    exact iff_of_true rfl rfl
  · have hnum : numAt (response False (ofNat 4 p.toNat)) 5 4 = p.toNat % 2 ^ 32 := by
      rw [response_eq_frame, numAt_body 0, numAt_word]
    rw [handleResponse, if_pos hp, handleOf, if_neg (by simp [response]), hnum]

/-- A response that says nothing of what the memory held -/
theorem answers_iff {r : c.Result} {resp : List Byte} (h : ∀ memory, respond memory c r = some resp) :
    Answers c r ↔ ∀ stack, understand stack c resp = some (c.seen r) := by
  constructor
  · intro hanswers stack
    obtain ⟨resp', hresp, hunderstand⟩ := hanswers (fun _ => 0) stack
    rwa [Option.some.inj ((h _).symm.trans hresp)]
  · intro hunderstand memory stack
    exact ⟨resp, h memory, hunderstand stack⟩

/-- The elements of a `vfs_fread` are counted where their bytes should be. -/
theorem answers_fread_iff (fd_id : UInt32) (size nmemb : UInt64) (data : List Byte) :
    Answers (.fread fd_id size nmemb) data ↔ size ≠ 0 ∧ data.length ≤ word (size.toNat * nmemb.toNat) ∧
      5 + data.length / size.toNat ≤ BUFFER_SIZE ∧ (size = 1 ∨ data.length < size.toNat) := by
  have hbuffer : BUFFER_SIZE = 4096 := rfl
  by_cases hfail : size = 0 ∨ word (size.toNat * nmemb.toNat) < data.length ∨ BUFFER_SIZE < 5 + data.length / size.toNat
  · have hnone (memory) : respond memory (.fread fd_id size nmemb) data = none := if_pos hfail
    constructor
    · intro h
      obtain ⟨_, hresp, -⟩ := h (fun _ => 0) (fun _ => 0)
      rw [hnone] at hresp
      cases hresp
    · rintro ⟨hsize, hroom, hle, -⟩
      obtain h | h | h := hfail
      · exact absurd h hsize
      · omega
      · omega
  · obtain ⟨hsize, hroom, hle⟩ : size ≠ 0 ∧ data.length ≤ word (size.toNat * nmemb.toNat) ∧
        5 + data.length / size.toNat ≤ BUFFER_SIZE := by
      simpa only [not_or, not_lt] using hfail
    have hpos : 0 < size.toNat := by
      rw [Nat.pos_iff_ne_zero]
      intro h
      exact hsize (UInt64.toNat_inj.mp h)
    have hresp (memory) : respond memory (.fread fd_id size nmemb) data =
        some (response (data.length / size.toNat = 0 ∧ 0 < word (size.toNat * nmemb.toNat))
          (data.take (data.length / size.toNat))) := if_neg hfail
    have hunderstand (stack) : understand stack (.fread fd_id size nmemb)
        (response (data.length / size.toNat = 0 ∧ 0 < word (size.toNat * nmemb.toNat))
          (data.take (data.length / size.toNat))) =
        some (data.length / size.toNat / size.toNat, data.take (data.length / size.toNat)) := by
      have hread : (data.take (data.length / size.toNat)).length = data.length / size.toNat :=
        List.length_take_of_le (Nat.div_le_self ..)
      by_cases hfailed : data.length / size.toNat = 0 ∧ 0 < word (size.toNat * nmemb.toNat)
      · rw [understand, response, if_pos hfailed, if_pos (by simp), hfailed.1, Nat.zero_div, List.take_zero]
      · rw [understand, if_neg (by rw [response, if_neg hfailed]; simp), if_neg hsize, response_eq_frame,
          numAt_length (by rw [hread]; omega), hread]
        have hdrop := drop_frame (if data.length / size.toNat = 0 ∧ 0 < word (size.toNat * nmemb.toNat) then 1 else 0)
          (data.take (data.length / size.toNat)) 0 []
        rw [List.append_nil, List.append_nil, List.drop_zero] at hdrop
        rw [hdrop, List.take_of_length_le hread.le]
    rw [answers_iff hresp]
    simp only [hunderstand, Call.seen, Option.some.injEq, Prod.mk.injEq, forall_const, hsize, hroom, hle, true_and, ne_eq,
      not_false_eq_true]
    constructor
    · rintro ⟨hcount, -⟩
      by_cases hread : data.length / size.toNat = 0
      · exact .inr ((Nat.div_eq_zero_iff_lt hpos).mp hread)
      · left
        have hone : size.toNat = 1 := by
          by_contra hne
          exact absurd hcount (Nat.div_lt_self (Nat.pos_of_ne_zero hread) (by omega)).ne
        exact UInt64.toNat_inj.mp hone
    · rintro (rfl | hlt)
      · simp
      · rw [Nat.div_eq_of_lt hlt]
        simp

theorem answers_fwrite_iff (fd_id : UInt32) (size nmemb written : UInt64) (data : List Byte)
    (hdata : data.length = (size * nmemb).toNat) :
    Answers (.fwrite fd_id size nmemb data hdata) written ↔ written.toNat < 2 ^ 32 := by
  rw [← ofNat_mod_eq_iff]
  refine (answers_iff fun memory => rfl).trans ?_
  have hnum : numAt (countResponse (word (size.toNat * nmemb.toNat)) written) 5 4 = written.toNat % 2 ^ 32 := by
    rw [countResponse, response_eq_frame, numAt_body 0, numAt_word]
  have hunderstand (stack : ℕ → Byte) : understand stack (.fwrite fd_id size nmemb data hdata)
      (countResponse (word (size.toNat * nmemb.toNat)) written) = some (.ofNat (written.toNat % 2 ^ 32)) := by
    by_cases hfail : written = 0 ∧ 0 < word (size.toNat * nmemb.toNat)
    · rw [understand, if_pos (by simp [countResponse, response, hfail]), hfail.1]
      rfl
    · rw [understand, hnum, if_neg (by simp [countResponse, response, hfail])]
  constructor
  · intro h
    exact Option.some.inj ((hunderstand (fun _ => 0)).symm.trans (h _))
  · intro h stack
    rw [hunderstand, h]
    rfl

/-- The nine bytes of a response hold half of a `long`. -/
theorem answers_ftell_iff (fd_id : UInt32) (pos : Int64) : Answers (.ftell fd_id) pos ↔ pos = -1 := by
  refine (answers_iff fun memory => rfl).trans ?_
  by_cases hneg : pos < 0
  · have hunderstand (stack : ℕ → Byte) : understand stack (.ftell fd_id) (longResponse pos) = some (-1 : Int64) := by
      rw [understand, if_pos (by simp [longResponse, response, hneg])]
    constructor
    · intro h
      exact Option.some.inj ((h (fun _ => 0)).symm.trans (hunderstand _))
    · intro h stack
      rw [hunderstand, h]
      rfl
  · constructor
    · intro h
      have hresp : longResponse pos = frame 0 ((ofNat 8 pos.toUInt64.toNat).take 4) := by
        rw [longResponse, response_eq_frame, if_neg hneg]
      have hlow : ((ofNat 8 pos.toUInt64.toNat).take 4).length = 4 := by simp
      have hpos (b : Byte) : (UInt64.ofNat (toNat ((ofNat 8 pos.toUInt64.toNat).take 4) +
          256 ^ 4 * toNat (List.replicate 4 b))).toInt64 = pos := by
        have hb := h fun _ => b
        rw [hresp, understand, if_neg (by simp [frame]), malloc_const,
          List.take_of_length_le (by rw [length_frame, hlow]), numAt_payload _ _ 0, numAt, List.drop_zero,
          List.take_of_length_le (by simp), toNat_append, hlow] at hb
        exact Option.some.inj hb
      -- two stacks, two positions
      have hlt : toNat ((ofNat 8 pos.toUInt64.toNat).take 4) < 256 ^ 4 := hlow ▸ toNat_lt _
      have hsame := congrArg (fun p : Int64 => p.toUInt64.toNat) ((hpos 0).trans (hpos 1).symm)
      simp only [UInt64.toUInt64_toInt64, UInt64.toNat_ofNat'] at hsame
      rw [show toNat (List.replicate 4 0) = 0 by decide, show toNat (List.replicate 4 1) = 16843009 by decide] at hsame
      omega
    · intro h
      exact absurd (h ▸ (by decide : (-1 : Int64) < 0)) hneg

theorem answers_fseek_iff (fd_id : UInt32) (offset : Int64) (whence result : Int32) :
    Answers (.fseek fd_id offset whence) result ↔ result = -1 ∨ 0 ≤ result := by
  refine (answers_iff fun memory => rfl).trans ?_
  by_cases hneg : result < 0
  · have hunderstand (stack : ℕ → Byte) :
        understand stack (.fseek fd_id offset whence) (intResponse result) = some (-1 : Int32) := by
      rw [understand, if_pos (by simp [intResponse, response, hneg])]
    simp only [hunderstand, Call.seen, Option.some.injEq, forall_const, Int32.not_le.mpr hneg, or_false]
    exact eq_comm
  · have hunderstand (stack : ℕ → Byte) :
        understand stack (.fseek fd_id offset whence) (intResponse result) = some result := by
      rw [understand, if_neg (by simp [intResponse, response, hneg]), intOf_intResponse]
    exact iff_of_true hunderstand (.inr (Int32.not_lt.mp hneg))

/-- The name of an entry has its terminator. -/
def Terminated (entry : Option Dirent) : Prop := ∀ e ∈ entry, e.d_name.length < VFS_MAX_NAME

/-- The response with a directory entry: behind the terminator of the name is what the memory held. -/
theorem respond_readdir {e : Dirent} (hname : e.d_name.length < VFS_MAX_NAME) (memory : ℕ → Byte) (dir_id : UInt32) :
    ∃ rest, (strcpy e.d_name ++ rest).length = VFS_MAX_NAME ∧ respond memory (.readdir dir_id) (some e) =
      some (frame 0 (ofNat 4 e.d_ino.toNat ++ ((strcpy e.d_name ++ rest) ++ [e.d_type]))) := by
  have hmax : VFS_MAX_NAME = 255 := rfl
  have hbuffer : BUFFER_SIZE = 4096 := rfl
  have hparts : [[0], ofNat 4 (4 + VFS_MAX_NAME + 1), ofNat 4 e.d_ino.toNat, strcpy e.d_name].flatten.length =
      10 + e.d_name.length := by
    simp
    omega
  have hstores := stores_layout_zero [[0], ofNat 4 (4 + VFS_MAX_NAME + 1), ofNat 4 e.d_ino.toNat, strcpy e.d_name]
    (l := malloc memory BUFFER_SIZE) (by rw [hparts, length_malloc]; omega)
  rw [hparts] at hstores
  set rest := (malloc memory BUFFER_SIZE).drop (10 + e.d_name.length) with hrest
  have hlen : rest.length = 4086 - e.d_name.length := by
    rw [hrest, List.length_drop, length_malloc]
    omega
  refine ⟨rest.take (254 - e.d_name.length), ?_, ?_⟩
  · rw [List.length_append, length_strcpy, List.length_take]
    omega
  · have hput : put? ([[0], ofNat 4 (4 + VFS_MAX_NAME + 1), ofNat 4 e.d_ino.toNat, strcpy e.d_name].flatten ++ rest)
        (9 + VFS_MAX_NAME) [e.d_type] =
        some ([[0], ofNat 4 (4 + VFS_MAX_NAME + 1), ofNat 4 e.d_ino.toNat, strcpy e.d_name].flatten ++
          rest.take (254 - e.d_name.length) ++ ([e.d_type] ++ rest.drop (255 - e.d_name.length))) := by
      rw [put?, if_pos (by rw [List.length_append, hparts, hlen, List.length_singleton]; omega), List.take_append,
        List.take_of_length_le (by rw [hparts]; omega), List.drop_append, List.drop_eq_nil_of_le (by rw [hparts]; simp; omega),
        List.nil_append, hparts, List.length_singleton, hmax, show 9 + 255 - (10 + e.d_name.length) = 254 - e.d_name.length by omega,
        show 9 + 255 + 1 - (10 + e.d_name.length) = 255 - e.d_name.length by omega]
    have hops : stores [(0, [0]), (1, ofNat 4 (4 + VFS_MAX_NAME + 1)), (5, ofNat 4 e.d_ino.toNat), (9, strcpy e.d_name),
        (9 + VFS_MAX_NAME, [e.d_type])] (malloc memory BUFFER_SIZE) = _ :=
      (stores_append (layout 0 [[0], ofNat 4 (4 + VFS_MAX_NAME + 1), ofNat 4 e.d_ino.toNat, strcpy e.d_name])
        [(9 + VFS_MAX_NAME, [e.d_type])] _).trans (by rw [hstores, Option.bind_some, stores, hput, Option.bind_some, stores])
    have hlong : ([[0], ofNat 4 (4 + VFS_MAX_NAME + 1), ofNat 4 e.d_ino.toNat, strcpy e.d_name].flatten ++
        rest.take (254 - e.d_name.length)).length = 264 := by
      rw [List.length_append, hparts, List.length_take]
      omega
    rw [respond, if_pos hname, hops, Option.map_some, List.take_append, List.take_of_length_le (by rw [hlong]; decide), hlong,
      frame]
    have hbody : (ofNat 4 e.d_ino.toNat ++ ((strcpy e.d_name ++ rest.take (254 - e.d_name.length)) ++ [e.d_type])).length =
        4 + VFS_MAX_NAME + 1 := by
      simp
      omega
    rw [hbody]
    simp [hmax]

theorem answers_readdir_iff (dir_id : UInt32) (entry : Option Dirent) : Answers (.readdir dir_id) entry ↔ Terminated entry := by
  cases entry with
  | none => exact iff_of_true ((answers_iff fun _ => rfl).mpr fun _ => rfl) (by simp [Terminated])
  | some e =>
    by_cases hname : e.d_name.length < VFS_MAX_NAME
    · refine iff_of_true (fun memory stack => ?_) (by simpa [Terminated] using hname)
      obtain ⟨rest, hlen, hresp⟩ := respond_readdir hname memory dir_id
      refine ⟨_, hresp, ?_⟩
      have hbody : (ofNat 4 e.d_ino.toNat ++ ((strcpy e.d_name ++ rest) ++ [e.d_type])).length = 260 := by
        rw [List.length_append, length_ofNat, List.length_append, hlen]
        rfl
      have hino : numAt (frame 0 (ofNat 4 e.d_ino.toNat ++ ((strcpy e.d_name ++ rest) ++ [e.d_type]))) 5 4 = e.d_ino.toNat := by
        rw [numAt_body 0, numAt_ofNat_four e.d_ino.toNat_lt]
      have hdrop : (frame 0 (ofNat 4 e.d_ino.toNat ++ ((strcpy e.d_name ++ rest) ++ [e.d_type]))).drop 9 =
          (strcpy e.d_name ++ rest) ++ [e.d_type] := by
        have h := drop_frame 0 (ofNat 4 e.d_ino.toNat ++ ((strcpy e.d_name ++ rest) ++ [e.d_type])) 4 []
        rwa [List.append_nil, List.append_nil, drop_ofNat_append le_rfl] at h
      have hfield : CString.ofBytes (strcpy e.d_name ++ rest) = e.d_name := by
        rw [strcpy, List.append_assoc]
        exact CString.ofBytes_append_zero _ _
      have htype : (frame 0 (ofNat 4 e.d_ino.toNat ++ ((strcpy e.d_name ++ rest) ++ [e.d_type]))).getD
          (5 + 4 + VFS_MAX_NAME) 0 = e.d_type := by
        rw [List.getD_eq_getElem?_getD, ← List.getElem?_drop, hdrop, List.getElem?_append_right hlen.le, hlen, Nat.sub_self]
        rfl
      rw [understand, numAt_length (by rw [hbody]; decide), hbody, if_neg (by decide), hino, hdrop, ← hlen, List.take_left,
        hfield, hlen, htype, UInt32.ofNat_toNat]
      rfl
    · constructor
      · intro h
        obtain ⟨_, hresp, -⟩ := h (fun _ => 0) (fun _ => 0)
        rw [respond, if_neg hname] at hresp
        cases hresp
      · intro h
        exact absurd (h e rfl) hname

/-- A pointer below 2 ^ 32, bytes that are elements, a position that is an error, a name with its terminator -/
def Returned : (c : Call) → c.Result → Prop
  | .fopen .., file | .opendir _, file => file.toNat < 2 ^ 32
  | .fread _ size nmemb, data => size ≠ 0 ∧ data.length ≤ word (size.toNat * nmemb.toNat) ∧
      5 + data.length / size.toNat ≤ BUFFER_SIZE ∧ (size = 1 ∨ data.length < size.toNat)
  | .fwrite .., written => written.toNat < 2 ^ 32
  | .fseek .., result => result = (-1 : Int32) ∨ (0 : Int32) ≤ result
  | .ftell _, pos => pos = (-1 : Int64)
  | .readdir _, entry => Terminated entry
  | _, _ => True

theorem answers_iff_returned (r : c.Result) : Answers c r ↔ Returned c r := by
  have hhandle {P : Prop} (p : UInt64) (msg : CString) (h : P ↔ (ℕ → Byte) → some (handleOf (handleResponse p msg)) = some p) :
      P ↔ p.toNat < 2 ^ 32 := by
    rw [h, ← handleOf_handleResponse p msg]
    exact ⟨fun h => Option.some.inj (h fun _ => 0), fun h _ => congrArg some h⟩
  cases c with
  | fopen path mode => exact hhandle r _ (answers_iff fun _ => rfl)
  | opendir path => exact hhandle r _ (answers_iff fun _ => rfl)
  | fread fd_id size nmemb => exact answers_fread_iff fd_id size nmemb r
  | fwrite fd_id size nmemb data hdata => exact answers_fwrite_iff fd_id size nmemb r data hdata
  | fseek fd_id offset whence => exact answers_fseek_iff fd_id offset whence r
  | ftell fd_id => exact answers_ftell_iff fd_id r
  | readdir dir_id => exact answers_readdir_iff dir_id r
  | rewinddir dir_id => exact iff_of_true ((answers_iff fun _ => rfl).mpr fun _ => rfl) trivial
  | fclose fd_id | mkdir path mode | remove path | rename old_path new_path | closedir dir_id =>
    exact iff_of_true ((answers_iff fun _ => rfl).mpr fun _ => congrArg some (intOf_intResponse r)) trivial

/-- Both sides of the protocol agree on a call and its result exactly when the call is carried and the result
returned. -/
theorem speaksSame_iff (c : Call) (r : c.Result) : SpeaksSame c r ↔ Carried c ∧ Returned c r :=
  and_congr delivers_iff_carried (answers_iff_returned r)

/-- `vfs_fopen("/abc", "r")` opens `bc`. -/
theorem fopen_skips_path : ¬ SpeaksSame (.fopen (.lit "/abc") (.lit "r")) (4096 : UInt64) ∧
    (request (fun _ => 0) (.fopen (.lit "/abc") (.lit "r"))).bind (stringAt? · 13) = some (.lit "bc") :=
  ⟨fun h => not_delivers_fopen (by decide) h.1, by decide⟩

end ValidcTools.Vfs
