import ValidcTools.CString
import ValidcTools.Lib.Bytes

/-! The messages of the VFS client and the VFS server, as each side writes and reads them. -/
namespace ValidcTools.Vfs

open Bytes

def VFS_MAX_NAME : ℕ := 255
def BUFFER_SIZE : ℕ := 4096

/-! ## Calls and their results -/

/-- `struct vfs_dirent`; a name that fills `d_name` has no terminator there. -/
structure Dirent where
  d_ino : UInt32
  d_name : CString
  d_type : UInt8
deriving DecidableEq

/-- The calls of the client; what is at `ptr` is part of a `vfs_fwrite`. -/
inductive Call
  | fopen (path mode : CString)
  | fclose (fd_id : UInt32)
  | fread (fd_id : UInt32) (size nmemb : UInt64)
  | fwrite (fd_id : UInt32) (size nmemb : UInt64) (data : List Byte) (hdata : data.length = (size * nmemb).toNat)
  | fseek (fd_id : UInt32) (offset : Int64) (whence : Int32)
  | ftell (fd_id : UInt32)
  | mkdir (path : CString) (mode : UInt16)
  | remove (path : CString)
  | rename (old_path new_path : CString)
  | opendir (path : CString)
  | closedir (dir_id : UInt32)
  | readdir (dir_id : UInt32)
  | rewinddir (dir_id : UInt32)

/-- What the function of the server returns: a pointer (0 for NULL), the bytes put at `ptr`, the elements
written, an `int`, a `long`, a directory entry. -/
abbrev Call.Result : Call → Type
  | .fopen .. | .opendir _ => UInt64
  | .fread .. => List Byte
  | .fwrite .. => UInt64
  | .fclose _ | .fseek .. | .mkdir .. | .remove _ | .rename .. | .closedir _ => Int32
  | .ftell _ => Int64
  | .readdir _ => Option Dirent
  | .rewinddir _ => Unit

/-- What a caller sees of the result: of a `vfs_fread` the number of elements and their bytes. -/
abbrev Call.Seen : Call → Type
  | .fread .. => ℕ × List Byte
  | .fopen .. | .opendir _ => UInt64
  | .fwrite .. => UInt64
  | .fclose _ | .fseek .. | .mkdir .. | .remove _ | .rename .. | .closedir _ => Int32
  | .ftell _ => Int64
  | .readdir _ => Option Dirent
  | .rewinddir _ => Unit

def Call.seen : (c : Call) → c.Result → c.Seen
  | .fread _ size _, data => (data.length / size.toNat, data.take (data.length / size.toNat * size.toNat))
  | .fopen .., file | .opendir _, file => file
  | .fwrite .., written => written
  | .fclose _, result | .fseek .., result | .mkdir .., result | .remove _, result | .rename .., result
  | .closedir _, result => result
  | .ftell _, pos => pos
  | .readdir _, entry => entry
  | .rewinddir _, _ => ()

/-! ## The requests of the client -/

/-- The value of a `uint32_t` -/
def word (n : ℕ) : ℕ := n % 2 ^ 32

theorem word_of_lt {n : ℕ} (h : n < 2 ^ 32) : word n = n := Nat.mod_eq_of_lt h

theorem word_lt (n : ℕ) : word n < 2 ^ 32 := Nat.mod_lt n (by decide)

/-- Memory that nobody has written to yet -/
def malloc (memory : ℕ → Byte) (n : ℕ) : List Byte := (List.range n).map memory

/-- A string and its terminator -/
def strcpy (s : CString) : List Byte := s.bytes ++ [0]

/-- The bytes that a call sends: `none` is a store outside the request. -/
def request (memory : ℕ → Byte) : Call → Option (List Byte)
  | .fopen path mode =>
    let mode_len := word (mode.length + 1)
    let path_len := word (path.length + 1)
    let payload_len := word (8 + path_len)
    stores [(0, [1]), (1, ofNat 4 payload_len), (5, ofNat 4 mode_len), (9, strcpy mode), (9 + mode_len, strcpy path)]
      (malloc memory (word (5 + payload_len)))
  | .fclose fd_id => stores [(0, [2]), (1, ofNat 4 4), (5, ofNat 4 fd_id.toNat)] (malloc memory 9)
  | .fread fd_id size nmemb =>
    stores [(0, [3]), (1, ofNat 4 12), (5, ofNat 4 fd_id.toNat), (9, ofNat 4 size.toNat), (13, ofNat 4 nmemb.toNat)]
      (malloc memory 17)
  | .fwrite fd_id size nmemb data _ =>
    let payload_len := word (12 + (size * nmemb).toNat)
    stores [(0, [4]), (1, ofNat 4 payload_len), (5, ofNat 4 fd_id.toNat), (9, ofNat 4 size.toNat),
      (13, ofNat 4 nmemb.toNat), (17, data)] (malloc memory (word (5 + payload_len)))
  | .fseek fd_id offset whence =>
    stores [(0, [5]), (1, ofNat 4 12), (5, ofNat 4 fd_id.toNat), (9, ofNat 8 offset.toUInt64.toNat),
      (13, ofNat 4 whence.toUInt32.toNat)] (malloc memory 17)
  | .ftell fd_id => stores [(0, [6]), (1, ofNat 4 4), (5, ofNat 4 fd_id.toNat)] (malloc memory 9)
  | .mkdir path mode =>
    let path_len := word (path.length + 1)
    let payload_len := word (2 + path_len)
    stores [(0, [7]), (1, ofNat 4 payload_len), (5, ofNat 2 mode.toNat), (7, strcpy path)]
      (malloc memory (word (5 + payload_len)))
  | .remove path =>
    let path_len := word (path.length + 1)
    stores [(0, [8]), (1, ofNat 4 path_len), (5, strcpy path)] (malloc memory (word (5 + path_len)))
  | .rename old_path new_path =>
    let old_path_len := word (old_path.length + 1)
    let new_path_len := word (new_path.length + 1)
    let payload_len := word (4 + old_path_len + new_path_len)
    stores [(0, [9]), (1, ofNat 4 payload_len), (5, ofNat 4 old_path_len), (9, strcpy old_path),
      (9 + old_path_len, strcpy new_path)] (malloc memory (word (5 + payload_len)))
  | .opendir path =>
    let path_len := word (path.length + 1)
    stores [(0, [10]), (1, ofNat 4 path_len), (5, strcpy path)] (malloc memory (word (5 + path_len)))
  | .closedir dir_id => stores [(0, [11]), (1, ofNat 4 4), (5, ofNat 4 dir_id.toNat)] (malloc memory 9)
  | .readdir dir_id => stores [(0, [12]), (1, ofNat 4 4), (5, ofNat 4 dir_id.toNat)] (malloc memory 9)
  | .rewinddir dir_id => stores [(0, [13]), (1, ofNat 4 4), (5, ofNat 4 dir_id.toNat)] (malloc memory 9)

/-! ## The request loop of the server -/

/-- The buffer of a client from which a request has arrived: what is behind it is left from before, and
what does not fit stays in the socket. -/
def received (stale : ℕ → Byte) (frame : List Byte) : List Byte :=
  frame.take BUFFER_SIZE ++ (malloc stale BUFFER_SIZE).drop frame.length

/-- The string at an address of the buffer: `none` is one that runs out of it. -/
def stringAt? (buffer : List Byte) (a : ℕ) : Option CString :=
  if 0 ∈ buffer.drop a then some (.ofBytes (buffer.drop a)) else none

/-- The request in a buffer, with the payload at `buffer + 5`: `none` is a read outside the buffer. -/
def dispatch (buffer : List Byte) : Option (Option Call) :=
  match buffer.getD 0 0 with
  | 1 =>
    -- `mode_len` is read and not used
    (stringAt? buffer 9).bind fun mode => (stringAt? buffer 13).map fun path => some (.fopen path mode)
  | 2 => some (some (.fclose (.ofNat (numAt buffer 5 4))))
  | 3 => some (some (.fread (.ofNat (numAt buffer 5 4)) (.ofNat (numAt buffer 9 4)) (.ofNat (numAt buffer 13 4))))
  | 4 =>
    let size : UInt64 := .ofNat (numAt buffer 9 4)
    let nmemb : UInt64 := .ofNat (numAt buffer 13 4)
    let data := (buffer.drop 17).take (size * nmemb).toNat
    if h : data.length = (size * nmemb).toNat then some (some (.fwrite (.ofNat (numAt buffer 5 4)) size nmemb data h))
    else none
  | 5 => some (some (.fseek (.ofNat (numAt buffer 5 4)) (UInt64.ofNat (numAt buffer 9 8)).toInt64
      (UInt32.ofNat (numAt buffer 17 4)).toInt32))
  | 6 => some (some (.ftell (.ofNat (numAt buffer 5 4))))
  | 7 => (stringAt? buffer 7).map fun path => some (.mkdir path (.ofNat (numAt buffer 5 2)))
  | 8 => (stringAt? buffer 5).map fun path => some (.remove path)
  | 9 =>
    (stringAt? buffer 9).bind fun old_path =>
      (stringAt? buffer (9 + numAt buffer 5 4)).map fun new_path => some (.rename old_path new_path)
  | 10 => (stringAt? buffer 5).map fun path => some (.opendir path)
  | 11 => some (some (.closedir (.ofNat (numAt buffer 5 4))))
  | 12 => some (some (.readdir (.ofNat (numAt buffer 5 4))))
  | 13 => some (some (.rewinddir (.ofNat (numAt buffer 5 4))))
  | _ => some none

/-- One turn of the request loop; `some none` is the wait for the rest of a request. -/
def decode (buffer : List Byte) (buffer_pos : ℕ) : Option (Option Call) :=
  if buffer_pos < 5 then some none
  else if buffer_pos < word (5 + numAt buffer 1 4) then some none
  else dispatch buffer

/-! ## The responses of the server -/

/-- `resp[0]`, `*resp_len` and what is behind them -/
def response (failed : Prop) [Decidable failed] (body : List Byte) : List Byte :=
  (if failed then 1 else 0) :: (ofNat 4 body.length ++ body)

/-- An `int` result -/
def intResponse (result : Int32) : List Byte := response (result < 0) (ofNat 4 result.toUInt32.toNat)

/-- The number of elements written, of the `wanted` bytes -/
def countResponse (wanted : ℕ) (written : UInt64) : List Byte :=
  response (written = 0 ∧ 0 < wanted) (ofNat 4 written.toNat)

/-- A `long` result, of which nine bytes of response hold a half -/
def longResponse (pos : Int64) : List Byte := response (pos < 0) ((ofNat 8 pos.toUInt64.toNat).take 4)

/-- The low half of a pointer, or a message -/
def handleResponse (p : UInt64) (msg : CString) : List Byte :=
  if p ≠ 0 then response False (ofNat 4 p.toNat) else response True msg.bytes

/-- The bytes that the server sends back: `none` is a division by zero, or an access outside a buffer. -/
def respond (memory : ℕ → Byte) : (c : Call) → c.Result → Option (List Byte)
  | .fopen .., file => some (handleResponse file (.lit "File open failed"))
  | .fread _ size nmemb, data =>
    let read := data.length / size.toNat
    let room := word (size.toNat * nmemb.toNat)
    if size = 0 ∨ room < data.length ∨ BUFFER_SIZE < 5 + read then none
    else some (response (read = 0 ∧ 0 < room) (data.take read))
  | .fwrite _ size nmemb _ _, written => some (countResponse (word (size.toNat * nmemb.toNat)) written)
  | .ftell _, pos => some (longResponse pos)
  | .opendir _, dir => some (handleResponse dir (.lit "Dir open failed"))
  | .readdir _, none => some (response False [])
  | .readdir _, some entry =>
    -- a name without a terminator is copied on past the end of `d_name`
    if entry.d_name.length < VFS_MAX_NAME then
      (stores [(0, [0]), (1, ofNat 4 (4 + VFS_MAX_NAME + 1)), (5, ofNat 4 entry.d_ino.toNat), (9, strcpy entry.d_name),
        (9 + VFS_MAX_NAME, [entry.d_type])] (malloc memory BUFFER_SIZE)).map (·.take (5 + (4 + VFS_MAX_NAME + 1)))
    else none
  | .rewinddir _, _ => some (response False [])
  | .fclose _, result | .fseek .., result | .mkdir .., result | .remove _, result | .rename .., result
  | .closedir _, result => some (intResponse result)

/-! ## What the client makes of a response -/

/-- The pointer that the server will make of the client's handle: NULL, or `fd_id` -/
def handleOf (resp : List Byte) : UInt64 := if resp.getD 0 0 ≠ 0 then 0 else .ofNat (numAt resp 5 4)

def intOf (resp : List Byte) : Int32 := (UInt32.ofNat (numAt resp 5 4)).toInt32

/-- What a call returns on a response; `memory` is the stack behind the array `resp`. -/
def understand (memory : ℕ → Byte) : (c : Call) → List Byte → Option c.Seen
  | .fopen .., resp | .opendir _, resp => some (handleOf resp)
  | .fread _ size _, resp =>
    if resp.getD 0 0 ≠ 0 then some (0, [])
    else if size = 0 then none
    else some (numAt resp 1 4 / size.toNat, (resp.drop 5).take (numAt resp 1 4))
  | .fwrite .., resp => some (if resp.getD 0 0 ≠ 0 then (0 : UInt64) else .ofNat (numAt resp 5 4))
  | .fseek .., resp => some (if resp.getD 0 0 ≠ 0 then (-1 : Int32) else intOf resp)
  | .ftell _, resp =>
    some (if resp.getD 0 0 ≠ 0 then (-1 : Int64)
      else (UInt64.ofNat (numAt (resp.take 9 ++ malloc memory 4) 5 8)).toInt64)
  | .readdir _, resp =>
    if numAt resp 1 4 = 0 then some none
    else some (some ⟨.ofNat (numAt resp 5 4), .ofBytes ((resp.drop 9).take VFS_MAX_NAME),
      resp.getD (5 + 4 + VFS_MAX_NAME) 0⟩)
  | .rewinddir _, _ => some ()
  | .fclose _, resp | .mkdir .., resp | .remove _, resp | .rename .., resp | .closedir _, resp => some (intOf resp)

/-! ## One protocol -/

/-- Whatever the memory held before, the server decodes the call that the client encoded. -/
def Delivers (c : Call) : Prop :=
  ∀ memory stale, ∃ frame, request memory c = some frame ∧
    decode (received stale frame) (min frame.length BUFFER_SIZE) = some (some c)

/-- Whatever the memory held before, the client decodes the result that the server encoded. -/
def Answers (c : Call) (r : c.Result) : Prop :=
  ∀ memory stack, ∃ resp, respond memory c r = some resp ∧ understand stack c resp = some (c.seen r)

def SpeaksSame (c : Call) (r : c.Result) : Prop := Delivers c ∧ Answers c r

end ValidcTools.Vfs
