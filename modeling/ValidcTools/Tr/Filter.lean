import ValidcTools.Tr.Expand

/-! The tables of `tr` and the loop that consults them. -/
namespace ValidcTools.Tr

structure Options where
  complement : Bool := false
  delete : Bool := false
  squeeze : Bool := false
deriving DecidableEq

structure Tables where
  inSet1 : Byte → Bool
  inSqueeze : Byte → Bool
  map : Byte → Byte

/-- `in_set1[c]`, under `-c` negated -/
def inLogicalSet1 (o : Options) (inSet1 : Byte → Bool) (c : Byte) : Bool :=
  if o.complement then !inSet1 c else inSet1 c

/-- `for (i = 0; i < len; i++) table[buf[i]] = 1` -/
def mark (table : Byte → Bool) (buf : List Byte) : Byte → Bool :=
  buf.foldl (fun t c => Function.update t c true) table

/-- `build_membership`: `in_set1` and `in_squeeze` -/
def buildMembership (o : Options) (set1 set2 : List Byte) : (Byte → Bool) × (Byte → Bool) :=
  let inSet1 := mark (fun _ => false) set1
  if o.squeeze then
    if o.delete ∨ set2.length > 0 then (inSet1, mark (fun _ => false) set2)
    else (inSet1, inLogicalSet1 o inSet1)
  else (inSet1, fun _ => false)

/-- `map[src] = c` for the bytes that are logically in STRING1 -/
def setEntry (o : Options) (inSet1 : Byte → Bool) (map : Byte → Byte) (src c : Byte) : Byte → Byte :=
  if inLogicalSet1 o inSet1 src then Function.update map src c else map

/-- `build_transliteration_map`; without it `map` is the identity -/
def buildTransliterationMap (o : Options) (inSet1 : Byte → Bool) (set1 set2 : List Byte) : Byte → Byte :=
  if o.delete then id
  else
    let minlen := if set1.length < set2.length then set1.length else set2.length
    let paired := ((set1.take minlen).zip (set2.take minlen)).foldl (fun m p => setEntry o inSet1 m p.1 p.2) id
    if set1.length > minlen ∧ set2.length > 0 then
      let last := set2.getD (set2.length - 1) 0
      (set1.drop minlen).foldl (fun m src => setEntry o inSet1 m src last) paired
    else paired

def buildTables (o : Options) (set1 set2 : List Byte) : Tables where
  inSet1 := (buildMembership o set1 set2).1
  inSqueeze := (buildMembership o set1 set2).2
  map := buildTransliterationMap o (buildMembership o set1 set2).1 set1 set2

/-! ## The loop -/

/-- What one `fread` delivers. -/
structure Block where
  bytes : List Byte
  pos : 0 < bytes.length
  le : bytes.length ≤ 4096

/-- What the loop carries: the last byte of the squeeze set, while it is the last one sent, the output
buffer, and what `fwrite` was given. -/
structure Carried where
  haveLastOut : Bool := false
  lastOut : Byte := 0
  outbuf : List Byte := []
  written : List Byte := []

/-- Append to the output buffer, which is flushed when it is full. -/
def Carried.append (st : Carried) (uc : Byte) : Carried :=
  if st.outbuf.length < 4096 then { st with outbuf := st.outbuf ++ [uc] }
  else { st with written := st.written ++ st.outbuf, outbuf := [uc] }

/-- The body of the loop from `-s` on -/
def Carried.send (o : Options) (t : Tables) (st : Carried) (uc : Byte) : Carried :=
  if o.squeeze ∧ t.inSqueeze uc then
    if st.haveLastOut ∧ st.lastOut = uc then st
    else { st with lastOut := uc, haveLastOut := true }.append uc
  else { st with haveLastOut := false }.append uc

/-- The body of the loop over `inbuf` -/
def Carried.take (o : Options) (t : Tables) (st : Carried) (uc : Byte) : Carried :=
  if o.delete then
    if inLogicalSet1 o t.inSet1 uc then st else st.send o t uc
  else st.send o t (if inLogicalSet1 o t.inSet1 uc then t.map uc else uc)

/-- The body of the `fread` loop, which writes what is left in the output buffer -/
def Carried.block (o : Options) (t : Tables) (st : Carried) (b : Block) : Carried :=
  let st := b.bytes.foldl (Carried.take o t) { st with outbuf := [] }
  if st.outbuf.length > 0 then { st with written := st.written ++ st.outbuf } else st

structure Outcome where
  status : ℕ
  output : List Byte := []
deriving DecidableEq

/-- The part of `main` that fills the buffers of STRING1 and STRING2 -/
def expandOperands (s1 : CString) (s2 : Option CString) : Option (List Byte × List Byte) :=
  match expandString s1 false with
  | none => none
  | some set1 =>
    match s2 with
    | none => some (set1, [])
    | some s2 => ((expandString s2 true).bind (resolveString2Padding · set1.length)).map (Prod.mk set1)

/-- `main` after the options, with the operands that follow them -/
def main (o : Options) (operands : List CString) (input : List Block) : Outcome :=
  match operands with
  | [] => { status := 2 }
  | s1 :: operands =>
    if !o.delete ∧ operands = [] then { status := 2 }
    else if operands.length > 1 then { status := 2 }
    else
      match expandOperands s1 operands.head? with
      | none => { status := 2 }
      | some (set1, set2) =>
        { status := 0, output := (input.foldl (Carried.block o (buildTables o set1 set2)) {}).written }

end ValidcTools.Tr
