import Devirt.Settings.Yaml.Scalar

/-!
The tokens of a YAML text. Blocks have no marks of their own: they open at the column of their first
dash or key, and close where a later line begins further left. A key is known as one only by the
colon after it, so its token is put in front of tokens that are already read.

Anchors, tags, block scalars and directives have no use in settings; texts with them are refused.
-/

namespace Devirt

namespace Yaml

inductive Token where
  | documentStart
  | documentEnd
  | blockSequence
  | blockMapping
  | blockEnd
  | flowSequence
  | flowSequenceEnd
  | flowMapping
  | flowMappingEnd
  | dash
  | comma
  | key
  | value
  | scalar (text : String) (plain : Bool)
  deriving DecidableEq

/-- A node that is a key if a colon follows in its line. `place` counts the tokens before it. One at
the column of the block around it can be nothing else. -/
structure Candidate where
  place : Nat
  mark : Mark
  required : Bool
  deriving DecidableEq

/-- The colon may not be further away from the start of its key, in bytes. -/
def keyLimit : Nat := 1024

def Candidate.isStale (k : Candidate) (m : Mark) : Bool :=
  k.mark.line < m.line || k.mark.index + keyLimit < m.index

/-- The tokens read so far. `columns` are those of the open blocks, the innermost first, and `outer`
has the candidates that wait outside of the open flow collections. -/
structure Scan where
  rest : Text
  tokens : List Token := []
  candidate : Option Candidate := none
  outer : List (Option Candidate) := []
  columns : List Nat := []
  keyAllowed : Bool := true

namespace Scan

def inFlow (s : Scan) : Bool := !s.outer.isEmpty

/-- The least column at which a scalar in the innermost block can go on. -/
def indent (s : Scan) : Nat := s.columns.head?.elim 0 (· + 1)

def push (s : Scan) (t : Token) (rest : Text) : Scan :=
  { s with tokens := s.tokens ++ [t], rest }

/-! ### Blocks -/

/-- Closes the blocks at columns with the given property. -/
def closeBlocks (s : Scan) (p : Nat → Bool) : Scan :=
  if s.inFlow then s
  else
    let ends := (s.columns.takeWhile p).map fun _ => Token.blockEnd
    { s with tokens := s.tokens ++ ends, columns := s.columns.dropWhile p }

/-- Opens a block unless the innermost one is at this column already. -/
def openBlock (s : Scan) (column place : Nat) (t : Token) : Scan :=
  if s.inFlow || s.columns.head?.any (column ≤ ·) then s
  else { s with tokens := s.tokens.insertIdx place t, columns := column :: s.columns }

/-! ### Candidates for keys -/

/-- Gives up the candidate. -/
def release (s : Scan) : Option Scan :=
  if s.candidate.any (·.required) then none else some { s with candidate := none }

/-- Makes a candidate of the node that begins here, where keys are allowed. -/
def propose (s : Scan) (m : Mark) : Option Scan :=
  if s.keyAllowed then
    s.release.map fun s =>
      let required := !s.inFlow && s.columns.head? = some m.column
      { s with candidate := some { place := s.tokens.length, mark := m, required } }
  else some s

/-- Gives up the candidates that are too far behind. -/
def expire (s : Scan) (m : Mark) : Option Scan :=
  if (s.candidate :: s.outer).any (·.any fun k => k.required && k.isStale m) then none
  else
    let keep (k : Option Candidate) := k.filter (!·.isStale m)
    some { s with candidate := keep s.candidate, outer := s.outer.map keep }

/-! ### Tokens -/

/-- A mark at the start of a line, of three characters. It ends all blocks. -/
def marker (s : Scan) (t : Token) : Option Scan := do
  let s ← (s.closeBlocks fun _ => true).release
  return { s.push t (s.rest.drop 3) with keyAllowed := false }

def openFlow (s : Scan) (m : Mark) (t : Token) (rest : Text) : Option Scan := do
  let s ← s.propose m
  return { s.push t rest with
    candidate := none, outer := s.candidate :: s.outer, keyAllowed := true }

def closeFlow (s : Scan) (t : Token) (rest : Text) : Option Scan := do
  let s ← s.release
  return { s.push t rest with
    candidate := s.outer.head?.join, outer := s.outer.tail, keyAllowed := false }

def comma (s : Scan) (rest : Text) : Option Scan := do
  let s ← s.release
  return { s.push .comma rest with keyAllowed := true }

def dash (s : Scan) (m : Mark) (rest : Text) : Option Scan := do
  if !s.inFlow && !s.keyAllowed then none
  let s ← (s.openBlock m.column s.tokens.length .blockSequence).release
  return { s.push .dash rest with keyAllowed := true }

/-- A question mark, which makes a key of any node. -/
def explicitKey (s : Scan) (m : Mark) (rest : Text) : Option Scan := do
  if !s.inFlow && !s.keyAllowed then none
  let s ← (s.openBlock m.column s.tokens.length .blockMapping).release
  return { s.push .key rest with keyAllowed := !s.inFlow }

/-- A colon. It makes the candidate a key, and opens a mapping at its column. -/
def colon (s : Scan) (m : Mark) (rest : Text) : Option Scan :=
  match s.candidate with
  | some k =>
    let s := { s with tokens := s.tokens.insertIdx k.place .key, candidate := none }
    let s := s.openBlock k.mark.column k.place .blockMapping
    some { s.push .value rest with keyAllowed := false }
  | none => do
    if !s.inFlow && !s.keyAllowed then none
    let s := s.openBlock m.column s.tokens.length .blockMapping
    return { s.push .value rest with keyAllowed := !s.inFlow }

/-- A scalar. After a plain one, which takes the breaks behind it, a key may begin. -/
def scalar (s : Scan) (m : Mark) (plain : Bool) (r : Option Reading) : Option Scan := do
  let s ← s.propose m
  let r ← r
  return { s.push (.scalar r.text plain) r.rest with keyAllowed := r.newLine }

/-- Whether a plain scalar can begin with this character, if it has no other meaning here. -/
def startsPlain (c : Char) : Bool :=
  !isBlank c && !isFlowMark c && c ∉ "#&*!|>'\"%@`".toList

/-- Reads the token that begins here. -/
def next (s : Scan) : Option Scan := do
  let g :: rest := s.rest | none
  let s := (← s.expire g.mark).closeBlocks (g.mark.column < ·)
  if s.rest.atMarker '-' then s.marker .documentStart
  else if s.rest.atMarker '.' then s.marker .documentEnd
  else if g.char = '[' then s.openFlow g.mark .flowSequence rest
  else if g.char = '\x7b' then s.openFlow g.mark .flowMapping rest
  else if g.char = ']' then s.closeFlow .flowSequenceEnd rest
  else if g.char = '\x7d' then s.closeFlow .flowMappingEnd rest
  else if g.char = ',' then s.comma rest
  else if g.char = '-' && Text.atGap rest then s.dash g.mark rest
  else if g.char = '?' && (s.inFlow || Text.atGap rest) then s.explicitKey g.mark rest
  else if g.char = ':' && (s.inFlow || Text.atGap rest) then s.colon g.mark rest
  else if g.char = '\x27' || g.char = '"' then s.scalar g.mark false (readQuoted s.rest)
  else if startsPlain g.char then s.scalar g.mark true (readPlain s.inFlow s.indent s.rest)
  else none

/-! ### The whole text -/

/-- Passes over blanks, breaks and comments, and over a byte order mark at the start of a line. Tabs
count as blanks only where no key can begin, and outside of flow collections a key can begin in each
new line. -/
def skipGap (inFlow : Bool) : (keyAllowed inComment : Bool) → Text → Bool × Text
  | keyAllowed, _, [] => (keyAllowed, [])
  | keyAllowed, inComment, g :: rest =>
    if isBreak g.char then skipGap inFlow (keyAllowed || !inFlow) false rest
    else if inComment then skipGap inFlow keyAllowed true rest
    else if g.char = ' ' || (g.char = '\t' && (inFlow || !keyAllowed)) ||
        (g.char = byteOrderMark && g.mark.column = 0) then
      skipGap inFlow keyAllowed false rest
    else if g.char = '#' then skipGap inFlow keyAllowed true rest
    else (keyAllowed, g :: rest)

/-- Reads tokens up to the end of the text. The number bounds how many there are. -/
def run : Nat → Scan → Option (List Token)
  | 0, _ => none
  | tokens + 1, s =>
    let (keyAllowed, rest) := skipGap s.inFlow s.keyAllowed false s.rest
    let s := { s with keyAllowed, rest }
    if rest.isEmpty then (s.closeBlocks fun _ => true).release.map (·.tokens)
    else s.next.bind (run tokens)

end Scan

/-- Every token takes up a character. -/
def tokens? (s : String) : Option (List Token) := do
  let t ← Text.ofString? s
  Scan.run (t.length + 1) { rest := t }

end Yaml

end Devirt
