import Devirt.Settings.Json
import Devirt.Settings.Yaml.Text

/-!
Scalars of YAML, plain or in quotes. A scalar may go on in further lines, and the break between two
of its lines is read as a space; of several breaks the first one is dropped.
-/

namespace Devirt

namespace Yaml

/-- Blanks and breaks between two words of a scalar. Blanks after a break are not kept. -/
structure Gap where
  blanks : List Char := []
  breaks : List Char := []
  deriving DecidableEq

namespace Gap

/-- Whether the scalar goes on in another line. -/
def isFolded (g : Gap) : Bool := !g.breaks.isEmpty

def chars (g : Gap) : List Char :=
  match g.breaks with
  | [] => g.blanks
  | ['\n'] => [' ']
  | '\n' :: breaks => breaks
  | breaks => breaks

end Gap

/-- Reads a gap. A line may not be indented by a tab to less than the given column. -/
def readGap (indent : Nat) (folded : Bool) : Text → Option (Gap × Text)
  | [] => some ({}, [])
  | g :: rest =>
    if isBlank g.char then
      if folded then
        if g.char = '\t' && g.mark.column < indent then none else readGap indent true rest
      else
        (readGap indent false rest).map fun (gap, rest) =>
          ({ gap with blanks := g.char :: gap.blanks }, rest)
    else if isBreak g.char then
      (readGap indent true rest).map fun (gap, rest) =>
        ({ gap with breaks := g.char :: gap.breaks }, rest)
    else some ({}, g :: rest)

/-- A scalar read, whether the text stands in a new line after it, and what is left. -/
structure Reading where
  text : String
  newLine : Bool := false
  rest : Text

/-! ### Plain scalars -/

def isFlowMark (c : Char) : Bool := c ∈ ",[]\x7b\x7d".toList

/-- Reads up to a gap, the colon after a key, or a mark of a flow collection. In such a collection a
colon may not touch a mark. -/
def plainWord (inFlow : Bool) : Text → Option (List Char × Text)
  | [] => some ([], [])
  | g :: rest =>
    if Text.atGap (g :: rest) then some ([], g :: rest)
    else if g.char = ':' && inFlow && Text.startsWith rest (fun c => c = '?' || isFlowMark c) then
      none
    else if (g.char = ':' && Text.atGap rest) || (inFlow && isFlowMark g.char) then
      some ([], g :: rest)
    else (plainWord inFlow rest).map fun (word, rest) => (g.char :: word, rest)

/-- Whether a scalar cannot go on after a gap. -/
def endsPlain (inFlow : Bool) (indent : Nat) (t : Text) : Bool :=
  t.isEmpty || (!inFlow && t.column < indent) || t.atDocumentMarker || t.startsWith (· = '#')

/-- Reads words with the gaps before them. The number bounds how many there are. -/
def plainTail (inFlow : Bool) (indent : Nat) : Nat → Text → Option (List Char × Bool × Text)
  | 0, _ => none
  | words + 1, t => do
    let (gap, rest) ← readGap indent false t
    if endsPlain inFlow indent rest then return ([], gap.isFolded, rest)
    let (word, rest) ← plainWord inFlow rest
    if word.isEmpty then return ([], gap.isFolded, rest)
    let (tail, newLine, rest) ← plainTail inFlow indent words rest
    return (gap.chars ++ word ++ tail, newLine, rest)

/-- Reads a plain scalar whose lines begin at the given column or later. -/
def readPlain (inFlow : Bool) (indent : Nat) (t : Text) : Option Reading := do
  let (word, rest) ← plainWord inFlow t
  let (tail, newLine, rest) ← plainTail inFlow indent (rest.length + 1) rest
  return { text := String.ofList (word ++ tail), newLine, rest }

/-! ### Quoted scalars -/

/-- The characters that stand for one other behind a backslash. -/
def escapes : List (Char × Char) :=
  [('0', '\x00'), ('a', '\x07'), ('b', '\x08'), ('t', '\t'), ('\t', '\t'), ('n', '\n'),
    ('v', '\x0b'), ('f', '\x0c'), ('r', '\r'), ('e', '\x1b'), (' ', ' '), ('"', '"'), ('/', '/'),
    ('\\', '\\'), ('N', '\x85'), ('_', '\xa0'), ('L', '\u2028'), ('P', '\u2029')]

/-- The letters that announce a number, and how many digits it has. -/
def numberedEscapes : List (Char × Nat) := [('x', 2), ('u', 4), ('U', 8)]

/-- Reads an escape from behind its backslash. -/
def readEscape : Text → Option (Char × Text)
  | [] => none
  | g :: rest =>
    match escapes.lookup g.char with
    | some c => some (c, rest)
    | none => do
      let digits ← numberedEscapes.lookup g.char
      if rest.length < digits then none
      let n ← Json.hexNumber? ((rest.take digits).map (·.char))
      if n.isValidChar then return (Char.ofNat n, rest.drop digits) else none

/-- Reads a scalar in single quotes from behind the first one. A quote inside is written twice. The
number bounds the parts that are read. -/
def readSingle : Nat → Text → Option (List Char × Text)
  | 0, _ => none
  | parts + 1, t => do
    if t.atDocumentMarker then none
    match t with
    | [] => none
    | g :: rest =>
      if g.char = '\x27' then
        if Text.startsWith rest (· = '\x27') then
          let (tail, rest) ← readSingle parts (rest.drop 1)
          return ('\x27' :: tail, rest)
        else return ([], rest)
      else if Text.atGap t then
        let (gap, rest) ← readGap 0 false t
        let (tail, rest) ← readSingle parts rest
        return (gap.chars ++ tail, rest)
      else
        let (tail, rest) ← readSingle parts rest
        return (g.char :: tail, rest)

/-- Reads a scalar in double quotes from behind the first one. A backslash before a break takes
back the break and the blanks after it. The number bounds the parts that are read. -/
def readDouble : Nat → Text → Option (List Char × Text)
  | 0, _ => none
  | parts + 1, t => do
    if t.atDocumentMarker then none
    match t with
    | [] => none
    | g :: rest =>
      if g.char = '"' then return ([], rest)
      else if Text.atGap t then
        let (gap, rest) ← readGap 0 false t
        let (tail, rest) ← readDouble parts rest
        return (gap.chars ++ tail, rest)
      else if g.char = '\\' then
        if Text.startsWith rest isBreak then
          let (gap, rest) ← readGap 0 true (rest.drop 1)
          let (tail, rest) ← readDouble parts rest
          return (gap.breaks ++ tail, rest)
        else
          let (c, rest) ← readEscape rest
          let (tail, rest) ← readDouble parts rest
          return (c :: tail, rest)
      else
        let (tail, rest) ← readDouble parts rest
        return (g.char :: tail, rest)

/-- Reads a quoted scalar from its first quote on. -/
def readQuoted (t : Text) : Option Reading := do
  let g :: rest := t | none
  let (chars, rest) ← if g.char = '"' then readDouble t.length rest else readSingle t.length rest
  return { text := String.ofList chars, rest }

end Yaml

end Devirt
