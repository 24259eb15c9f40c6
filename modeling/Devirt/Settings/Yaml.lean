import Devirt.Settings.Yaml.Token

/-!
YAML documents as trees. A text holds one document at most; one of which nothing is written is an
empty plain scalar, and so is every node that is left out.
-/

namespace Devirt

inductive Yaml where
  /-- Quoted scalars are never taken for anything but text. -/
  | scalar (text : String) (plain : Bool)
  | sequence (items : List Yaml)
  | mapping (entries : List (Yaml × Yaml))

namespace Yaml

/-- The node of which nothing is written. -/
def empty : Yaml := .scalar "" true

/-- Whether a node is left out before one of these tokens. -/
def isLeftOut (followers tokens : List Token) : Bool := tokens.head?.any (· ∈ followers)

mutual

/-- Reads a node. In a mapping the items of a sequence may stand at the column of the keys, so that
there is no block around them. The number bounds the steps of reading, here and below. -/
def readNode : (steps : Nat) → (inMapping : Bool) → List Token → Option (Yaml × List Token)
  | 0, _, _ => none
  | steps + 1, inMapping, tokens =>
    match tokens with
    | .scalar text plain :: rest => some (.scalar text plain, rest)
    | .flowSequence :: rest => (readFlowItems steps true rest).map fun (l, r) => (.sequence l, r)
    | .flowMapping :: rest => (readFlowEntries steps true rest).map fun (l, r) => (.mapping l, r)
    | .blockSequence :: rest => (readItems steps rest).map fun (l, r) => (.sequence l, r)
    | .blockMapping :: rest => (readEntries steps rest).map fun (l, r) => (.mapping l, r)
    | .dash :: _ =>
      if inMapping then (readBareItems steps tokens).map fun (l, r) => (.sequence l, r) else none
    | _ => none

def readOptional : (steps : Nat) → (inMapping : Bool) → (followers : List Token) → List Token →
    Option (Yaml × List Token)
  | 0, _, _, _ => none
  | steps + 1, inMapping, followers, tokens =>
    if isLeftOut followers tokens then some (empty, tokens) else readNode steps inMapping tokens

/-- The items of a sequence in a block of its own. -/
def readItems : (steps : Nat) → List Token → Option (List Yaml × List Token)
  | 0, _ => none
  | _ + 1, .blockEnd :: rest => some ([], rest)
  | steps + 1, .dash :: rest => do
    let (item, rest) ← readOptional steps false [.dash, .blockEnd] rest
    let (items, rest) ← readItems steps rest
    return (item :: items, rest)
  | _ + 1, _ => none

/-- The items of a sequence at the column of keys. -/
def readBareItems : (steps : Nat) → List Token → Option (List Yaml × List Token)
  | 0, _ => none
  | steps + 1, .dash :: rest => do
    let (item, rest) ← readOptional steps false [.dash, .key, .value, .blockEnd] rest
    let (items, rest) ← readBareItems steps rest
    return (item :: items, rest)
  | _ + 1, tokens => some ([], tokens)

/-- The value of an entry, if there is one. -/
def readValue : (steps : Nat) → (inMapping : Bool) → (followers : List Token) → List Token →
    Option (Yaml × List Token)
  | 0, _, _, _ => none
  | steps + 1, inMapping, followers, .value :: rest => readOptional steps inMapping followers rest
  | _ + 1, _, _, tokens => some (empty, tokens)

/-- The entries of a mapping in a block. -/
def readEntries : (steps : Nat) → List Token → Option (List (Yaml × Yaml) × List Token)
  | 0, _ => none
  | _ + 1, .blockEnd :: rest => some ([], rest)
  | steps + 1, .key :: rest => do
    let (key, rest) ← readOptional steps true [.key, .value, .blockEnd] rest
    let (value, rest) ← readValue steps true [.key, .value, .blockEnd] rest
    let (entries, rest) ← readEntries steps rest
    return ((key, value) :: entries, rest)
  | _ + 1, _ => none

/-- The items of a flow sequence, all but the first behind a comma, and one comma may come after the
last. An item with a key is a mapping of its own; where the key is left out, the token in its place
is passed over. -/
def readFlowItems : (steps : Nat) → (first : Bool) → List Token → Option (List Yaml × List Token)
  | 0, _, _ => none
  | _ + 1, _, .flowSequenceEnd :: rest => some ([], rest)
  | steps + 1, false, .comma :: rest => readFlowItems steps true rest
  | _ + 1, false, _ => none
  | steps + 1, true, .key :: rest => do
    let (key, rest) ←
      if isLeftOut [.value, .comma, .flowSequenceEnd] rest then some (empty, rest.tail)
      else readNode steps false rest
    let (value, rest) ← readValue steps false [.comma, .flowSequenceEnd] rest
    let (items, rest) ← readFlowItems steps false rest
    return (.mapping [(key, value)] :: items, rest)
  | steps + 1, true, tokens => do
    let (item, rest) ← readNode steps false tokens
    let (items, rest) ← readFlowItems steps false rest
    return (item :: items, rest)

/-- The entries of a flow mapping, with commas as in a sequence. A key may come alone. -/
def readFlowEntries : (steps : Nat) → (first : Bool) → List Token →
    Option (List (Yaml × Yaml) × List Token)
  | 0, _, _ => none
  | _ + 1, _, .flowMappingEnd :: rest => some ([], rest)
  | steps + 1, false, .comma :: rest => readFlowEntries steps true rest
  | _ + 1, false, _ => none
  | steps + 1, true, .key :: rest => do
    let (key, rest) ← readOptional steps false [.value, .comma, .flowMappingEnd] rest
    let (value, rest) ← readValue steps false [.comma, .flowMappingEnd] rest
    let (entries, rest) ← readFlowEntries steps false rest
    return ((key, value) :: entries, rest)
  | steps + 1, true, tokens => do
    let (key, rest) ← readNode steps false tokens
    let (entries, rest) ← readFlowEntries steps false rest
    return ((key, empty) :: entries, rest)

end

/-- The document of a text. Only the mark of its end may follow it. -/
def ofTokens? (tokens : List Token) : Option Yaml := do
  let steps := 4 * (tokens.length + 1)
  let (document, rest) ← match tokens with
    | [] | [.documentStart] => some (empty, [])
    | .documentStart :: rest => readOptional steps false [.documentStart, .documentEnd] rest
    | tokens => readNode steps false tokens
  if rest.all (· = .documentEnd) then some document else none

def ofText? (text : String) : Option Yaml := (tokens? text).bind ofTokens?

end Yaml

end Devirt
