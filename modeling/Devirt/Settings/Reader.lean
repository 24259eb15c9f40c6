import Devirt.Failure
import Devirt.Settings.Basic
import Devirt.Settings.Yaml

/-!
Settings as texts. In JSON a record may also be written as an array of its fields, and a level as an
object with a null entry; YAML has neither, but takes an empty node for a record without entries.
Fields left out keep their defaults, and entries with unknown names are passed over.
-/

namespace Devirt

namespace Settings

def levelField : String := "optimizationLevel"
def optionsField : String := "devirtualization"
def threadsField : String := "threads"

/-- The fields in the order in which they are written. -/
def fieldNames : List String := [levelField, optionsField, threadsField]

end Settings

namespace Options

def superField : String := "enableSuperToVirtual"
def virtualField : String := "enableVirtualRebinding"
def interfaceField : String := "enableInterfaceDevirtualization"
def narrowField : String := "narrowAffectedTypes"

def fieldNames : List String := [superField, virtualField, interfaceField, narrowField]

end Options

/-- The entries of a record with known names. None of them may come twice. -/
def knownEntries? {α : Type} (fields : List String) (entries : List (String × α)) :
    Option (List (String × α)) :=
  let known := entries.filter (·.1 ∈ fields)
  if (known.map (·.1)).Nodup then some known else none

/-- A field that is given must be readable; one that is not has its default. -/
def readField? {α β : Type} (entries : List (String × α)) (field : String) (default : β)
    (read : α → Option β) : Option β :=
  match entries.lookup field with
  | none => some default
  | some a => read a

/-- A format by what it takes for a record and for the contents of fields. -/
structure SettingsFormat (α : Type) where
  entries? : List String → α → Option (List (String × α))
  bool? : α → Option Bool
  level? : α → Option Level
  threads? : α → Option (Option Nat)

namespace SettingsFormat

variable {α : Type}

def options? (f : SettingsFormat α) (a : α) : Option Options := do
  let entries ← f.entries? Options.fieldNames a
  return {
    superToVirtual := ← readField? entries Options.superField true f.bool?
    specializeVirtual := ← readField? entries Options.virtualField true f.bool?
    interfaceToVirtual := ← readField? entries Options.interfaceField true f.bool?
    narrowTypes := ← readField? entries Options.narrowField true f.bool? }

def settings? (f : SettingsFormat α) (a : α) : Option Settings := do
  let entries ← f.entries? Settings.fieldNames a
  return {
    level := ← readField? entries Settings.levelField .o2 f.level?
    options := ← readField? entries Settings.optionsField {} f.options?
    threads := ← readField? entries Settings.threadsField none f.threads? }

end SettingsFormat

/-- A number of threads is a machine word. -/
def threadBound : Nat := UInt64.size

namespace Json

def recordEntries? (fields : List String) : Json → Option (List (String × Json))
  | .object entries => do
    let entries ← entries.mapM fun (key, value) => key.map (·, value)
    knownEntries? fields entries
  | .array items => if items.length ≤ fields.length then some (fields.zip items) else none
  | _ => none

def bool? : Json → Option Bool
  | .bool b => some b
  | _ => none

def level? : Json → Option Level
  | .string (some s) => Level.ofName? s
  | .object [(some s, .null)] => Level.ofName? s
  | _ => none

def threads? : Json → Option (Option Nat)
  | .null => some none
  | .number (some n) => if n < threadBound then some (some n) else none
  | _ => none

def settingsFormat : SettingsFormat Json where
  entries? := recordEntries?
  bool? := bool?
  level? := level?
  threads? := threads?

end Json

namespace Yaml

def scalarText? : Yaml → Option String
  | .scalar s _ => some s
  | _ => none

def recordEntries? (fields : List String) : Yaml → Option (List (String × Yaml))
  | .mapping entries => do
    let entries ← entries.mapM fun (key, value) => key.scalarText?.map (·, value)
    knownEntries? fields entries
  | .scalar "" true => some []
  | _ => none

def bool? : Yaml → Option Bool
  | .scalar s true =>
    if s ∈ ["true", "True", "TRUE"] then some true
    else if s ∈ ["false", "False", "FALSE"] then some false
    else none
  | _ => none

def level? : Yaml → Option Level
  | .scalar s _ => Level.ofName? s
  | _ => none

def isNull (s : String) : Bool := s ∈ ["", "~", "null", "Null", "NULL"]

/-- The number written by digits of the given base, of which there must be at least one. -/
def digitsIn? (base : Nat) (cs : List Char) : Option Nat :=
  if cs.isEmpty then none
  else cs.foldlM (fun n c => (Json.hexDigit? c).bind fun d =>
    if d < base then some (base * n + d) else none) 0

/-- A decimal number, which does not begin with a needless zero, or one in another base. -/
def natural? (s : String) : Option Nat :=
  let cs := match s.toList with
    | '+' :: cs => cs
    | cs => cs
  match cs with
  | '0' :: 'x' :: cs => digitsIn? 16 cs
  | '0' :: 'o' :: cs => digitsIn? 8 cs
  | '0' :: 'b' :: cs => digitsIn? 2 cs
  | '0' :: _ :: _ => none
  | cs => digitsIn? 10 cs

def threads? : Yaml → Option (Option Nat)
  | .scalar s true =>
    if isNull s then some none
    else (natural? s).bind fun n => if n < threadBound then some (some n) else none
  | _ => none

def settingsFormat : SettingsFormat Yaml where
  entries? := recordEntries?
  bool? := bool?
  level? := level?
  threads? := threads?

end Yaml

namespace Settings

def ofJson (text : String) : Except Failure Settings :=
  match (Json.ofText? text).bind Json.settingsFormat.settings? with
  | some s => .ok s
  | none => .error (.config "not a JSON text of settings")

def ofYaml (text : String) : Except Failure Settings :=
  match (Yaml.ofText? text).bind Yaml.settingsFormat.settings? with
  | some s => .ok s
  | none => .error (.config "not a YAML text of settings")

end Settings

end Devirt
