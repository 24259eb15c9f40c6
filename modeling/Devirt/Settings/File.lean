import Devirt.Settings.Reader

/-!
Settings in files. The extension of the name decides the format.
-/

namespace Devirt

/-- What follows the last dot of the file name at the end of a path. A dot in front of the name does
not count. -/
def fileExtension? (path : String) : Option String :=
  let cs := path.toList.reverse.takeWhile (· ≠ '/')
  match cs.dropWhile (· ≠ '.') with
  | _ :: _ :: _ => some (String.ofList (cs.takeWhile (· ≠ '.')).reverse)
  | _ => none

namespace Settings

def isYamlName (path : String) : Bool :=
  fileExtension? path = some "yaml" || fileExtension? path = some "yml"

/-- The settings in the file at the given path. The contents are missing when there is no such file;
they must be a text. -/
def ofFile (path : String) (contents : Option ByteArray) : Except Failure Settings := do
  let some bytes := contents | throw (.io "no such file")
  let some text := String.fromUTF8? bytes | throw (.io "not a UTF-8 text")
  if isYamlName path then ofYaml text else ofJson text

private def boolText (b : Bool) : String := if b then "true" else "false"

private def quoted (s : String) : String := "\"" ++ s ++ "\""

/-- An object with one entry per line. -/
private def objectText (indent : String) (entries : List (String × String)) : String :=
  let lines := entries.map fun (key, value) => indent ++ "  " ++ quoted key ++ ": " ++ value
  "\x7b\n" ++ ",\n".intercalate lines ++ "\n" ++ indent ++ "\x7d"

/-- The JSON text of settings. -/
def text (s : Settings) : String :=
  let options := objectText "  "
    [(Options.superField, boolText s.options.superToVirtual),
      (Options.virtualField, boolText s.options.specializeVirtual),
      (Options.interfaceField, boolText s.options.interfaceToVirtual),
      (Options.narrowField, boolText s.options.narrowTypes)]
  objectText ""
    [(levelField, quoted s.level.name), (optionsField, options),
      (threadsField, (s.threads.map Nat.repr).getD "null")]

end Settings

end Devirt
