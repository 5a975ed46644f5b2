import SqlCompose.Config.Reader
/-!
Configuration files: their place in a directory, and the failures of loading one.
-/

namespace SqlCompose.Config

/-- Why a file cannot be loaded. -/
inductive LoadError
  | malformed (path : String) (position : Json.Position) (flaw : Json.Flaw)
  | missing (path : String)
  | notUtf8 (path : String)

namespace LoadError

/-- The text of a flaw with its position. -/
def flawMessage (p : Json.Position) (flaw : Json.Flaw) : String :=
  flaw.message ++ " at line " ++ toString p.line ++ " column " ++ toString p.column

def message : LoadError → String
  | malformed path p flaw => "parse error on " ++ path ++ ":" ++ toString p.line ++ ":"
      ++ toString p.column ++ ": " ++ flawMessage p flaw
  | missing path => "I/O error: " ++ path ++ ": No such file or directory (os error 2)"
  | notUtf8 path => "I/O error: " ++ path ++ ": stream did not contain valid UTF-8"

end LoadError

/-- The configuration file of a directory. -/
def filePath (directory : String) : String := directory ++ "/configuration.json"

/-- Load the configuration of a directory from the text of its file. -/
def ofText (directory : String) (text : String) : Except LoadError Config :=
  match read text.toList with
  | .ok c => .ok c
  | .error f =>
    .error (.malformed (filePath directory) (.ofOffset text.toList f.offset) f.flaw)

/-- Load the configuration of a directory from the bytes of its file, if there is one. -/
def ofFile (directory : String) (file : Option ByteArray) : Except LoadError Config :=
  match file with
  | none => .error (.missing (filePath directory))
  | some bytes => match String.fromUTF8? bytes with
    | none => .error (.notUtf8 (filePath directory))
    | some text => ofText directory text

end SqlCompose.Config
