import SqlCompose.Dialect
import SqlCompose.Json.Writer
import SqlCompose.Text.Alphanumeric
import SqlCompose.Text.Blank
import SqlCompose.Text.Quoted
/-!
The configuration of a database: what it holds, when it can be used, and how it and its schema are written.
-/

namespace SqlCompose

/-- A configuration as it is stored. -/
structure Config where
  version : UInt32
  database : Dialect
deriving DecidableEq

namespace Config

/-- The version of the format that can be used. -/
def currentVersion : UInt32 := 1

/-- The configuration with nothing set. -/
def empty : Config := ⟨currentVersion, {}⟩

/-- Why a configuration cannot be used. -/
inductive Unusable
  | version (found : UInt32)
  | identifierQuote (quote : String)

namespace Unusable

def message : Unusable → String
  | version v => "unsupported configuration version " ++ toString v.toNat ++ ", expected "
      ++ toString currentVersion.toNat
  | identifierQuote q => "invalid identifier quote " ++ Text.quoted q
      ++ ": expected a single punctuation character"

end Unusable

/-- Whether a text can quote identifiers: one character that is no letter, number or blank. -/
def isQuote (quote : String) : Bool :=
  match quote.toList with
  | [c] => !Text.isAlphanumeric c && !Text.isBlank c
  | _ => false

/-- The dialect of a configuration of the current version with a proper quote. -/
def dialect (c : Config) : Except Unusable Dialect :=
  if c.version ≠ currentVersion then .error (.version c.version)
  else if isQuote c.database.identifierQuote then .ok c.database
  else .error (.identifierQuote c.database.identifierQuote)

/-- A configuration as a JSON value. -/
def toJson (c : Config) : Json :=
  .object [
    ("version", .integer c.version.toNat),
    ("database", .object [
      ("quoteIdentifiers", .bool c.database.quoteIdentifiers),
      ("identifierQuote", .string c.database.identifierQuote)])]

/-- The text of a configuration file. -/
def fileText (c : Config) : String := c.toJson.fileText

/-- The schema of configurations. -/
def schema : Json :=
  .object [
    ("$schema", .string "http://json-schema.org/draft-07/schema#"),
    ("title", .string "ParsedConfiguration"),
    ("description", .string "The configuration as it is stored on disk."),
    ("type", .string "object"),
    ("required", .list [.string "version"]),
    ("properties", .object [
      ("version", .object [
        ("type", .string "integer"),
        ("format", .string "uint32"),
        ("minimum", .double (Double.nearest 0 1))]),
      ("database", .object [
        ("default", .object [
          ("identifierQuote", .string empty.database.identifierQuote),
          ("quoteIdentifiers", .bool empty.database.quoteIdentifiers)]),
        ("allOf", .list [.object [("$ref", .string "#/definitions/DatabaseProperties")]])])]),
    ("definitions", .object [
      ("DatabaseProperties", .object [
        ("description", .string "How the target database wants identifiers written."),
        ("type", .string "object"),
        ("properties", .object [
          ("quoteIdentifiers", .object [
            ("description", .string "Quote table and column names."),
            ("default", .bool empty.database.quoteIdentifiers),
            ("type", .string "boolean")]),
          ("identifierQuote", .object [
            ("description", .string "The character used to quote identifiers."),
            ("default", .string empty.database.identifierQuote),
            ("type", .string "string")])])])])]

end Config

end SqlCompose
