import SqlCompose.Config.File
import SqlCompose.Proofs.Json.Written

/-!
A configuration that has been written is read back, whatever its version and its properties are.
-/

namespace SqlCompose.Config

open Json.Reader

/-- The members of the database properties as they are written. -/
def databaseEntries (d : Dialect) : List (String × Json) :=
  [("quoteIdentifiers", .bool d.quoteIdentifiers), ("identifierQuote", .string d.identifierQuote)]

/-- The members of a configuration as they are written. -/
def entries (c : Config) : List (String × Json) :=
  [("version", .integer c.version.toNat), ("database", .object (databaseEntries c.database))]

theorem toJson_eq (c : Config) : c.toJson = .object c.entries := rfl

theorem membersRead_database (d : Dialect) : MembersRead databaseMember {} (databaseEntries d)
    ⟨some d.quoteIdentifiers, some d.identifierQuote⟩ :=
  .cons (fun level _ hrest => (takes_once (readsBack_boolean _) level hrest).map)
    (.cons (fun level _ hrest => (takes_once (readsBack_text _) level hrest).map) (.nil _))

theorem readsBack_databaseProperties (d : Dialect) :
    ReadsBack databaseProperties (.object (databaseEntries d)) d :=
  fun level _ _ hblank hrest =>
    (readsBack_record (takes_members (membersRead_database d)) level hblank hrest).map

theorem membersRead_config (c : Config) : MembersRead configMember {} c.entries
    ⟨some c.version, some c.database⟩ :=
  .cons (fun level _ hrest => (takes_once (readsBack_word32 _) level hrest).map)
    (.cons (fun level _ hrest => (takes_once (readsBack_databaseProperties _) level hrest).map) (.nil _))

theorem takes_configObject (c : Config) (level : Nat) (rest : List Char) :
    Takes configObject (membersText level rest true c.entries) ('\x7d' :: rest) c :=
  (takes_members (membersRead_config c) level rest).bind (takes_pure c _)

theorem takes_wholeText (c : Config) : Takes wholeText c.fileText.toList [] c := by
  have hrecord : Takes (record "struct ParsedConfiguration" configObject configList)
      ((Json.object c.entries).written 0 ++ ['\n']) ['\n'] c :=
    readsBack_record (takes_configObject c) 0 blank_nil (endsNumber_cons (by decide) [])
  have hend : Takes peekToken ['\n'] [] none :=
    takes_peekToken (blank_singleton (c := '\n') rfl) fun _ h => nomatch h
  rw [fileText, Json.fileText, String.toList_ofList, toJson_eq]
  exact hrecord.bind (hend.bind (takes_pure c []))

/-- A configuration that has been written is read back, from the text of its file and from the bytes. -/
theorem written_reads_back (c : Config) (directory : String) :
    ofText directory c.fileText = .ok c ∧ ofFile directory (some c.fileText.toUTF8) = .ok c := by
  have htext : ofText directory c.fileText = .ok c := by
    obtain ⟨n, hn⟩ := takes_wholeText c 0
    have hread : read c.fileText.toList = .ok c := by
      rw [read, Json.Cursor.ofText, hn]
    rw [ofText, hread]
  have hbytes : String.fromUTF8? c.fileText.toUTF8 = some c.fileText := by
    generalize c.fileText = text
    exact dif_pos text.isValidUTF8
  refine ⟨htext, ?_⟩
  rw [ofFile, hbytes]
  exact htext

end SqlCompose.Config
