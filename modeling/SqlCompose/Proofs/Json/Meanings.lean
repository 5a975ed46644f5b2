import SqlCompose.Config.File
import SqlCompose.Proofs.Json.Recognised

/-!
What a worded text means as a configuration. A text is accepted if its wording has a meaning, and then it gives
that configuration: the layout of the text does not count. Every text that is accepted has a wording.
-/

namespace SqlCompose.Config

open Json Json.Reader
open Json.Wording (elementTokens memberTokens)

/-! Meanings. -/

/-- Go on with a member of the database properties. -/
def databaseStep (m : DatabaseMembers) (name : String) (v : Wording) : Option DatabaseMembers :=
  if name = "quoteIdentifiers" then
    (fill m.quoteIdentifiers v.boolean?).map fun q => { m with quoteIdentifiers := q }
  else if name = "identifierQuote" then
    (fill m.identifierQuote v.text?).map fun q => { m with identifierQuote := q }
  else some m

/-- The database properties in the elements of a list behind the first one. -/
def laterElements (q : Bool) : List Wording → Option DatabaseMembers
  | [] => some { quoteIdentifiers := some q }
  | [s] => s.text?.map fun t => { quoteIdentifiers := some q, identifierQuote := some t }
  | _ => none

/-- The database properties in the elements of a list. -/
def databaseElements : List Wording → Option DatabaseMembers
  | [] => some {}
  | b :: es => b.boolean?.bind fun q => laterElements q es

/-- The database properties that a value means. -/
def databaseOf (v : Wording) : Option Dialect :=
  (v.record? (foldMembers databaseStep {}) databaseElements).map DatabaseMembers.dialect

/-- Go on with a member of a configuration. -/
def configStep (m : Members) (name : String) (v : Wording) : Option Members :=
  if name = "version" then (fill m.version v.word32?).map fun w => { m with version := w }
  else if name = "database" then (fill m.database (databaseOf v)).map fun d => { m with database := d }
  else some m

/-- The configuration of the members that have been read, if there is a version. -/
def Members.config? (m : Members) : Option Config := m.version.map fun w => ⟨w, m.database.getD empty.database⟩

/-- The configuration that an object with some members means. -/
def ofMembers (ms : List Member) : Option Config := (foldMembers configStep {} ms).bind Members.config?

/-! Readers. -/

variable {before after : List Char} {k l : Cursor}

theorem yields_databaseMember : MemberYields databaseMember databaseStep := by
  intro m name v before after h hafter
  rw [databaseMember, databaseStep]
  split_ifs
  · exact (yields_once name m.quoteIdentifiers h fun _ hvalue => yields_boolean hvalue).map
  · exact (yields_once name m.identifierQuote h fun _ hvalue => yields_text hvalue).map
  · exact takes_foreign m h hafter

theorem takes_closing (after : List Char) : Takes listEnd (']' :: after) after () :=
  takes_listEnd ⟨[], after, blank_nil, rfl, rfl⟩

/-- Read the database properties from a list, behind the first of them. -/
def identifierQuoteElement (q : Bool) : Reader DatabaseMembers := do
  if ← hasElement false then
    return { quoteIdentifiers := some q, identifierQuote := some (← text) }
  return { quoteIdentifiers := some q }

theorem databaseList_eq : databaseList = (do
    if ← hasElement true then
      let q ← boolean
      identifierQuoteElement q
    else return {}) := rfl

theorem yields_laterElements (q : Bool) {es : List Wording}
    (h : LaidOut (elementTokens false es ++ [[']']]) before after) :
    Yields (do let m ← identifierQuoteElement q; listEnd; return m) before after (laterElements q es) := by
  rw [identifierQuoteElement, bind_assoc]
  match es with
  | [] =>
      refine (takes_hasElement_end h).yields ?_
      rw [if_neg Bool.false_ne_true, pure_bind]
      exact (takes_closing after).bind (takes_pure _ after)
  | [s] =>
      obtain ⟨middle, behind, htakes, hvalue, -, hbehind⟩ := exists_takes_hasElement h
      refine htakes.yields ?_
      rw [if_pos rfl, bind_assoc, laterElements, Option.map_eq_bind]
      refine (yields_text hvalue).bind fun t => ?_
      rw [pure_bind]
      exact (takes_listEnd hbehind).bind (takes_pure _ after)
  | s :: s' :: es =>
      obtain ⟨middle, behind, htakes, hvalue, -, hbehind⟩ := exists_takes_hasElement h
      refine htakes.yields ?_
      have hnone : laterElements q (s :: s' :: es) = s.text?.bind fun _ => none := (Option.bind_fun_none _).symm
      rw [if_pos rfl, bind_assoc, hnone]
      refine (yields_text hvalue).bind fun t => ?_
      rw [pure_bind]
      exact (refuses_listEnd hbehind).bind _

theorem yields_databaseElements (es : List Wording) (h : LaidOut (elementTokens true es ++ [[']']]) before after) :
    Yields (do let m ← databaseList; listEnd; return m) before after (databaseElements es) := by
  rw [databaseList_eq, bind_assoc]
  match es with
  | [] =>
      refine (takes_hasElement_end h).yields ?_
      rw [if_neg Bool.false_ne_true, pure_bind]
      exact (takes_closing after).bind (takes_pure _ after)
  | e :: es =>
      obtain ⟨middle, behind, htakes, hvalue, -, hbehind⟩ := exists_takes_hasElement h
      refine htakes.yields ?_
      rw [if_pos rfl, bind_assoc]
      exact (yields_boolean hvalue).bind fun q => yields_laterElements q hbehind

theorem yields_databaseProperties {v : Wording} (h : LaidOut v.tokens before after) :
    Yields databaseProperties before after (databaseOf v) :=
  (yields_record "struct DatabaseProperties" (fun _ _ hms => yields_members yields_databaseMember {} hms)
    (fun es _ hes => yields_databaseElements es hes) h).map

theorem yields_configMember : MemberYields configMember configStep := by
  intro m name v before after h hafter
  rw [configMember, configStep]
  split_ifs
  · exact (yields_once name m.version h fun _ hvalue => yields_word32 hvalue hafter).map
  · exact (yields_once name m.database h fun _ hvalue => yields_databaseProperties hvalue).map
  · exact takes_foreign m h hafter

theorem yields_configObject {ms : List Member} (h : LaidOut (memberTokens true ms ++ [['\x7d']]) before after) :
    Yields configObject before ('\x7d' :: after) (ofMembers ms) := by
  refine (yields_members yields_configMember {} h).bind fun m => ?_
  rw [Members.config?]
  cases m.version with
  | some w => exact takes_pure _ _
  | none => exact fun n => ⟨_, rfl⟩

/-- A text of an object is accepted if its members have a meaning. -/
theorem yields_wholeText {ms : List Member} {text : List Char} (h : (Wording.object ms).HasText text) :
    Yields wholeText text [] (ofMembers ms) := by
  obtain ⟨blanks, hblank, hlaidOut⟩ := h
  have hrecord : Yields (record "struct ParsedConfiguration" configObject configList) text blanks (ofMembers ms) :=
    yields_object _ (fun _ hms => yields_configObject hms) hlaidOut
  have hend : Takes peekToken blanks [] none := by
    have hnil : ∀ c ∈ ([] : List Char).head?, isSpace c = false := fun _ h => nomatch h
    have hpeek := takes_peekToken hblank hnil
    rwa [List.append_nil] at hpeek
  rw [← Option.bind_fun_some (ofMembers ms)]
  exact hrecord.bind fun c => hend.bind (takes_pure c [])

theorem read_eq_ok_iff {ms : List Member} {text : List Char} (h : (Wording.object ms).HasText text) (c : Config) :
    read text = .ok c ↔ ofMembers ms = some c := by
  have hyields := yields_wholeText h
  rw [read]
  cases hmeaning : ofMembers ms with
  | none =>
      rw [hmeaning] at hyields
      obtain ⟨fault, hfault⟩ := hyields 0
      rw [Cursor.ofText, hfault]
      exact ⟨fun h => (nomatch h), fun h => (nomatch h)⟩
  | some c' =>
      rw [hmeaning] at hyields
      obtain ⟨m, hm⟩ := hyields 0
      rw [Cursor.ofText, hm]
      exact ⟨fun h => congrArg some (Except.ok.inj h), fun h => congrArg Except.ok (Option.some.inj h)⟩

theorem ofText_eq_ok_iff (directory : String) {ms : List Member} {text : String}
    (h : (Wording.object ms).HasText text.toList) (c : Config) :
    ofText directory text = .ok c ↔ ofMembers ms = some c := by
  rw [← read_eq_ok_iff h, ofText]
  cases read text.toList with
  | ok c' => exact ⟨fun h => congrArg Except.ok (Except.ok.inj h), fun h => congrArg Except.ok (Except.ok.inj h)⟩
  | error fault => exact ⟨fun h => (nomatch h), fun h => (nomatch h)⟩

/-! Accepted texts. -/

theorem readsMember_database : ReadsMember databaseMember := by
  intro s t name k l h
  rw [databaseMember] at h
  split_ifs at h
  · obtain ⟨x, k', hx, h⟩ := ok_of_bind h
    cases h
    exact once_ok boolean_ok hx
  · obtain ⟨x, k', hx, h⟩ := ok_of_bind h
    cases h
    exact once_ok text_ok hx
  · exact foreign_ok h

/-- What is accepted as a list of at most two elements is one. -/
theorem upToTwo_ok {α β γ : Type} {r : Reader α} {s : α → Reader β} {one : α → γ} {two : α → β → γ}
    {nothing : Reader γ} {c : γ}
    (hfirst : ∀ {a : α} {k l : Cursor}, r k = .ok (a, l) → ∃ v : Wording, LaidOut v.tokens k.rest l.rest)
    (hsecond : ∀ {a : α} {b : β} {k l : Cursor}, s a k = .ok (b, l) →
      ∃ v : Wording, LaidOut v.tokens k.rest l.rest)
    (hnothing : ∀ {c : γ} {k l : Cursor}, nothing k = .ok (c, l) → l = k)
    (h : (do
      let c ← (do
        if ← hasElement true then
          let a ← r
          if ← hasElement false then return two a (← s a)
          else return one a
        else nothing)
      listEnd
      return c) k = .ok (c, l)) :
    ∃ es, LaidOut (elementTokens true es ++ [[']']]) k.rest l.rest := by
  obtain ⟨c', k₄, hlist, h⟩ := ok_of_bind h
  obtain ⟨_, k₅, hend, h⟩ := ok_of_bind h
  cases h
  have hclose := listEnd_ok hend
  obtain ⟨b, k₁, hb, hlist⟩ := ok_of_bind hlist
  cases b with
  | false =>
      rw [if_neg Bool.false_ne_true] at hlist
      exact ⟨[], laidOut_noElement hb (hnothing hlist ▸ hclose)⟩
  | true =>
      rw [if_pos rfl] at hlist
      obtain ⟨a, k₂, ha, hlist⟩ := ok_of_bind hlist
      obtain ⟨e, he⟩ := hfirst ha
      obtain ⟨b, k₃, hb', hlist⟩ := ok_of_bind hlist
      cases b with
      | false =>
          cases hlist
          exact ⟨[e], laidOut_element hb he (laidOut_noElement hb' hclose)⟩
      | true =>
          rw [if_pos rfl] at hlist
          obtain ⟨y, k', hy, hlist⟩ := ok_of_bind hlist
          cases hlist
          obtain ⟨e', he'⟩ := hsecond hy
          exact ⟨[e, e'], laidOut_element hb he (laidOut_element hb' he' hclose)⟩

theorem databaseList_ok {m : DatabaseMembers} (h : (do let m ← databaseList; listEnd; return m) k = .ok (m, l)) :
    ∃ es, LaidOut (elementTokens true es ++ [[']']]) k.rest l.rest := by
  refine upToTwo_ok (s := fun _ => text) boolean_ok text_ok (fun h => ?_) h
  cases h
  rfl

theorem databaseProperties_ok {d : Dialect} (h : databaseProperties k = .ok (d, l)) :
    ∃ v : Wording, LaidOut v.tokens k.rest l.rest := by
  obtain ⟨m, k', hrecord, h⟩ := ok_of_bind h
  cases h
  exact record_ok (members_ok readsMember_database) databaseList_ok hrecord

theorem readsMember_config : ReadsMember configMember := by
  intro s t name k l h
  rw [configMember] at h
  split_ifs at h
  · obtain ⟨x, k', hx, h⟩ := ok_of_bind h
    cases h
    exact once_ok word32_ok hx
  · obtain ⟨x, k', hx, h⟩ := ok_of_bind h
    cases h
    exact once_ok databaseProperties_ok hx
  · exact foreign_ok h

theorem configObject_ok {c : Config} (h : configObject k = .ok (c, l)) :
    ∃ ms after, LaidOut (memberTokens true ms ++ [['\x7d']]) k.rest after ∧ l.rest = '\x7d' :: after := by
  obtain ⟨m, k', hmembers, h⟩ := ok_of_bind h
  cases hversion : m.version with
  | none =>
      rw [hversion] at h
      nomatch h
  | some w =>
      rw [hversion] at h
      cases h
      exact members_ok readsMember_config hmembers

theorem configList_ok {c : Config} (h : (do let c ← configList; listEnd; return c) k = .ok (c, l)) :
    ∃ es, LaidOut (elementTokens true es ++ [[']']]) k.rest l.rest := by
  refine upToTwo_ok (s := fun _ => databaseProperties) word32_ok databaseProperties_ok (fun h => ?_) h
  nomatch h

/-- Every text that is accepted has a wording. -/
theorem exists_wording {text : List Char} {c : Config} (h : read text = .ok c) : ∃ v : Wording, v.HasText text := by
  rw [read] at h
  split at h
  case h_2 => nomatch h
  case h_1 c' k hwhole =>
      obtain ⟨c'', k', hrecord, h⟩ := ok_of_bind hwhole
      obtain ⟨v, hv⟩ := record_ok configObject_ok configList_ok hrecord
      obtain ⟨blanks, k'', hblank, hrest, h⟩ := peekToken_bind_ok h
      generalize hhead : k''.rest.head? = x at h
      cases x with
      | some x => nomatch h
      | none =>
          rw [List.head?_eq_none_iff.mp hhead, List.append_nil] at hrest
          exact ⟨v, k'.rest, hrest ▸ hblank, hv⟩

end SqlCompose.Config
