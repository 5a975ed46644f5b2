import SqlCompose.Proofs.Json.Valued

/-!
What the readers of lists and objects make of a wording. The members of an object are read one after the other,
from a state to the next one, so what an object gives is a fold of its members, each under the name that its
wording stands for.
-/

namespace SqlCompose.Json

/-- Go on with a member of an object, whose name has to stand for a string. -/
def memberStep {σ : Type} (step : σ → String → Wording → Option σ) (s : σ) (m : Member) : Option σ :=
  (stringValue? m.1).bind fun name => step s name m.2

/-- Go through the members of an object. -/
def foldMembers {σ : Type} (step : σ → String → Wording → Option σ) (s : σ) (ms : List Member) : Option σ :=
  ms.foldlM (memberStep step) s

/-- Fill a place that has to be empty. -/
def fill {α : Type} (place value : Option α) : Option (Option α) := if place.isSome then none else value.map some

/-- What an object or a list is, by its members or by its elements. -/
def Wording.record? {α : Type} (ofMembers : List Member → Option α) (ofElements : List Wording → Option α) :
    Wording → Option α
  | object ms => ofMembers ms
  | list es => ofElements es
  | _ => none

namespace Reader

open Wording (elementTokens memberTokens)

variable {α σ : Type} {before after : List Char} {ts : List (List Char)}

/-! Members. -/

theorem yields_memberName {first : Bool} {name : List StringPart}
    (h : LaidOut ((if first then [] else [[',']]) ++ stringToken name :: ts) before after) :
    ∃ middle, Yields (memberName first) before middle ((stringValue? name).map some) ∧ LaidOut ts middle after := by
  cases first with
  | true =>
      obtain ⟨blanks, rest, hblank, rfl, hrest⟩ := h
      refine ⟨rest, ?_, hrest⟩
      rw [stringToken_append]
      refine yields_token hblank (by decide) ?_
      refine (takes_peekToken blank_nil fun c hc => ?_).yields ?_
      · exact Option.some.inj hc ▸ by decide
      · exact (takes_pass _ _).yields (yields_string name rest).map
  | false =>
      obtain ⟨blanks, _, hblank, rfl, blanks', rest, hblank', rfl, hrest⟩ := h
      refine ⟨rest, ?_, hrest⟩
      rw [stringToken_append]
      refine yields_token hblank (by decide) ((takes_pass _ _).yields ?_)
      refine yields_token hblank' (by decide) ?_
      exact (takes_pass _ _).yields (yields_string name rest).map

theorem endsNumber_members {ms : List Member} (h : LaidOut (memberTokens false ms ++ [['\x7d']]) before after) :
    EndsNumber before := by
  cases ms with
  | nil => exact endsNumber_laidOut (c := '\x7d') h (by decide)
  | cons m ms => exact endsNumber_laidOut (c := ',') h (by decide)

theorem endsNumber_elements {es : List Wording} (h : LaidOut (elementTokens false es ++ [[']']]) before after) :
    EndsNumber before := by
  cases es with
  | nil => exact endsNumber_laidOut (c := ']') h (by decide)
  | cons e es => exact endsNumber_laidOut (c := ',') h (by decide)

/-- A reader of members does what a step on wordings says, whatever the layout of the member. -/
def MemberYields (member : σ → String → Reader σ) (step : σ → String → Wording → Option σ) : Prop :=
  ∀ (s : σ) (name : String) (v : Wording) {before after : List Char}, LaidOut ([':'] :: v.tokens) before after →
    EndsNumber after → Yields (member s name) before after (step s name v)

variable {member : σ → String → Reader σ} {step : σ → String → Wording → Option σ}

theorem yields_membersAt (hmember : MemberYields member step) : ∀ (ms : List Member) {n : Nat} {first : Bool}
    {s : σ} {before after : List Char}, ms.length < n → LaidOut (memberTokens first ms ++ [['\x7d']]) before after →
    Yields (membersAt member n first s) before ('\x7d' :: after) (foldMembers step s ms)
  | [], n + 1, first, s, _, after, _, h => by
      obtain ⟨blanks, _, hblank, rfl, rfl⟩ := h
      exact (takes_membersEnd first hblank _).bind (takes_pure s _)
  | (name, v) :: ms, n + 1, first, s, before, after, hn, h => by
      rw [memberTokens, List.append_assoc, List.cons_append, List.cons_append, List.append_assoc] at h
      obtain ⟨middle, hname, hmiddle⟩ := yields_memberName h
      obtain ⟨behind, hvalue, hbehind⟩ := laidOut_append.mp (show LaidOut (([':'] :: v.tokens) ++ _) _ _ from hmiddle)
      rw [foldMembers, List.foldlM_cons, memberStep]
      cases hx : stringValue? name with
      | none =>
          rw [hx] at hname
          exact Refuses.bind hname _
      | some x =>
          rw [hx] at hname
          refine Takes.yields hname ?_
          refine (hmember s x v hvalue (endsNumber_members hbehind)).bind fun t => ?_
          exact yields_membersAt hmember ms (Nat.lt_of_succ_lt_succ hn) hbehind

theorem length_le_memberTokens : ∀ (first : Bool) (ms : List Member), ms.length ≤ (memberTokens first ms).length
  | _, [] => Nat.le_refl _
  | first, (name, v) :: ms => by
      have hrest := length_le_memberTokens false ms
      rw [memberTokens]
      simp only [List.length_append, List.length_cons]
      omega

theorem yields_members (hmember : MemberYields member step) {ms : List Member} (s : σ)
    (h : LaidOut (memberTokens true ms ++ [['\x7d']]) before after) :
    Yields (members member s) before ('\x7d' :: after) (foldMembers step s ms) := by
  obtain ⟨middle, hms, -⟩ := laidOut_append.mp h
  have hle := length_le_of_laidOut (ne_nil_of_mem_memberTokens true ms) hms
  have hcount := length_le_memberTokens true ms
  have hfuel : ms.length < before.length + 1 := by omega
  have hyields := yields_membersAt hmember ms (s := s) hfuel h
  revert hyields
  cases foldMembers step s ms <;> exact fun hyields => hyields

theorem exists_takes_colon (h : LaidOut ([':'] :: ts) before after) :
    ∃ middle, Takes colon before middle () ∧ LaidOut ts middle after := by
  obtain ⟨blanks, rest, hblank, rfl, hrest⟩ := h
  exact ⟨rest, takes_token hblank (by decide) (takes_pass _ _), hrest⟩

variable {value : Reader α} {v : Wording} {x : Option α}

theorem yields_once (name : String) (prior : Option α) (h : LaidOut ([':'] :: v.tokens) before after)
    (hvalue : ∀ middle, LaidOut v.tokens middle after → Yields value middle after x) :
    Yields (once name prior value) before after (fill prior x) := by
  obtain ⟨middle, hcolon, hmiddle⟩ := exists_takes_colon h
  cases prior with
  | some a => exact fun n => ⟨_, rfl⟩
  | none => exact hcolon.yields (hvalue middle hmiddle).map

/-- A member that is not known is skipped. -/
theorem takes_foreign (s : σ) (h : LaidOut ([':'] :: v.tokens) before after) (hafter : EndsNumber after) :
    Takes (do colon; skipValue; return s) before after s := by
  obtain ⟨middle, hcolon, hmiddle⟩ := exists_takes_colon h
  exact hcolon.bind ((takes_skipValue hmiddle hafter).bind (takes_pure s after))

/-! Elements. -/

theorem exists_takes_hasElement {first : Bool} {e : Wording} {es : List Wording}
    (h : LaidOut (elementTokens first (e :: es) ++ [[']']]) before after) :
    ∃ middle behind, Takes (hasElement first) before middle true ∧ LaidOut e.tokens middle behind ∧
      EndsNumber behind ∧ LaidOut (elementTokens false es ++ [[']']]) behind after := by
  obtain ⟨c, cs, us, hus, hspace, hclose, hcomma⟩ := exists_cons_tokens e
  rw [elementTokens, List.append_assoc, List.append_assoc] at h
  obtain ⟨start, hstart, h⟩ := laidOut_append.mp h
  obtain ⟨behind, hvalue, hbehind⟩ := laidOut_append.mp h
  rw [hus] at hvalue
  obtain ⟨rest, hrest, htakes⟩ := exists_takes_token hvalue hspace
  refine ⟨c :: rest, behind, ?_, hus ▸ hrest, endsNumber_elements hbehind, hbehind⟩
  cases first with
  | true =>
      obtain rfl := hstart
      refine htakes ?_
      split
      case h_1 heq => cases heq
      case h_2 heq => exact absurd (Option.some.inj heq) hclose
      case h_3 heq => exact absurd (Option.some.inj heq) hcomma
      case h_4 => exact takes_pure true _
  | false =>
      obtain ⟨blanks, _, hblank, rfl, rfl⟩ := hstart
      refine takes_token hblank (by decide) ((takes_pass _ _).bind (htakes ?_))
      split
      case h_1 heq => exact absurd (Option.some.inj heq) hclose
      case h_2 => exact takes_pure true _
      case h_3 heq => cases heq

theorem takes_hasElement_end {first : Bool} (h : LaidOut [[']']] before after) :
    Takes (hasElement first) before (']' :: after) false := by
  obtain ⟨blanks, _, hblank, rfl, rfl⟩ := h
  exact takes_token hblank (by decide) (takes_pure false _)

theorem takes_listEnd (h : LaidOut [[']']] before after) : Takes listEnd before after () := by
  obtain ⟨blanks, _, hblank, rfl, rfl⟩ := h
  exact takes_token hblank (by decide) (takes_pass _ _)

/-- A list that has another element does not end. -/
theorem refuses_listEnd {e : Wording} {es : List Wording}
    (h : LaidOut (elementTokens false (e :: es) ++ [[']']]) before after) : Refuses listEnd before := by
  obtain ⟨blanks, _, hblank, rfl, -⟩ := h
  refine refuses_token hblank (by decide) (refuses_bind (fun _ _ => refuses_bind (fun c cs => ?_) _) _)
  split <;> exact refuses_failAhead _ cs

/-! Records. -/

theorem yields_object (expected : String) {ofObject ofList : Reader α} {ms : List Member}
    (hobject : ∀ middle, LaidOut (memberTokens true ms ++ [['\x7d']]) middle after →
      Yields ofObject middle ('\x7d' :: after) x)
    (h : LaidOut (Wording.object ms).tokens before after) :
    Yields (record expected ofObject ofList) before after x := by
  obtain ⟨blanks, rest, hblank, rfl, hrest⟩ := h
  refine yields_token hblank (by decide) ((takes_pass _ _).yields ?_)
  have hyields := hobject rest hrest
  cases x with
  | none => exact Refuses.bind hyields _
  | some a => exact Takes.bind hyields ((takes_pass _ _).bind (takes_pure a after))

theorem yields_record (expected : String) {ofObject ofList : Reader α} {ofMembers : List Member → Option α}
    {ofElements : List Wording → Option α}
    (hobject : ∀ ms middle, LaidOut (memberTokens true ms ++ [['\x7d']]) middle after →
      Yields ofObject middle ('\x7d' :: after) (ofMembers ms))
    (hlist : ∀ es middle, LaidOut (elementTokens true es ++ [[']']]) middle after →
      Yields (do let a ← ofList; listEnd; return a) middle after (ofElements es))
    (h : LaidOut v.tokens before after) :
    Yields (record expected ofObject ofList) before after (v.record? ofMembers ofElements) := by
  cases v with
  | object ms => exact yields_object expected (hobject ms) h
  | list es =>
      obtain ⟨blanks, rest, hblank, rfl, hrest⟩ := h
      exact yields_token hblank (by decide) ((takes_pass _ _).yields (hlist es rest hrest))
  | number n =>
      obtain ⟨blanks, c, cs, hblank, rfl, -, hspace, hc⟩ := exists_number_token h
      refine yields_token hblank hspace ?_
      split
      case h_1 heq => cases heq
      case h_2 heq | h_3 heq =>
          cases heq
          exact absurd hc (by decide)
      case h_4 => exact refuses_wrongType _ _
  | boolean b =>
      obtain ⟨blanks, _, hblank, rfl, -⟩ := h
      cases b <;> exact yields_token hblank (by decide) (refuses_wrongType _ _)
  | null | string =>
      obtain ⟨blanks, _, hblank, rfl, -⟩ := h
      exact yields_token hblank (by decide) (refuses_wrongType _ _)

end Reader

end SqlCompose.Json
