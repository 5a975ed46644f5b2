import SqlCompose.Proofs.Json.Readers

/-!
Written values are read back. Each kind of value that a configuration is made of is read back by its reader
at any level of indentation, and an object is read back if each of its members is.
-/

namespace SqlCompose.Json

namespace Reader

variable {α σ : Type} {r : Reader α} {v : Json} {a : α}

/-- A reader gives back a value that has been written, behind blanks and in front of what ends a number. -/
def ReadsBack (r : Reader α) (v : Json) (a : α) : Prop :=
  ∀ (level : Nat) {blanks rest : List Char}, Blank blanks → EndsNumber rest →
    Takes r (blanks ++ (v.written level ++ rest)) rest a

theorem readsBack_boolean (b : Bool) : ReadsBack boolean (.bool b) b := by
  intro level blanks rest hblank _
  cases b with
  | true => exact takes_token hblank (by decide) ((takes_word ['t', 'r', 'u', 'e'] rest).bind (takes_pure _ _))
  | false =>
    exact takes_token hblank (by decide) ((takes_word ['f', 'a', 'l', 's', 'e'] rest).bind (takes_pure _ _))

theorem writtenString_append (s : String) (rest : List Char) :
    writtenString s ++ rest = '"' :: (s.toList.flatMap escaped ++ '"' :: rest) := by
  rw [writtenString, List.append_assoc]
  rfl

theorem readsBack_text (s : String) : ReadsBack text (.string s) s := by
  intro level blanks rest hblank _
  rw [written, writtenString_append]
  exact takes_token hblank (by decide) ((takes_pass _ _).bind (takes_string s rest))

theorem written_natural (level n : Nat) : (Json.integer n).written level = Nat.toDigits 10 n := Nat.toList_repr

theorem isSpace_of_isDigit {c : Char} (h : isDigit c = true) : isSpace c = false := by
  have hne : ∀ d, isDigit d = false → (c == d) = false := fun d hd =>
    beq_false_of_ne fun heq => Bool.false_ne_true (hd.symm.trans (heq ▸ h))
  rw [isSpace, hne ' ' rfl, hne '\n' rfl, hne '\t' rfl, hne '\r' rfl]
  rfl

theorem readsBack_word32 (w : UInt32) : ReadsBack word32 (.integer w.toNat) w := by
  intro level blanks rest hblank hrest
  have hw : w.toNat < 0x100000000 := w.toNat_lt
  have hnumber := takes_number (Nat.le_trans (Nat.le_of_lt hw) (by decide)) hrest
  obtain ⟨c, cs, hcs⟩ := List.exists_cons_of_ne_nil (Nat.toDigits_ne_nil (n := w.toNat) (b := 10))
  have hc : isDigit c = true := isDigit_of_mem_toDigits (hcs ▸ List.mem_cons_self)
  rw [hcs] at hnumber
  rw [written_natural, hcs]
  refine takes_token hblank (isSpace_of_isDigit hc) ?_
  show Takes (if (c = '-' || isDigit c) = true then _ else _) _ _ _
  rw [hc, Bool.or_true, if_pos rfl]
  refine hnumber.bind ?_
  show Takes (if (0 : Int) ≤ (w.toNat : Int) ∧ (w.toNat : Int) < 0x100000000 then _ else _) _ _ _
  rw [if_pos (by omega)]
  have hvalue : (w.toNat : Int).toNat.toUInt32 = w := UInt32.ofNat_toNat
  rw [hvalue]
  exact takes_pure w rest

/-! Objects. -/

theorem blank_newLine (level : Nat) : Blank (newLine level) := by
  rw [Blank, newLine, List.forall_mem_cons]
  refine ⟨by decide, fun c hc => ?_⟩
  rw [List.eq_of_mem_replicate hc]
  decide

/-- What is written of an object from some members on, the first of them or later ones, up to the end of the
object, and what stands behind it. -/
def membersText (level : Nat) (rest : List Char) : Bool → List (String × Json) → List Char
  | _, [] => newLine level ++ '\x7d' :: rest
  | first, (name, v) :: ms => (if first then [] else [',']) ++ (newLine (level + 1)
    ++ (writtenString name ++ ':' :: ' ' :: (v.written (level + 1) ++ membersText level rest false ms)))

theorem intercalate_members (level : Nat) (rest : List Char) : ∀ (m : String × Json)
    (ms : List (String × Json)),
    [','].intercalate ((writtenMembers (level + 1) (m :: ms)).map (newLine (level + 1) ++ ·))
      ++ (newLine level ++ '\x7d' :: rest) = membersText level rest true (m :: ms)
  | (name, v), [] => by simp [writtenMembers, membersText]
  | (name, v), m :: ms => by
      have hrest := intercalate_members level rest m ms
      obtain ⟨e, es, hes⟩ : ∃ e es, writtenMembers (level + 1) (m :: ms) = e :: es := ⟨_, _, rfl⟩
      rw [writtenMembers, hes, List.map_cons, List.map_cons, List.intercalate_cons_cons, ← List.map_cons,
        ← hes, List.append_assoc, hrest]
      simp [membersText]

theorem written_object (level : Nat) (m : String × Json) (ms : List (String × Json)) (rest : List Char) :
    (object (m :: ms)).written level ++ rest = '\x7b' :: membersText level rest true (m :: ms) := by
  rw [← intercalate_members, written, bracketed, if_neg (by simp [writtenMembers])]
  simp

theorem endsNumber_membersText (level : Nat) (rest : List Char) : ∀ ms : List (String × Json),
    EndsNumber (membersText level rest false ms)
  | [] => endsNumber_cons (by decide) _
  | _ :: _ => endsNumber_cons (by decide) _

theorem takes_memberName (first : Bool) {blanks : List Char} (hblank : Blank blanks) (name : String)
    (rest : List Char) : Takes (memberName first)
      ((if first then [] else [',']) ++ (blanks ++ (writtenString name ++ rest))) rest (some name) := by
  rw [writtenString_append]
  cases first with
  | true =>
      refine takes_token hblank (by decide) ?_
      refine (takes_peekToken blank_nil fun c hc => ?_).bind ?_
      · exact Option.some.inj hc ▸ by decide
      · exact (takes_pass _ _).bind ((takes_string name rest).map (g := some))
  | false =>
      refine takes_token blank_nil (by decide) ((takes_pass _ _).bind ?_)
      refine takes_token hblank (by decide) ?_
      exact (takes_pass _ _).bind ((takes_string name rest).map (g := some))

theorem takes_membersEnd (first : Bool) {blanks : List Char} (hblank : Blank blanks) (rest : List Char) :
    Takes (memberName first) (blanks ++ '\x7d' :: rest) ('\x7d' :: rest) none :=
  takes_token hblank (by decide) (takes_pure none _)

/-- The members of an object are read back one after the other, from a state to another one. -/
inductive MembersRead (member : σ → String → Reader σ) : σ → List (String × Json) → σ → Prop
  | nil (s : σ) : MembersRead member s [] s
  | cons {s t u : σ} {name : String} {v : Json} {ms : List (String × Json)}
      (h : ∀ (level : Nat) (rest : List Char), EndsNumber rest →
        Takes (member s name) (':' :: ' ' :: (v.written level ++ rest)) rest t)
      (hs : MembersRead member t ms u) : MembersRead member s ((name, v) :: ms) u

variable {member : σ → String → Reader σ} {s t : σ} {ms : List (String × Json)}

theorem takes_membersAt (h : MembersRead member s ms t) (level : Nat) (rest : List Char) :
    ∀ (fuel : Nat) (first : Bool), ms.length < fuel →
      Takes (membersAt member fuel first s) (membersText level rest first ms) ('\x7d' :: rest) t := by
  induction h with
  | nil s =>
      intro fuel first hfuel
      obtain ⟨k, rfl⟩ := Nat.exists_eq_succ_of_ne_zero (Nat.ne_zero_of_lt hfuel)
      exact (takes_membersEnd first (blank_newLine level) rest).bind (takes_pure s _)
  | cons hm _ ih =>
      intro fuel first hfuel
      obtain ⟨k, rfl⟩ := Nat.exists_eq_succ_of_ne_zero (Nat.ne_zero_of_lt hfuel)
      refine (takes_memberName first (blank_newLine _) _ _).bind ?_
      exact (hm _ _ (endsNumber_membersText level rest _)).bind (ih k false (Nat.lt_of_succ_lt_succ hfuel))

theorem length_le_membersText (level : Nat) (rest : List Char) : ∀ (first : Bool) (ms : List (String × Json)),
    ms.length ≤ (membersText level rest first ms).length
  | _, [] => Nat.zero_le _
  | _, (name, v) :: ms => by
      have hrest := length_le_membersText level rest false ms
      simp only [membersText, List.length_append, List.length_cons]
      omega

theorem takes_members (h : MembersRead member s ms t) (level : Nat) (rest : List Char) :
    Takes (members member s) (membersText level rest true ms) ('\x7d' :: rest) t :=
  takes_membersAt h level rest _ true (Nat.lt_succ_of_le (length_le_membersText level rest true ms))

/-- An object is read back if its members are read up to its end. -/
theorem readsBack_record {m : String × Json} {expected : String} {ofObject ofList : Reader α}
    (h : ∀ level rest, Takes ofObject (membersText level rest true (m :: ms)) ('\x7d' :: rest) a) :
    ReadsBack (record expected ofObject ofList) (.object (m :: ms)) a := by
  intro level blanks rest hblank _
  rw [written_object]
  refine takes_token hblank (by decide) ((takes_pass _ _).bind ?_)
  exact (h level rest).bind ((takes_pass _ _).bind (takes_pure a rest))

theorem takes_once {name : String} {value : Reader α} (h : ReadsBack value v a) (level : Nat)
    {rest : List Char} (hrest : EndsNumber rest) :
    Takes (once name none value) (':' :: ' ' :: (v.written level ++ rest)) rest (some a) := by
  have hcolon : Takes colon (':' :: ' ' :: (v.written level ++ rest)) (' ' :: (v.written level ++ rest)) () :=
    takes_token blank_nil (by decide) (takes_pass _ _)
  exact hcolon.bind ((h level (blank_singleton (c := ' ') rfl) hrest).map (g := some))

end Reader

end SqlCompose.Json
