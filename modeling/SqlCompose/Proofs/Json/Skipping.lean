import SqlCompose.Json.Skip
import SqlCompose.Proofs.Json.Wording
import SqlCompose.Proofs.Json.Written

/-!
Values that are skipped. Whatever value is worded and however it is laid out, the reader that skips values stops
right behind it, if no digit follows that would belong to it. Every step passes a token, so there is always fuel.
-/

namespace SqlCompose.Json.Reader

variable {before after rest : List Char}

/-! Strings. -/

theorem exists_hexValue (d : HexDigit) : ∃ n, hexValue? d.val = some n := Option.isSome_iff_exists.mp d.property

theorem skipChars_part (p : StringPart) (rest : List Char) (n : Nat) :
    ∃ m, skipChars .plain (p.text ++ rest) n = skipChars .plain rest m := by
  cases p with
  | plain c h =>
      obtain ⟨hquote, hbackslash, hcontrol⟩ := h
      refine ⟨n + c.utf8Size, ?_⟩
      rw [StringPart.text, List.singleton_append, skipChars, if_neg hquote, if_neg hbackslash, if_neg hcontrol]
  | escape c h =>
      refine ⟨n + 2, ?_⟩
      show skipChars .escape (c :: rest) (n + 1) = _
      rw [skipChars, if_pos h]
  | unit a b c d =>
      obtain ⟨_, ha⟩ := exists_hexValue a
      obtain ⟨_, hb⟩ := exists_hexValue b
      obtain ⟨_, hc⟩ := exists_hexValue c
      obtain ⟨_, hd⟩ := exists_hexValue d
      refine ⟨n + 6, ?_⟩
      show skipChars (.hex 4) (a.val :: b.val :: c.val :: d.val :: rest) (n + 2) = _
      rw [skipChars, ha]
      show skipChars (.hex 3) (b.val :: c.val :: d.val :: rest) (n + 3) = _
      rw [skipChars, hb]
      show skipChars (.hex 2) (c.val :: d.val :: rest) (n + 4) = _
      rw [skipChars, hc]
      show skipChars (.hex 1) (d.val :: rest) (n + 5) = _
      rw [skipChars, hd]
      rfl

theorem skipChars_body (rest : List Char) : ∀ (ps : List StringPart) (n : Nat),
    ∃ m, skipChars .plain (bodyText ps ++ '"' :: rest) n = .ok ⟨rest, m⟩
  | [], n => ⟨n + 1, rfl⟩
  | p :: ps, n => by
      obtain ⟨k, hk⟩ := skipChars_part p (bodyText ps ++ '"' :: rest) n
      obtain ⟨m, hm⟩ := skipChars_body rest ps k
      exact ⟨m, by rw [bodyText, List.flatMap_cons, List.append_assoc, ← bodyText, hk, hm]⟩

theorem takes_skipString (ps : List StringPart) (rest : List Char) :
    Takes skipString (bodyText ps ++ '"' :: rest) rest () := by
  intro n
  obtain ⟨m, hm⟩ := skipChars_body rest ps n
  exact ⟨m, congrArg (fun x => x >>= fun k => pure ((), k)) hm⟩

/-! Numbers. -/

theorem ne_of_isDigit {c d : Char} (hc : isDigit c = true) (hd : isDigit d = false) : c ≠ d :=
  fun h => Bool.false_ne_true (hd.symm.trans (h ▸ hc))

/-- Characters that do not begin with a digit. -/
def NoDigit (cs : List Char) : Prop := ∀ c ∈ cs.head?, isDigit c = false

theorem noDigit_cons {c : Char} (h : isDigit c = false) (cs : List Char) : NoDigit (c :: cs) :=
  fun _ hd => Option.some.inj hd ▸ h

theorem EndsNumber.noDigit (h : EndsNumber rest) : NoDigit rest := fun c hc => (h c hc).1

theorem noDigit_exponentText (x : Option Exponent) (hrest : NoDigit rest) :
    NoDigit (Numeral.exponentText x ++ rest) := by
  cases x with
  | none => exact hrest
  | some x =>
      refine noDigit_cons ?_ _
      rcases x.letter_eq with h | h <;> rw [h] <;> rfl

theorem noDigit_tail (n : Numeral) (hrest : NoDigit rest) : NoDigit (n.tail ++ rest) := by
  rw [Numeral.tail, List.append_assoc]
  cases n.fraction with
  | none => exact noDigit_exponentText n.exponent hrest
  | some ds => exact noDigit_cons rfl _

theorem takes_digitRun (ds : Digits) (hrest : NoDigit rest) : Takes digits (ds.val ++ rest) rest ds.val :=
  takes_digits ds.property.2 hrest

theorem isEmpty_digits (ds : Digits) : ds.val.isEmpty = false := List.isEmpty_eq_false_iff.mpr ds.property.1

theorem exists_cons_digits (ds : Digits) : ∃ c cs, ds.val = c :: cs ∧ isDigit c = true := by
  obtain ⟨c, cs, hcs⟩ := List.exists_cons_of_ne_nil ds.property.1
  exact ⟨c, cs, hcs, ds.property.2 c (hcs ▸ List.mem_cons_self)⟩

/-- Skip some digits, of which there must be one. -/
def skipDigits : Reader Unit := do
  let ds ← digits
  if ds.isEmpty then failAhead .invalidNumber

theorem takes_skipDigits (ds : Digits) (hrest : NoDigit rest) : Takes skipDigits (ds.val ++ rest) rest () := by
  refine (takes_digitRun ds hrest).bind ?_
  rw [if_neg (by rw [isEmpty_digits ds]; decide)]
  exact takes_pure () rest

/-- Go on behind the sign of an exponent, if there is one. -/
def behindSign (r : Reader Unit) : Reader Unit := do
  match ← peek with
  | some '+' | some '-' => do
    pass
    r
  | _ => r

theorem skipExponent_eq : skipExponent = (do pass; behindSign skipDigits) := rfl

theorem takes_behindSign {r : Reader Unit} (x : Exponent) (hr : Takes r (x.digits.val ++ rest) after ()) :
    Takes (behindSign r) (x.sign ++ (x.digits.val ++ rest)) after () := by
  refine (takes_peek _).bind ?_
  rcases x.sign_mem with hsign | hsign | hsign
  · obtain ⟨c, cs, hcs, hc⟩ := exists_cons_digits x.digits
    rw [hcs] at hr ⊢
    rw [hsign, List.nil_append, List.cons_append, List.head?_cons]
    split
    case h_1 heq => exact absurd (Option.some.inj heq) (ne_of_isDigit hc rfl)
    case h_2 heq => exact absurd (Option.some.inj heq) (ne_of_isDigit hc rfl)
    case h_3 => exact hr
  · rw [hsign]
    exact (takes_pass _ _).bind hr
  · rw [hsign]
    exact (takes_pass _ _).bind hr

theorem takes_skipExponent (x : Exponent) (hrest : NoDigit rest) : Takes skipExponent (x.text ++ rest) rest () := by
  refine (takes_pass _ _).bind ?_
  show Takes _ (x.sign ++ x.digits.val ++ rest) _ _
  rw [List.append_assoc]
  exact takes_behindSign x (takes_skipDigits x.digits hrest)

theorem takes_skipExponent? (x : Option Exponent) (hrest : EndsNumber rest) :
    Takes skipExponent? (Numeral.exponentText x ++ rest) rest () := by
  refine (takes_peek _).bind ?_
  cases x with
  | none =>
      rw [Numeral.exponentText, List.nil_append]
      cases rest with
      | nil => exact takes_pure () []
      | cons c cs =>
          obtain ⟨-, -, hlower, hupper⟩ := hrest c rfl
          rw [List.head?_cons]
          split
          case h_1 heq => exact absurd (Option.some.inj heq) hlower
          case h_2 heq => exact absurd (Option.some.inj heq) hupper
          case h_3 => exact takes_pure () _
  | some x =>
      have hexponent := takes_skipExponent x hrest.noDigit
      have hhead : (Numeral.exponentText (some x) ++ rest).head? = some x.letter := rfl
      rw [hhead]
      rcases x.letter_eq with h | h <;> rw [h] <;> exact hexponent

/-- Skip a fraction and an exponent if they are there. -/
def skipTail : Reader Unit := do
  match ← peek with
  | some '.' => do
    pass
    let ds ← digits
    if ds.isEmpty then failAhead .invalidNumber
    skipExponent?
  | _ => skipExponent?

theorem takes_skipTail (n : Numeral) (hrest : EndsNumber rest) : Takes skipTail (n.tail ++ rest) rest () := by
  have hexponent := takes_skipExponent? n.exponent hrest
  rw [Numeral.tail, List.append_assoc]
  cases n.fraction with
  | none =>
      rw [Numeral.fractionText, List.nil_append]
      refine (takes_peek _).bind ?_
      split
      case h_1 heq =>
        -- the point would be the first character of the exponent, or behind the number
        exfalso
        cases hx : n.exponent with
        | none =>
            rw [hx] at heq
            exact (hrest '.' heq).2.1 rfl
        | some x =>
            rw [hx] at heq
            have hletter : x.letter = '.' := Option.some.inj heq
            rcases x.letter_eq with h | h <;> exact absurd (h.symm.trans hletter) (by decide)
      case h_2 => exact hexponent
  | some ds =>
      refine (takes_peek _).bind ((takes_pass _ _).bind ?_)
      refine (takes_digitRun ds (noDigit_exponentText n.exponent hrest.noDigit)).bind ?_
      rw [isEmpty_digits ds]
      exact hexponent

/-- Skip a number without its sign. -/
def skipUnsigned : Reader Unit := do
  match ← peek with
  | some '0' => do
    pass
    if (← peek).any isDigit then failAhead .invalidNumber
    skipTail
  | _ => do
    let ds ← digits
    if ds.isEmpty then failAhead .invalidNumber
    skipTail

theorem NoDigit.any_head? (h : NoDigit rest) : rest.head?.any isDigit = false := by
  cases rest with
  | nil => rfl
  | cons c cs => exact h c rfl

theorem takes_skipUnsigned (n : Numeral) (hrest : EndsNumber rest) :
    Takes skipUnsigned (n.whole.val ++ (n.tail ++ rest)) rest () := by
  have htail := takes_skipTail n hrest
  have hnoDigit := noDigit_tail n hrest.noDigit
  obtain ⟨c, cs, hcs, hc⟩ := exists_cons_digits n.whole
  refine (takes_peek _).bind ?_
  rw [hcs, List.cons_append, List.head?_cons]
  split
  case h_1 heq =>
      obtain rfl := Option.some.inj heq
      obtain rfl := n.leading cs hcs
      refine (takes_pass _ _).bind ((takes_peek _).bind ?_)
      rw [List.nil_append, hnoDigit.any_head?]
      exact htail
  case h_2 =>
      rw [← List.cons_append, ← hcs]
      refine (takes_digitRun n.whole hnoDigit).bind ?_
      rw [isEmpty_digits n.whole]
      exact htail

/-- Whether a number has a sign, which is passed. -/
def sign : Reader Bool := do
  if (← peek) = some '-' then do
    pass
    return true
  return false

theorem takes_sign (n : Numeral) (rest : List Char) :
    Takes sign (n.text ++ rest) (n.whole.val ++ (n.tail ++ rest)) n.negative := by
  rw [Numeral.text, List.append_assoc, List.append_assoc]
  refine (takes_peek _).bind ?_
  cases n.negative with
  | true => exact (takes_pass _ _).bind (takes_pure true _)
  | false =>
      obtain ⟨c, cs, hcs, hc⟩ := exists_cons_digits n.whole
      have hsign : some c ≠ some '-' := fun h => ne_of_isDigit hc rfl (Option.some.inj h)
      rw [hcs, if_neg Bool.false_ne_true, List.nil_append, List.cons_append, List.head?_cons, if_neg hsign]
      exact takes_pure false _

theorem skipNumber_eq : skipNumber = (do let _ ← sign; skipUnsigned) := by
  rw [sign, bind_assoc]
  refine bind_congr fun c => ?_
  split_ifs <;> rfl

theorem takes_skipNumber (n : Numeral) (hrest : EndsNumber rest) : Takes skipNumber (n.text ++ rest) rest () := by
  rw [skipNumber_eq]
  exact (takes_sign n rest).bind (takes_skipUnsigned n hrest)

/-! Values. -/

theorem endsNumber_of_isSpace {c : Char} (h : isSpace c = true) : isDigit c = false ∧ c ≠ '.' ∧ c ≠ 'e' ∧ c ≠ 'E' := by
  have hspace : ((c = ' ' ∨ c = '\n') ∨ c = '\t') ∨ c = '\r' := by simpa [isSpace] using h
  rcases hspace with ((rfl | rfl) | rfl) | rfl <;> decide

/-- A number ends where a token follows that does not go on with it. -/
theorem endsNumber_laidOut {c : Char} {cs : List Char} {ts : List (List Char)}
    (h : LaidOut ((c :: cs) :: ts) before after) (hc : isDigit c = false ∧ c ≠ '.' ∧ c ≠ 'e' ∧ c ≠ 'E') :
    EndsNumber before := by
  obtain ⟨blanks, rest, hblank, rfl, -⟩ := h
  cases blanks with
  | nil => exact endsNumber_cons hc _
  | cons b bs => exact endsNumber_cons (endsNumber_of_isSpace (hblank b List.mem_cons_self)) _

theorem takes_skipKey {name : List StringPart} {ts : List (List Char)}
    (h : LaidOut (stringToken name :: [':'] :: ts) before after) :
    ∃ rest, Takes skipKey before rest () ∧ LaidOut ts rest after := by
  obtain ⟨blanks, rest, hblank, rfl, blanks', rest', hblank', rfl, hts⟩ := h
  refine ⟨rest', ?_, hts⟩
  rw [stringToken_append]
  refine takes_token hblank (by decide) ((takes_pass _ _).bind ((takes_skipString name _).bind ?_))
  exact takes_token hblank' (by decide) (takes_pass _ _)

theorem exists_cons_numeral (n : Numeral) : ∃ c cs, n.text = c :: cs ∧ (c = '-' || isDigit c) = true := by
  rw [Numeral.text]
  cases n.negative with
  | true => exact ⟨'-', _, rfl, rfl⟩
  | false =>
      obtain ⟨c, cs, hcs, hc⟩ := exists_cons_digits n.whole
      exact ⟨c, cs ++ n.tail, by rw [hcs]; rfl, by rw [hc, Bool.or_true]⟩

/-- No value begins with a blank, or with what stands behind the elements of a list. -/
theorem exists_cons_tokens (v : Wording) :
    ∃ c cs ts, v.tokens = (c :: cs) :: ts ∧ isSpace c = false ∧ c ≠ ']' ∧ c ≠ ',' := by
  cases v with
  | null => exact ⟨_, _, _, Wording.tokens.eq_1, by decide, by decide, by decide⟩
  | boolean b => cases b <;> exact ⟨_, _, _, Wording.tokens.eq_2 _, by decide, by decide, by decide⟩
  | number n =>
      obtain ⟨c, cs, hcs, hc⟩ := exists_cons_numeral n
      refine ⟨c, cs, [], by rw [Wording.tokens, hcs], ?_⟩
      rcases Bool.or_eq_true_iff.mp hc with hsign | hdigit
      · rw [of_decide_eq_true hsign]
        decide
      · exact ⟨isSpace_of_isDigit hdigit, ne_of_isDigit hdigit rfl, ne_of_isDigit hdigit rfl⟩
  | string ps => exact ⟨_, _, _, Wording.tokens.eq_4 _, by decide, by decide, by decide⟩
  | list es => exact ⟨_, _, _, Wording.tokens.eq_5 _, by decide, by decide, by decide⟩
  | object ms => exact ⟨_, _, _, Wording.tokens.eq_6 _, by decide, by decide, by decide⟩

/-- The blanks in front of the first token do not matter to what reads that token. -/
theorem exists_takes_token {c : Char} {cs : List Char} {ts : List (List Char)}
    (h : LaidOut ((c :: cs) :: ts) before after) (hc : isSpace c = false) :
    ∃ rest, LaidOut ((c :: cs) :: ts) (c :: rest) after ∧
      ∀ {α : Type} {f : Option Char → Reader α} {end' : List Char} {a : α},
        Takes (f (some c)) (c :: rest) end' a → Takes (peekToken >>= f) before end' a := by
  obtain ⟨blanks, rest, hblank, rfl, hrest⟩ := h
  exact ⟨cs ++ rest, ⟨[], rest, blank_nil, rfl, hrest⟩, takes_token hblank hc⟩

mutual

/-- A value is skipped if there is fuel for each of its tokens. -/
theorem takes_skipValueAt (v : Wording) {n : Nat} {before after : List Char} (hn : v.tokens.length ≤ n)
    (h : LaidOut v.tokens before after) (hafter : EndsNumber after) : Takes (skipValueAt n) before after () := by
  obtain ⟨n, rfl⟩ : ∃ k, n = k + 1 := by
    obtain ⟨c, cs, ts, hts, -⟩ := exists_cons_tokens v
    rw [hts, List.length_cons] at hn
    exact ⟨n - 1, by omega⟩
  cases v with
  | null =>
      obtain ⟨blanks, _, hblank, rfl, rfl⟩ := h
      exact takes_token hblank (by decide) (takes_word _ _)
  | boolean b =>
      obtain ⟨blanks, _, hblank, rfl, rfl⟩ := h
      cases b <;> exact takes_token hblank (by decide) (takes_word _ _)
  | number m =>
      obtain ⟨blanks, _, hblank, rfl, rfl⟩ := h
      have hnumber := takes_skipNumber m hafter
      obtain ⟨c, cs, hcs, hc⟩ := exists_cons_numeral m
      rw [hcs] at hnumber ⊢
      have hspace : isSpace c = false := by
        obtain ⟨_, _, _, hts, hspace, -⟩ := exists_cons_tokens (.number m)
        rw [Wording.tokens, hcs] at hts
        cases hts
        exact hspace
      refine takes_token hblank hspace ?_
      split
      case h_8 heq =>
          cases heq
          rw [if_pos hc]
          exact hnumber
      all_goals
        rename_i heq
        cases heq
      all_goals exact absurd hc (by decide)
  | string ps =>
      obtain ⟨blanks, _, hblank, rfl, rfl⟩ := h
      rw [stringToken_append]
      exact takes_token hblank (by decide) ((takes_pass _ _).bind (takes_skipString ps _))
  | list es =>
      obtain ⟨blanks, rest, hblank, rfl, hrest⟩ := h
      refine takes_token hblank (by decide) ((takes_pass _ _).bind ?_)
      rw [Wording.tokens, List.length_cons, List.length_append, List.length_singleton] at hn
      cases es with
      | nil =>
          obtain ⟨blanks', _, hblank', rfl, rfl⟩ := hrest
          exact takes_token hblank' (by decide) (takes_pass _ _)
      | cons e es =>
          obtain ⟨c, cs, ts, hts, hspace, hclose, -⟩ := exists_cons_tokens e
          have htokens : Wording.elementTokens true (e :: es) ++ [[']']]
              = (c :: cs) :: (ts ++ Wording.elementTokens false es ++ [[']']]) := by
            rw [Wording.elementTokens, hts]
            rfl
          have hfirst : LaidOut ((c :: cs) :: _) rest after := htokens ▸ hrest
          obtain ⟨rest', hrest', htakes⟩ := exists_takes_token hfirst hspace
          refine htakes ?_
          split
          case h_1 heq => cases heq
          case h_2 heq => exact absurd (Option.some.inj heq) hclose
          case h_3 => exact takes_skipElementsAt (e :: es) (List.cons_ne_nil e es) (by omega) (htokens ▸ hrest')
  | object ms =>
      obtain ⟨blanks, rest, hblank, rfl, hrest⟩ := h
      refine takes_token hblank (by decide) ((takes_pass _ _).bind ?_)
      rw [Wording.tokens, List.length_cons, List.length_append, List.length_singleton] at hn
      cases ms with
      | nil =>
          obtain ⟨blanks', _, hblank', rfl, rfl⟩ := hrest
          exact takes_token hblank' (by decide) (takes_pass _ _)
      | cons m ms =>
          obtain ⟨name, v⟩ := m
          obtain ⟨rest', hrest', htakes⟩ := exists_takes_token (c := '"') hrest (by decide)
          exact htakes (takes_skipMembersAt ((name, v) :: ms) (List.cons_ne_nil _ ms) (by omega) hrest')

theorem takes_skipElementsAt (es : List Wording) (hes : es ≠ []) {n : Nat} {before after : List Char}
    (hn : (Wording.elementTokens true es).length < n)
    (h : LaidOut (Wording.elementTokens true es ++ [[']']]) before after) :
    Takes (skipElementsAt n) before after () := by
  cases es with
  | nil => exact absurd rfl hes
  | cons e es =>
      obtain ⟨n, rfl⟩ := Nat.exists_eq_succ_of_ne_zero (Nat.ne_zero_of_lt hn)
      have htokens : Wording.elementTokens true (e :: es) = e.tokens ++ Wording.elementTokens false es := rfl
      rw [htokens, List.append_assoc] at h
      rw [htokens, List.length_append] at hn
      obtain ⟨middle, hvalue, hmiddle⟩ := laidOut_append.mp h
      cases es with
      | nil =>
          have hends := endsNumber_laidOut (c := ']') hmiddle (by decide)
          obtain ⟨blanks, _, hblank, rfl, rfl⟩ := hmiddle
          refine (takes_skipValueAt e (by omega) hvalue hends).bind ?_
          exact takes_token hblank (by decide) (takes_pass _ _)
      | cons e' es =>
          have hends := endsNumber_laidOut (c := ',') hmiddle (by decide)
          obtain ⟨blanks, rest, hblank, rfl, hrest⟩ := hmiddle
          have hlater : Wording.elementTokens false (e' :: es) = [','] :: Wording.elementTokens true (e' :: es) := rfl
          rw [hlater, List.length_cons] at hn
          refine (takes_skipValueAt e (by omega) hvalue hends).bind ?_
          refine takes_token hblank (by decide) ((takes_pass _ _).bind ?_)
          exact takes_skipElementsAt (e' :: es) (List.cons_ne_nil e' es) (by omega) hrest

theorem takes_skipMembersAt (ms : List Member) (hms : ms ≠ []) {n : Nat}
    {before after : List Char} (hn : (Wording.memberTokens true ms).length < n)
    (h : LaidOut (Wording.memberTokens true ms ++ [['\x7d']]) before after) :
    Takes (skipMembersAt n) before after () := by
  cases ms with
  | nil => exact absurd rfl hms
  | cons m ms =>
      obtain ⟨name, v⟩ := m
      obtain ⟨n, rfl⟩ := Nat.exists_eq_succ_of_ne_zero (Nat.ne_zero_of_lt hn)
      have htokens : Wording.memberTokens true ((name, v) :: ms)
        = stringToken name :: [':'] :: (v.tokens ++ Wording.memberTokens false ms) := rfl
      rw [htokens, List.cons_append, List.cons_append, List.append_assoc] at h
      rw [htokens, List.length_cons, List.length_cons, List.length_append] at hn
      obtain ⟨rest, hkey, hrest⟩ := takes_skipKey h
      obtain ⟨middle, hvalue, hmiddle⟩ := laidOut_append.mp hrest
      refine hkey.bind ?_
      cases ms with
      | nil =>
          have hends := endsNumber_laidOut (c := '\x7d') hmiddle (by decide)
          obtain ⟨blanks, _, hblank, rfl, rfl⟩ := hmiddle
          refine (takes_skipValueAt v (by omega) hvalue hends).bind ?_
          exact takes_token hblank (by decide) (takes_pass _ _)
      | cons m' ms =>
          obtain ⟨name', v'⟩ := m'
          have hends := endsNumber_laidOut (c := ',') hmiddle (by decide)
          obtain ⟨blanks, rest, hblank, rfl, hrest⟩ := hmiddle
          have hlater : Wording.memberTokens false ((name', v') :: ms)
            = [','] :: Wording.memberTokens true ((name', v') :: ms) := rfl
          rw [hlater, List.length_cons] at hn
          refine (takes_skipValueAt v (by omega) hvalue hends).bind ?_
          refine takes_token hblank (by decide) ((takes_pass _ _).bind ?_)
          exact takes_skipMembersAt ((name', v') :: ms) (List.cons_ne_nil _ ms) (by omega) hrest

end

/-! The fuel. -/

mutual

theorem ne_nil_of_mem_tokens (v : Wording) : ∀ t ∈ v.tokens, t ≠ [] := by
  cases v with
  | null => exact List.forall_mem_singleton.mpr (by decide)
  | boolean b => exact List.forall_mem_singleton.mpr (by cases b <;> decide)
  | number n =>
      obtain ⟨c, cs, hcs, -⟩ := exists_cons_numeral n
      exact List.forall_mem_singleton.mpr (hcs ▸ List.cons_ne_nil c cs)
  | string ps => exact List.forall_mem_singleton.mpr (List.cons_ne_nil _ _)
  | list es =>
      rw [Wording.tokens, List.forall_mem_cons, List.forall_mem_append, List.forall_mem_singleton]
      exact ⟨by decide, ne_nil_of_mem_elementTokens true es, by decide⟩
  | object ms =>
      rw [Wording.tokens, List.forall_mem_cons, List.forall_mem_append, List.forall_mem_singleton]
      exact ⟨by decide, ne_nil_of_mem_memberTokens true ms, by decide⟩

theorem ne_nil_of_mem_elementTokens (first : Bool) (es : List Wording) :
    ∀ t ∈ Wording.elementTokens first es, t ≠ [] := by
  cases es with
  | nil => exact fun _ h => nomatch h
  | cons e es =>
      rw [Wording.elementTokens, List.forall_mem_append, List.forall_mem_append]
      refine ⟨?_, ne_nil_of_mem_tokens e, ne_nil_of_mem_elementTokens false es⟩
      cases first <;> simp

theorem ne_nil_of_mem_memberTokens (first : Bool) (ms : List Member) :
    ∀ t ∈ Wording.memberTokens first ms, t ≠ [] := by
  cases ms with
  | nil => exact fun _ h => nomatch h
  | cons m ms =>
      obtain ⟨name, v⟩ := m
      rw [Wording.memberTokens, List.forall_mem_append, List.forall_mem_cons, List.forall_mem_cons,
        List.forall_mem_append]
      refine ⟨?_, List.cons_ne_nil _ _, by decide, ne_nil_of_mem_tokens v, ne_nil_of_mem_memberTokens false ms⟩
      cases first <;> simp

end

theorem length_le_of_laidOut {ts : List (List Char)} (hts : ∀ t ∈ ts, t ≠ []) (h : LaidOut ts before after) :
    ts.length ≤ before.length := by
  induction ts generalizing before with
  | nil => exact Nat.zero_le _
  | cons t ts ih =>
      obtain ⟨blanks, rest, -, rfl, hrest⟩ := h
      rw [List.forall_mem_cons] at hts
      have hle := ih hts.2 hrest
      have hpos := List.length_pos_iff.mpr hts.1
      rw [List.length_cons, List.length_append, List.length_append]
      omega

theorem takes_skipValue {v : Wording} (h : LaidOut v.tokens before after) (hafter : EndsNumber after) :
    Takes skipValue before after () := by
  have hfuel := length_le_of_laidOut (ne_nil_of_mem_tokens v) h
  exact takes_skipValueAt v (show v.tokens.length ≤ 2 * before.length + 1 by omega) h hafter

end SqlCompose.Json.Reader
