import Mathlib.Data.List.TakeWhile
import SqlCompose.Proofs.Json.Members

/-!
What the readers accept is worded. Wherever a reader succeeds, the characters it has passed are a text of some
wording: of any value if the value was skipped, and of a member for each member that was read.
-/

namespace SqlCompose.Json

open Reader (Blank blank_nil)

open Wording (elementTokens memberTokens)

variable {before middle behind after : List Char}

theorem LaidOut.behind_blanks {ts : List (List Char)} (hts : ts ≠ []) {blanks : List Char} (hblank : Blank blanks)
    (h : LaidOut ts before after) : LaidOut ts (blanks ++ before) after := by
  cases ts with
  | nil => exact absurd rfl hts
  | cons t ts =>
      obtain ⟨blanks', rest, hblank', rfl, hrest⟩ := h
      refine ⟨blanks ++ blanks', rest, ?_, (List.append_assoc _ _ _).symm, hrest⟩
      exact fun c hc => (List.mem_append.mp hc).elim (hblank c) (hblank' c)

theorem LaidOut.elements {first : Bool} {e : Wording} {es : List Wording}
    (hcomma : LaidOut (if first then [] else [[',']]) before middle) (hvalue : LaidOut e.tokens middle behind)
    (hes : LaidOut (elementTokens false es ++ [[']']]) behind after) :
    LaidOut (elementTokens first (e :: es) ++ [[']']]) before after := by
  rw [elementTokens, List.append_assoc, List.append_assoc]
  exact hcomma.append (hvalue.append hes)

theorem LaidOut.members {first : Bool} {name : List StringPart} {v : Wording} {ms : List Member}
    (hname : LaidOut ((if first then [] else [[',']]) ++ [stringToken name]) before middle)
    (hvalue : LaidOut ([':'] :: v.tokens) middle behind)
    (hms : LaidOut (memberTokens false ms ++ [['\x7d']]) behind after) :
    LaidOut (memberTokens first ((name, v) :: ms) ++ [['\x7d']]) before after := by
  have hall := hname.append (hvalue.append hms)
  rw [List.append_assoc] at hall
  rw [memberTokens, List.append_assoc, List.cons_append, List.cons_append, List.append_assoc]
  exact hall

namespace Reader

variable {α : Type} {k l : Cursor} {u : Unit}

/-! Steps that have succeeded. -/

theorem peek_bind (f : Option Char → Reader α) (k : Cursor) : (peek >>= f) k = f k.rest.head? k := rfl

theorem pass_bind (f : Unit → Reader α) (k : Cursor) : (pass >>= f) k = f () k.advance := rfl

theorem pass_ok (h : pass k = .ok (u, l)) : l = k.advance := by
  cases h
  rfl

theorem rest_of_head? {c : Char} (h : k.rest.head? = some c) : k.rest = c :: k.advance.rest := by
  obtain ⟨cs, hcs⟩ := List.head?_eq_some_iff.mp h
  rw [Cursor.advance, hcs]

theorem skipSpaces_go_rest : ∀ (cs : List Char) (n : Nat),
    ∃ blanks, Blank blanks ∧ cs = blanks ++ (Cursor.skipSpaces.go cs n).rest
  | [], n => ⟨[], blank_nil, rfl⟩
  | c :: cs, n => by
      rw [Cursor.skipSpaces.go]
      split
      case isTrue hc =>
          obtain ⟨blanks, hblank, hcs⟩ := skipSpaces_go_rest cs (n + 1)
          exact ⟨c :: blanks, List.forall_mem_cons.mpr ⟨hc, hblank⟩, congrArg (c :: ·) hcs⟩
      case isFalse => exact ⟨[], blank_nil, rfl⟩

theorem peekToken_bind_ok {a : α} {f : Option Char → Reader α} (h : (peekToken >>= f) k = .ok (a, l)) :
    ∃ blanks k', Blank blanks ∧ k.rest = blanks ++ k'.rest ∧ f k'.rest.head? k' = .ok (a, l) := by
  obtain ⟨blanks, hblank, hrest⟩ := skipSpaces_go_rest k.rest k.offset
  exact ⟨blanks, k.skipSpaces, hblank, hrest, h⟩

theorem advance_rest {c : Char} {cs : List Char} (h : k.rest = c :: cs) : k.advance.rest = cs := by
  rw [Cursor.advance, h]

theorem word_ok : ∀ {w : List Char} {k : Cursor}, word w k = .ok (u, l) → k.rest = w ++ l.rest
  | [], k, h => by
      cases h
      rfl
  | c :: cs, k, h => by
      rw [word, peek_bind] at h
      cases hhead : k.rest.head? with
      | none =>
          rw [hhead] at h
          nomatch h
      | some d =>
          rw [hhead] at h
          dsimp only at h
          split at h
          case isFalse => nomatch h
          case isTrue hc =>
              rw [rest_of_head? hhead, hc, word_ok h]
              rfl

theorem digits_ok {ds : List Char} (h : digits k = .ok (ds, l)) :
    k.rest = ds ++ l.rest ∧ (∀ d ∈ ds, isDigit d = true) := by
  cases h
  refine ⟨(List.prefix_iff_eq_append.mp (List.takeWhile_prefix isDigit)).symm, fun d hd => ?_⟩
  exact List.mem_takeWhile_imp hd

/-! Strings. -/

/-- What is left of a string before its end, from a point of its skipping on. -/
def Leaves : SkipState → List Char → List Char → Prop
  | .plain, cs, rest => ∃ ps, cs = bodyText ps ++ '"' :: rest
  | .escape, cs, rest => ∃ ps, '\\' :: cs = bodyText ps ++ '"' :: rest
  | .hex missing, cs, rest => ∃ (ds : List HexDigit) (ps : List StringPart), ds.length = missing - 1 + 1 ∧
    cs = ds.map (·.val) ++ (bodyText ps ++ '"' :: rest)

theorem skipChars_ok (state : SkipState) (cs : List Char) (n : Nat) (h : skipChars state cs n = .ok l) :
    Leaves state cs l.rest := by
  fun_induction skipChars state cs n with
  | case1 | case4 | case8 | case9 => nomatch h
  | case2 cs n =>
      cases h
      exact ⟨[], rfl⟩
  | case3 cs n _ ih => exact ih h
  | case5 c cs n hquote hbackslash hcontrol ih =>
      obtain ⟨ps, hps⟩ := ih h
      exact ⟨.plain c ⟨hquote, hbackslash, hcontrol⟩ :: ps, by rw [bodyText_cons, ← hps]; rfl⟩
  | case6 c cs n hescape ih =>
      obtain ⟨ps, hps⟩ := ih h
      exact ⟨.escape c hescape :: ps, by rw [bodyText_cons, ← hps]; rfl⟩
  | case7 cs n _ ih =>
      obtain ⟨ds, ps, hlength, hcs⟩ := ih h
      match ds, hlength with
      | [a, b, c, d], _ => exact ⟨.unit a b c d :: ps, by rw [bodyText_cons, hcs]; rfl⟩
  | case10 missing c cs n value hvalue ih =>
      have hc : (hexValue? c).isSome = true := Option.isSome_iff_exists.mpr ⟨value, hvalue⟩
      have hrest := ih h
      split at hrest
      case isTrue hmissing =>
          obtain ⟨ds, ps, hlength, hcs⟩ := hrest
          exact ⟨⟨c, hc⟩ :: ds, ps, by rw [List.length_cons]; omega, congrArg (c :: ·) hcs⟩
      case isFalse hmissing =>
          obtain ⟨ps, hcs⟩ := hrest
          exact ⟨[⟨c, hc⟩], ps, by rw [List.length_singleton]; omega, congrArg (c :: ·) hcs⟩

theorem skipString_ok (h : skipString k = .ok (u, l)) : ∃ ps, k.rest = bodyText ps ++ '"' :: l.rest := by
  have h : (skipChars .plain k.rest k.offset >>= fun l => pure ((), l)) = .ok (u, l) := h
  cases hchars : skipChars .plain k.rest k.offset with
  | error fault =>
      rw [hchars] at h
      nomatch h
  | ok l' =>
      rw [hchars] at h
      cases h
      exact skipChars_ok .plain k.rest k.offset hchars

/-- How a string is skipped from a point of its reading on. -/
def skipping : StringState → SkipState
  | .plain | .surrogate _ => .plain
  | .escape | .surrogateEscape _ => .escape
  | .hex _ missing _ => .hex missing

theorem cons_ok {x : Except Fault (List Char × Cursor)} {c : Char} {s : List Char}
    (h : (do let (s, k) ← x; return (c :: s, k)) = .ok (s, l)) : ∃ s', x = .ok (s', l) := by
  cases x with
  | error fault => nomatch h
  | ok y =>
      cases h
      exact ⟨y.1, rfl⟩

/-- A string that is read is skipped as far. -/
theorem skipChars_of_stringChars (state : StringState) (cs : List Char) (n : Nat) {s : List Char}
    (h : stringChars state cs n = .ok (s, l)) : skipChars (skipping state) cs n = .ok l := by
  fun_induction stringChars state cs n generalizing s
  case case1 | case4 | case8 | case9 | case11 | case15 | case17 => nomatch h
  case case2 cs n =>
      cases h
      rfl
  case case3 cs n _ ih => exact ih h
  case case5 c cs n hquote hbackslash hcontrol ih =>
      obtain ⟨s', h⟩ := cons_ok h
      rw [skipping, skipChars, if_neg hquote, if_neg hbackslash, if_neg hcontrol]
      exact ih h
  case case6 c cs n d hd ih =>
      obtain ⟨s', h⟩ := cons_ok h
      rw [skipping, skipChars, hd, if_pos Option.isSome_some]
      exact ih h
  case case7 cs n _ ih => exact ih h
  case case10 leading missing value c cs n d hd v hmissing ih =>
      rw [skipping, skipChars, hd]
      dsimp only
      rw [if_pos hmissing]
      exact ih h
  case case12 leading missing value c cs n d hd v hmissing state hstate ih =>
      obtain ⟨-, rfl⟩ := ofCodeUnit_inr hstate
      rw [skipping, skipChars, hd]
      dsimp only
      rw [if_neg hmissing]
      exact ih h
  case case13 leading missing value c cs n d hd v hmissing x hx ih =>
      obtain ⟨s', h⟩ := cons_ok h
      rw [skipping, skipChars, hd]
      dsimp only
      rw [if_neg hmissing]
      exact ih h
  case case14 leading cs n ih => exact ih h
  case case16 leading cs n ih => exact ih h

theorem string_ok {s : String} (h : string k = .ok (s, l)) : ∃ ps, k.rest = bodyText ps ++ '"' :: l.rest := by
  have h : (stringChars .plain k.rest k.offset >>= fun x => pure (String.ofList x.1, x.2)) = .ok (s, l) := h
  cases hchars : stringChars .plain k.rest k.offset with
  | error fault =>
      rw [hchars] at h
      nomatch h
  | ok x =>
      rw [hchars] at h
      cases h
      exact skipChars_ok .plain k.rest k.offset (skipChars_of_stringChars .plain k.rest k.offset hchars)

/-! Numbers. -/

theorem skipDigits_ok (h : skipDigits k = .ok (u, l)) : ∃ ds : Digits, k.rest = ds.val ++ l.rest := by
  obtain ⟨ds, k', hds, h⟩ := ok_of_bind h
  obtain ⟨hrest, hdigits⟩ := digits_ok hds
  split at h
  case isTrue => nomatch h
  case isFalse hempty =>
      cases h
      exact ⟨⟨ds, fun hnil => hempty (hnil ▸ rfl), hdigits⟩, hrest⟩

theorem behindSign_ok {r : Reader Unit} (h : behindSign r k = .ok (u, l)) :
    ∃ sign k', (sign = [] ∨ sign = ['+'] ∨ sign = ['-']) ∧ k.rest = sign ++ k'.rest ∧ r k' = .ok (u, l) := by
  rw [behindSign, peek_bind] at h
  generalize hhead : k.rest.head? = c at h
  split at h
  case h_1 => exact ⟨['+'], k.advance, .inr (.inl rfl), rest_of_head? hhead, h⟩
  case h_2 => exact ⟨['-'], k.advance, .inr (.inr rfl), rest_of_head? hhead, h⟩
  case h_3 => exact ⟨[], k, .inl rfl, rfl, h⟩

theorem skipExponent_ok {c : Char} (hc : c = 'e' ∨ c = 'E') (hhead : k.rest.head? = some c)
    (h : skipExponent k = .ok (u, l)) : ∃ x : Exponent, k.rest = x.text ++ l.rest := by
  rw [skipExponent_eq, pass_bind] at h
  obtain ⟨sign, k', hmem, hsign, hdigits⟩ := behindSign_ok h
  obtain ⟨ds, hds⟩ := skipDigits_ok hdigits
  refine ⟨⟨c, sign, ds, hc, hmem⟩, ?_⟩
  rw [rest_of_head? hhead, hsign, hds, Exponent.text, List.cons_append, List.append_assoc]

theorem skipExponent?_ok (h : skipExponent? k = .ok (u, l)) :
    ∃ x, k.rest = Numeral.exponentText x ++ l.rest := by
  rw [skipExponent?, peek_bind] at h
  generalize hhead : k.rest.head? = c at h
  split at h
  case h_1 => exact (skipExponent_ok (.inl rfl) hhead h).imp' some fun _ hx => hx
  case h_2 => exact (skipExponent_ok (.inr rfl) hhead h).imp' some fun _ hx => hx
  case h_3 =>
      cases h
      exact ⟨none, rfl⟩

theorem skipTail_ok (h : skipTail k = .ok (u, l)) :
    ∃ fraction exponent, k.rest = Numeral.fractionText fraction ++ (Numeral.exponentText exponent ++ l.rest) := by
  rw [skipTail, peek_bind] at h
  generalize hhead : k.rest.head? = c at h
  split at h
  case h_1 =>
      rw [pass_bind] at h
      obtain ⟨ds, k', hds, hbehind⟩ := ok_of_bind h
      obtain ⟨hrest, hdigits⟩ := digits_ok hds
      extract_lets jp at hbehind
      split at hbehind
      case isTrue => nomatch hbehind
      case isFalse hempty =>
          obtain ⟨x, hx⟩ := skipExponent?_ok hbehind
          refine ⟨some ⟨ds, fun hnil => hempty (hnil ▸ rfl), hdigits⟩, x, ?_⟩
          rw [rest_of_head? hhead, hrest, hx]
          rfl
  case h_2 =>
      obtain ⟨x, hx⟩ := skipExponent?_ok h
      exact ⟨none, x, hx⟩

theorem skipUnsigned_ok (h : skipUnsigned k = .ok (u, l)) :
    ∃ n : Numeral, k.rest = n.whole.val ++ (n.tail ++ l.rest) := by
  rw [skipUnsigned, peek_bind] at h
  generalize hhead : k.rest.head? = c at h
  split at h
  case h_1 =>
      rw [pass_bind, peek_bind] at h
      split at h
      case isTrue => cases h
      case isFalse =>
          obtain ⟨fraction, exponent, hrest⟩ := skipTail_ok h
          have hleading : ∀ ds, ['0'] = '0' :: ds → ds = [] := fun _ hds => (List.cons.inj hds).2.symm
          refine ⟨⟨false, ⟨['0'], singleton_digits rfl⟩, fraction, exponent, hleading⟩, ?_⟩
          rw [rest_of_head? hhead, hrest, Numeral.tail, List.append_assoc]
          rfl
  case h_2 hzero =>
      obtain ⟨ds, k', hds, hbehind⟩ := ok_of_bind h
      obtain ⟨hrest, hdigits⟩ := digits_ok hds
      extract_lets jp at hbehind
      split at hbehind
      case isTrue => cases hbehind
      case isFalse hempty =>
          obtain ⟨fraction, exponent, hbehind⟩ := skipTail_ok hbehind
          have hleading : ∀ ds', ds = '0' :: ds' → ds' = [] := by
            intro ds' h0
            exact (hzero (hhead.symm.trans (by rw [hrest, h0]; rfl))).elim
          refine ⟨⟨false, ⟨ds, fun hnil => hempty (hnil ▸ rfl), hdigits⟩, fraction, exponent, hleading⟩, ?_⟩
          rw [hrest, hbehind, Numeral.tail, List.append_assoc]

theorem sign_ok {b : Bool} (h : sign k = .ok (b, l)) : k.rest = (if b then ['-'] else []) ++ l.rest := by
  rw [sign, peek_bind] at h
  split at h
  case isTrue hhead =>
      cases h
      exact rest_of_head? hhead
  case isFalse =>
      cases h
      rfl

theorem skipNumber_ok (h : skipNumber k = .ok (u, l)) : ∃ n : Numeral, k.rest = n.text ++ l.rest := by
  rw [skipNumber_eq] at h
  obtain ⟨b, k', hsign, hunsigned⟩ := ok_of_bind h
  obtain ⟨n, hn⟩ := skipUnsigned_ok hunsigned
  refine ⟨{ n with negative := b }, ?_⟩
  rw [sign_ok hsign, hn, Numeral.text, List.append_assoc, List.append_assoc]
  rfl

/-! Values that are skipped. -/

theorem laidOut_token {t blanks : List Char} {k' : Cursor} (hblank : Blank blanks) (hrest : k.rest = blanks ++ k'.rest)
    (ht : k'.rest = t ++ l.rest) : LaidOut [t] k.rest l.rest :=
  laidOut_singleton.mpr ⟨blanks, hblank, by rw [hrest, ht]⟩

theorem laidOut_passed {c : Char} {blanks : List Char} {k' : Cursor} (hblank : Blank blanks)
    (hrest : k.rest = blanks ++ k'.rest) (hc : k'.rest.head? = some c) : LaidOut [[c]] k.rest k'.advance.rest :=
  laidOut_token hblank hrest (rest_of_head? hc)

theorem laidOut_string {ps : List StringPart} {blanks : List Char} {k' : Cursor} (hblank : Blank blanks)
    (hrest : k.rest = blanks ++ k'.rest) (hquote : k'.rest.head? = some '"')
    (hps : k'.advance.rest = bodyText ps ++ '"' :: l.rest) : LaidOut [stringToken ps] k.rest l.rest :=
  laidOut_token hblank hrest (by rw [rest_of_head? hquote, hps, stringToken_append])

theorem skipKey_ok (h : skipKey k = .ok (u, l)) :
    ∃ name middle, LaidOut [stringToken name] k.rest middle ∧ LaidOut [[':']] middle l.rest := by
  rw [skipKey] at h
  obtain ⟨blanks, k', hblank, hrest, h⟩ := peekToken_bind_ok h
  extract_lets jp at h
  generalize hhead : k'.rest.head? = c at h
  split at h
  case h_2 | h_3 => nomatch h
  case h_1 =>
      rw [pass_bind] at h
      obtain ⟨_, k'', hstring, h⟩ := ok_of_bind h
      obtain ⟨ps, hps⟩ := skipString_ok hstring
      obtain ⟨blanks', m, hblank', hrest', h⟩ := peekToken_bind_ok h
      generalize hhead' : m.rest.head? = c' at h
      split at h
      case h_2 | h_3 => nomatch h
      case h_1 =>
          have hcolon := laidOut_passed hblank' hrest' hhead'
          exact ⟨ps, k''.rest, laidOut_string hblank hrest hhead hps, pass_ok h ▸ hcolon⟩

mutual

/-- Whatever is skipped as a value is one. -/
theorem skipValueAt_ok : ∀ (n : Nat) {k l : Cursor} {u : Unit}, skipValueAt n k = .ok (u, l) →
    ∃ v : Wording, LaidOut v.tokens k.rest l.rest
  | 0, _, _, _, h => nomatch h
  | n + 1, k, l, _, h => by
      rw [skipValueAt] at h
      obtain ⟨blanks, k', hblank, hrest, h⟩ := peekToken_bind_ok h
      generalize hhead : k'.rest.head? = c at h
      split at h
      case h_1 => nomatch h
      case h_2 => exact ⟨.null, laidOut_token hblank hrest (word_ok h)⟩
      case h_3 => exact ⟨.boolean true, laidOut_token hblank hrest (word_ok h)⟩
      case h_4 => exact ⟨.boolean false, laidOut_token hblank hrest (word_ok h)⟩
      case h_5 =>
          obtain ⟨ps, hps⟩ := skipString_ok h
          exact ⟨.string ps, laidOut_string hblank hrest hhead hps⟩
      case h_6 =>
          have hopen := laidOut_passed hblank hrest hhead
          rw [pass_bind] at h
          obtain ⟨blanks', k'', hblank', hrest', h⟩ := peekToken_bind_ok h
          generalize hhead' : k''.rest.head? = c' at h
          split at h
          case h_1 => nomatch h
          case h_2 => exact ⟨.list [], hopen.append (pass_ok h ▸ laidOut_passed hblank' hrest' hhead')⟩
          case h_3 =>
              obtain ⟨e, es, hes⟩ := skipElementsAt_ok n h
              exact ⟨.list (e :: es), hopen.append (hrest' ▸ hes.behind_blanks (by simp) hblank')⟩
      case h_7 =>
          have hopen := laidOut_passed hblank hrest hhead
          rw [pass_bind] at h
          obtain ⟨blanks', k'', hblank', hrest', h⟩ := peekToken_bind_ok h
          generalize hhead' : k''.rest.head? = c' at h
          split at h
          case h_1 => nomatch h
          case h_2 => exact ⟨.object [], hopen.append (pass_ok h ▸ laidOut_passed hblank' hrest' hhead')⟩
          case h_3 =>
              obtain ⟨m, ms, hms⟩ := skipMembersAt_ok n h
              exact ⟨.object (m :: ms), hopen.append (hrest' ▸ hms.behind_blanks (by simp) hblank')⟩
      case h_8 =>
          split at h
          case isFalse => nomatch h
          case isTrue =>
              obtain ⟨m, hm⟩ := skipNumber_ok h
              exact ⟨.number m, laidOut_token hblank hrest hm⟩

theorem skipElementsAt_ok : ∀ (n : Nat) {k l : Cursor} {u : Unit}, skipElementsAt n k = .ok (u, l) →
    ∃ e es, LaidOut (elementTokens true (e :: es) ++ [[']']]) k.rest l.rest
  | 0, _, _, _, h => nomatch h
  | n + 1, k, l, _, h => by
      rw [skipElementsAt] at h
      obtain ⟨_, k', hvalue, h⟩ := ok_of_bind h
      obtain ⟨e, he⟩ := skipValueAt_ok n hvalue
      obtain ⟨blanks, k'', hblank, hrest, h⟩ := peekToken_bind_ok h
      generalize hhead : k''.rest.head? = c at h
      split at h
      case h_1 | h_4 => nomatch h
      case h_2 =>
          obtain ⟨e', es, hes⟩ := skipElementsAt_ok n h
          exact ⟨e, e' :: es, .elements rfl he ((laidOut_passed hblank hrest hhead).append hes)⟩
      case h_3 => exact ⟨e, [], .elements rfl he (pass_ok h ▸ laidOut_passed hblank hrest hhead)⟩

theorem skipMembersAt_ok : ∀ (n : Nat) {k l : Cursor} {u : Unit}, skipMembersAt n k = .ok (u, l) →
    ∃ m ms, LaidOut (memberTokens true (m :: ms) ++ [['\x7d']]) k.rest l.rest
  | 0, _, _, _, h => nomatch h
  | n + 1, k, l, _, h => by
      rw [skipMembersAt] at h
      obtain ⟨_, k₁, hkey, h⟩ := ok_of_bind h
      obtain ⟨_, k₂, hvalue, h⟩ := ok_of_bind h
      obtain ⟨name, middle, hname, hcolon⟩ := skipKey_ok hkey
      obtain ⟨v, hv⟩ := skipValueAt_ok n hvalue
      obtain ⟨blanks, k₃, hblank, hrest, h⟩ := peekToken_bind_ok h
      generalize hhead : k₃.rest.head? = c at h
      split at h
      case h_1 | h_4 => nomatch h
      case h_2 =>
          obtain ⟨m, ms, hms⟩ := skipMembersAt_ok n h
          exact ⟨(name, v), m :: ms, .members hname (hcolon.append hv) ((laidOut_passed hblank hrest hhead).append hms)⟩
      case h_3 =>
          exact ⟨(name, v), [], .members hname (hcolon.append hv) (pass_ok h ▸ laidOut_passed hblank hrest hhead)⟩

end

/-! Values that are read. -/

theorem wrongType_not_ok {a : α} {expected : String} : wrongType expected k ≠ .ok (a, l) := by
  intro h
  obtain ⟨fault, hfault⟩ := refuses_wrongType (α := α) expected k.rest k.offset
  nomatch hfault.symm.trans h

theorem boolean_ok {b : Bool} (h : boolean k = .ok (b, l)) : ∃ v : Wording, LaidOut v.tokens k.rest l.rest := by
  obtain ⟨blanks, k', hblank, hrest, h⟩ := peekToken_bind_ok h
  generalize hhead : k'.rest.head? = c at h
  split at h
  case h_1 => nomatch h
  case h_2 =>
      obtain ⟨_, m, hword, h⟩ := ok_of_bind h
      cases h
      exact ⟨.boolean true, laidOut_token hblank hrest (word_ok hword)⟩
  case h_3 =>
      obtain ⟨_, m, hword, h⟩ := ok_of_bind h
      cases h
      exact ⟨.boolean false, laidOut_token hblank hrest (word_ok hword)⟩
  case h_4 => exact (wrongType_not_ok h).elim

theorem text_ok {s : String} (h : text k = .ok (s, l)) : ∃ v : Wording, LaidOut v.tokens k.rest l.rest := by
  obtain ⟨blanks, k', hblank, hrest, h⟩ := peekToken_bind_ok h
  generalize hhead : k'.rest.head? = c at h
  split at h
  case h_1 => nomatch h
  case h_2 =>
      rw [pass_bind] at h
      obtain ⟨ps, hps⟩ := string_ok h
      exact ⟨.string ps, laidOut_string hblank hrest hhead hps⟩
  case h_3 => exact (wrongType_not_ok h).elim

theorem wholeDigits_ok {ds : List Char} (h : wholeDigits k = .ok (ds, l)) :
    k.rest = ds ++ l.rest ∧ (ds ≠ [] ∧ ∀ d ∈ ds, isDigit d = true) ∧ ∀ ds', ds = '0' :: ds' → ds' = [] := by
  rw [wholeDigits, peek_bind] at h
  generalize hhead : k.rest.head? = c at h
  cases c with
  | none => cases h
  | some c =>
      dsimp only at h
      split at h
      case isTrue => cases h
      case isFalse hdigit =>
          split at h
          case isTrue hzero =>
              rw [pass_bind, peek_bind] at h
              have hds : ds = ['0'] ∧ l = k.advance := by
                generalize k.advance.rest.head? = d at h
                cases d with
                | none =>
                    cases h
                    exact ⟨rfl, rfl⟩
                | some d =>
                    dsimp only at h
                    split at h
                    case isTrue => cases h
                    case isFalse =>
                        cases h
                        exact ⟨rfl, rfl⟩
              obtain ⟨rfl, rfl⟩ := hds
              refine ⟨hzero ▸ rest_of_head? hhead, singleton_digits rfl, ?_⟩
              exact fun ds' hds' => (List.cons.inj hds').2.symm
          case isFalse hzero =>
              obtain ⟨hrest, hdigits⟩ := digits_ok h
              have hc : isDigit c = true := by simpa using hdigit
              have hds : ds = c :: k.advance.rest.takeWhile isDigit := by
                rw [← List.takeWhile_cons_of_pos hc, ← rest_of_head? hhead]
                exact (Prod.mk.inj (Except.ok.inj h)).1.symm
              refine ⟨hrest, ⟨hds ▸ List.cons_ne_nil _ _, hdigits⟩, fun ds' hds' => ?_⟩
              exact absurd (List.cons.inj (hds.symm.trans hds')).1 hzero

theorem NoInteger.ne_integer {r : Reader Number} (hr : NoInteger r) {n : Int} : r k ≠ .ok (.integer n, l) := by
  intro h
  obtain ⟨d, hd⟩ := hr _ _ _ h
  cases hd

theorem number_ok {n : Int} (h : number k = .ok (.integer n, l)) : ∃ m : Numeral, k.rest = m.text ++ l.rest := by
  rw [number_eq] at h
  obtain ⟨b, k₁, hsign, h⟩ := ok_of_bind h
  rw [unsignedNumber_eq] at h
  obtain ⟨ds, k₂, hwhole, h⟩ := ok_of_bind h
  obtain ⟨hrest, hdigits, hleading⟩ := wholeDigits_ok hwhole
  have hbehind : k₂ = l := by
    have h : behindSignificand b _ _ k₂ = .ok (.integer n, l) := h
    rw [behindSignificand, peek_bind] at h
    generalize k₂.rest.head? = c at h
    split at h
    case h_1 => exact absurd h (noInteger_fractionPart _ _ _).ne_integer
    case h_2 | h_3 => exact absurd h (noInteger_exponentPart _ _ _).ne_integer
    case h_4 =>
        split at h
        case isTrue => exact (Prod.mk.inj (Except.ok.inj h)).2
        case isFalse => exact absurd h (noInteger_scaledNumber _ _ _).ne_integer
  refine ⟨⟨b, ⟨ds, hdigits⟩, none, none, hleading⟩, ?_⟩
  rw [sign_ok hsign, hrest, hbehind, Numeral.text, List.append_assoc, List.append_assoc]
  rfl

theorem word32_ok {w : UInt32} (h : word32 k = .ok (w, l)) : ∃ v : Wording, LaidOut v.tokens k.rest l.rest := by
  obtain ⟨blanks, k', hblank, hrest, h⟩ := peekToken_bind_ok h
  generalize hhead : k'.rest.head? = c at h
  cases c with
  | none => nomatch h
  | some c =>
      dsimp only at h
      split at h
      case isFalse => exact (wrongType_not_ok h).elim
      case isTrue =>
          obtain ⟨x, m, hnumber, h⟩ := ok_of_bind h
          cases x with
          | double d => nomatch h
          | integer n =>
              dsimp only at h
              split at h
              case isFalse => nomatch h
              case isTrue =>
                  cases h
                  obtain ⟨numeral, hnumeral⟩ := number_ok hnumber
                  exact ⟨.number numeral, laidOut_token hblank hrest hnumeral⟩

/-! Members. -/

/-- Read the name of a member, behind the comma in front of it. -/
def nameToken : Reader (Option String) := do
  match ← peekToken with
  | some '"' => pass
  | some '\x7d' => failAhead .trailingComma
  | some _ => failAhead .keyMustBeString
  | none => failAhead .endInValue
  return some (← string)

theorem nameToken_ok {x : Option String} (h : nameToken k = .ok (x, l)) :
    x.isSome = true ∧ ∃ name, LaidOut [stringToken name] k.rest l.rest := by
  obtain ⟨blanks, k', hblank, hrest, h⟩ := peekToken_bind_ok h
  extract_lets jp at h
  generalize hhead : k'.rest.head? = c at h
  split at h
  case h_2 | h_3 | h_4 => nomatch h
  case h_1 =>
      rw [pass_bind] at h
      obtain ⟨s, m, hstring, h⟩ := ok_of_bind h
      obtain ⟨ps, hps⟩ := string_ok hstring
      cases h
      exact ⟨rfl, ps, laidOut_string hblank hrest hhead hps⟩

/-- Either the object ends here, or the name of another member has been read. -/
theorem memberName_ok {first : Bool} {x : Option String} (h : memberName first k = .ok (x, l)) :
    (x = none ∧ ∃ after, LaidOut [['\x7d']] k.rest after ∧ l.rest = '\x7d' :: after) ∨
      (x.isSome = true ∧ ∃ name, LaidOut ((if first then [] else [[',']]) ++ [stringToken name]) k.rest l.rest) := by
  obtain ⟨blanks, k', hblank, hrest, h⟩ := peekToken_bind_ok h
  generalize hhead : k'.rest.head? = c at h
  split at h
  case h_1 => cases h
  case h_2 =>
      obtain ⟨rfl, rfl⟩ := Prod.mk.inj (Except.ok.inj h)
      exact .inl ⟨rfl, k'.advance.rest, laidOut_passed hblank hrest hhead, rest_of_head? hhead⟩
  case h_3 =>
      right
      cases first with
      | true =>
          obtain ⟨hx, name, hname⟩ := nameToken_ok h
          exact ⟨hx, name, hrest ▸ hname.behind_blanks (List.cons_ne_nil _ _) hblank⟩
      | false =>
          extract_lets jp jp' at h
          split at h
          case isFalse hfirst => exact absurd rfl hfirst
          case isTrue =>
              split at h
              case isTrue => cases h
              case isFalse hcomma =>
                  obtain ⟨hx, name, hname⟩ := nameToken_ok (k := k'.advance) h
                  obtain rfl := not_ne_iff.mp hcomma
                  exact ⟨hx, name, (laidOut_passed hblank hrest hhead).append hname⟩

/-- A reader of members takes a colon and a value. -/
def ReadsMember {σ : Type} (member : σ → String → Reader σ) : Prop :=
  ∀ (s t : σ) (name : String) (k l : Cursor), member s name k = .ok (t, l) →
    ∃ v : Wording, LaidOut ([':'] :: v.tokens) k.rest l.rest

variable {σ : Type} {member : σ → String → Reader σ}

theorem membersAt_ok (hmember : ReadsMember member) : ∀ (n : Nat) {first : Bool} {s t : σ} {k l : Cursor},
    membersAt member n first s k = .ok (t, l) →
    ∃ ms after, LaidOut (memberTokens first ms ++ [['\x7d']]) k.rest after ∧ l.rest = '\x7d' :: after
  | 0, _, _, _, _, _, h => nomatch h
  | n + 1, first, s, t, k, l, h => by
      rw [membersAt] at h
      obtain ⟨x, k₁, hname, h⟩ := ok_of_bind h
      rcases memberName_ok hname with ⟨rfl, after, hafter, hrest⟩ | ⟨hx, name, hworded⟩
      case inl =>
          cases h
          exact ⟨[], after, hafter, hrest⟩
      case inr =>
          obtain ⟨y, rfl⟩ := Option.isSome_iff_exists.mp hx
          obtain ⟨s', k₂, hvalue, h⟩ := ok_of_bind h
          obtain ⟨v, hv⟩ := hmember _ _ _ _ _ hvalue
          obtain ⟨ms, after, hms, hrest⟩ := membersAt_ok hmember n h
          exact ⟨(name, v) :: ms, after, .members hworded hv hms, hrest⟩

theorem members_ok (hmember : ReadsMember member) {s t : σ} (h : members member s k = .ok (t, l)) :
    ∃ ms after, LaidOut (memberTokens true ms ++ [['\x7d']]) k.rest after ∧ l.rest = '\x7d' :: after :=
  membersAt_ok hmember (k.rest.length + 1) h

theorem colon_ok (h : colon k = .ok (u, l)) : LaidOut [[':']] k.rest l.rest := by
  obtain ⟨blanks, k', hblank, hrest, h⟩ := peekToken_bind_ok h
  generalize hhead : k'.rest.head? = c at h
  split at h
  case h_2 | h_3 => nomatch h
  case h_1 => exact pass_ok h ▸ laidOut_passed hblank hrest hhead

theorem once_ok {name : String} {prior x : Option α} {value : Reader α}
    (hvalue : ∀ {a : α} {k l : Cursor}, value k = .ok (a, l) → ∃ v : Wording, LaidOut v.tokens k.rest l.rest)
    (h : once name prior value k = .ok (x, l)) : ∃ v : Wording, LaidOut ([':'] :: v.tokens) k.rest l.rest := by
  cases prior with
  | some a => nomatch h
  | none =>
      obtain ⟨_, k₁, hcolon, h⟩ := ok_of_bind (r := colon) h
      obtain ⟨a, k₂, hvalue', h⟩ := ok_of_bind h
      cases h
      obtain ⟨v, hv⟩ := hvalue hvalue'
      exact ⟨v, (colon_ok hcolon).append hv⟩

theorem foreign_ok {s t : σ} (h : (do colon; skipValue; return s : Reader σ) k = .ok (t, l)) :
    ∃ v : Wording, LaidOut ([':'] :: v.tokens) k.rest l.rest := by
  obtain ⟨_, k₁, hcolon, h⟩ := ok_of_bind h
  obtain ⟨_, k₂, hskip, h⟩ := ok_of_bind h
  cases h
  obtain ⟨v, hv⟩ := skipValueAt_ok (2 * k₁.rest.length + 1) hskip
  exact ⟨v, (colon_ok hcolon).append hv⟩

/-! Lists. -/

theorem listEnd_ok (h : listEnd k = .ok (u, l)) : LaidOut [[']']] k.rest l.rest := by
  obtain ⟨blanks, k', hblank, hrest, h⟩ := peekToken_bind_ok h
  generalize hhead : k'.rest.head? = c at h
  split at h
  case h_1 => exact pass_ok h ▸ laidOut_passed hblank hrest hhead
  case h_2 =>
      rw [pass_bind] at h
      obtain ⟨blanks', k'', -, -, h⟩ := peekToken_bind_ok h
      generalize k''.rest.head? = c' at h
      split at h <;> nomatch h
  case h_3 | h_4 => nomatch h

theorem hasElement_ok {first b : Bool} (h : hasElement first k = .ok (b, l)) :
    ∃ blanks, Blank blanks ∧ LaidOut (if !first && b then [[',']] else []) k.rest (blanks ++ l.rest) := by
  obtain ⟨blanks, k', hblank, hrest, h⟩ := peekToken_bind_ok h
  generalize hhead : k'.rest.head? = c at h
  split at h
  case h_1 => nomatch h
  case h_2 =>
      cases h
      exact ⟨blanks, hblank, by rw [Bool.and_false]; exact hrest⟩
  case h_3 =>
      cases first with
      | true =>
          cases h
          exact ⟨blanks, hblank, hrest⟩
      | false =>
          rw [if_neg Bool.false_ne_true, pass_bind] at h
          obtain ⟨blanks', k'', hblank', hrest', h⟩ := peekToken_bind_ok h
          generalize k''.rest.head? = c' at h
          split at h
          case h_1 | h_3 => nomatch h
          case h_2 =>
              cases h
              exact ⟨blanks', hblank', hrest' ▸ laidOut_passed hblank hrest hhead⟩
  case h_4 =>
      cases first with
      | true =>
          cases h
          exact ⟨blanks, hblank, hrest⟩
      | false => nomatch h

theorem laidOut_element {first : Bool} {k' : Cursor} {e : Wording} {es : List Wording} {behind after : List Char}
    (h : hasElement first k = .ok (true, k')) (hvalue : LaidOut e.tokens k'.rest behind)
    (hes : LaidOut (elementTokens false es ++ [[']']]) behind after) :
    LaidOut (elementTokens first (e :: es) ++ [[']']]) k.rest after := by
  obtain ⟨blanks, hblank, hcomma⟩ := hasElement_ok h
  obtain ⟨c, cs, ts, hts, -⟩ := exists_cons_tokens e
  refine .elements ?_ (hvalue.behind_blanks (hts ▸ List.cons_ne_nil _ _) hblank) hes
  cases first <;> exact hcomma

theorem laidOut_noElement {first : Bool} {k' : Cursor} {after : List Char} (h : hasElement first k = .ok (false, k'))
    (hend : LaidOut [[']']] k'.rest after) : LaidOut [[']']] k.rest after := by
  obtain ⟨blanks, hblank, hrest⟩ := hasElement_ok h
  rw [Bool.and_false] at hrest
  exact (show k.rest = blanks ++ k'.rest from hrest) ▸ hend.behind_blanks (List.cons_ne_nil _ _) hblank

/-! Records. -/

/-- A value is read as a record if it is an object or a list. -/
theorem record_ok {expected : String} {ofObject ofList : Reader α} {a : α}
    (hobject : ∀ {k l : Cursor} {a : α}, ofObject k = .ok (a, l) →
      ∃ ms after, LaidOut (memberTokens true ms ++ [['\x7d']]) k.rest after ∧ l.rest = '\x7d' :: after)
    (hlist : ∀ {k l : Cursor} {a : α}, (do let a ← ofList; listEnd; return a) k = .ok (a, l) →
      ∃ es, LaidOut (elementTokens true es ++ [[']']]) k.rest l.rest)
    (h : record expected ofObject ofList k = .ok (a, l)) : ∃ v : Wording, LaidOut v.tokens k.rest l.rest := by
  obtain ⟨blanks, k', hblank, hrest, h⟩ := peekToken_bind_ok h
  generalize hhead : k'.rest.head? = c at h
  split at h
  case h_1 => nomatch h
  case h_2 =>
      have hopen := laidOut_passed hblank hrest hhead
      rw [pass_bind] at h
      obtain ⟨a', k₁, hobject', h⟩ := ok_of_bind h
      obtain ⟨ms, after, hms, hafter⟩ := hobject hobject'
      cases h
      exact ⟨.object ms, hopen.append ((advance_rest hafter).symm ▸ hms)⟩
  case h_3 =>
      have hopen := laidOut_passed hblank hrest hhead
      rw [pass_bind] at h
      obtain ⟨es, hes⟩ := hlist h
      exact ⟨.list es, hopen.append hes⟩
  case h_4 => exact (wrongType_not_ok h).elim

/-- A text is of an object if its first token opens one. -/
theorem exists_object {v : Wording} {before after : List Char} (h : LaidOut v.tokens before after)
    (hopen : (before.dropWhile isSpace).head? = some '\x7b') : ∃ ms, v = .object ms := by
  have hfirst : ∀ {blanks cs : List Char} {c : Char}, Blank blanks → before = blanks ++ c :: cs →
      isSpace c = false → c = '\x7b' := by
    intro blanks cs c hblank hbefore hspace
    rw [hbefore, List.dropWhile_append_of_pos hblank,
      List.dropWhile_cons_of_neg (Bool.eq_false_iff.mp hspace)] at hopen
    exact Option.some.inj hopen
  cases v with
  | object ms => exact ⟨ms, rfl⟩
  | number n =>
      obtain ⟨blanks, c, cs, hblank, hbefore, -, hspace, hc⟩ := exists_number_token h
      rw [hfirst hblank hbefore hspace] at hc
      exact absurd hc (by decide)
  | boolean b =>
      obtain ⟨blanks, _, hblank, hbefore, -⟩ := h
      cases b <;> exact absurd (hfirst hblank hbefore (by decide)) (by decide)
  | null | string | list =>
      obtain ⟨blanks, _, hblank, hbefore, -⟩ := h
      exact absurd (hfirst hblank hbefore (by decide)) (by decide)

end Reader

end SqlCompose.Json
