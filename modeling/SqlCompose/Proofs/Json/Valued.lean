import SqlCompose.Proofs.Json.Skipping

/-!
What the readers of single values make of a wording. A reader takes every text of a value, or it refuses every
one of them: neither the layout of a text nor its place in a file decides which. So each reader is described by a
partial function on wordings.
-/

namespace SqlCompose.Json

/-- The number that the digits in front of the point and of the exponent make up. -/
def Numeral.value (n : Numeral) : Nat := Nat.ofDigitChars 10 n.whole.val 0

/-- The whole number of 32 bits that a number is, if it has no sign, point or exponent. -/
def Numeral.word? (n : Numeral) : Option UInt32 :=
  if n.negative = false ∧ n.tail = [] ∧ n.value < 0x100000000 then some n.value.toUInt32 else none

namespace Wording

/-- The truth value that a value is. -/
def boolean? : Wording → Option Bool
  | boolean b => some b
  | _ => none

/-- The string that a value is. -/
def text? : Wording → Option String
  | string ps => stringValue? ps
  | _ => none

/-- The whole number of 32 bits that a value is. -/
def word32? : Wording → Option UInt32
  | number n => n.word?
  | _ => none

end Wording

namespace Reader

variable {α β : Type} {r : Reader α} {f : α → Reader β} {a : α} {x : Option α} {y : Option β}
  {before middle after rest : List Char}

/-- A reader fails on a text, whatever the number of bytes that stand before. -/
def Refuses (r : Reader α) (before : List Char) : Prop := ∀ n, ∃ fault, r ⟨before, n⟩ = .error fault

/-- A reader takes the front of a text if there is a value for it, and fails on the text otherwise. -/
def Yields (r : Reader α) (before after : List Char) : Option α → Prop
  | some a => Takes r before after a
  | none => Refuses r before

/-! Readers one after the other. -/

theorem Refuses.bind (h : Refuses r before) (f : α → Reader β) : Refuses (r >>= f) before := by
  intro n
  obtain ⟨fault, hfault⟩ := h n
  refine ⟨fault, ?_⟩
  show (r ⟨before, n⟩ >>= fun x => f x.1 x.2) = _
  rw [hfault]
  rfl

/-- A reader that ends in a failure fails, whatever comes first. -/
theorem refuses_bind (h : ∀ a cs, Refuses (f a) cs) (before : List Char) : Refuses (r >>= f) before := by
  intro n
  show ∃ fault, (r ⟨before, n⟩ >>= fun x => f x.1 x.2) = .error fault
  cases r ⟨before, n⟩ with
  | error fault => exact ⟨fault, rfl⟩
  | ok x => exact h x.1 x.2.rest x.2.offset

theorem refuses_failHere (flaw : Flaw) (before : List Char) : Refuses (failHere flaw : Reader α) before :=
  fun _ => ⟨_, rfl⟩

theorem refuses_failAhead (flaw : Flaw) (before : List Char) : Refuses (failAhead flaw : Reader α) before :=
  fun _ => ⟨_, rfl⟩

theorem Takes.yields (hr : Takes r before middle a) (hf : Yields (f a) middle after y) :
    Yields (r >>= f) before after y := by
  cases y with
  | some b => exact hr.bind hf
  | none =>
      intro n
      obtain ⟨m, hm⟩ := hr n
      obtain ⟨fault, hfault⟩ := hf m
      refine ⟨fault, ?_⟩
      show (r ⟨before, n⟩ >>= fun x => f x.1 x.2) = _
      rw [hm]
      exact hfault

theorem Yields.bind {g : α → Option β} (hr : Yields r before middle x)
    (hf : ∀ a, Yields (f a) middle after (g a)) : Yields (r >>= f) before after (x.bind g) := by
  cases x with
  | some a => exact Takes.yields hr (hf a)
  | none => exact Refuses.bind hr f

theorem Yields.map {g : α → β} (hr : Yields r before after x) :
    Yields (r >>= fun a => pure (g a)) before after (x.map g) := by
  cases x with
  | some a => exact Takes.map hr
  | none => exact Refuses.bind hr _

theorem yields_token {blanks : List Char} (hblank : Blank blanks) {c : Char} (hc : isSpace c = false)
    {cs : List Char} {g : Option Char → Reader β} (h : Yields (g (some c)) (c :: cs) after y) :
    Yields (peekToken >>= g) (blanks ++ c :: cs) after y := by
  have hhead : ∀ d ∈ (c :: cs).head?, isSpace d = false := fun _ hd => Option.some.inj hd ▸ hc
  exact (takes_peekToken hblank hhead).yields h

theorem refuses_token {blanks : List Char} (hblank : Blank blanks) {c : Char} (hc : isSpace c = false)
    {cs : List Char} {g : Option Char → Reader β} (h : Refuses (g (some c)) (c :: cs)) :
    Refuses (peekToken >>= g) (blanks ++ c :: cs) :=
  yields_token hblank hc (show Yields (g (some c)) (c :: cs) [] none from h)

theorem refuses_wrongType (expected : String) (before : List Char) :
    Refuses (wrongType expected : Reader α) before := by
  have hfail : ∀ (found : Found) (cs : List Char), Refuses (failHere (.wrongType found expected) : Reader α) cs :=
    fun _ cs => refuses_failHere _ cs
  refine refuses_bind (fun c cs => ?_) before
  split
  case h_1 | h_2 | h_3 => exact refuses_bind (fun _ => hfail _) cs
  case h_4 => exact refuses_bind (fun _ => refuses_bind fun _ => hfail _) cs
  case h_5 | h_6 => exact hfail _ cs
  case h_7 =>
      split
      · exact refuses_bind (fun _ => hfail _) cs
      · exact refuses_failAhead _ cs
  case h_8 => exact refuses_failAhead _ cs

/-! Strings. -/

/-- Read the characters of a string, with the reading of it at any point. -/
def chars (state : StringState) : Reader (List Char) := fun k => stringChars state k.rest k.offset

/-- What is read of a string behind a character of it. -/
theorem yields_chars_cons {state : StringState} {c : Char} {s : Option (List Char)}
    (hstep : ∀ n, ∃ m, stringChars state before n = (stringChars .plain middle m).map fun (s, k) => (c :: s, k))
    (h : Yields (chars .plain) middle after s) : Yields (chars state) before after (s.map (c :: ·)) := by
  cases s with
  | some s =>
      intro n
      obtain ⟨m, hm⟩ := hstep n
      obtain ⟨l, hl⟩ := h m
      exact ⟨l, hm.trans (congrArg (Except.map fun (s, k) => (c :: s, k)) hl)⟩
  | none =>
      intro n
      obtain ⟨m, hm⟩ := hstep n
      obtain ⟨fault, hfault⟩ := h m
      exact ⟨fault, hm.trans (congrArg (Except.map fun (s, k) => (c :: s, k)) hfault)⟩

theorem stringChars_unit (leading : Option Nat) (a b c d : HexDigit) (rest : List Char) (n : Nat) :
    stringChars (.hex leading 4 0) (a.val :: b.val :: c.val :: d.val :: rest) n =
      match ofCodeUnit leading (StringPart.codeUnit a b c d) with
      | .error flaw => .error ⟨flaw, n + 4⟩
      | .ok (.inr state) => stringChars state rest (n + 4)
      | .ok (.inl x) => (stringChars .plain rest (n + 4)).map fun (s, k) => (x :: s, k) := by
  have hvalue : ∀ d : HexDigit, hexValue? d.val = some d.value := fun d => (Option.some_get d.property).symm
  rw [stringChars, hvalue]
  show stringChars (.hex leading 3 (16 * 0 + a.value)) (b.val :: c.val :: d.val :: rest) (n + 1) = _
  rw [stringChars, hvalue]
  show stringChars (.hex leading 2 _) (c.val :: d.val :: rest) (n + 2) = _
  rw [stringChars, hvalue]
  show stringChars (.hex leading 1 _) (d.val :: rest) (n + 3) = _
  rw [stringChars, hvalue]
  dsimp only
  rw [if_neg (by decide), StringPart.codeUnit, Nat.mul_zero, Nat.zero_add]
  rfl

theorem stringChars_plain_unit (a b c d : HexDigit) (rest : List Char) (n : Nat) :
    stringChars .plain ((StringPart.unit a b c d).text ++ rest) n
      = stringChars (.hex none 4 0) (a.val :: b.val :: c.val :: d.val :: rest) (n + 2) := rfl

theorem stringChars_surrogate_unit (l : Nat) (a b c d : HexDigit) (rest : List Char) (n : Nat) :
    stringChars (.surrogate l) ((StringPart.unit a b c d).text ++ rest) n
      = stringChars (.hex (some l) 4 0) (a.val :: b.val :: c.val :: d.val :: rest) (n + 2) := rfl

theorem ofCodeUnit_inr {leading : Option Nat} {n : Nat} {state : StringState}
    (h : ofCodeUnit leading n = .ok (.inr state)) : leading = none ∧ state = .surrogate n := by
  rw [ofCodeUnit.eq_def] at h
  cases leading with
  | none =>
      dsimp only at h
      split_ifs at h
      case pos =>
          cases h
          exact ⟨rfl, rfl⟩
      case neg => cases h
  | some l =>
      dsimp only at h
      split_ifs at h
      cases h

/-- A leading surrogate needs another code unit behind it. -/
theorem refuses_chars_surrogate (l : Nat) {ps : List StringPart}
    (h : ∀ a b c d qs, ps ≠ StringPart.unit a b c d :: qs) (rest : List Char) :
    Refuses (chars (.surrogate l)) (bodyText ps ++ '"' :: rest) := by
  intro n
  match ps with
  | [] => exact ⟨_, rfl⟩
  | .plain c hc :: ps =>
      refine ⟨⟨.unfinishedSurrogates, n + 1⟩, ?_⟩
      show stringChars (.surrogate l) (c :: _) n = _
      rw [stringChars, if_neg hc.2.1]
  | .escape c hc :: ps =>
      have hunit : c ≠ 'u' := fun hu => by
        subst hu
        exact absurd hc (by decide)
      refine ⟨⟨.unfinishedSurrogates, n + 1 + 1⟩, ?_⟩
      show stringChars (.surrogateEscape l) (c :: _) (n + 1) = _
      rw [stringChars, if_neg hunit]
  | .unit a b c d :: ps => exact absurd rfl (h a b c d ps)

theorem bodyText_cons (p : StringPart) (ps : List StringPart) (rest : List Char) :
    bodyText (p :: ps) ++ rest = p.text ++ (bodyText ps ++ rest) := by
  rw [bodyText, List.flatMap_cons, List.append_assoc, ← bodyText]

theorem yields_chars (ps : List StringPart) (rest : List Char) :
    Yields (chars .plain) (bodyText ps ++ '"' :: rest) rest (StringPart.decode ps) := by
  fun_induction StringPart.decode ps with
  | case1 => exact fun n => ⟨n + 1, rfl⟩
  | case2 c h ps ih =>
      refine yields_chars_cons (fun n => ⟨n + c.utf8Size, ?_⟩) ih
      rw [bodyText_cons, StringPart.text, List.singleton_append, stringChars, if_neg h.1, if_neg h.2.1,
        if_neg h.2.2]
      rfl
  | case3 c h ps ih =>
      obtain ⟨x, hx⟩ := Option.isSome_iff_exists.mp h
      rw [Option.get_of_eq_some h hx]
      refine yields_chars_cons (fun n => ⟨n + 2, ?_⟩) ih
      rw [bodyText_cons]
      show stringChars .escape (c :: _) (n + 1) = _
      rw [stringChars, hx]
      rfl
  | case4 a b c d ps flaw hunit =>
      refine fun n => ⟨⟨flaw, n + 2 + 4⟩, ?_⟩
      rw [bodyText_cons]
      show stringChars .plain _ n = _
      rw [stringChars_plain_unit, stringChars_unit, hunit]
  | case5 a b c d ps x hunit ih =>
      refine yields_chars_cons (fun n => ⟨n + 2 + 4, ?_⟩) ih
      rw [bodyText_cons, stringChars_plain_unit, stringChars_unit, hunit]
  | case6 a b c d state hunit a' b' c' d' ps x hpair ih =>
      obtain ⟨-, rfl⟩ := ofCodeUnit_inr hunit
      refine yields_chars_cons (fun n => ⟨n + 2 + 4 + 2 + 4, ?_⟩) ih
      rw [bodyText_cons, bodyText_cons, stringChars_plain_unit, stringChars_unit, hunit]
      dsimp only
      rw [stringChars_surrogate_unit, stringChars_unit, hpair]
  | case7 a b c d state hunit a' b' c' d' ps hpair =>
      obtain ⟨-, rfl⟩ := ofCodeUnit_inr hunit
      intro n
      rw [bodyText_cons, bodyText_cons]
      show ∃ fault, stringChars .plain _ n = _
      rw [stringChars_plain_unit, stringChars_unit, hunit]
      dsimp only
      rw [stringChars_surrogate_unit, stringChars_unit]
      cases hsecond : ofCodeUnit (some (StringPart.codeUnit a b c d)) (StringPart.codeUnit a' b' c' d') with
      | error flaw => exact ⟨_, rfl⟩
      | ok out =>
          cases out with
          | inl x => exact absurd hsecond (hpair x)
          | inr state => cases (ofCodeUnit_inr hsecond).1
  | case8 a b c d ps state hunit hnext =>
      obtain ⟨-, rfl⟩ := ofCodeUnit_inr hunit
      intro n
      rw [bodyText_cons]
      show ∃ fault, stringChars .plain _ n = _
      rw [stringChars_plain_unit, stringChars_unit, hunit]
      exact refuses_chars_surrogate _ (fun a' b' c' d' qs h => hnext a' b' c' d' qs h) rest (n + 2 + 4)

theorem yields_string (ps : List StringPart) (rest : List Char) :
    Yields string (bodyText ps ++ '"' :: rest) rest (stringValue? ps) := (yields_chars ps rest).map

/-! Numbers. -/

theorem number_eq : number = sign >>= unsignedNumber := by
  rw [number, sign, bind_assoc]
  refine bind_congr fun c => ?_
  split_ifs <;> rfl

/-- A reader gives no integer. -/
def NoInteger (r : Reader Number) : Prop := ∀ k x k', r k = .ok (x, k') → ∃ d, x = .double d

theorem ok_of_bind {b : β} {k k' : Cursor} (h : (r >>= f) k = .ok (b, k')) :
    ∃ a l, r k = .ok (a, l) ∧ f a l = .ok (b, k') := by
  have h : (r k >>= fun x => f x.1 x.2) = .ok (b, k') := h
  cases hr : r k with
  | error fault =>
      rw [hr] at h
      nomatch h
  | ok x =>
      rw [hr] at h
      exact ⟨x.1, x.2, rfl, h⟩

theorem noInteger_bind {g : α → Reader Number} (h : ∀ a, NoInteger (g a)) : NoInteger (r >>= g) := by
  intro k x k' hx
  obtain ⟨a, l, -, hg⟩ := ok_of_bind hx
  exact h a l x k' hg

theorem noInteger_failHere (flaw : Flaw) : NoInteger (failHere flaw) := fun _ _ _ h => nomatch h

theorem noInteger_failAhead (flaw : Flaw) : NoInteger (failAhead flaw) := fun _ _ _ h => nomatch h

theorem noInteger_double (d : Double) : NoInteger (pure (.double d)) := by
  intro k x k' h
  cases h
  exact ⟨d, rfl⟩

theorem noInteger_scaledNumber (negative : Bool) (significand : Nat) (exponent : Int) :
    NoInteger (scaledNumber negative significand exponent) := by
  rw [scaledNumber]
  cases Number.scaled? significand exponent with
  | some d => exact noInteger_double _
  | none => exact noInteger_failHere _

theorem noInteger_exponentDigits (negative : Bool) (significand : Nat) (exponent : Int) (down : Bool) (first : Nat) :
    NoInteger (exponentDigits negative significand exponent down first) := by
  refine noInteger_bind fun k => noInteger_bind fun ds => ?_
  dsimp only
  split
  · exact noInteger_scaledNumber _ _ _
  · split
    · exact fun _ _ _ h => nomatch h
    · exact noInteger_double _

theorem noInteger_exponentPart (negative : Bool) (significand : Nat) (exponent : Int) :
    NoInteger (exponentPart negative significand exponent) := by
  refine noInteger_bind fun _ => noInteger_bind fun sign => ?_
  extract_lets behindSign
  have hbehind : ∀ down, NoInteger (behindSign down) := fun down => noInteger_bind fun c => by
    cases c with
    | none => exact noInteger_failHere _
    | some c =>
        dsimp only
        split_ifs
        · exact noInteger_bind fun _ => noInteger_exponentDigits _ _ _ _ _
        · exact noInteger_failAhead _
  split
  case h_1 | h_2 => exact noInteger_bind fun _ => noInteger_bind hbehind
  case h_3 => exact noInteger_bind hbehind

theorem noInteger_exponentPart? (negative : Bool) (significand : Nat) (exponent : Int) :
    NoInteger (exponentPart? negative significand exponent) := by
  refine noInteger_bind fun c => ?_
  split
  case h_1 | h_2 => exact noInteger_exponentPart _ _ _
  case h_3 => exact noInteger_scaledNumber _ _ _

theorem noInteger_fractionPart (negative : Bool) (significand : Nat) (exponent : Int) :
    NoInteger (fractionPart negative significand exponent) := by
  refine noInteger_bind fun _ => noInteger_bind fun ds => ?_
  split_ifs
  case pos =>
      refine noInteger_bind fun c => ?_
      cases c <;> exact noInteger_failAhead _
  case neg => exact noInteger_exponentPart? _ _ _

theorem refuses_noInteger {n : Reader Number} {g : Number → Reader β} (hn : NoInteger n)
    (hg : ∀ d cs, Refuses (g (.double d)) cs) (before : List Char) : Refuses (n >>= g) before := by
  intro m
  show ∃ fault, (n ⟨before, m⟩ >>= fun x => g x.1 x.2) = .error fault
  cases hx : n ⟨before, m⟩ with
  | error fault => exact ⟨fault, rfl⟩
  | ok x =>
      obtain ⟨y, l⟩ := x
      obtain ⟨d, rfl⟩ := hn _ _ _ hx
      exact hg d l.rest l.offset

/-- Make a whole number of 32 bits of a number that has been read. -/
def wordOf : Number → Reader UInt32
  | .integer n =>
    if 0 ≤ n ∧ n < 0x100000000 then return n.toNat.toUInt32
    else failHere (.wrongValue (.integer n) "u32")
  | .double x => failHere (.wrongType (.double x) "u32")

theorem refuses_wordOf_double (d : Double) (cs : List Char) : Refuses (wordOf (.double d)) cs :=
  refuses_failHere _ cs

/-- Digits that all fit into a significand make up the number as they stand. -/
theorem extend_left_eq_zero {limit : Nat} : ∀ {ds : List Char} {n m : Nat}, Number.extend limit n ds = (m, 0) →
    m = Nat.ofDigitChars 10 ds n
  | [], n, m, h => by
      rw [Nat.ofDigitChars_nil]
      exact (congrArg Prod.fst h).symm
  | d :: ds, n, m, h => by
      rw [Number.extend] at h
      split_ifs at h with hlimit
      · cases h
      · have hstep : n * 10 + digitValue d = 10 * n + (d.toNat - '0'.toNat) := by rw [digitValue, Nat.mul_comm]
        rw [Nat.ofDigitChars_cons, ← hstep]
        exact extend_left_eq_zero h

/-- Read what stands behind the digits of a number, of which a significand and the count of the other digits are
known. -/
def behindSignificand (negative : Bool) (n left : Nat) : Reader Number := do
  match ← peek with
  | some '.' => fractionPart negative n left
  | some 'e' | some 'E' => exponentPart negative n left
  | _ => if left = 0 then return wholeNumber negative n else scaledNumber negative n left

theorem yields_wholeNumber (negative : Bool) (n : Nat) (rest : List Char) :
    Yields (wordOf (wholeNumber negative n)) rest rest
      (if negative = false ∧ n < 0x100000000 then some n.toUInt32 else none) := by
  cases negative with
  | true =>
      rw [if_neg (fun h => nomatch h.1)]
      show Refuses (wordOf (if n = 0 ∨ Number.negativeLimit < n then _ else _)) rest
      split_ifs with hdouble
      · exact refuses_wordOf_double _ rest
      · have hbelow : ¬ ((0 : Int) ≤ -(n : Int) ∧ -(n : Int) < 0x100000000) := by omega
        show Refuses (if (0 : Int) ≤ -(n : Int) ∧ -(n : Int) < 0x100000000 then _ else _) rest
        rw [if_neg hbelow]
        exact refuses_failHere _ rest
  | false =>
      rw [wholeNumber, if_pos (by decide), wordOf]
      by_cases hn : n < 0x100000000
      case pos =>
          rw [if_pos (by omega), if_pos ⟨rfl, hn⟩]
          exact takes_pure _ rest
      case neg =>
          rw [if_neg (by omega), if_neg (fun h => hn h.2)]
          exact refuses_failHere _ rest

theorem yields_behindSignificand (negative : Bool) (n left : Nat) (h : EndsNumber rest) :
    Yields (behindSignificand negative n left >>= wordOf) rest rest
      (if negative = false ∧ left = 0 ∧ n < 0x100000000 then some n.toUInt32 else none) := by
  have hwhole : Yields ((if left = 0 then pure (wholeNumber negative n) else scaledNumber negative n left)
      >>= wordOf) rest rest (if negative = false ∧ left = 0 ∧ n < 0x100000000 then some n.toUInt32 else none) := by
    by_cases hleft : left = 0
    case pos =>
        rw [if_pos hleft, pure_bind]
        simpa only [hleft, true_and] using yields_wholeNumber negative n rest
    case neg =>
        rw [if_neg hleft, if_neg (fun h => hleft h.2.1)]
        exact refuses_noInteger (noInteger_scaledNumber _ _ _) refuses_wordOf_double rest
  rw [behindSignificand, bind_assoc]
  refine (takes_peek rest).yields ?_
  cases rest with
  | nil => exact hwhole
  | cons c cs =>
      obtain ⟨-, hpoint, hlower, hupper⟩ := h c rfl
      rw [List.head?_cons]
      split
      case h_1 heq => exact absurd (Option.some.inj heq) hpoint
      case h_2 heq => exact absurd (Option.some.inj heq) hlower
      case h_3 heq => exact absurd (Option.some.inj heq) hupper
      case h_4 => exact hwhole

theorem tail_cases (n : Numeral) :
    n.tail = [] ∨ ∃ c cs, n.tail = c :: cs ∧ (c = '.' ∨ c = 'e' ∨ c = 'E') := by
  rw [Numeral.tail]
  cases n.fraction with
  | some ds => exact .inr ⟨'.', _, rfl, .inl rfl⟩
  | none =>
      cases n.exponent with
      | some x => exact .inr ⟨x.letter, _, rfl, .inr x.letter_eq⟩
      | none => exact .inl rfl

theorem yields_behindDigits (n : Numeral) (h : EndsNumber rest) :
    Yields (behindDigits n.negative n.whole.val >>= wordOf) (n.tail ++ rest) rest n.word? := by
  show Yields (behindSignificand n.negative (Number.extend Number.significandLimit 0 n.whole.val).1
    (Number.extend Number.significandLimit 0 n.whole.val).2 >>= wordOf) _ _ _
  rcases tail_cases n with htail | ⟨c, cs, htail, hc⟩
  case inl =>
      have hword : n.word? = if n.negative = false ∧ n.value < 0x100000000 then some n.value.toUInt32 else none := by
        rw [Numeral.word?, htail]
        simp only [true_and]
      rw [htail, List.nil_append, hword]
      obtain ⟨m, left, hm⟩ : ∃ m left, Number.extend Number.significandLimit 0 n.whole.val = (m, left) := ⟨_, _, rfl⟩
      have hsame : (left = 0 ∧ m < 0x100000000) ∧ m = n.value ∨
          ¬ (left = 0 ∧ m < 0x100000000) ∧ ¬ n.value < 0x100000000 := by
        by_cases hlt : n.value < 0x100000000
        case pos =>
            have hlimit : n.value ≤ Number.significandLimit := Nat.le_trans (Nat.le_of_lt hlt) (by decide)
            have hvalue := extend_eq n.whole.val 0 hlimit
            obtain ⟨rfl, rfl⟩ := Prod.mk.inj (hm.symm.trans hvalue)
            exact .inl ⟨⟨rfl, hlt⟩, rfl⟩
        case neg =>
            refine .inr ⟨fun ⟨hleft, hsmall⟩ => hlt ?_, hlt⟩
            rw [Numeral.value, ← extend_left_eq_zero (hleft ▸ hm)]
            exact hsmall
      have hyields := yields_behindSignificand n.negative m left h
      rw [hm]
      rcases hsame with ⟨⟨rfl, hsmall⟩, rfl⟩ | ⟨hlarge, hlt⟩
      · simpa only [true_and] using hyields
      · rw [if_neg fun h => hlarge h.2] at hyields
        rw [if_neg fun h => hlt h.2]
        exact hyields
  case inr =>
      rw [Numeral.word?, htail, if_neg (fun h => nomatch h.2.1), behindSignificand, bind_assoc]
      refine (takes_peek _).yields (y := none) ?_
      rcases hc with rfl | rfl | rfl
      · exact refuses_noInteger (noInteger_fractionPart _ _ _) refuses_wordOf_double _
      · exact refuses_noInteger (noInteger_exponentPart _ _ _) refuses_wordOf_double _
      · exact refuses_noInteger (noInteger_exponentPart _ _ _) refuses_wordOf_double _

theorem yields_number (n : Numeral) (h : EndsNumber rest) :
    Yields (number >>= wordOf) (n.text ++ rest) rest n.word? := by
  rw [number_eq, bind_assoc]
  refine (takes_sign n rest).yields ?_
  rw [unsignedNumber_eq, bind_assoc]
  exact (takes_wholeDigits n.whole.property n.leading (noDigit_tail n h.noDigit)).yields (yields_behindDigits n h)

/-! Values. -/

theorem exists_number_token {n : Numeral} (h : LaidOut (Wording.number n).tokens before after) :
    ∃ blanks c cs, Blank blanks ∧ before = blanks ++ c :: cs ∧ n.text ++ after = c :: cs ∧ isSpace c = false ∧
      (c = '-' || isDigit c) = true := by
  obtain ⟨blanks, _, hblank, rfl, rfl⟩ := h
  obtain ⟨c, cs, hcs, hc⟩ := exists_cons_numeral n
  refine ⟨blanks, c, cs ++ _, hblank, by rw [hcs]; rfl, by rw [hcs]; rfl, ?_, hc⟩
  rcases Bool.or_eq_true_iff.mp hc with hsign | hdigit
  · rw [of_decide_eq_true hsign]
    rfl
  · exact isSpace_of_isDigit hdigit

theorem yields_boolean {v : Wording} (h : LaidOut v.tokens before after) : Yields boolean before after v.boolean? := by
  cases v with
  | boolean b =>
      obtain ⟨blanks, _, hblank, rfl, rfl⟩ := h
      cases b <;> exact takes_token hblank (by decide) ((takes_word _ _).bind (takes_pure _ _))
  | number n =>
      obtain ⟨blanks, c, cs, hblank, rfl, -, hspace, hc⟩ := exists_number_token h
      refine yields_token hblank hspace ?_
      split
      case h_1 heq => cases heq
      case h_2 heq | h_3 heq =>
          cases heq
          exact absurd hc (by decide)
      case h_4 => exact refuses_wrongType _ _
  | null | string | list | object =>
      obtain ⟨blanks, _, hblank, rfl, -⟩ := h
      exact yields_token hblank (by decide) (refuses_wrongType _ _)

theorem yields_text {v : Wording} (h : LaidOut v.tokens before after) : Yields text before after v.text? := by
  cases v with
  | string ps =>
      obtain ⟨blanks, _, hblank, rfl, rfl⟩ := h
      rw [stringToken_append]
      exact yields_token hblank (by decide) ((takes_pass _ _).yields (yields_string ps _))
  | number n =>
      obtain ⟨blanks, c, cs, hblank, rfl, -, hspace, hc⟩ := exists_number_token h
      refine yields_token hblank hspace ?_
      split
      case h_1 heq => cases heq
      case h_2 heq =>
          cases heq
          exact absurd hc (by decide)
      case h_3 => exact refuses_wrongType _ _
  | boolean b =>
      obtain ⟨blanks, _, hblank, rfl, -⟩ := h
      cases b <;> exact yields_token hblank (by decide) (refuses_wrongType _ _)
  | null | list | object =>
      obtain ⟨blanks, _, hblank, rfl, -⟩ := h
      exact yields_token hblank (by decide) (refuses_wrongType _ _)

theorem yields_word32 {v : Wording} (h : LaidOut v.tokens before after) (hafter : EndsNumber after) :
    Yields word32 before after v.word32? := by
  cases v with
  | number n =>
      obtain ⟨blanks, c, cs, hblank, rfl, htext, hspace, hc⟩ := exists_number_token h
      have hnumber := yields_number n hafter
      rw [htext] at hnumber
      refine yields_token hblank hspace ?_
      show Yields (if (c = '-' || isDigit c) = true then number >>= wordOf else _) _ _ _
      rw [if_pos hc]
      exact hnumber
  | boolean b =>
      obtain ⟨blanks, _, hblank, rfl, -⟩ := h
      cases b <;> exact yields_token hblank (by decide) (refuses_wrongType _ _)
  | null | string | list | object =>
      obtain ⟨blanks, _, hblank, rfl, -⟩ := h
      exact yields_token hblank (by decide) (refuses_wrongType _ _)

end Reader

end SqlCompose.Json
