import SqlCompose.Proofs.Json.Readers

/-!
How JSON values are worded. A wording keeps of a text what the rules of JSON leave to the writer, but for the
blanks: the digits of a number, the escapes of a string, the order of the members of an object. It is a list of
tokens, and a text of it is the tokens with any blanks in front of each. So two texts of one wording differ in
their layout only.
-/

namespace SqlCompose.Json

/-! Strings. -/

/-- A hexadecimal digit. -/
abbrev HexDigit := { c : Char // (hexValue? c).isSome = true }

/-- The number a hexadecimal digit stands for. -/
def HexDigit.value (d : HexDigit) : Nat := (hexValue? d.val).get d.property

/-- A character that can stand in a string as it is. -/
abbrev NeedsNoEscape (c : Char) : Prop := c ≠ '"' ∧ c ≠ '\\' ∧ ¬ c.toNat < 0x20

/-- What can stand between the quotes of a string: a character that needs no escape, a simple escape, or the
escape of a code unit. -/
inductive StringPart
  | plain (c : Char) (h : NeedsNoEscape c)
  | escape (c : Char) (h : (simpleEscape? c).isSome = true)
  | unit (a b c d : HexDigit)

namespace StringPart

/-- The characters of a part. -/
def text : StringPart → List Char
  | plain c _ => [c]
  | escape c _ => ['\\', c]
  | unit a b c d => ['\\', 'u', a.val, b.val, c.val, d.val]

/-- The code unit of four hexadecimal digits. -/
def codeUnit (a b c d : HexDigit) : Nat := 16 * (16 * (16 * a.value + b.value) + c.value) + d.value

/-- What a string stands for, if its surrogates come in pairs of a leading and a trailing one. -/
def decode : List StringPart → Option (List Char)
  | [] => some []
  | plain c _ :: ps => (decode ps).map (c :: ·)
  | escape c h :: ps => (decode ps).map ((simpleEscape? c).get h :: ·)
  | unit a b c d :: ps => match ofCodeUnit none (codeUnit a b c d) with
    | .error _ => none
    | .ok (.inl x) => (decode ps).map (x :: ·)
    | .ok (.inr _) => match ps with
      | unit a' b' c' d' :: ps =>
        match ofCodeUnit (some (codeUnit a b c d)) (codeUnit a' b' c' d') with
        | .ok (.inl x) => (decode ps).map (x :: ·)
        | _ => none
      | _ => none

end StringPart

/-- The characters of a string, from behind its opening quote up to its closing quote. -/
def bodyText (ps : List StringPart) : List Char := ps.flatMap StringPart.text

/-- A string between its quotes. -/
def stringToken (ps : List StringPart) : List Char := '"' :: (bodyText ps ++ ['"'])

theorem stringToken_append (ps : List StringPart) (rest : List Char) :
    stringToken ps ++ rest = '"' :: (bodyText ps ++ '"' :: rest) := by
  rw [stringToken, List.cons_append, List.append_assoc]
  rfl

/-- The string that some parts stand for, if they stand for one. -/
def stringValue? (ps : List StringPart) : Option String := (StringPart.decode ps).map String.ofList

theorem needsNoEscape_of_all {cs : List Char} (h : cs.all (fun c => decide (NeedsNoEscape c)) = true) :
    ∀ c ∈ cs, NeedsNoEscape c := fun c hc => of_decide_eq_true (List.all_eq_true.mp h c hc)

/-- A string that is written without escapes. -/
def unescaped (cs : List Char) (h : ∀ c ∈ cs, NeedsNoEscape c) : List StringPart := cs.pmap StringPart.plain h

theorem stringValue?_unescaped (cs : List Char) (h : ∀ c ∈ cs, NeedsNoEscape c) :
    stringValue? (unescaped cs h) = some (String.ofList cs) := by
  have hdecode : StringPart.decode (unescaped cs h) = some cs := by
    induction cs with
    | nil => rfl
    | cons c cs ih =>
        rw [unescaped, List.pmap_cons, StringPart.decode, ← unescaped, ih]
        rfl
  rw [stringValue?, hdecode, Option.map_some]

/-! Numbers. -/

/-- One or more decimal digits. -/
abbrev Digits := { ds : List Char // ds ≠ [] ∧ ∀ d ∈ ds, isDigit d = true }

theorem singleton_digits {d : Char} (h : isDigit d = true) : [d] ≠ [] ∧ ∀ c ∈ [d], isDigit c = true :=
  ⟨List.cons_ne_nil d [], List.forall_mem_singleton.mpr h⟩

/-- An exponent: its letter, its sign if there is one, and its digits. -/
structure Exponent where
  letter : Char
  sign : List Char
  digits : Digits
  letter_eq : letter = 'e' ∨ letter = 'E'
  sign_mem : sign = [] ∨ sign = ['+'] ∨ sign = ['-']

/-- A number. Only zero begins with a zero. -/
structure Numeral where
  negative : Bool
  whole : Digits
  fraction : Option Digits
  exponent : Option Exponent
  leading : ∀ ds, whole.val = '0' :: ds → ds = []

/-- The characters of an exponent. -/
def Exponent.text (x : Exponent) : List Char := x.letter :: (x.sign ++ x.digits.val)

namespace Numeral

/-- The characters of a fraction, from its point on. -/
def fractionText : Option Digits → List Char
  | none => []
  | some ds => '.' :: ds.val

/-- The characters of an exponent, if there is one. -/
def exponentText : Option Exponent → List Char
  | none => []
  | some x => x.text

/-- What stands behind the whole part of a number. -/
def tail (n : Numeral) : List Char := fractionText n.fraction ++ exponentText n.exponent

/-- The characters of a number. -/
def text (n : Numeral) : List Char := (if n.negative then ['-'] else []) ++ (n.whole.val ++ n.tail)

end Numeral

/-! Values. -/

/-- A value as it is worded. -/
inductive Wording
  | null
  | boolean (value : Bool)
  | number (numeral : Numeral)
  | string (parts : List StringPart)
  | list (elements : List Wording)
  | object (members : List (List StringPart × Wording))

/-- A member of an object: what stands between the quotes of its name, and its value. -/
abbrev Member := List StringPart × Wording

namespace Wording

mutual

/-- The tokens of a value. -/
def tokens : Wording → List (List Char)
  | null => [['n', 'u', 'l', 'l']]
  | boolean b => [if b then ['t', 'r', 'u', 'e'] else ['f', 'a', 'l', 's', 'e']]
  | number n => [n.text]
  | string ps => [stringToken ps]
  | list es => ['['] :: (elementTokens true es ++ [[']']])
  | object ms => ['\x7b'] :: (memberTokens true ms ++ [['\x7d']])

/-- The tokens of some elements of a list, the first of it or later ones. -/
def elementTokens : Bool → List Wording → List (List Char)
  | _, [] => []
  | first, e :: es => (if first then [] else [[',']]) ++ (e.tokens ++ elementTokens false es)

/-- The tokens of some members of an object, the first of it or later ones. -/
def memberTokens : Bool → List Member → List (List Char)
  | _, [] => []
  | first, (name, v) :: ms =>
    (if first then [] else [[',']]) ++ (stringToken name :: [':'] :: (v.tokens ++ memberTokens false ms))

end

end Wording

/-! Layout. -/

open Reader (Blank)

/-- Some characters begin with tokens, each behind any blanks, and others are left. -/
def LaidOut : List (List Char) → List Char → List Char → Prop
  | [], before, after => before = after
  | t :: ts, before, after => ∃ blanks rest, Blank blanks ∧ before = blanks ++ (t ++ rest) ∧ LaidOut ts rest after

/-- A text of a value: its tokens, and blanks in front of them, between them and behind them. -/
def Wording.HasText (v : Wording) (text : List Char) : Prop := ∃ blanks, Blank blanks ∧ LaidOut v.tokens text blanks

variable {ts us : List (List Char)} {before middle after : List Char}

theorem LaidOut.append (h : LaidOut ts before middle) (h' : LaidOut us middle after) :
    LaidOut (ts ++ us) before after := by
  induction ts generalizing before with
  | nil => exact h ▸ h'
  | cons t ts ih =>
      obtain ⟨blanks, rest, hblank, rfl, hrest⟩ := h
      exact ⟨blanks, rest, hblank, rfl, ih hrest⟩

theorem laidOut_append : LaidOut (ts ++ us) before after ↔
    ∃ middle, LaidOut ts before middle ∧ LaidOut us middle after := by
  refine ⟨fun h => ?_, fun ⟨_, h, h'⟩ => h.append h'⟩
  induction ts generalizing before with
  | nil => exact ⟨before, rfl, h⟩
  | cons t ts ih =>
      obtain ⟨blanks, rest, hblank, rfl, hrest⟩ := h
      obtain ⟨middle, hts, hus⟩ := ih hrest
      exact ⟨middle, ⟨blanks, rest, hblank, rfl, hts⟩, hus⟩

theorem laidOut_singleton {t : List Char} : LaidOut [t] before after ↔
    ∃ blanks, Blank blanks ∧ before = blanks ++ (t ++ after) :=
  ⟨fun ⟨blanks, _, hblank, hbefore, hrest⟩ => ⟨blanks, hblank, hrest ▸ hbefore⟩,
    fun ⟨blanks, hblank, hbefore⟩ => ⟨blanks, after, hblank, hbefore, rfl⟩⟩

/-- Every value has a text with the same blanks in front of each token. -/
theorem hasText_spaced {blanks : List Char} (hblank : Blank blanks) (v : Wording) :
    v.HasText (v.tokens.flatMap (blanks ++ ·)) := by
  have hall : ∀ ts : List (List Char), LaidOut ts (ts.flatMap (blanks ++ ·)) [] := by
    intro ts
    induction ts with
    | nil => rfl
    | cons t ts ih => exact ⟨blanks, _, hblank, List.append_assoc _ _ _, ih⟩
  exact ⟨[], Reader.blank_nil, hall v.tokens⟩

end SqlCompose.Json
