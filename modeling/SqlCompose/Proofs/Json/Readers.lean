import Mathlib.Tactic.SplitIfs
import SqlCompose.Config.Reader
import SqlCompose.Json.Writer

/-!
What the readers of a JSON text make of it. A reader takes the front of a text when it gives a value there
and leaves the rest, wherever the text stands in a file. Readers that follow each other take what stands
one behind the other, so the values of a text are read back part by part.
-/

namespace SqlCompose.Json

namespace Reader

variable {α β : Type} {r : Reader α} {f : α → Reader β} {a : α} {b : β} {before middle after : List Char}

/-- A reader takes the front of a text: it gives a value and stops at the rest, whatever the number of bytes
that stand before. -/
def Takes (r : Reader α) (before after : List Char) (a : α) : Prop :=
  ∀ n, ∃ m, r ⟨before, n⟩ = .ok (a, ⟨after, m⟩)

/-! Readers one after the other. -/

theorem Takes.bind (hr : Takes r before middle a) (hf : Takes (f a) middle after b) :
    Takes (r >>= f) before after b := by
  intro n
  obtain ⟨m, hm⟩ := hr n
  obtain ⟨l, hl⟩ := hf m
  refine ⟨l, ?_⟩
  show (r ⟨before, n⟩ >>= fun x => f x.1 x.2) = _
  rw [hm]
  exact hl

theorem takes_pure (a : α) (cs : List Char) : Takes (pure a) cs cs a := fun n => ⟨n, rfl⟩

theorem Takes.map {g : α → β} (hr : Takes r before after a) :
    Takes (r >>= fun x => pure (g x)) before after (g a) := hr.bind (takes_pure _ _)

theorem takes_peek (cs : List Char) : Takes peek cs cs cs.head? := fun n => ⟨n, rfl⟩

theorem takes_pass (c : Char) (cs : List Char) : Takes pass (c :: cs) cs () :=
  fun n => ⟨n + c.utf8Size, rfl⟩

theorem takes_word : ∀ (w rest : List Char), Takes (word w) (w ++ rest) rest ()
  | [], rest => takes_pure () rest
  | c :: cs, rest => by
      refine (takes_peek _).bind ?_
      show Takes (if c = c then _ else _) _ _ _
      rw [if_pos rfl]
      exact (takes_pass c _).bind (takes_word cs rest)

/-! Blanks in front of a token. -/

/-- Characters that stand between tokens. -/
def Blank (cs : List Char) : Prop := ∀ c ∈ cs, isSpace c = true

theorem blank_nil : Blank [] := fun _ h => nomatch h

theorem blank_singleton {c : Char} (h : isSpace c = true) : Blank [c] := List.forall_mem_singleton.mpr h

theorem skipSpaces_go : ∀ {blanks : List Char}, Blank blanks → ∀ {cs : List Char},
    (∀ c ∈ cs.head?, isSpace c = false) → ∀ n, ∃ m, Cursor.skipSpaces.go (blanks ++ cs) n = ⟨cs, m⟩
  | [], _, [], _, n => ⟨n, rfl⟩
  | [], _, c :: cs, h, n => ⟨n, by rw [List.nil_append, Cursor.skipSpaces.go, h c rfl]; rfl⟩
  | d :: blanks, hblank, cs, h, n => by
      rw [Blank, List.forall_mem_cons] at hblank
      obtain ⟨m, hm⟩ := skipSpaces_go hblank.2 h (n + 1)
      exact ⟨m, by rw [List.cons_append, Cursor.skipSpaces.go, if_pos hblank.1, hm]⟩

theorem takes_peekToken {blanks cs : List Char} (hblank : Blank blanks)
    (h : ∀ c ∈ cs.head?, isSpace c = false) : Takes peekToken (blanks ++ cs) cs cs.head? := by
  have hskip : Takes (modify Cursor.skipSpaces : Reader PUnit) (blanks ++ cs) cs () := by
    intro n
    obtain ⟨m, hm⟩ := skipSpaces_go hblank h n
    exact ⟨m, congrArg (fun k => Except.ok ((), k)) hm⟩
  exact hskip.bind (takes_peek cs)

/-- The next token is known. -/
theorem takes_token {blanks : List Char} (hblank : Blank blanks) {c : Char} (hc : isSpace c = false)
    {cs : List Char} {f : Option Char → Reader α} (h : Takes (f (some c)) (c :: cs) after a) :
    Takes (peekToken >>= f) (blanks ++ c :: cs) after a := by
  have hhead : ∀ d ∈ (c :: cs).head?, isSpace d = false := fun _ hd => Option.some.inj hd ▸ hc
  exact (takes_peekToken hblank hhead).bind h

/-! Strings. -/

theorem hexValue?_hexDigit {n : Nat} (h : n < 16) : hexValue? (hexDigit n) = some n := by
  have hall : ∀ n : Fin 16, hexValue? (hexDigit n) = some n.val := by decide +kernel
  exact hall ⟨n, h⟩

/-- A character is written as a simple escape, as a hexadecimal one, or as itself. -/
theorem escaped_cases (c : Char) : (∃ d, escaped c = ['\\', d] ∧ simpleEscape? d = some c)
    ∨ (c.toNat < 0x20 ∧
      escaped c = ['\\', 'u', '0', '0', hexDigit (c.toNat / 16), hexDigit (c.toNat % 16)])
    ∨ (c ≠ '"' ∧ c ≠ '\\' ∧ ¬ c.toNat < 0x20 ∧ escaped c = [c]) := by
  rw [escaped]
  split_ifs with hquote hbackslash h h h h h hcontrol
  iterate 7 exact .inl ⟨_, rfl, by subst c; rfl⟩
  · exact .inr (.inl ⟨hcontrol, rfl⟩)
  · exact .inr (.inr ⟨hquote, hbackslash, hcontrol, rfl⟩)

/-- Each character of a written string is read back. -/
theorem stringChars_escaped (c : Char) (rest : List Char) (n : Nat) : ∃ m,
    stringChars .plain (escaped c ++ rest) n
      = (stringChars .plain rest m).map fun (s, k) => (c :: s, k) := by
  rcases escaped_cases c with ⟨d, hd, hc⟩ | ⟨hcontrol, hc⟩ | ⟨hquote, hbackslash, hcontrol, hc⟩
  case inl =>
      refine ⟨n + 2, ?_⟩
      rw [hd]
      show stringChars .escape (d :: rest) (n + 1) = _
      rw [stringChars, hc]
      rfl
  case inr.inl =>
      have hupper := hexValue?_hexDigit (show c.toNat / 16 < 16 by omega)
      have hlower := hexValue?_hexDigit (show c.toNat % 16 < 16 by omega)
      have hvalue : 16 * (16 * 0 + c.toNat / 16) + c.toNat % 16 = c.toNat := by omega
      have hunit : ofCodeUnit none c.toNat = .ok (.inl c) := by
        rw [ofCodeUnit, if_neg (by omega), if_neg (by omega), Char.ofNat_toNat]
      refine ⟨n + 6, ?_⟩
      rw [hc]
      show stringChars (.hex none 2 0)
        (hexDigit (c.toNat / 16) :: hexDigit (c.toNat % 16) :: rest) (n + 4) = _
      rw [stringChars, hupper]
      show stringChars (.hex none 1 (16 * 0 + c.toNat / 16)) (hexDigit (c.toNat % 16) :: rest) (n + 5) = _
      rw [stringChars, hlower]
      simp only [hvalue, hunit]
      rfl
  case inr.inr =>
      refine ⟨n + c.utf8Size, ?_⟩
      rw [hc, List.singleton_append, stringChars, if_neg hquote, if_neg hbackslash, if_neg hcontrol]
      rfl

theorem stringChars_written : ∀ (cs rest : List Char) (n : Nat), ∃ m,
    stringChars .plain (cs.flatMap escaped ++ '"' :: rest) n = .ok (cs, ⟨rest, m⟩)
  | [], rest, n => ⟨n + 1, rfl⟩
  | c :: cs, rest, n => by
      obtain ⟨k, hk⟩ := stringChars_escaped c (cs.flatMap escaped ++ '"' :: rest) n
      obtain ⟨m, hm⟩ := stringChars_written cs rest k
      exact ⟨m, by rw [List.flatMap_cons, List.append_assoc, hk, hm]; rfl⟩

theorem takes_string (s : String) (rest : List Char) :
    Takes string (s.toList.flatMap escaped ++ '"' :: rest) rest s := by
  intro n
  obtain ⟨m, hm⟩ := stringChars_written s.toList rest n
  refine ⟨m, ?_⟩
  show (stringChars .plain _ _ >>= fun x => pure (String.ofList x.1, x.2)) = _
  rw [hm]
  exact congrArg (fun t => Except.ok (t, _)) String.ofList_toList

/-! Numbers. -/

theorem le_ofDigitChars : ∀ (ds : List Char) (n : Nat), n ≤ Nat.ofDigitChars 10 ds n
  | [], n => Nat.le_of_eq Nat.ofDigitChars_nil.symm
  | d :: ds, n => by
      have hrest := le_ofDigitChars ds (10 * n + (d.toNat - '0'.toNat))
      rw [Nat.ofDigitChars_cons]
      omega

/-- Digits extend a number as they stand if the result is within the limit. -/
theorem extend_eq {limit : Nat} : ∀ (ds : List Char) (n : Nat), Nat.ofDigitChars 10 ds n ≤ limit →
    Number.extend limit n ds = (Nat.ofDigitChars 10 ds n, 0)
  | [], n, _ => by rw [Number.extend, Nat.ofDigitChars_nil]
  | d :: ds, n, h => by
      have hstep : n * 10 + digitValue d = 10 * n + (d.toNat - '0'.toNat) := by
        rw [digitValue, Nat.mul_comm]
      rw [Nat.ofDigitChars_cons] at h ⊢
      have hle := Nat.le_trans (le_ofDigitChars ds _) h
      rw [Number.extend, hstep, if_neg (Nat.not_lt.mpr hle), extend_eq ds _ h]

theorem isDigit_eq (c : Char) : isDigit c = c.isDigit := by
  rw [isDigit, Char.isDigit, Bool.decide_and]
  rfl

/-- Only zero is written with a leading zero. -/
theorem eq_zero_of_toDigits : ∀ {n : Nat} {ds : List Char}, Nat.toDigits 10 n = '0' :: ds → n = 0 := by
  intro n
  induction n using Nat.strongRecOn with
  | ind n ih =>
      intro ds h
      by_cases hlt : n < 10
      · rw [Nat.toDigits_of_lt_base hlt] at h
        exact Nat.digitChar_eq_zero.mp (List.cons.inj h).1
      · rw [Nat.toDigits_of_base_le (by decide) (by omega)] at h
        obtain ⟨c, cs, hcs⟩ := List.exists_cons_of_ne_nil (Nat.toDigits_ne_nil (n := n / 10) (b := 10))
        rw [hcs, List.cons_append, List.cons.injEq] at h
        have hzero := ih (n / 10) (by omega) (h.1 ▸ hcs)
        omega

/-- What may stand behind the digits of a number without becoming a part of it. -/
def EndsNumber (rest : List Char) : Prop := ∀ c ∈ rest.head?, isDigit c = false ∧ c ≠ '.' ∧ c ≠ 'e' ∧ c ≠ 'E'

theorem endsNumber_cons {c : Char} (h : isDigit c = false ∧ c ≠ '.' ∧ c ≠ 'e' ∧ c ≠ 'E') (cs : List Char) :
    EndsNumber (c :: cs) := fun _ hd => Option.some.inj hd ▸ h

theorem takes_digits {ds rest : List Char} (hds : ∀ d ∈ ds, isDigit d = true)
    (hrest : ∀ c ∈ rest.head?, isDigit c = false) : Takes digits (ds ++ rest) rest ds := by
  intro n
  have htake : (ds ++ rest).takeWhile isDigit = ds := by
    rw [List.takeWhile_append_of_pos hds]
    cases rest with
    | nil => rw [List.takeWhile_nil, List.append_nil]
    | cons c cs => rw [List.takeWhile_cons_of_neg (Bool.eq_false_iff.mp (hrest c rfl)), List.append_nil]
  refine ⟨n + ds.length, ?_⟩
  show Except.ok ((ds ++ rest).takeWhile isDigit, (⟨(ds ++ rest).drop ((ds ++ rest).takeWhile isDigit).length,
    n + ((ds ++ rest).takeWhile isDigit).length⟩ : Cursor)) = _
  rw [htake, List.drop_left]

/-- Read what stands behind the first digits of a number. -/
def behindDigits (negative : Bool) (ds : List Char) : Reader Number := do
  let (n, left) := Number.extend Number.significandLimit 0 ds
  match ← peek with
  | some '.' => fractionPart negative n left
  | some 'e' | some 'E' => exponentPart negative n left
  | _ => if left = 0 then return wholeNumber negative n else scaledNumber negative n left

theorem takes_behindDigits {n : Nat} (hn : n ≤ Number.significandLimit) {rest : List Char}
    (hrest : EndsNumber rest) :
    Takes (behindDigits false (Nat.toDigits 10 n)) rest rest (.integer n) := by
  have hvalue : Nat.ofDigitChars 10 (Nat.toDigits 10 n) 0 = n := Nat.ofDigitChars_ten_toDigits
  have hextend : Number.extend Number.significandLimit 0 (Nat.toDigits 10 n) = (n, 0) := by
    rw [extend_eq _ _ (hvalue.symm ▸ hn), hvalue]
  rw [behindDigits, hextend]
  refine (takes_peek rest).bind ?_
  cases rest with
  | nil => exact takes_pure _ []
  | cons c cs =>
      obtain ⟨-, hpoint, hlower, hupper⟩ := hrest c rfl
      rw [List.head?_cons]
      split
      case h_1 heq => exact absurd (Option.some.inj heq) hpoint
      case h_2 heq => exact absurd (Option.some.inj heq) hlower
      case h_3 heq => exact absurd (Option.some.inj heq) hupper
      case h_4 => exact takes_pure _ (c :: cs)

/-- Read the digits in front of the point or the exponent of a number. -/
def wholeDigits : Reader (List Char) := do
  match ← peek with
  | none => failHere .endInValue
  | some c =>
    if !isDigit c then failAhead .invalidNumber
    else if c = '0' then do
      pass
      match ← peek with
      | some d => if isDigit d then failAhead .invalidNumber else pure ['0']
      | none => pure ['0']
    else digits

theorem unsignedNumber_eq (negative : Bool) : unsignedNumber negative = wholeDigits >>= behindDigits negative := by
  rw [unsignedNumber, wholeDigits, bind_assoc]
  refine bind_congr fun c => ?_
  cases c with
  | none => rfl
  | some c =>
      dsimp only
      split_ifs
      · rfl
      · rw [bind_assoc]
        refine bind_congr fun _ => ?_
        rw [bind_assoc]
        refine bind_congr fun d => ?_
        cases d with
        | none => rfl
        | some d => by_cases h : isDigit d = true <;> simp only [h] <;> rfl
      · rfl

theorem takes_wholeDigits {ds rest : List Char} (hds : ds ≠ [] ∧ ∀ d ∈ ds, isDigit d = true)
    (hleading : ∀ cs, ds = '0' :: cs → cs = []) (hrest : ∀ c ∈ rest.head?, isDigit c = false) :
    Takes wholeDigits (ds ++ rest) rest ds := by
  have hdigits := takes_digits hds.2 hrest
  obtain ⟨c, cs, rfl⟩ := List.exists_cons_of_ne_nil hds.1
  refine (takes_peek _).bind ?_
  show Takes (if !isDigit c then _ else _) _ _ _
  rw [hds.2 c List.mem_cons_self, if_neg (by decide)]
  by_cases hzero : c = '0'
  case pos =>
      subst hzero
      obtain rfl := hleading cs rfl
      rw [if_pos rfl]
      refine (takes_pass _ _).bind ((takes_peek _).bind ?_)
      cases rest with
      | nil => exact takes_pure _ []
      | cons d ds =>
          show Takes (if isDigit d = true then _ else _) _ _ _
          rw [if_neg (Bool.eq_false_iff.mp (hrest d rfl))]
          exact takes_pure _ (d :: ds)
  case neg =>
      rw [if_neg hzero]
      exact hdigits

theorem isDigit_of_mem_toDigits {n : Nat} {d : Char} (h : d ∈ Nat.toDigits 10 n) : isDigit d = true :=
  (isDigit_eq d).trans (Nat.isDigit_of_mem_toDigits (by decide) (by decide) h)

/-- A whole number within the limit is read back from its digits. -/
theorem takes_number {n : Nat} (hn : n ≤ Number.significandLimit) {rest : List Char}
    (hrest : EndsNumber rest) : Takes number (Nat.toDigits 10 n ++ rest) rest (.integer n) := by
  have hds : Nat.toDigits 10 n ≠ [] ∧ ∀ d ∈ Nat.toDigits 10 n, isDigit d = true :=
    ⟨Nat.toDigits_ne_nil, fun _ hd => isDigit_of_mem_toDigits hd⟩
  have hleading : ∀ cs, Nat.toDigits 10 n = '0' :: cs → cs = [] := by
    intro cs hcs
    rw [eq_zero_of_toDigits hcs, Nat.toDigits_zero] at hcs
    exact (List.cons.inj hcs).2.symm
  have hunsigned : Takes (unsignedNumber false) (Nat.toDigits 10 n ++ rest) rest (.integer n) := by
    rw [unsignedNumber_eq]
    exact (takes_wholeDigits hds hleading fun c hc => (hrest c hc).1).bind (takes_behindDigits hn hrest)
  have hsign : (Nat.toDigits 10 n ++ rest).head? ≠ some '-' := by
    obtain ⟨c, cs, hcs⟩ := List.exists_cons_of_ne_nil hds.1
    rw [hcs, List.cons_append, List.head?_cons]
    intro h
    have hminus : isDigit '-' = true := Option.some.inj h ▸ hds.2 c (hcs ▸ List.mem_cons_self)
    exact absurd hminus (by decide)
  refine (takes_peek _).bind ?_
  rw [if_neg hsign]
  exact hunsigned

end Reader

end SqlCompose.Json
