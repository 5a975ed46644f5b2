import SqlCompose.Literal
import SqlCompose.Operator
import SqlCompose.Text.Alphanumeric

/-!
The tokens of a printed expression. The lexer reads one character after the other and keeps what it has read
of a token. A token ends where a character cannot go on with it, so what a text lexes to does not depend on
what stands behind it, as long as that begins with a delimiter. Keywords count in any case, and a column is
read together with its qualifier. What stands between the dot and the first character of a name that can be
in a word is a quote, of any length, and the same stands behind the name.
-/

namespace SqlCompose

/-- A token of a printed expression. -/
inductive Token
  | column (qualifier name : String)
  | number (value : Nat)
  | text (value : String)
  | name (word : String)
  | operator (op : Operator)
  /-- The two words of `IS NULL`. -/
  | is
  | null
  | opening
  | closing
  | comma
deriving DecidableEq

namespace Token

/-- Whether a character begins a word. -/
def beginsWord (c : Char) : Bool := (Text.isAlphanumeric c || c == '_') && !c.isDigit

/-- Whether a character stands in a word. -/
def inWord (c : Char) : Bool := beginsWord c || c.isDigit

/-- The characters that printed expressions have between their tokens. -/
def delimiters : List Char := [' ', '(', ')', ',', '+', '-', '*', '/', '=', '>', '<', '|']

/-- The token of a keyword, in upper or lower case. -/
def keyword? (word : List Char) : Option Token :=
  match word.map Char.toUpper with
  | ['A', 'N', 'D'] => some (.operator .and)
  | ['I', 'N'] => some (.operator .isIn)
  | ['N', 'O', 'T'] => some (.operator .not)
  | ['I', 'S'] => some .is
  | ['N', 'U', 'L', 'L'] => some .null
  | _ => none

/-- The token of a word that is no part of a column. -/
def ofWord (word : List Char) : Token := (keyword? word).getD (.name (String.ofList word))

/-- The token of a single character. -/
def symbol? : Char → Option Token
  | '(' => some .opening
  | ')' => some .closing
  | ',' => some .comma
  | '+' => some (.operator .add)
  | '-' => some (.operator .subtract)
  | '*' => some (.operator .multiply)
  | '/' => some (.operator .divide)
  | '=' => some (.operator .equals)
  | '>' => some (.operator .greater)
  | '<' => some (.operator .less)
  | _ => none

end Token

/-- What has been read of a token. -/
inductive Pending
  | idle
  | word (read : List Char)
  | number (digits : List Char)
  | string (read : List Char)
  /-- A string behind an apostrophe that ends it unless it is the first of two. -/
  | apostrophe (read : List Char)
  /-- A qualifier, the dot behind it and what stands between the dot and the name. -/
  | dot (qualifier quote : List Char)
  | member (qualifier quote read : List Char)
  /-- A token of which some characters are left. -/
  | closing (token : Token) (left : List Char)

namespace Pending

/-- The tokens read when nothing goes on with the present one. -/
def finish : Pending → Option (List Token)
  | idle => some []
  | word w => some [.ofWord w]
  | number ds => some [.number (Nat.ofDigitChars 10 ds 0)]
  | apostrophe s => some [.text (String.ofList s)]
  | member q [] w => some [.column (String.ofList q) (String.ofList w)]
  | closing t [] => some [t]
  | _ => none

/-- What has been read of a token after one more character, if that is the next of those left. -/
def close? (c : Char) (t : Token) : List Char → Option Pending
  | [] => none
  | d :: ds => if c = d then some (closing t ds) else none

/-- What has been read of a token after one more character, if that goes on with it. -/
def extend? (c : Char) : Pending → Option Pending
  | idle => none
  | word w =>
    if Token.inWord c then some (word (w ++ [c])) else if c = '.' then some (dot w []) else none
  | number ds => if c.isDigit then some (number (ds ++ [c])) else none
  | string s => if c = '\'' then some (apostrophe s) else some (string (s ++ [c]))
  | apostrophe s => if c = '\'' then some (string (s ++ [c])) else none
  | dot q quote => if Token.inWord c then some (member q quote [c]) else some (dot q (quote ++ [c]))
  | member q quote w =>
    if Token.inWord c then some (member q quote (w ++ [c]))
    else close? c (.column (String.ofList q) (String.ofList w)) quote
  | closing t left => close? c t left

/-- What the first character of a token tells. -/
def begin? (c : Char) : Option Pending :=
  if c = ' ' then some idle
  else if c = '|' then some (closing (.operator .concat) ['|'])
  else if c = '\'' then some (string [])
  else if c.isDigit then some (number [c])
  else if Token.beginsWord c then some (word [c])
  else (Token.symbol? c).map (closing · [])

/-- The tokens of the remaining characters, in front of them the one that has been read so far. -/
def lex : Pending → List Char → Option (List Token)
  | p, [] => p.finish
  | p, c :: cs => match p.extend? c with
    | some p' => p'.lex cs
    | none => match p.finish, begin? c with
      | some ts, some p' => (p'.lex cs).map (ts ++ ·)
      | _, _ => none

end Pending

/-- The tokens of a text. -/
def Token.lex (text : String) : Option (List Token) := Pending.idle.lex text.toList

/-! Characters by their kinds. -/

namespace Text

theorem inRanges_eq (ranges : Array (Nat × Nat)) (c : Char) :
    inRanges ranges c = ranges.toList.any fun r => decide (r.1 ≤ c.toNat ∧ c.toNat ≤ r.2) := by
  rw [inRanges, Array.any_toList]

theorem toNat_of_isAlpha {c : Char} (h : c.isAlpha = true) :
    (0x41 ≤ c.toNat ∧ c.toNat ≤ 0x5a) ∨ (0x61 ≤ c.toNat ∧ c.toNat ≤ 0x7a) := by
  obtain hupper | hlower := (Bool.or_eq_true _ _).mp h
  · exact .inl (of_decide_eq_true hupper)
  · exact .inr (((Bool.and_eq_true _ _).mp hlower).imp of_decide_eq_true of_decide_eq_true)

theorem isAlphanumeric_of_isAlpha {c : Char} (h : c.isAlpha = true) : isAlphanumeric c = true := by
  rw [isAlphanumeric, inRanges_eq, List.any_eq_true]
  obtain hupper | hlower := toNat_of_isAlpha h
  · exact ⟨(0x41, 0x5a), .tail _ (.head _), decide_eq_true hupper⟩
  · exact ⟨(0x61, 0x7a), .tail _ (.tail _ (.head _)), decide_eq_true hlower⟩

theorem isAlphanumeric_punctuation {c : Char} (hc : c ∈ '.' :: '\'' :: Token.delimiters) :
    isAlphanumeric c = false := by
  have hnone : ('.' :: '\'' :: Token.delimiters).any (fun d =>
      alphanumericRanges.toList.any fun r => decide (r.1 ≤ d.toNat ∧ d.toNat ≤ r.2)) = false := by
    decide +kernel
  rw [isAlphanumeric, inRanges_eq]
  exact Bool.eq_false_iff.mpr (List.any_eq_false.mp hnone c hc)

end Text

namespace Token

variable {c : Char}

theorem isDigit_of_inWord (h : inWord c = false) : c.isDigit = false := by
  rw [inWord, Bool.or_eq_false_iff] at h
  exact h.2

theorem inWord_of_beginsWord (h : beginsWord c = true) : inWord c = true := by
  rw [inWord, h, Bool.true_or]

theorem beginsWord_of_isAlpha (h : c.isAlpha = true) : beginsWord c = true := by
  have hdigit : c.isDigit = false := by
    refine Bool.eq_false_iff.mpr fun hdigit => ?_
    have hle : c.toNat ≤ 0x39 := of_decide_eq_true ((Bool.and_eq_true _ _).mp hdigit).2
    have halpha := Text.toNat_of_isAlpha h
    omega
  rw [beginsWord, Text.isAlphanumeric_of_isAlpha h, hdigit]
  rfl

theorem inWord_punctuation (hc : c ∈ '.' :: '\'' :: delimiters) : inWord c = false := by
  have hnone : ('.' :: '\'' :: delimiters).any (fun d => d == '_' || d.isDigit) = false := by decide
  obtain ⟨hunderscore, hdigit⟩ := Bool.or_eq_false_iff.mp
    (Bool.eq_false_iff.mpr (List.any_eq_false.mp hnone c hc))
  rw [inWord, beginsWord, Text.isAlphanumeric_punctuation hc, hunderscore, hdigit]
  rfl

end Token

/-! What the delimiters do. -/

namespace Pending

variable {p q : Pending} {c : Char} {cs rest : List Char} {t : Token} {ts : List Token}

theorem lex_extend (h : p.extend? c = some q) : p.lex (c :: cs) = q.lex cs := by
  rw [lex, h]

theorem lex_idle (h : begin? c = some p) : idle.lex (c :: cs) = p.lex cs := by
  rw [lex, h]
  simp [extend?, finish]

/-- Behind a token that nothing goes on with, lexing begins anew. -/
theorem lex_finish (h : p.finish = some ts) (hrest : ∀ c ∈ rest.head?, p.extend? c = none) :
    p.lex rest = (idle.lex rest).map (ts ++ ·) := by
  cases rest with
  | nil =>
      rw [lex, lex, h]
      exact congrArg some (List.append_nil ts).symm
  | cons c cs =>
      have hc : p.extend? c = none := hrest c rfl
      rw [lex, hc, lex, h]
      cases hb : begin? c with
      | none => rfl
      | some p' => cases hp' : p'.lex cs <;> simp [extend?, finish, hp']

theorem lex_closing (t : Token) : ∀ left : List Char,
    (closing t left).lex (left ++ rest) = (idle.lex rest).map (t :: ·)
  | [] => lex_finish (p := closing t []) rfl fun _ _ => rfl
  | d :: ds => by
      rw [List.cons_append, lex_extend (q := closing t ds) (by rw [extend?, close?, if_pos rfl])]
      exact lex_closing t ds

end Pending

/-- What can stand behind every token: nothing, or a character that goes on with none. -/
def Delimited (rest : List Char) : Prop :=
  ∀ c ∈ rest.head?, Token.inWord c = false ∧ c ≠ '.' ∧ c ≠ '\''

/-- Characters lex to some tokens, whatever stands behind them, if that is delimited. -/
def Lexes (cs : List Char) (ts : List Token) : Prop :=
  ∀ rest, Delimited rest → Pending.idle.lex (cs ++ rest) = (Pending.idle.lex rest).map (ts ++ ·)

theorem delimited_nil : Delimited [] := fun _ h => nomatch h

theorem delimited_cons {c : Char} (h : c ∈ Token.delimiters) (cs : List Char) : Delimited (c :: cs) := by
  have hother : ∀ d ∈ Token.delimiters, d ≠ '.' ∧ d ≠ '\'' := by simp [Token.delimiters]
  intro d hd
  obtain rfl := Option.some.inj hd
  exact ⟨Token.inWord_punctuation (.tail _ (.tail _ h)), hother c h⟩

/-- A name that words can stand for: a letter or an underscore, then letters, digits and underscores. -/
def Ordinary (name : String) : Prop :=
  ∃ c cs, name.toList = c :: cs ∧ Token.beginsWord c = true ∧ ∀ x ∈ cs, Token.inWord x = true

/-! Putting characters together. -/

namespace Lexes

variable {cs ds : List Char} {ts us : List Token}

theorem lex_eq {text : String} (h : Lexes text.toList ts) : Token.lex text = some ts := by
  have hnil := h [] delimited_nil
  rw [List.append_nil] at hnil
  rw [Token.lex, hnil]
  exact congrArg some (List.append_nil ts)

/-- Characters behind a delimiter follow others. -/
theorem append {c : Char} (h : Lexes cs ts) (hd : Lexes (c :: ds) us) (hc : c ∈ Token.delimiters) :
    Lexes (cs ++ c :: ds) (ts ++ us) := by
  intro rest hrest
  rw [List.append_assoc, List.cons_append, h _ (delimited_cons hc _), ← List.cons_append, hd rest hrest,
    Option.map_map]
  exact congrArg (Option.map · _) (funext fun _ => (List.append_assoc ..).symm)

theorem blank (h : Lexes cs ts) : Lexes (' ' :: cs) ts := by
  intro rest hrest
  rw [List.cons_append, Pending.lex_idle (p := .idle) rfl]
  exact h rest hrest

theorem nil : Lexes [] [] := fun rest _ => by simp

/-- A token that its first character tells, with the characters left of it. -/
theorem of_closing {c : Char} {t : Token} (left : List Char)
    (hc : Pending.begin? c = some (.closing t left)) (h : Lexes cs ts) :
    Lexes (c :: (left ++ cs)) (t :: ts) := by
  intro rest hrest
  rw [List.cons_append, Pending.lex_idle hc, List.append_assoc, Pending.lex_closing, h rest hrest,
    Option.map_map]
  rfl

end Lexes

namespace Pending

/-- A character of a kind that the blank, the bar and the quote are not of. -/
theorem begin?_eq {c : Char} (kind : Char → Bool) (hno : ∀ d ∈ [' ', '|', '\''], kind d = false)
    (h : kind c = true) : begin? c = if c.isDigit then some (number [c])
      else if Token.beginsWord c then some (word [c]) else (Token.symbol? c).map (closing · []) := by
  have hne : ∀ d ∈ [' ', '|', '\''], c ≠ d := by
    rintro d hd rfl
    rw [hno c hd] at h
    cases h
  rw [begin?, if_neg (hne _ (by simp)), if_neg (hne _ (by simp)), if_neg (hne _ (by simp))]

theorem begin?_word {c : Char} (h : Token.beginsWord c = true) : begin? c = some (word [c]) := by
  have hdigit : c.isDigit = false := by
    rw [Token.beginsWord, Bool.and_eq_true] at h
    simpa using h.2
  have hmem : ∀ d ∈ [' ', '|', '\''], d ∈ '.' :: '\'' :: Token.delimiters := by simp [Token.delimiters]
  rw [begin?_eq Token.inWord (fun d hd => Token.inWord_punctuation (hmem d hd))
    (Token.inWord_of_beginsWord h), hdigit, h]
  rfl

theorem begin?_digit {c : Char} (h : c.isDigit = true) : begin? c = some (number [c]) := by
  rw [begin?_eq Char.isDigit (by simp) h, h]
  rfl

theorem begin?_symbol {c : Char} {t : Token} (hc : c ∈ Token.delimiters) (ht : Token.symbol? c = some t) :
    begin? c = some (closing t []) := by
  have hword : Token.inWord c = false := Token.inWord_punctuation (.tail _ (.tail _ hc))
  have hkind : ∀ d ∈ [' ', '|', '\''], (Token.symbol? d).isSome = false := by simp [Token.symbol?]
  rw [begin?_eq (fun d => (Token.symbol? d).isSome) hkind (by rw [ht]; rfl), ht,
    Token.isDigit_of_inWord hword]
  rw [Token.inWord, Bool.or_eq_false_iff] at hword
  rw [hword.1]
  rfl

theorem extend?_dot {w : List Char} : (word w).extend? '.' = some (dot w []) := by
  rw [extend?, Token.inWord_punctuation (.head _)]
  rfl

/-- Characters that each go on with a token are read into it one after the other. -/
theorem lex_extendAll {f : List Char → Pending} {P : Char → Prop}
    (hf : ∀ w c, P c → (f w).extend? c = some (f (w ++ [c]))) {w rest : List Char} :
    ∀ {cs : List Char}, (∀ x ∈ cs, P x) → (f w).lex (cs ++ rest) = (f (w ++ cs)).lex rest := by
  intro cs
  induction cs generalizing w with
  | nil => simp
  | cons c cs ih =>
      intro h
      rw [List.forall_mem_cons] at h
      rw [List.cons_append, lex_extend (hf w c h.1), ih h.2, List.append_assoc, List.singleton_append]

/-- Two quotes inside a string stand for one. -/
theorem lex_string {w : List Char} : ∀ {cs rest : List Char},
    (string w).lex (Literal.doubledQuotes cs ++ rest) = (string (w ++ cs)).lex rest := by
  intro cs
  induction cs generalizing w with
  | nil => simp [Literal.doubledQuotes]
  | cons c cs ih =>
      intro rest
      rw [Literal.doubledQuotes]
      split
      case isTrue hc =>
          rw [hc, List.cons_append, lex_extend (q := apostrophe w) rfl, List.cons_append,
            lex_extend (q := string (w ++ ['\''])) rfl, ih, List.append_assoc, List.singleton_append]
      case isFalse hc =>
          rw [List.cons_append, lex_extend (q := string (w ++ [c])) (by rw [extend?, if_neg hc]), ih,
            List.append_assoc, List.singleton_append]

end Pending

/-! The tokens of more than one character. -/

section

variable {rest : List Char} {w q : List Char} {c : Char} {cs : List Char}

theorem Delimited.extend_word (h : Delimited rest) : ∀ c ∈ rest.head?, (Pending.word w).extend? c = none := by
  intro c hc
  obtain ⟨hword, hdot, -⟩ := h c hc
  rw [Pending.extend?, hword, if_neg Bool.false_ne_true, if_neg hdot]

theorem Delimited.extend_member (h : Delimited rest) :
    ∀ c ∈ rest.head?, (Pending.member q [] w).extend? c = none := by
  intro c hc
  rw [Pending.extend?, (h c hc).1, if_neg Bool.false_ne_true]
  rfl

theorem Delimited.extend_number (h : Delimited rest) :
    ∀ c ∈ rest.head?, (Pending.number w).extend? c = none := by
  intro c hc
  rw [Pending.extend?, Token.isDigit_of_inWord (h c hc).1, if_neg Bool.false_ne_true]

theorem Delimited.extend_apostrophe (h : Delimited rest) :
    ∀ c ∈ rest.head?, (Pending.apostrophe w).extend? c = none := by
  intro c hc
  rw [Pending.extend?, if_neg (h c hc).2.2]

/-- An ordinary name is read as one word. -/
theorem lex_ordinary {name : String} (h : Ordinary name) :
    Pending.idle.lex (name.toList ++ rest) = (Pending.word name.toList).lex rest := by
  obtain ⟨c, cs, hname, hc, hcs⟩ := h
  rw [hname, List.cons_append, Pending.lex_idle (Pending.begin?_word hc)]
  exact Pending.lex_extendAll (f := .word) (P := fun x => Token.inWord x = true)
    (fun w c hc => by rw [Pending.extend?, if_pos hc]) hcs

theorem lexes_word {word : String} (h : Ordinary word) : Lexes word.toList [.ofWord word.toList] := by
  intro rest hrest
  rw [lex_ordinary h]
  exact Pending.lex_finish rfl hrest.extend_word

/-- A name behind its quote, up to the quote that closes it. -/
theorem lex_member {quote : List Char} (hquote : ∀ x ∈ quote, Token.inWord x = false) (h : Delimited rest) :
    (Pending.member q quote w).lex (quote ++ rest) =
      (Pending.idle.lex rest).map (.column (String.ofList q) (String.ofList w) :: ·) := by
  cases quote with
  | nil => exact Pending.lex_finish (p := .member q [] w) rfl h.extend_member
  | cons d ds =>
      rw [List.forall_mem_cons] at hquote
      have hd : (Pending.member q (d :: ds) w).extend? d =
          some (.closing (.column (String.ofList q) (String.ofList w)) ds) := by
        rw [Pending.extend?, hquote.1, if_neg Bool.false_ne_true, Pending.close?, if_pos rfl]
      rw [List.cons_append, Pending.lex_extend hd, Pending.lex_closing]

/-- A qualified column is one token, with any quote around its name that is no part of a word. -/
theorem lexes_column {qualifier name : String} {quote : List Char} (hq : Ordinary qualifier)
    (hn : Ordinary name) (hquote : ∀ x ∈ quote, Token.inWord x = false) :
    Lexes (qualifier.toList ++ '.' :: (quote ++ (name.toList ++ quote))) [.column qualifier name] := by
  intro rest hrest
  obtain ⟨c, cs, hname, hc, hcs⟩ := hn
  have hdot : (Pending.dot qualifier.toList quote).extend? c = some (.member qualifier.toList quote [c]) := by
    rw [Pending.extend?, if_pos (Token.inWord_of_beginsWord hc)]
  rw [List.append_assoc, lex_ordinary hq, List.cons_append, Pending.lex_extend Pending.extend?_dot,
    List.append_assoc, List.append_assoc,
    Pending.lex_extendAll (f := .dot qualifier.toList) (P := fun x => Token.inWord x = false)
      (fun w c hc => by rw [Pending.extend?, hc]; rfl) hquote,
    List.nil_append, hname, List.cons_append, Pending.lex_extend hdot,
    Pending.lex_extendAll (f := .member qualifier.toList quote) (P := fun x => Token.inWord x = true)
      (fun w c hc => by rw [Pending.extend?, if_pos hc]) hcs,
    lex_member hquote hrest, List.singleton_append, ← hname, String.ofList_toList, String.ofList_toList]
  rfl

theorem lexes_number (n : Nat) : Lexes (toString n).toList [.number n] := by
  intro rest hrest
  have hdigits : ∀ x ∈ Nat.toDigits 10 n, x.isDigit = true :=
    fun x hx => Nat.isDigit_of_mem_toDigits (by decide) (by decide) hx
  obtain ⟨c, cs, hcs⟩ := List.exists_cons_of_ne_nil (Nat.toDigits_ne_nil (n := n) (b := 10))
  have hrepr : (toString n).toList = c :: cs := Nat.toList_repr.trans hcs
  rw [hcs, List.forall_mem_cons] at hdigits
  rw [hrepr, List.cons_append, Pending.lex_idle (Pending.begin?_digit hdigits.1),
    Pending.lex_extendAll (f := .number) (P := fun x => x.isDigit = true)
      (fun w c hc => by rw [Pending.extend?, if_pos hc]) hdigits.2]
  refine Pending.lex_finish ?_ hrest.extend_number
  rw [Pending.finish, List.singleton_append, ← hcs, Nat.ofDigitChars_ten_toDigits]

theorem lexes_string (s : String) : Lexes (Literal.quotedString s).toList [.text s] := by
  intro rest hrest
  rw [Literal.quotedString, String.toList_ofList, List.cons_append, List.cons_append,
    Pending.lex_idle (p := .string []) rfl, List.append_assoc, Pending.lex_string, List.nil_append,
    List.singleton_append, Pending.lex_extend (q := .apostrophe s.toList) rfl]
  refine Pending.lex_finish ?_ hrest.extend_apostrophe
  rw [Pending.finish, String.ofList_toList]

theorem Ordinary.of_isAlpha {name : String} (hne : name.toList ≠ [])
    (h : name.toList.all Char.isAlpha = true) : Ordinary name := by
  obtain ⟨c, cs, hname⟩ := List.exists_cons_of_ne_nil hne
  rw [List.all_eq_true, hname, List.forall_mem_cons] at h
  exact ⟨c, cs, hname, Token.beginsWord_of_isAlpha h.1,
    fun x hx => Token.inWord_of_beginsWord (Token.beginsWord_of_isAlpha (h.2 x hx))⟩

theorem lexes_keyword {word : String} {t : Token} (hne : word.toList ≠ [])
    (h : word.toList.all Char.isAlpha = true) (ht : Token.keyword? word.toList = some t) :
    Lexes word.toList [t] := by
  have hword := lexes_word (Ordinary.of_isAlpha hne h)
  rw [Token.ofWord, ht] at hword
  exact hword

theorem Lexes.symbol {ts : List Token} {t : Token} (hc : c ∈ Token.delimiters)
    (ht : Token.symbol? c = some t) (h : Lexes cs ts) : Lexes (c :: cs) (t :: ts) :=
  of_closing [] (Pending.begin?_symbol hc ht) h

theorem Lexes.parenthesised {ts : List Token} (h : Lexes cs ts) :
    Lexes ('(' :: (cs ++ [')'])) (.opening :: (ts ++ [.closing])) := by
  have hclosing : Lexes [')'] [.closing] := symbol (by decide) rfl nil
  have hparts : Lexes (cs ++ [')']) (ts ++ [.closing]) := h.append hclosing (by decide)
  exact symbol (by decide) rfl hparts

end

end SqlCompose

