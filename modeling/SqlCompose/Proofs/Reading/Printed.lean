import SqlCompose.Proofs.Reading.Grammar
import SqlCompose.Proofs.Texts

/-!
Printed expressions read back. What an operator prints around its arguments are tokens, and its parentheses
stand where an argument binds looser than the operator: so the text of an expression reads as the operator at
its root, applied to what the texts of its arguments read as. An argument that binds as tightly as an operator
between operands is not in parentheses, and is read as grouped with the operand in front of it.
-/

namespace SqlCompose

/-- The quotes of a dialect can be told from the names between them: they have no letters, digits or
underscores. -/
def Dialect.Quotes (d : Dialect) : Prop :=
  d.quoteIdentifiers = true → ∀ x ∈ d.identifierQuote.toList, Token.inWord x = false

namespace Expr

/-- The name a leaf refers to, and how it is written. -/
def reference? (e : Expr) : Option (String × Dialect) :=
  match e.unpinned with
  | column c => some (c.name, c.table.dialect)
  | projected v (some name) _ => some (name, v.dialect)
  | _ => none

variable {e : Expr} {name : String} {d : Dialect}

theorem isPlain_of_reference? (h : e.reference? = some (name, d)) : e.unpinned.isPlain = true := by
  rw [reference?] at h
  split at h
  case h_1 c heq => rw [heq]; rfl
  case h_2 v n b heq => rw [heq]; rfl
  case h_3 => cases h

theorem leafPieces_of_reference? (h : e.reference? = some (name, d)) (qualifier : Option String) :
    leafPieces qualifier e.unpinned = [.reference qualifier name d] := by
  rw [reference?] at h
  split at h
  case h_1 c heq => cases h; rw [heq]; rfl
  case h_2 v n b heq => cases h; rw [heq]; rfl
  case h_3 => cases h

theorem pieces_of_reference? {c : Catalog} {s : Scope} {m : Mapping} (h : e.reference? = some (name, d))
    (hm : s.resolveLeaf e = .ok m) : e.pieces c s = [.reference (some m.label) name d] := by
  rw [pieces_of_isLeaf (isLeaf_of_plain (isPlain_of_reference? h)), leafPiecesIn, hm]
  exact leafPieces_of_reference? h (some m.label)

end Expr

mutual

/-- An expression of operators, functions, columns that a scope resolves, and constants, all with ordinary
names, and what it is. -/
inductive Expr.Outlines (s : Scope) : Expr → Reading → Prop
  | leaf {e : Expr} {name : String} {d : Dialect} {m : Mapping} (he : e.reference? = some (name, d))
      (hd : d.Quotes) (hm : s.resolveLeaf e = .ok m) (hlabel : Ordinary m.label) (hname : Ordinary name) :
      Expr.Outlines s e (.column m.label name)
  | number (n : Nat) : Expr.Outlines s (.literal (.integer n)) (.number n)
  | text (t : String) : Expr.Outlines s (.literal (.string t)) (.text t)
  | between {op : Operator} (hop : op.isBetween = true) {e₁ e₂ : Expr} {es : List Expr} {rs : List Reading}
      (h : Expr.AllOutlines s (e₁ :: e₂ :: es) rs) :
      Expr.Outlines s (.apply op (e₁ :: e₂ :: es)) (.apply op rs)
  | member {value entry : Expr} {es : List Expr} {rs : List Reading}
      (h : Expr.AllOutlines s (value :: entry :: es) rs) :
      Expr.Outlines s (.apply .isIn (value :: entry :: es)) (.apply .isIn rs)
  | before {e : Expr} {r : Reading} (h : Expr.Outlines s e r) :
      Expr.Outlines s (.apply .not [e]) (.apply .not [r])
  | behind {e : Expr} {r : Reading} (h : Expr.Outlines s e r) :
      Expr.Outlines s (.apply .isNull [e]) (.apply .isNull [r])
  | call {f : String} (hf : Ordinary f) (hkeyword : Token.keyword? f.toList = none) {args : List Expr}
      {rs : List Reading} (h : Expr.AllOutlines s args rs) :
      Expr.Outlines s (.apply (.function f) args) (.apply (.function f) rs)

/-- The same of all arguments. -/
inductive Expr.AllOutlines (s : Scope) : List Expr → List Reading → Prop
  | nil : Expr.AllOutlines s [] []
  | cons {e : Expr} {es : List Expr} {r : Reading} {rs : List Reading} (h : Expr.Outlines s e r)
      (hs : Expr.AllOutlines s es rs) : Expr.AllOutlines s (e :: es) (r :: rs)

end

/-! Separators. -/

namespace Operator

/-- What an operator prints between two operands. -/
def separator (op : Operator) : List Piece :=
  if op = and then [.word " ", .word "AND", .word " "] else [.word op.symbol]

theorem arrange_of_isBetween {op : Operator} (hop : op.isBetween = true) (args : List (Nat × List Piece)) :
    op.arrange args = op.separator.intercalate (args.map fun a => Piece.enclosed op.precedence a.1 a.2) := by
  cases op with
  | add | subtract | multiply | divide | equals | greater | less | and | concat => rfl
  | _ => cases hop

end Operator

namespace Piece

/-- What stands between two parts and lexes to a token. -/
structure Separates (sep : List Piece) (t : Token) : Prop where
  delimiter : ∃ c cs, (textAll sep).toList = c :: cs ∧ c ∈ Token.delimiters
  lexes : ∀ {cs : List Char} {ts : List Token}, Lexes cs ts → Lexes ((textAll sep).toList ++ cs) (t :: ts)

theorem textAll_word (t : String) : textAll [.word t] = t := by
  rw [textAll, text, textAll, String.append_empty]

/-- A separator that its first character tells. -/
theorem separates_closing {t : Token} {symbol : String} {c : Char} (left : List Char)
    (hsymbol : symbol.toList = c :: left) (hc : c ∈ Token.delimiters)
    (ht : Pending.begin? c = some (.closing t left)) : Separates [.word symbol] t where
  delimiter := ⟨c, left, by rw [textAll_word, hsymbol], hc⟩
  lexes := fun h => by
    rw [textAll_word, hsymbol, List.cons_append]
    exact h.of_closing left ht

theorem separates_symbol {t : Token} {symbol : String} {c : Char} (hsymbol : symbol.toList = [c])
    (hc : c ∈ Token.delimiters) (ht : Token.symbol? c = some t) : Separates [.word symbol] t :=
  separates_closing [] hsymbol hc (Pending.begin?_symbol hc ht)

theorem separates_comma : Separates [.word ","] .comma := separates_symbol rfl (by decide) rfl

theorem separates_and : Separates [.word " ", .word "AND", .word " "] (.operator .and) where
  delimiter := ⟨' ', "AND ".toList, rfl, by decide⟩
  lexes := fun h => by
    have hword : Lexes "AND".toList [.operator .and] := lexes_keyword (by decide) (by decide) (by decide)
    exact (hword.append h.blank (by decide)).blank

theorem separates_operator {op : Operator} (hop : op.isBetween = true) :
    Separates op.separator (.operator op) := by
  cases op with
  | concat => exact separates_closing ['|'] rfl (by decide) rfl
  | add | subtract | multiply | divide | equals | greater | less => exact separates_symbol rfl (by decide) rfl
  | and => exact separates_and
  | _ => cases hop

theorem Separates.append {sep : List Piece} {t : Token} {cs ds : List Char} {ts us : List Token}
    (hsep : Separates sep t) (h : Lexes cs ts) (h' : Lexes ds us) :
    Lexes (cs ++ ((textAll sep).toList ++ ds)) (ts ++ t :: us) := by
  obtain ⟨c, left, htext, hc⟩ := hsep.delimiter
  have hbehind := hsep.lexes h'
  rw [htext, List.cons_append] at hbehind ⊢
  exact h.append hbehind hc

/-! What the text of an expression reads as. -/

/-- The text of some pieces reads as a reading, up to grouping, with an operator of a band at its root. -/
def Shows (ps : List Piece) (b : Nat) (r : Reading) : Prop :=
  ∃ ts x, Lexes (textAll ps).toList ts ∧ Reads b ts x ∧ Regrouped r x

/-- The text of some pieces reads as readings with commas between them, each up to grouping. -/
def ShowsList (ps : List Piece) (rs : List Reading) : Prop :=
  ∃ ts xs, Lexes (textAll ps).toList ts ∧ ReadsList ts xs ∧ List.Forall₂ Regrouped rs xs

namespace Shows

variable {ps ps' sep : List Piece} {b b' : Nat} {r r' : Reading}

/-- An argument of an operator binds no looser than the operator. -/
theorem enclosed (h : Shows ps b r) (around : Nat) :
    ∃ b' ≤ around, Shows (Piece.enclosed around b ps) b' r := by
  rw [Piece.enclosed]
  split
  case isTrue =>
      obtain ⟨ts, x, hts, hx, hr⟩ := h
      refine ⟨Precedence.atom, Nat.zero_le _, _, x, ?_, hx.enclosed, hr⟩
      have htext : (textAll (parenthesised ps)).toList = '(' :: ((textAll ps).toList ++ [')']) := by
        simp [parenthesised, textAll_append, textAll, text]
      rw [htext]
      exact hts.parenthesised
  case isFalse hle => exact ⟨b, Nat.le_of_not_lt hle, h⟩

theorem between {op : Operator} (hop : op.isBetween = true) (h : Shows ps b r) (hb : b ≤ op.precedence)
    (h' : Shows ps' b' r') (hb' : b' ≤ op.precedence) :
    Shows (ps ++ op.separator ++ ps') op.precedence (.apply op [r, r']) := by
  obtain ⟨ts, x, hts, hx, hr⟩ := h
  obtain ⟨ts', x', hts', hx', hr'⟩ := h'
  obtain ⟨y, hy, hgroup⟩ := hx.graft hop hb hx' hb'
  refine ⟨_, y, ?_, hy, .trans (.apply (.cons hr (.cons hr' .nil))) hgroup⟩
  rw [textAll_append, textAll_append, String.toList_append, String.toList_append, List.append_assoc]
  exact (separates_operator hop).append hts hts'

/-- Operands one after the other, each grouped with those in front of it. -/
theorem chain {op : Operator} (hop : op.isBetween = true) : ∀ {ps ps' : List Piece} {b : Nat} {r r' : Reading}
    {rest : List (List Piece)} {rs : List Reading}, Shows ps b r → b ≤ op.precedence →
      List.Forall₂ (fun ps r => ∃ b ≤ op.precedence, Shows ps b r) (ps' :: rest) (r' :: rs) →
        Shows (op.separator.intercalate (ps :: ps' :: rest)) op.precedence (.apply op (r :: r' :: rs))
  | ps, ps', b, r, r', [], _, h, hb, .cons ⟨_, hb', h'⟩ .nil => by
      rw [List.intercalate_cons_cons, List.intercalate_singleton]
      exact h.between hop hb h' hb'
  | ps, ps', b, r, r', ps'' :: rest, r'' :: rs, h, hb, .cons ⟨_, hb', h'⟩ hs => by
      obtain ⟨ts, x, hts, hx, hr⟩ := chain hop (h.between hop hb h' hb') (Nat.le_refl _) hs
      simp only [List.intercalate_cons_cons, List.append_assoc] at hts ⊢
      exact ⟨ts, x, hts, hx, .trans (.first hop ..) hr⟩

theorem word_text (ps : List Piece) (t : String) :
    (textAll (.word t :: ps)).toList = t.toList ++ (textAll ps).toList := by
  rw [textAll, text, String.toList_append]

theorem negated (h : Shows ps b r) :
    Shows (Operator.not.arrange [(b, ps)]) Operator.not.precedence (.apply .not [r]) := by
  obtain ⟨b', hb', ts, x, hts, hx, hr⟩ := h.enclosed Operator.not.precedence
  have hword : Lexes "NOT".toList [.operator .not] := lexes_keyword (by decide) (by decide) (by decide)
  refine ⟨_, _, ?_, hx.before hb', .apply (.cons hr .nil)⟩
  have harrange : Operator.not.arrange [(b, ps)] =
      .word "NOT" :: .word " " :: Piece.enclosed Operator.not.precedence b ps := by
    simp [Operator.arrange, Operator.fixity, Operator.symbol]
  rw [harrange, word_text, word_text]
  exact hword.append hts.blank (by decide)

theorem nullTest (h : Shows ps b r) :
    Shows (Operator.isNull.arrange [(b, ps)]) Operator.isNull.precedence (.apply .isNull [r]) := by
  obtain ⟨b', hb', ts, x, hts, hx, hr⟩ := h.enclosed Operator.isNull.precedence
  have his : Lexes "IS".toList [.is] := lexes_keyword (by decide) (by decide) (by decide)
  have hnull : Lexes "NULL".toList [.null] := lexes_keyword (by decide) (by decide) (by decide)
  have hsymbol : Lexes (' ' :: "IS NULL".toList) [.is, .null] := (his.append hnull.blank (by decide)).blank
  refine ⟨_, _, ?_, hx.behind hb', .apply (.cons hr .nil)⟩
  have harrange : Operator.isNull.arrange [(b, ps)] =
      Piece.enclosed Operator.isNull.precedence b ps ++ [.word " ", .word "IS NULL"] := by
    simp [Operator.arrange, Operator.fixity, Operator.symbol]
  rw [harrange, textAll_append, String.toList_append, word_text, textAll_word]
  exact hts.append hsymbol (by decide)

end Shows

/-- The texts of arguments read as their readings. -/
def ShowsAll (args : List (Nat × List Piece)) (rs : List Reading) : Prop :=
  List.Forall₂ (fun a r => Shows a.2 a.1 r) args rs

namespace ShowsAll

variable {args : List (Nat × List Piece)} {rs : List Reading}

/-- An operator between operands prints what reads as that operator. -/
theorem between {op : Operator} (hop : op.isBetween = true) {a₁ a₂ : Nat × List Piece}
    (h : ShowsAll (a₁ :: a₂ :: args) rs) :
    Shows (op.arrange (a₁ :: a₂ :: args)) op.precedence (.apply op rs) := by
  rw [Operator.arrange_of_isBetween hop, List.map_cons, List.map_cons]
  cases h with
  | cons h₁ hs =>
      cases hs with
      | cons h₂ hs =>
          obtain ⟨b₁, hb₁, h₁⟩ := h₁.enclosed op.precedence
          have hrest := List.Forall₂.imp (fun _ _ h => h.enclosed op.precedence) hs
          exact h₁.chain hop hb₁ (.cons (h₂.enclosed _) (List.forall₂_map_left_iff.mpr hrest))

/-- The entries of a list stand between commas. -/
theorem list : ∀ {args : List (Nat × List Piece)} {rs : List Reading}, ShowsAll args rs → args ≠ [] →
    ShowsList ([.word ","].intercalate (args.map (·.2))) rs
  | _, _, .nil, hne => absurd rfl hne
  | _, _, .cons ⟨ts, x, hts, hx, hr⟩ .nil, _ => by
      rw [List.map_cons, List.map_nil, List.intercalate_singleton]
      exact ⟨ts, [x], hts, .one hx, .cons hr .nil⟩
  | _, _, .cons ⟨ts, x, hts, hx, hr⟩ (.cons h hs), _ => by
      obtain ⟨us, xs, hus, hxs, hrs⟩ := list (.cons h hs) (List.cons_ne_nil _ _)
      refine ⟨_, _, ?_, .more hx hxs, .cons hr hrs⟩
      simp only [List.map_cons, List.intercalate_cons_cons, textAll_append, String.toList_append,
        List.append_assoc] at hus ⊢
      exact separates_comma.append hts hus

theorem call {f : String} (hf : Ordinary f) (hkeyword : Token.keyword? f.toList = none)
    (h : ShowsAll args rs) :
    Shows ((Operator.function f).arrange args) Precedence.call (.apply (.function f) rs) := by
  have hname : Lexes f.toList [.name f] := by
    have hword := lexes_word hf
    rw [Token.ofWord, hkeyword, Option.getD_none, String.ofList_toList] at hword
    exact hword
  have htext : (textAll ((Operator.function f).arrange args)).toList =
      f.toList ++ '(' :: ((textAll ([.word ","].intercalate (args.map (·.2)))).toList ++ [')']) := by
    simp [Operator.arrange, Operator.fixity, Operator.symbol, textAll, text, textAll_append]
  rw [Shows, htext]
  cases h with
  | nil => exact ⟨_, _, hname.append (Lexes.nil.parenthesised) (by decide), .invoke f, .refl _⟩
  | cons h hs =>
      obtain ⟨ts, xs, hts, hxs, hrs⟩ := list (.cons h hs) (List.cons_ne_nil _ _)
      exact ⟨_, _, hname.append hts.parenthesised (by decide), .call f hxs, .apply hrs⟩

theorem member {a₁ a₂ : Nat × List Piece} (h : ShowsAll (a₁ :: a₂ :: args) rs) :
    Shows (Operator.isIn.arrange (a₁ :: a₂ :: args)) Operator.isIn.precedence (.apply .isIn rs) := by
  have htext : (textAll (Operator.isIn.arrange (a₁ :: a₂ :: args))).toList =
      (textAll (Piece.enclosed Operator.isIn.precedence a₁.1 a₁.2)).toList ++ ' ' :: ("IN".toList ++
        ' ' :: '(' :: ((textAll ([.word ","].intercalate ((a₂ :: args).map (·.2)))).toList ++ [')'])) := by
    simp [Operator.arrange, Operator.fixity, textAll, text, textAll_append]
  rw [Shows, htext]
  have hword : Lexes "IN".toList [.operator .isIn] := lexes_keyword (by decide) (by decide) (by decide)
  cases h with
  | cons h hs =>
      obtain ⟨b, hb, ts, x, hts, hx, hr⟩ := h.enclosed Operator.isIn.precedence
      obtain ⟨us, xs, hus, hxs, hrs⟩ := list hs (List.cons_ne_nil _ _)
      have hbehind := (hword.append hus.parenthesised.blank (by decide)).blank
      exact ⟨_, _, hts.append hbehind (by decide), hx.member hxs, .apply (.cons hr hrs)⟩

end ShowsAll

end Piece

/-! Expressions that read back. -/

section

variable {c : Catalog} {s : Scope}

/-- A name is written between two quotes, which may be empty. -/
theorem Dialect.Quotes.exists_quote {d : Dialect} (hd : d.Quotes) (name : String) : ∃ quote : List Char,
    (∀ x ∈ quote, Token.inWord x = false) ∧ (d.identifier name).toList = quote ++ (name.toList ++ quote) := by
  rw [Dialect.identifier]
  split
  case isTrue h => exact ⟨d.identifierQuote.toList, hd h, by simp⟩
  case isFalse => exact ⟨[], fun _ h => (nomatch h), by simp⟩

theorem Dialect.Quotes.lexes {d : Dialect} {label name : String} (hd : d.Quotes) (hlabel : Ordinary label)
    (hname : Ordinary name) :
    Lexes (Piece.textAll [.reference (some label) name d]).toList [.column label name] := by
  obtain ⟨quote, hquote, hidentifier⟩ := hd.exists_quote name
  have htext : (Piece.textAll [.reference (some label) name d]).toList =
      label.toList ++ '.' :: (d.identifier name).toList := by
    simp [Piece.textAll, Piece.text, Piece.qualification]
  rw [htext, hidentifier]
  exact lexes_column hlabel hname hquote

mutual

/-- The text of an expression reads as the expression, up to grouping. -/
theorem Expr.Outlines.shows : ∀ {e : Expr} {r : Reading}, e.Outlines s r →
    Piece.Shows (e.pieces c s) e.precedence r
  | e, _, .leaf (m := m) he hd hm hlabel hname => by
      rw [pieces_of_reference? he hm, precedence_of_plain (isPlain_of_reference? he)]
      exact ⟨_, _, hd.lexes hlabel hname, .atom rfl, .refl _⟩
  | _, _, .number n => by
      refine ⟨[.number n], _, ?_, .atom rfl, .refl _⟩
      rw [pieces, Piece.textAll, Piece.textAll, String.append_empty]
      exact lexes_number n
  | _, _, .text t => by
      refine ⟨[.text t], _, ?_, .atom rfl, .refl _⟩
      rw [pieces, Piece.textAll, Piece.textAll, String.append_empty]
      exact lexes_string t
  | _, _, .between hop h => Piece.ShowsAll.between hop h.shows
  | _, _, .member h => Piece.ShowsAll.member h.shows
  | _, _, .before h => h.shows.negated
  | _, _, .behind h => h.shows.nullTest
  | _, _, .call hf hkeyword h => Piece.ShowsAll.call hf hkeyword h.shows

theorem Expr.AllOutlines.shows : ∀ {es : List Expr} {rs : List Reading}, Expr.AllOutlines s es rs →
    Piece.ShowsAll (piecesAll c s es) rs
  | _, _, .nil => .nil
  | _, _, .cons h hs => .cons h.shows hs.shows

end

mutual

theorem Expr.Outlines.faultless : ∀ {e : Expr} {r : Reading}, e.Outlines s r →
    ∀ x ∈ e.pieces c s, x.isFaulty = false
  | _, _, .leaf he _ hm _ _ => by
      rw [pieces_of_reference? he hm]
      exact List.forall_mem_singleton.mpr rfl
  | _, _, .number _ => List.forall_mem_singleton.mpr rfl
  | _, _, .text _ => List.forall_mem_singleton.mpr rfl
  | _, _, .between _ h => Piece.Layout.faultless.arrange h.faultless
  | _, _, .member h => Piece.Layout.faultless.arrange h.faultless
  | _, _, .before h => Piece.Layout.faultless.arrange (List.forall_mem_singleton.mpr h.faultless)
  | _, _, .behind h => Piece.Layout.faultless.arrange (List.forall_mem_singleton.mpr h.faultless)
  | _, _, .call _ _ h => Piece.Layout.faultless.arrange h.faultless

theorem Expr.AllOutlines.faultless : ∀ {es : List Expr} {rs : List Reading}, Expr.AllOutlines s es rs →
    ∀ a ∈ piecesAll c s es, ∀ x ∈ a.2, x.isFaulty = false
  | _, _, .nil => fun _ h => nomatch h
  | _, _, .cons h hs => List.forall_mem_cons.mpr ⟨h.faultless, hs.faultless⟩

end

/-- Printing an expression in a scope. -/
def Expr.print (c : Catalog) (s : Scope) (e : Expr) : Except Error String :=
  (({} : Printout).putAll (e.pieces c s)).result

/-- An expression whose pieces hold no fault prints. -/
theorem Expr.print_of_faultless {e : Expr} (h : ∀ x ∈ e.pieces c s, x.isFaulty = false) :
    e.print c s = .ok (Piece.textAll (e.pieces c s)) := by
  rw [print, Printout.result, Printout.putAll_faults (Piece.anyFaulty_eq_false h), Printout.putAll_text,
    String.empty_append]

theorem Expr.Outlines.print_eq {e : Expr} {r : Reading} (h : e.Outlines s r) :
    e.print c s = .ok (Piece.textAll (e.pieces c s)) :=
  Expr.print_of_faultless h.faultless

/-- What a text reads as. -/
def ReadsAs (text : String) (r : Reading) : Prop :=
  ∃ ts b, Token.lex text = some ts ∧ Reads b ts r

theorem Lexes.readsAs_iff {text : String} {ts : List Token} {b : Nat} {r : Reading} (h : Lexes text.toList ts)
    (hr : Reads b ts r) (x : Reading) : ReadsAs text x ↔ x = r := by
  constructor
  · rintro ⟨us, b', hus, hx⟩
    obtain rfl := Option.some.inj (h.lex_eq.symm.trans hus)
    exact hx.unique hr
  · rintro rfl
    exact ⟨ts, b, h.lex_eq, hr⟩

/-- An expression prints, and its text reads as the expression and nothing else, up to how operators of one
band are grouped. -/
theorem Expr.Outlines.reads_back {e : Expr} {r : Reading} (h : e.Outlines s r) :
    ∃ text, e.print c s = .ok text ∧ ∃ r', Regrouped r r' ∧ ∀ x, ReadsAs text x ↔ x = r' := by
  obtain ⟨ts, x, hts, hx, hr⟩ := h.shows (c := c)
  exact ⟨_, h.print_eq, x, hr, hts.readsAs_iff hx⟩

/-- A difference of differences inside a negated conjunction. -/
theorem Expr.negation_reads_back : ∃ (s : Scope) (e : Expr) (r : Reading), e.Outlines s r
    ∧ e.print {} s = .ok "NOT (p.ID IS NULL AND p.ID-(2=1)-1='x')"
    ∧ ∃ r', Regrouped r r' ∧ ∀ x, ReadsAs "NOT (p.ID IS NULL AND p.ID-(2=1)-1='x')" x ↔ x = r' := by
  let people : Table := ⟨0, "People", {}⟩
  let s : Scope := [⟨0, .table people, "p"⟩]
  let inner : Expr := .apply .subtract
    [.apply .equals [.literal (.integer 2), .literal (.integer 1)], .literal (.integer 1)]
  let e : Expr := .apply .not [.apply .and [.apply .isNull [.column ⟨people, "ID"⟩],
    .apply .equals [.apply .subtract [.column ⟨people, "ID"⟩, inner], .literal (.string "x")]]]
  have hid : (Expr.column ⟨people, "ID"⟩).Outlines s (.column "p" "ID") :=
    .leaf (m := ⟨0, .table people, "p"⟩) rfl (fun h => nomatch h) (by cbv)
      (.of_isAlpha (by decide) (by decide)) (.of_isAlpha (by decide) (by decide))
  have hinner : inner.Outlines s _ :=
    .between rfl (.cons (.between rfl (.cons (.number 2) (.cons (.number 1) .nil))) (.cons (.number 1) .nil))
  have he : e.Outlines s _ := .before (.between rfl (.cons (.behind hid) (.cons (.between rfl
    (.cons (.between rfl (.cons hid (.cons hinner .nil))) (.cons (.text "x") .nil))) .nil)))
  have hprint : e.print {} s = .ok "NOT (p.ID IS NULL AND p.ID-(2=1)-1='x')" := by cbv
  obtain ⟨text, htext, hreads⟩ := he.reads_back (c := {})
  obtain rfl := Except.ok.inj (hprint.symm.trans htext)
  exact ⟨s, e, _, he, hprint, hreads⟩

end

end SqlCompose
