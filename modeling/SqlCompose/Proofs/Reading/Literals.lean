import SqlCompose.Proofs.Reading.Printed

/-!
String constants in a printed expression. A text is taken apart by the rule of string literals: a single quote
opens one, two quotes inside it stand for one, and any other quote closes it. Operators put something between
any two of their arguments that has no quote, so no literal runs into the next: the text of an expression has
the string constants of the expression as its literals, whatever is in them, and ends outside of a literal.
-/

namespace SqlCompose

open Piece (textAll)

/-- A text taken apart: what stands outside its string literals, the quotes around each included, and what the
literals hold. -/
structure Scanned where
  outside : List Char
  literals : List String
deriving DecidableEq

/-- What a text is taken apart into when something stands in front of it. -/
def Scanned.behind (cs : List Char) (ss : List String) (x : Option Scanned) : Option Scanned :=
  x.map fun y => ⟨cs ++ y.outside, ss ++ y.literals⟩

mutual

/-- Take the characters outside a literal apart. -/
def scan : List Char → Option Scanned
  | [] => some ⟨[], []⟩
  | '\'' :: cs => Scanned.behind ['\''] [] (scanLiteral [] cs)
  | c :: cs => Scanned.behind [c] [] (scan cs)

/-- Take the characters inside a literal apart, of which some have been read. -/
def scanLiteral (read : List Char) : List Char → Option Scanned
  | [] => none
  | '\'' :: '\'' :: cs => scanLiteral (read ++ ['\'']) cs
  | '\'' :: cs => Scanned.behind ['\''] [String.ofList read] (scan cs)
  | c :: cs => scanLiteral (read ++ [c]) cs

end

/-! Scanning what is printed. -/

section

variable {cs rest read : List Char}

theorem Scanned.behind_behind (cs ds : List Char) (ss ts : List String) (x : Option Scanned) :
    behind cs ss (behind ds ts x) = behind (cs ++ ds) (ss ++ ts) x := by
  cases x <;> simp [behind]

theorem Scanned.behind_nil (x : Option Scanned) : behind [] [] x = x := by
  cases x <;> rfl

theorem scan_unquoted (h : '\'' ∉ cs) : scan (cs ++ rest) = Scanned.behind cs [] (scan rest) := by
  induction cs with
  | nil => exact (Scanned.behind_nil _).symm
  | cons c cs ih =>
      rw [List.mem_cons, not_or] at h
      rw [List.cons_append, scan.eq_3 c _ fun hc => h.1 hc.symm, ih h.2, Scanned.behind_behind]
      rfl

/-- Each quote of a string constant is written twice and read once. -/
theorem scanLiteral_doubledQuotes :
    scanLiteral read (Literal.doubledQuotes cs ++ rest) = scanLiteral (read ++ cs) rest := by
  induction cs generalizing read with
  | nil => rw [Literal.doubledQuotes, List.nil_append, List.append_nil]
  | cons c cs ih =>
      rw [Literal.doubledQuotes]
      split
      case isTrue hc =>
          rw [hc, List.cons_append, List.cons_append, scanLiteral, ih, List.append_assoc, List.singleton_append]
      case isFalse hc =>
          rw [List.cons_append, scanLiteral.eq_4 _ c _ (fun _ h => absurd h hc) hc, ih, List.append_assoc,
            List.singleton_append]

/-- A string constant is read back, unless one more quote stands behind it. -/
theorem scan_quotedString (t : String) (h : rest.head? ≠ some '\'') :
    scan ((Literal.quotedString t).toList ++ rest) = Scanned.behind ['\'', '\''] [t] (scan rest) := by
  have hclosing : ∀ ds, rest ≠ '\'' :: ds := by
    rintro ds rfl
    exact h rfl
  rw [Literal.quotedString, String.toList_ofList, List.cons_append, List.cons_append, scan,
    List.append_assoc, scanLiteral_doubledQuotes, List.nil_append, List.singleton_append,
    scanLiteral.eq_3 _ _ hclosing, Scanned.behind_behind, String.ofList_toList]
  rfl

end

/-! How operators lay out their arguments. -/

namespace Piece

/-- Parts one after the other, with words in front of them and behind them, and words that are not empty between
them. -/
inductive Laid (W : String → Prop) : List (List Piece) → List Piece → Prop
  | nil : Laid W [] []
  | part (ps : List Piece) : Laid W [ps] ps
  | front {w : String} {ls : List (List Piece)} {ps : List Piece} (hw : W w) (h : Laid W ls ps) :
      Laid W ls (word w :: ps)
  | behind {w : String} {ls : List (List Piece)} {ps : List Piece} (hw : W w) (h : Laid W ls ps) :
      Laid W ls (ps ++ [word w])
  | between {w : String} {ls ks : List (List Piece)} {ps qs : List Piece} (hw : W w) (hne : w ≠ "")
      (h : Laid W ls ps) (h' : Laid W ks qs) : Laid W (ls ++ ks) (ps ++ word w :: qs)

namespace Laid

section

variable {W : String → Prop} {w : String} {f : Nat × List Piece → List Piece}

theorem enclosed (hopening : W "(") (hclosing : W ")") (around own : Nat) (ps : List Piece) :
    Laid W [ps] (enclosed around own ps) := by
  rw [Piece.enclosed]
  split
  · exact ((part ps).front hopening).behind hclosing
  · exact part ps

theorem front_all {ls : List (List Piece)} {ps : List Piece} (h : Laid W ls ps) :
    ∀ {ws : List String}, (∀ x ∈ ws, W x) → Laid W ls (ws.map word ++ ps)
  | [], _ => h
  | x :: ws, hws => by
      rw [List.forall_mem_cons] at hws
      exact (h.front_all hws.2).front hws.1

variable (hw : W w) (hne : w ≠ "") (hf : ∀ a, Laid W [a.2] (f a))
include hw hne hf

/-- Arguments with some words between them. -/
theorem intercalate {ws : List String} (hws : ∀ x ∈ ws, W x) : ∀ args : List (Nat × List Piece),
    Laid W (args.map (·.2)) (((w :: ws).map word).intercalate (args.map f))
  | [] => .nil
  | [a] => by
      rw [List.map_singleton, List.map_singleton, List.intercalate_singleton]
      exact hf a
  | a :: b :: args => by
      have hrest := (intercalate hws (b :: args)).front_all hws
      simpa [List.intercalate_cons_cons] using (hf a).between hw hne hrest

/-- Arguments with a word between them. -/
theorem separated (args : List (Nat × List Piece)) :
    Laid W (args.map (·.2)) ([word w].intercalate (args.map f)) := by
  have hnone : ∀ x ∈ ([] : List String), W x := fun _ h => nomatch h
  exact intercalate hw hne hf hnone args

/-- Arguments with a word behind each. -/
theorem each_behind : ∀ args : List (Nat × List Piece),
    Laid W (args.map (·.2)) ((args.map f).flatMap (· ++ [word w]))
  | [] => .nil
  | a :: args => by simpa using (hf a).between hw hne (each_behind args)

/-- Arguments with a word in front of each but the first. -/
theorem chain : ∀ (a : Nat × List Piece) (args : List (Nat × List Piece)),
    Laid W (a.2 :: args.map (·.2)) (f a ++ (args.map f).flatMap (word w :: ·))
  | a, [] => by simpa using hf a
  | a, b :: args => by simpa using (hf a).between hw hne (chain b args)

/-- Arguments with a word in front of each. -/
theorem each_before : ∀ args : List (Nat × List Piece),
    Laid W (args.map (·.2)) ((args.map f).flatMap (word w :: ·))
  | [] => .nil
  | a :: args => (chain hw hne hf a args).front hw

end

end Laid

end Piece

namespace Operator

/-- The words an operator puts around its arguments. -/
def Prints (op : Operator) (w : String) : Prop :=
  w = op.symbol ∨ w ∈ [" ", "(", ")", ",", "(DISTINCT ", " IN ("]

open Piece (Laid)

/-- An operator prints its arguments in order, with its own words around them. -/
theorem arrange_laid (op : Operator) (args : List (Nat × List Piece)) :
    Laid op.Prints (args.map (·.2)) (op.arrange args) := by
  have hown : ∀ a : Nat × List Piece, Laid op.Prints [a.2] (Piece.enclosed op.precedence a.1 a.2) :=
    fun a => .enclosed (.inr (by decide)) (.inr (by decide)) _ _ a.2
  have hblank : op.Prints " " := .inr (by decide)
  have hlist : ∀ list : List (Nat × List Piece),
      Laid op.Prints (list.map (·.2)) ([Piece.word ","].intercalate (list.map (·.2))) :=
    Laid.separated (.inr (by decide)) (by decide) fun a => .part a.2
  rw [arrange.eq_def]
  cases hfixity : op.fixity with
  | before => exact (Laid.each_before hblank (by decide) hown args).front (.inl rfl)
  | behind => exact (Laid.each_behind hblank (by decide) hown args).behind (.inl rfl)
  | call =>
      refine (((hlist args).front (.inr ?_)).front (.inl rfl)).behind (.inr (by decide))
      split <;> decide
  | between =>
      refine Laid.separated (.inl rfl) ?_ hown args
      cases op <;> first | decide | cases hfixity
  | spaced =>
      by_cases hin : op = .isIn
      · simp only [hin, if_true]
        cases args with
        | nil => exact .nil
        | cons a list =>
            have hvalue := hown a
            rw [hin] at hvalue hlist
            exact (hvalue.between (.inr (by decide)) (by decide) (hlist list)).behind (.inr (by decide))
      · simp only [hin, if_false]
        have hwords : ∀ x ∈ [op.symbol, " "], op.Prints x :=
          List.forall_mem_cons.mpr ⟨.inl rfl, List.forall_mem_singleton.mpr hblank⟩
        exact Laid.intercalate hblank (by decide) hown hwords args

theorem not_mem_of_prints {op : Operator} {w : String} (hop : '\'' ∉ op.symbol.toList) (hw : op.Prints w) :
    '\'' ∉ w.toList := by
  have hwords : ∀ x ∈ [" ", "(", ")", ",", "(DISTINCT ", " IN ("], '\'' ∉ x.toList := by decide
  rcases hw with rfl | hw
  · exact hop
  · exact hwords w hw

end Operator

/-! Pieces and their string constants. -/

namespace Piece

/-- What a piece prints outside string literals. -/
def outside : Piece → List Char
  | literal (.string _) => ['\'', '\'']
  | p => p.text.toList

/-- The string constant that a piece is. -/
def string? : Piece → Option String
  | literal (.string t) => some t
  | _ => none

/-- What some pieces print outside string literals. -/
def outsideAll (ps : List Piece) : List Char := ps.flatMap outside

/-- The string constants among some pieces. -/
def strings (ps : List Piece) : List String := ps.filterMap string?

/-- The text of some pieces is taken apart into what they print outside string literals and their string
constants, unless a quote stands behind it. -/
def Scans (ps : List Piece) : Prop :=
  ∀ rest : List Char, rest.head? ≠ some '\'' →
    scan ((textAll ps).toList ++ rest) = Scanned.behind (outsideAll ps) (strings ps) (scan rest)

/-- A piece without any single quote. -/
def Unquoted (p : Piece) : Prop := p.string? = none ∧ '\'' ∉ p.text.toList

variable {W : String → Prop} {w : String} {p : Piece} {ps qs : List Piece} {ls : List (List Piece)}

@[simp]
theorem outsideAll_nil : outsideAll [] = [] := rfl

@[simp]
theorem outsideAll_append (ps qs : List Piece) : outsideAll (ps ++ qs) = outsideAll ps ++ outsideAll qs :=
  List.flatMap_append

@[simp]
theorem outsideAll_word (w : String) (ps : List Piece) :
    outsideAll (word w :: ps) = w.toList ++ outsideAll ps := rfl

theorem strings_append (ps qs : List Piece) : strings (ps ++ qs) = strings ps ++ strings qs :=
  List.filterMap_append

theorem strings_word (w : String) (ps : List Piece) : strings (word w :: ps) = strings ps := rfl

theorem outside_of_string?_eq_none (h : p.string? = none) : p.outside = p.text.toList := by
  cases p with
  | literal v =>
      cases v with
      | string t => cases h
      | _ => rfl
  | _ => rfl

/-- The string constants of parts stay in order. -/
theorem Laid.strings_eq (h : Laid W ls ps) : strings ps = ls.flatMap strings := by
  induction h with
  | nil => rfl
  | part ps => exact (List.flatMap_singleton _ _).symm
  | front hw h ih => exact ih
  | behind hw h ih => exact ((strings_append _ _).trans (List.append_nil _)).trans ih
  | between hw hne h h' ih ih' => rw [strings_append, strings_word, ih, ih', List.flatMap_append]

namespace Scans

theorem nil : Scans [] := fun _ _ => (Scanned.behind_nil _).symm

theorem string (t : String) : Scans [.literal (.string t)] := by
  intro rest hrest
  have htext : (textAll [.literal (.string t)]).toList = (Literal.quotedString t).toList := by
    simp [textAll, text, Literal.sqlText]
  rw [htext, scan_quotedString t hrest]
  rfl

theorem cons (hp : p.Unquoted) (h : Scans ps) : Scans (p :: ps) := by
  intro rest hrest
  have houtside : outsideAll (p :: ps) = p.text.toList ++ outsideAll ps := by
    rw [outsideAll, List.flatMap_cons, outside_of_string?_eq_none hp.1]
    rfl
  have hstrings : strings (p :: ps) = strings ps := List.filterMap_cons_none hp.1
  rw [textAll, String.toList_append, List.append_assoc, scan_unquoted hp.2, h rest hrest,
    Scanned.behind_behind, houtside, hstrings]
  rfl

theorem of_forall (h : ∀ p ∈ ps, p.Unquoted) : Scans ps := by
  induction ps with
  | nil => exact nil
  | cons p ps ih =>
      rw [List.forall_mem_cons] at h
      exact cons h.1 (ih h.2)

/-- Pieces follow others, unless they begin with a quote. -/
theorem append (h : Scans ps) (h' : Scans qs) (hq : (textAll qs).toList.head? ≠ some '\'') :
    Scans (ps ++ qs) := by
  intro rest hrest
  have hhead : ((textAll qs).toList ++ rest).head? ≠ some '\'' := by
    rw [List.head?_append]
    cases hcs : (textAll qs).toList.head? with
    | none => exact hrest
    | some c => rwa [hcs] at hq
  rw [textAll_append, String.toList_append, List.append_assoc, h _ hhead, h' rest hrest,
    Scanned.behind_behind, outsideAll_append, strings_append]

/-- No literal runs into the next one if words without quotes stand between them. -/
theorem of_laid (hW : ∀ {w}, W w → '\'' ∉ w.toList) (h : Laid W ls ps) (hls : ∀ l ∈ ls, Scans l) :
    Scans ps := by
  have hword : ∀ {w}, W w → (word w).Unquoted := fun hw => ⟨rfl, hW hw⟩
  induction h with
  | nil => exact nil
  | part ps => exact hls ps List.mem_cons_self
  | front hw h ih => exact cons (hword hw) (ih hls)
  | @behind w ls ps hw h ih =>
      refine (ih hls).append (cons (hword hw) nil) fun hhead => hW hw ?_
      rw [textAll_word] at hhead
      exact List.mem_of_mem_head? hhead
  -- The word is not empty, so it keeps a quote at the end of one part from a quote at the beginning of the next.
  | @between w ls ks ps qs hw hne h h' ih ih' =>
      rw [List.forall_mem_append] at hls
      refine (ih hls.1).append (cons (hword hw) (ih' hls.2)) fun hhead => hW hw ?_
      obtain ⟨c, cs, hcs⟩ := List.exists_cons_of_ne_nil (mt String.toList_eq_nil_iff.mp hne)
      rw [textAll, text, String.toList_append, hcs, List.cons_append, List.head?_cons] at hhead
      rw [hcs, Option.some.inj hhead]
      exact List.mem_cons_self

end Scans

end Piece

/-! The texts of constants. -/

/-- Characters of numbers and of words for constants. -/
def Literal.Plain (cs : List Char) : Prop := ∀ c ∈ cs, c.isAlphanum = true ∨ c = '.'

instance : DecidablePred Literal.Plain := fun cs =>
  List.decidableBAll (fun c : Char => c.isAlphanum = true ∨ c = '.') cs

/-- Whether a constant prints with a sign. -/
def Literal.isSigned : Literal → Bool
  | integer i => decide (i < 0)
  | double x => !x.isNaN && x.isNegative
  | _ => false

namespace Decimal

open Literal (Plain)

theorem plain_digits (n : Nat) : Plain (Nat.toDigits 10 n) := by
  intro c hc
  have hdigit := Nat.isDigit_of_mem_toDigits (by decide) (by decide) hc
  exact .inl (by rw [Char.isAlphanum, hdigit, Bool.or_true])

theorem plain_zeros (n : Nat) : Plain (List.replicate n '0') := by
  intro c hc
  rw [List.eq_of_mem_replicate hc]
  decide

theorem plain_parts (d : Decimal) : Plain d.parts.1 ∧ Plain d.parts.2 := by
  have hdigits : Plain d.digitText := plain_digits d.digits
  rw [parts]
  split
  · exact ⟨List.forall_mem_append.mpr ⟨hdigits, plain_zeros _⟩, fun _ h => nomatch h⟩
  · dsimp only
    split
    · exact ⟨fun c hc => hdigits c (List.mem_of_mem_take hc), fun c hc => hdigits c (List.mem_of_mem_drop hc)⟩
    · exact ⟨List.forall_mem_singleton.mpr (by decide), List.forall_mem_append.mpr ⟨plain_zeros _, hdigits⟩⟩

theorem parts_ne_nil (d : Decimal) : d.parts.1 ≠ [] := by
  have hdigits : d.digitText ≠ [] := Nat.toDigits_ne_nil
  rw [parts]
  split
  · exact List.append_ne_nil_of_left_ne_nil hdigits _
  · dsimp only
    split
    case isTrue hlt =>
        rw [ne_eq, List.take_eq_nil_iff, not_or]
        exact ⟨Nat.sub_ne_zero_of_lt hlt, hdigits⟩
    case isFalse => exact List.cons_ne_nil _ _

theorem exists_positional (d : Decimal) :
    ∃ c cs, d.positional.toList = c :: cs ∧ Plain (c :: cs) := by
  obtain ⟨c, cs, hwhole⟩ := List.exists_cons_of_ne_nil d.parts_ne_nil
  obtain ⟨hleft, hright⟩ := d.plain_parts
  rw [hwhole] at hleft
  rw [positional]
  split
  case h_1 whole heq =>
      rw [heq] at hwhole
      exact ⟨c, cs, by rw [String.toList_ofList, ← hwhole], hleft⟩
  case h_2 whole fraction _ heq =>
      rw [heq] at hwhole hright
      refine ⟨c, cs ++ '.' :: fraction, ?_, ?_⟩
      · rw [String.toList_ofList, ← List.cons_append, ← hwhole]
      · exact List.forall_mem_append.mpr ⟨hleft, List.forall_mem_cons.mpr ⟨.inr rfl, hright⟩⟩

end Decimal

namespace Literal

/-- The text of a constant that is no string: a sign if there is one, and then no other sign. -/
theorem exists_bareText (v : Literal) (hv : ∀ t, v ≠ .string t) : ∃ c cs, Plain (c :: cs) ∧
    v.bareText.toList = if v.isSigned then '-' :: c :: cs else c :: cs := by
  have hnat : ∀ n : Nat, ∃ c cs, Plain (c :: cs) ∧ (toString n).toList = c :: cs := by
    intro n
    obtain ⟨c, cs, hn⟩ := List.exists_cons_of_ne_nil (Nat.toDigits_ne_nil (n := n) (b := 10))
    have hplain := Decimal.plain_digits n
    rw [hn] at hplain
    exact ⟨c, cs, hplain, (Nat.toList_repr).trans hn⟩
  cases v with
  | string t => exact absurd rfl (hv t)
  | integer i =>
      cases i with
      | ofNat n =>
          obtain ⟨c, cs, hplain, htext⟩ := hnat n
          exact ⟨c, cs, hplain, htext⟩
      | negSucc n =>
          obtain ⟨c, cs, hplain, htext⟩ := hnat (n + 1)
          refine ⟨c, cs, hplain, ?_⟩
          show ("-" ++ toString (n + 1)).toList = _
          rw [String.toList_append, htext, isSigned, if_pos (decide_eq_true (Int.negSucc_lt_zero n))]
          rfl
  | double x =>
      have hsigned : ∀ text : String, ∀ {c : Char} {cs : List Char}, text.toList = c :: cs →
          (x.signed text).toList = if x.isNegative then '-' :: c :: cs else c :: cs := by
        intro text c cs htext
        rw [Double.signed]
        split
        · rw [String.toList_append, htext]
          rfl
        · exact htext
      rw [bareText, Double.plainText, isSigned]
      split
      case isTrue hnan => exact ⟨'N', ['a', 'N'], by decide, by simp [hnan]⟩
      case isFalse hnumber =>
          simp only [hnumber, Bool.not_false, Bool.true_and]
          split
          · exact ⟨'i', ['n', 'f'], by decide, hsigned "inf" rfl⟩
          · split
            · exact ⟨'0', [], by decide, hsigned "0" rfl⟩
            · obtain ⟨c, cs, htext, hplain⟩ := (x.shortest .up).exists_positional
              exact ⟨c, cs, hplain, hsigned _ htext⟩
  | boolean b =>
      cases b with
      | true => exact ⟨'T', ['R', 'U', 'E'], by decide, rfl⟩
      | false => exact ⟨'F', ['A', 'L', 'S', 'E'], by decide, rfl⟩
  | null => exact ⟨'N', ['U', 'L', 'L'], by decide, rfl⟩

end Literal

theorem Piece.scans_literal (v : Literal) : Scans [.literal v] := by
  by_cases hv : ∃ t, v = .string t
  · obtain ⟨t, rfl⟩ := hv
    exact .string t
  · rw [not_exists] at hv
    obtain ⟨c, cs, hplain, htext⟩ := v.exists_bareText hv
    have hbare : '\'' ∉ v.bareText.toList := by
      have hquote : '\'' ∉ c :: cs := fun h => absurd (hplain _ h) (by decide)
      rw [htext]
      split
      · exact List.not_mem_cons_of_ne_of_not_mem (by decide) hquote
      · exact hquote
    refine .cons ?_ .nil
    cases v with
    | string t => exact absurd rfl (hv t)
    | _ => exact ⟨rfl, hbare⟩

/-! Expressions without quotes in their names. -/

namespace Expr

mutual

/-- The string constants of an expression, from left to right. -/
def strings : Expr → List String
  | literal v => (Piece.string? (.literal v)).toList
  | apply _ args => stringsAll args
  | within _ e => e.strings
  | column _ => []
  | star _ => []
  | projected _ _ _ => []
  | pinned _ _ => []
  | view _ => []

/-- The string constants of all arguments. -/
def stringsAll : List Expr → List String
  | [] => []
  | e :: es => e.strings ++ stringsAll es

end

end Expr

mutual

/-- An expression of operators, constants and leaves, whatever their arguments and whether or not they resolve,
without single quotes in the names of its functions and columns, in the quotes of identifiers and in the aliases
its leaves print with. -/
inductive Expr.Unquoted : Scope → Expr → Prop
  | literal {s : Scope} (v : Literal) : Expr.Unquoted s (.literal v)
  | apply {s : Scope} {op : Operator} {args : List Expr} (hop : '\'' ∉ op.symbol.toList)
      (h : Expr.AllUnquoted s args) : Expr.Unquoted s (.apply op args)
  | leaf {s : Scope} {e : Expr} (he : e.isLeaf = true)
      (hlabel : ∀ a, s.labelOf? e = some a → '\'' ∉ a.toList)
      (hname : ∀ name d, e.reference? = some (name, d) →
        '\'' ∉ name.toList ∧ '\'' ∉ d.identifierQuote.toList) : Expr.Unquoted s e
  | within {s s' : Scope} {e : Expr} (h : Expr.Unquoted s' e) : Expr.Unquoted s (.within s' e)

/-- The same of all arguments. -/
inductive Expr.AllUnquoted : Scope → List Expr → Prop
  | nil {s : Scope} : Expr.AllUnquoted s []
  | cons {s : Scope} {e : Expr} {es : List Expr} (h : Expr.Unquoted s e) (hs : Expr.AllUnquoted s es) :
      Expr.AllUnquoted s (e :: es)

end

section

variable {c : Catalog} {s : Scope} {e : Expr}

theorem Dialect.not_mem_identifier {x : Char} {d : Dialect} {name : String} (hname : x ∉ name.toList)
    (hquote : x ∉ d.identifierQuote.toList) : x ∉ (d.identifier name).toList := by
  rw [identifier]
  split
  · simp [hname, hquote]
  · exact hname

theorem Piece.not_mem_qualification {x : Char} (hx : x ≠ '.') {q : Option String}
    (hq : ∀ a, q = some a → x ∉ a.toList) : x ∉ (qualification q).toList := by
  cases q with
  | none => exact List.not_mem_nil
  | some a => simp [qualification, hq a rfl, hx]

theorem Expr.unquoted_leafPieces {q : Option String} (hq : ∀ a, q = some a → '\'' ∉ a.toList)
    (hname : ∀ name d, e.reference? = some (name, d) →
      '\'' ∉ name.toList ∧ '\'' ∉ d.identifierQuote.toList) :
    ∀ p ∈ leafPieces q e.unpinned, p.Unquoted := by
  have hqualifier := Piece.not_mem_qualification (x := '\'') (by decide) hq
  have hreference : ∀ name d, e.reference? = some (name, d) →
      (Piece.reference q name d).Unquoted := by
    intro name d h
    refine ⟨rfl, ?_⟩
    rw [Piece.text, String.toList_append, List.mem_append, not_or]
    exact ⟨hqualifier, Dialect.not_mem_identifier (hname name d h).1 (hname name d h).2⟩
  rw [reference?] at hreference
  cases hleaf : e.unpinned with
  | column col =>
      rw [hleaf] at hreference
      exact List.forall_mem_singleton.mpr (hreference _ _ rfl)
  | star v =>
      refine List.forall_mem_singleton.mpr ⟨rfl, ?_⟩
      rw [Piece.text, String.toList_append, List.mem_append, not_or]
      exact ⟨hqualifier, by decide⟩
  | projected v name d =>
      cases name with
      | some name =>
          rw [hleaf] at hreference
          exact List.forall_mem_singleton.mpr (hreference _ _ rfl)
      | none => exact List.forall_mem_singleton.mpr ⟨rfl, List.not_mem_nil⟩
  | _ => exact List.forall_mem_singleton.mpr ⟨rfl, List.not_mem_nil⟩

theorem Expr.unquoted_leafPiecesIn (hlabel : ∀ a, s.labelOf? e = some a → '\'' ∉ a.toList)
    (hname : ∀ name d, e.reference? = some (name, d) →
      '\'' ∉ name.toList ∧ '\'' ∉ d.identifierQuote.toList) :
    ∀ p ∈ leafPiecesIn s e, p.Unquoted := by
  rw [leafPiecesIn]
  rw [Scope.labelOf?] at hlabel
  cases hm : s.resolveLeaf e with
  | ok m =>
      rw [hm] at hlabel
      exact unquoted_leafPieces (fun a ha => hlabel a ha) hname
  | error cause =>
      refine List.forall_mem_cons.mpr ⟨⟨rfl, List.not_mem_nil⟩, ?_⟩
      exact unquoted_leafPieces (fun _ h => absurd h.symm (Option.some_ne_none _)) hname

mutual

/-- The text of an expression is taken apart into its pieces. -/
theorem Expr.Unquoted.scans : ∀ {s : Scope} {e : Expr}, e.Unquoted s → Piece.Scans (e.pieces c s)
  | _, _, .literal v => Piece.scans_literal v
  | _, _, .apply hop h => by
      refine .of_laid (Operator.not_mem_of_prints hop) (Operator.arrange_laid _ _) fun l hl => ?_
      obtain ⟨a, ha, rfl⟩ := List.mem_map.mp hl
      exact h.scans a ha
  | _, _, .leaf he hlabel hname => by
      rw [pieces_of_isLeaf he]
      exact .of_forall (unquoted_leafPiecesIn hlabel hname)
  | _, _, .within h => by
      rw [pieces]
      exact h.scans

theorem Expr.AllUnquoted.scans : ∀ {s : Scope} {es : List Expr}, Expr.AllUnquoted s es →
    ∀ a ∈ piecesAll c s es, Piece.Scans a.2
  | _, _, .nil => fun _ h => nomatch h
  | _, _, .cons h hs => List.forall_mem_cons.mpr ⟨h.scans, hs.scans⟩

end

mutual

/-- The pieces of an expression have its string constants. -/
theorem Expr.Unquoted.strings_pieces : ∀ {s : Scope} {e : Expr}, e.Unquoted s →
    Piece.strings (e.pieces c s) = e.strings
  | _, _, .literal v => rfl
  | _, _, .apply hop h => by
      rw [pieces, (Operator.arrange_laid _ _).strings_eq, List.flatMap_map]
      exact h.strings_pieces
  | _, e, .leaf he hlabel hname => by
      have hleaf : e.strings = [] := by cases e <;> first | rfl | cases he
      rw [pieces_of_isLeaf he, hleaf]
      exact List.filterMap_eq_nil_iff.mpr fun p hp => (unquoted_leafPiecesIn hlabel hname p hp).1
  | _, _, .within h => by
      rw [pieces]
      exact h.strings_pieces

theorem Expr.AllUnquoted.strings_pieces : ∀ {s : Scope} {es : List Expr}, Expr.AllUnquoted s es →
    ((piecesAll c s es).flatMap fun a => Piece.strings a.2) = Expr.stringsAll es
  | _, _, .nil => rfl
  | _, _, .cons h hs => by
      rw [piecesAll, List.flatMap_cons, h.strings_pieces, hs.strings_pieces, Expr.stringsAll]

end

/-- What the text of an expression shows outside of its string constants: of each of these its two quotes
stay. -/
def Expr.outside (c : Catalog) (s : Scope) (e : Expr) : List Char := Piece.outsideAll (e.pieces c s)

theorem Expr.Unquoted.scan_textAll (h : e.Unquoted s) :
    scan (textAll (e.pieces c s)).toList = some ⟨e.outside c s, e.strings⟩ := by
  have hscan := h.scans (c := c) [] (fun h => nomatch h)
  rw [List.append_nil] at hscan
  rw [hscan, ← h.strings_pieces (c := c)]
  simp [scan, Scanned.behind, Expr.outside]

/-- The text of an expression has the string constants of the expression as its literals, in order and with
all their characters, and no literal is open at its end. -/
theorem Expr.Unquoted.literals_kept (c : Catalog) (h : e.Unquoted s) :
    scan (({} : Printout).putAll (e.pieces c s)).text.toList = some ⟨e.outside c s, e.strings⟩ := by
  rw [Printout.putAll_text, String.empty_append, h.scan_textAll]

/-- Constants with quotes at both ends, an empty one and ones of quotes only, joined and compared with a column. -/
theorem Expr.quotes_at_ends_kept : ∃ (s : Scope) (e : Expr), e.Unquoted s
    ∧ (({} : Printout).putAll (e.pieces {} s)).text = "p.name='''it''s'''||''||''''''||''''"
    ∧ scan "p.name='''it''s'''||''||''''''||''''".toList =
      some ⟨"p.name=''||''||''||''".toList, ["'it's'", "", "''", "'"]⟩ := by
  let people : Table := ⟨0, "People", {}⟩
  let s : Scope := [⟨0, .table people, "p"⟩]
  let joined : Expr := .apply .concat
    [.literal (.string "'it's'"), .literal (.string ""), .literal (.string "''"), .literal (.string "'")]
  let e : Expr := .apply .equals [.column ⟨people, "name"⟩, joined]
  have hname : (Expr.column ⟨people, "name"⟩).Unquoted s := by
    refine .leaf rfl (fun a ha => ?_) (fun name d h => ?_)
    · have hlabel : s.labelOf? (.column ⟨people, "name"⟩) = some "p" := by cbv
      obtain rfl := Option.some.inj (hlabel.symm.trans ha)
      decide
    · cases h
      decide
  have hjoined : joined.Unquoted s :=
    .apply (by decide) (.cons (.literal _) (.cons (.literal _) (.cons (.literal _) (.cons (.literal _) .nil))))
  have he : e.Unquoted s := .apply (by decide) (.cons hname (.cons hjoined .nil))
  have htext : (({} : Printout).putAll (e.pieces {} s)).text = "p.name='''it''s'''||''||''''''||''''" := by cbv
  have houtside : e.outside {} s = "p.name=''||''||''||''".toList := by cbv
  refine ⟨s, e, he, htext, ?_⟩
  rw [← htext, he.literals_kept, houtside]
  rfl

end

end SqlCompose
