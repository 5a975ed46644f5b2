import SqlCompose.Proofs.Reading.Printed
import SqlCompose.Proofs.Runs

/-!
Statements nested in the text of a statement, and the parentheses around them. A source and an operand get
parentheses of their own, and the only argument of a function or the only entry of a membership test stands in
those of the call. Nothing is put around a statement elsewhere: a projection, a single predicate, a grouping, the
value of a membership test and the parts of a join used as a value print a statement as it is.
-/

namespace SqlCompose

/-- A part of a text with what stands in front of it and behind it. -/
structure Excerpt where
  front : String
  text : String
  rest : String

namespace Excerpt

/-- An opening parenthesis stands right in front, and a closing one right behind. -/
def InParentheses (x : Excerpt) : Prop :=
  x.front.toList.getLast? = some '(' ∧ x.rest.toList.head? = some ')'

instance : DecidablePred InParentheses := fun x =>
  inferInstanceAs (Decidable (x.front.toList.getLast? = some '(' ∧ x.rest.toList.head? = some ')'))

end Excerpt

namespace Piece

mutual

/-- The nested statements in the text of a piece, at any depth, given what stands around the piece. -/
def nested (front rest : String) : Piece → List Excerpt
  | statement body => ⟨front, textAll body, rest⟩ :: nestedAll front rest body
  | _ => []

/-- The nested statements in the text of some pieces. -/
def nestedAll (front rest : String) : List Piece → List Excerpt
  | [] => []
  | x :: xs => x.nested front (textAll xs ++ rest) ++ nestedAll (front ++ x.text) rest xs

end

theorem nestedAll_append : ∀ (ps qs : List Piece) (front rest : String), nestedAll front rest (ps ++ qs)
    = nestedAll front (textAll qs ++ rest) ps ++ nestedAll (front ++ textAll ps) rest qs
  | [], qs, front, rest => by simp [nestedAll, textAll]
  | x :: ps, qs, front, rest => by
      rw [List.cons_append, nestedAll, nestedAll, nestedAll_append ps qs, textAll_append, textAll,
        List.append_assoc, String.append_assoc, String.append_assoc]

mutual

theorem nested_split : ∀ (p : Piece) (front rest : String), ∀ x ∈ p.nested front rest,
    front ++ p.text ++ rest = x.front ++ x.text ++ x.rest
  | statement body, front, rest, x, hx => by
      rw [nested] at hx
      rw [text]
      rcases List.mem_cons.mp hx with rfl | hx
      · rfl
      · exact nestedAll_split body front rest x hx
  | word _, _, _, _, hx => nomatch hx
  | literal _, _, _, _, hx => nomatch hx
  | name _ _, _, _, _, hx => nomatch hx
  | label _, _, _, _, hx => nomatch hx
  | reference _ _ _, _, _, _, hx => nomatch hx
  | star _, _, _, _, hx => nomatch hx
  | fault _, _, _, _, hx => nomatch hx
  | faultHere _, _, _, _, hx => nomatch hx

/-- A nested statement, with what stands around it, makes up the whole text. -/
theorem nestedAll_split : ∀ (ps : List Piece) (front rest : String), ∀ x ∈ nestedAll front rest ps,
    front ++ textAll ps ++ rest = x.front ++ x.text ++ x.rest
  | [], _, _, _, hx => nomatch hx
  | p :: ps, front, rest, x, hx => by
      rw [textAll]
      rcases List.mem_append.mp hx with hx | hx
      · rw [← nested_split p front _ x hx]
        simp only [String.append_assoc]
      · rw [← nestedAll_split ps _ rest x hx]
        simp only [String.append_assoc]

end

/-! Pieces whose nested statements are in parentheses or not, by what stands around the pieces. -/

/-- Whether the nested statements of some pieces are in parentheses, by whether the pieces themselves are. -/
def Fences (f : Bool → Bool) (ps : List Piece) : Prop :=
  ∀ front rest, (∀ x ∈ nestedAll front rest ps, x.InParentheses)
    ↔ f (decide (Excerpt.InParentheses ⟨front, textAll ps, rest⟩)) = true

/-- The same where it makes no difference what stands around. -/
abbrev Steady (b : Bool) (ps : List Piece) : Prop := Fences (fun _ => b) ps

theorem nestedAll_word (w : String) (ps : List Piece) (front rest : String) :
    nestedAll front rest (.word w :: ps) = nestedAll (front ++ w) rest ps := rfl

theorem getLast?_front {w : String} (hne : w ≠ "") (front : String) :
    (front ++ w).toList.getLast? = w.toList.getLast? := by
  rw [String.toList_append, List.getLast?_append_of_ne_nil _ (mt String.toList_eq_nil_iff.mp hne)]

theorem head?_rest {w : String} (hne : w ≠ "") (ps : List Piece) (rest : String) :
    (textAll (.word w :: ps) ++ rest).toList.head? = w.toList.head? := by
  rw [textAll, text, String.append_assoc, String.toList_append,
    List.head?_append_of_ne_nil _ (mt String.toList_eq_nil_iff.mp hne)]

namespace Fences

section

variable {f : Bool → Bool} {a b : Bool} {ps qs : List Piece} {w : String}

theorem congr (h : Fences f ps) {g : Bool → Bool} (hfg : ∀ d, f d = g d) : Fences g ps :=
  funext hfg ▸ h

theorem nil : Steady true [] := fun _ _ => iff_of_true (fun _ hx => nomatch hx) rfl

/-- Pieces without a nested statement. -/
theorem of_flat (h : ∀ x ∈ ps, ∀ body, x ≠ .statement body) : Steady true ps := by
  intro front rest
  refine iff_of_true ?_ rfl
  induction ps generalizing front with
  | nil => exact fun _ hx => nomatch hx
  | cons p ps ih =>
      rw [List.forall_mem_cons] at h
      rw [nestedAll, List.forall_mem_append]
      refine ⟨fun x hx => ?_, ih h.2 _⟩
      cases p with
      | statement body => exact absurd rfl (h.1 body)
      | _ => exact nomatch hx

theorem plain (w : String) : Steady true [.word w] :=
  of_flat (List.forall_mem_singleton.mpr fun _ heq => nomatch heq)

theorem statement (h : Steady b ps) : Fences (fun direct => direct && b) [.statement ps] := by
  intro front rest
  rw [nestedAll, nestedAll, List.append_nil, nested, List.forall_mem_cons, textAll, String.empty_append,
    h front rest, Bool.and_eq_true, decide_eq_true_iff]
  exact Iff.rfl

theorem append (hp : Steady a ps) (hq : Steady b qs) : Steady (a && b) (ps ++ qs) := by
  intro front rest
  rw [nestedAll_append, List.forall_mem_append, hp, hq, Bool.and_eq_true]

theorem prepend (h : Steady b ps) (w : String) : Steady b (.word w :: ps) :=
  ((plain w).append h).congr fun _ => Bool.true_and _

theorem postpend (h : Steady b ps) (w : String) : Steady b (ps ++ [.word w]) :=
  (h.append (plain w)).congr fun _ => Bool.and_true _

/-- Pieces behind a word. -/
theorem behind (h : Fences f ps) (hne : w ≠ "") (hw : w.toList.getLast? ≠ some '(') :
    Steady (f false) (.word w :: ps) := by
  intro front rest
  have hout : ¬ Excerpt.InParentheses ⟨front ++ w, textAll ps, rest⟩ :=
    fun hin => hw (getLast?_front hne front ▸ hin.1)
  rw [nestedAll_word, h, decide_eq_false hout]

/-- Pieces in front of a word. -/
theorem before (h : Fences f ps) (hne : w ≠ "") (hw : w.toList.head? ≠ some ')')
    (hq : Steady b (.word w :: qs)) : Steady (f false && b) (ps ++ .word w :: qs) := by
  intro front rest
  have hout : ¬ Excerpt.InParentheses ⟨front, textAll ps, textAll (.word w :: qs) ++ rest⟩ :=
    fun hin => hw (head?_rest hne qs rest ▸ hin.2)
  rw [nestedAll_append, List.forall_mem_append, h, hq, decide_eq_false hout, Bool.and_eq_true]

/-- Pieces between a word and a closing parenthesis. -/
theorem closed (h : Fences f ps) (hne : w ≠ "") :
    Steady (f (w.toList.getLast? == some '(')) (.word w :: ps ++ [.word ")"]) := by
  intro front rest
  have hin : decide (Excerpt.InParentheses ⟨front ++ w, textAll ps, textAll [.word ")"] ++ rest⟩)
      = (w.toList.getLast? == some '(') := by
    rw [Bool.eq_iff_iff, decide_eq_true_iff, beq_iff_eq, Excerpt.InParentheses, getLast?_front hne front,
      head?_rest (by decide) [] rest]
    exact and_iff_left rfl
  rw [List.cons_append, nestedAll_word, nestedAll_append, List.forall_mem_append, h, hin, plain]
  exact and_iff_left rfl

theorem parenthesised (h : Fences f ps) : Steady (f true) (parenthesised ps) := h.closed (by decide)

/-- An operand: if it binds so tightly that it gets no parentheses, it makes no difference what stands around. -/
theorem enclosed (h : Fences f ps) (around own : Nat) (hf : own ≤ around → ∀ d, f d = f true) :
    Steady (f true) (enclosed around own ps) := by
  rw [Piece.enclosed]
  split
  case isTrue => exact h.parenthesised
  case isFalse htight => exact h.congr (hf (Nat.le_of_not_lt htight))

end

section

variable {α : Type} {g : α → Bool} {f : α → Bool → Bool} {p : α → List Piece}

theorem flatMap : ∀ {xs : List α}, (∀ x ∈ xs, Steady (g x) (p x)) → Steady (xs.all g) (xs.flatMap p)
  | [], _ => nil
  | x :: xs, h => by
      rw [List.forall_mem_cons] at h
      rw [List.all_cons, List.flatMap_cons]
      exact h.1.append (flatMap h.2)

theorem intercalate {sep : List Piece} (hsep : Steady true sep) : ∀ {xs : List α},
    (∀ x ∈ xs, Steady (g x) (p x)) → Steady (xs.all g) (sep.intercalate (xs.map p))
  | [], _ => nil
  | [x], h => by
      rw [List.map_singleton, List.intercalate_singleton]
      exact (List.forall_mem_singleton.mp h).congr fun _ => (Bool.and_true _).symm
  | x :: y :: xs, h => by
      rw [List.forall_mem_cons] at h
      rw [List.map_cons, List.map_cons, List.intercalate_cons_cons, List.all_cons]
      exact ((h.1.append hsep).congr fun _ => Bool.and_true _).append (intercalate hsep h.2)

/-- The entries of a list behind a comma. -/
theorem commas : ∀ {x : α} {xs : List α}, (∀ y ∈ x :: xs, Fences (f y) (p y)) →
    Steady ((x :: xs).all fun y => f y false) (.word "," :: [Piece.word ","].intercalate ((x :: xs).map p))
  | x, [], h => by
      rw [List.map_singleton, List.intercalate_singleton]
      exact ((List.forall_mem_singleton.mp h).behind (by decide) (by decide)).congr
        fun _ => (Bool.and_true _).symm
  | x, y :: xs, h => by
      rw [List.forall_mem_cons] at h
      rw [List.map_cons, List.map_cons, List.intercalate_cons_cons, List.all_cons, List.append_assoc]
      exact (h.1.behind (by decide) (by decide)).append (commas h.2)

/-- A list between a word and a closing parenthesis. Only a single entry stands right between them. -/
theorem closedList {w : String} (hne : w ≠ "") {xs : List α} (h : ∀ x ∈ xs, Fences (f x) (p x)) :
    Steady (xs.all fun x => f x (xs.length == 1 && w.toList.getLast? == some '('))
      (.word w :: [Piece.word ","].intercalate (xs.map p) ++ [.word ")"]) := by
  rcases xs with - | ⟨x, - | ⟨y, xs⟩⟩
  · exact (nil.postpend ")").prepend w
  · rw [List.map_singleton, List.intercalate_singleton]
    exact ((List.forall_mem_singleton.mp h).closed hne).congr fun _ => (Bool.and_true _).symm
  · rw [List.forall_mem_cons] at h
    have hmany : ((x :: y :: xs).length == 1) = false := rfl
    rw [hmany, Bool.false_and, List.map_cons, List.map_cons, List.intercalate_cons_cons, List.append_assoc,
      List.all_cons]
    exact ((h.1.before (by decide) (by decide) (commas h.2)).postpend ")").prepend w

end

end Fences

end Piece

/-! Where a statement has statements nested without parentheses. -/

namespace Operator

/-- Whether the first of so many arguments stands directly in parentheses when it is a statement. -/
def fencesFirst (op : Operator) (n : Nat) : Bool :=
  match op.fixity with
  | .call => n == 1 && op != countDistinct
  | _ => op != isIn

/-- Whether the other arguments do. -/
def fencesOthers (op : Operator) (n : Nat) : Bool :=
  match op.fixity with
  | .call => false
  | _ => op != isIn || n == 2

variable {op : Operator} {n : Nat}

theorem fencesFirst_operand (hin : op ≠ isIn) (hcall : op.fixity ≠ .call) : op.fencesFirst n = true := by
  rw [fencesFirst]
  split
  · contradiction
  · exact bne_iff_ne.mpr hin

theorem fencesOthers_operand (hin : op ≠ isIn) (hcall : op.fixity ≠ .call) : op.fencesOthers n = true := by
  rw [fencesOthers]
  split
  · contradiction
  · rw [bne_iff_ne.mpr hin, Bool.true_or]

end Operator

mutual

/-- Whether every statement nested in an expression stands in parentheses, by whether the expression does. -/
def Expr.fenced (direct : Bool) : Expr → Bool
  | .apply op args => Expr.fencedAll (op.fencesFirst args.length) (op.fencesOthers args.length) args
  | .within _ e => e.fenced direct
  | .view v => v.fenced direct
  | .literal _ => true
  | .column _ => true
  | .star _ => true
  | .projected _ _ _ => true
  | .pinned _ _ => true

/-- The same of all arguments, the first and the others. -/
def Expr.fencedAll (first others : Bool) : List Expr → Bool
  | [] => true
  | e :: es => e.fenced first && Expr.fencedAll others others es

/-- The same of a view. A statement needs the parentheses itself, and a join gives its parts none. -/
def View.fenced (direct : Bool) : View → Bool
  | .table _ => true
  | .concrete _ => true
  | .join _ ⟨_, _, t, e⟩ => t.fenced false && e.fenced false
  | .select _ q => direct && q.fenced

/-- Whether every statement nested in a statement stands in parentheses. -/
def Select.fenced : Select → Bool
  | ⟨_, f, p, w, h, g, _, _⟩ => Projection.fencedAll p && Source.fencedAll f
      && Condition.fencedAll (w.length != 1) w && Condition.fencedAll false g
      && Condition.fencedAll (h.length != 1) h

/-- The same of all projections, which get no parentheses. -/
def Projection.fencedAll : List Projection → Bool
  | [] => true
  | ⟨e, _, _⟩ :: ps => e.fenced false && Projection.fencedAll ps

/-- The same of all sources. -/
def Source.fencedAll : List Source → Bool
  | [] => true
  | ⟨v, a, s, o⟩ :: f => Source.fenced ⟨v, a, s, o⟩ && Source.fencedAll f

/-- The same of a source, which gets parentheses, and of its predicate, which gets none. -/
def Source.fenced : Source → Bool
  | ⟨.join _ ⟨_, _, t, _⟩, _, _, some e⟩ => t.fenced true && e.fenced false
  | ⟨v, _, _, _⟩ => v.fenced true

/-- The same of all conditions, which get parentheses or not. -/
def Condition.fencedAll (direct : Bool) : List Condition → Bool
  | [] => true
  | ⟨e, _⟩ :: cs => e.fenced direct && Condition.fencedAll direct cs

end

/-! The parentheses that are printed. -/

namespace Expr

theorem fencedAll_same (b : Bool) : ∀ es : List Expr, fencedAll b b es = es.all (·.fenced b)
  | [] => rfl
  | e :: es => by rw [fencedAll, fencedAll_same b es, List.all_cons]

/-- The arguments of a call stand directly in its parentheses if there is only one. -/
theorem fencedAll_call (b : Bool) : ∀ es : List Expr,
    fencedAll (es.length == 1 && b) false es = es.all (·.fenced (es.length == 1 && b))
  | [] => rfl
  | [_] => rfl
  | e :: e' :: es => fencedAll_same false (e :: e' :: es)

/-- What is no statement itself has its nested statements in parentheses or not wherever it stands. -/
theorem fenced_eq : ∀ {e : Expr}, e.precedence ≠ Precedence.statement → ∀ d d' : Bool, e.fenced d = e.fenced d'
  | .apply _ _, _, _, _ => rfl
  | .within _ e, h, d, d' => fenced_eq (e := e) h d d'
  | .view (.select _ _), h, _, _ => absurd rfl h
  | .view (.table _), _, _, _ => rfl
  | .view (.concrete _), _, _, _ => rfl
  | .view (.join _ ⟨_, _, _, _⟩), _, _, _ => rfl
  | .literal _, _, _, _ => rfl
  | .column _, _, _, _ => rfl
  | .star _, _, _, _ => rfl
  | .projected _ _ _, _, _, _ => rfl
  | .pinned _ _, _, _, _ => rfl

end Expr

theorem Projection.fencedAll_eq (ps : List Projection) :
    Projection.fencedAll ps = ps.all fun p => p.definition.fenced false := by
  induction ps with
  | nil => rfl
  | cons p ps ih => cases p; rw [fencedAll, ih, List.all_cons]

theorem Condition.fencedAll_eq (b : Bool) (cs : List Condition) :
    Condition.fencedAll b cs = cs.all fun k => k.expr.fenced b := by
  induction cs with
  | nil => rfl
  | cons k cs ih => cases k; rw [fencedAll, ih, List.all_cons]

theorem Operator.precedence_lt_statement {op : Operator} (h : op ≠ .isIn) :
    op.precedence < Precedence.statement := by
  cases op with
  | isIn => exact absurd rfl h
  | function name => exact Nat.lt_of_sub_eq_succ rfl
  | _ => decide

namespace Piece

open Fences

variable {c : Catalog} {s : Scope}

/-- Leaves have no statements in them. -/
theorem steady_leaf (s : Scope) (leaf : Expr) : Steady true (Expr.leafPiecesIn s leaf) := by
  have hplain : ∀ (q : Option String) (e : Expr), ∀ x ∈ Expr.leafPieces q e, ∀ body, x ≠ .statement body := by
    intro q e x hx body heq
    rw [Expr.leafPieces.eq_def] at hx
    split at hx <;> rw [List.mem_singleton.mp hx] at heq <;> cases heq
  refine of_flat ?_
  rw [Expr.leafPiecesIn, Expr.resolvedPieces.eq_def]
  split
  · exact hplain _ _
  · refine List.forall_mem_cons.mpr ⟨fun body heq => ?_, hplain _ _⟩
    cases heq

/-- An operator other than a call or a membership test gives its operands parentheses. -/
theorem steady_operand {op : Operator} (hop : op ≠ .isIn) {e : Expr}
    (h : Fences (e.fenced ·) (e.pieces c s)) :
    Steady (e.fenced true) (enclosed op.precedence e.precedence (e.pieces c s)) :=
  h.enclosed _ _ fun htight d =>
    Expr.fenced_eq (Nat.ne_of_lt (Nat.lt_of_le_of_lt htight (op.precedence_lt_statement hop))) d true

theorem map_snd_piecesAll (es : List Expr) : (Expr.piecesAll c s es).map (·.2) = es.map (·.pieces c s) := by
  rw [Expr.piecesAll_eq_map, List.map_map]
  rfl

/-- A membership test gives its value no parentheses when it is a statement, and its entries those of the list. -/
theorem steady_member : ∀ {es : List Expr}, (∀ e ∈ es, Fences (e.fenced ·) (e.pieces c s)) →
    Steady (Expr.fencedAll (Operator.isIn.fencesFirst es.length) (Operator.isIn.fencesOthers es.length) es)
      (Operator.isIn.arrange (Expr.piecesAll c s es))
  | [], _ => nil
  | e :: es, h => by
      rw [List.forall_mem_cons] at h
      have hothers : Operator.isIn.fencesOthers (e :: es).length = (es.length == 1) := by
        simp [Operator.fencesOthers, Operator.fixity]
      have hlist := closedList (w := " IN (") (by decide) h.2
      have hlast : (" IN (".toList.getLast? == some '(') = true := by decide
      rw [← map_snd_piecesAll] at hlist
      simp only [hlast, Bool.and_true] at hlist
      rw [Expr.fencedAll, Expr.fencedAll_same, hothers]
      show Steady (e.fenced false && _) (enclosed Precedence.statement e.precedence (e.pieces c s)
        ++ .word " IN (" :: [word ","].intercalate ((Expr.piecesAll c s es).map (·.2)) ++ [word ")"])
      rw [List.append_assoc]
      by_cases hloose : Precedence.statement < e.precedence
      · rw [enclosed, if_pos hloose, Expr.fenced_eq (Nat.ne_of_gt hloose) false true]
        exact h.1.parenthesised.append hlist
      · rw [enclosed, if_neg hloose]
        exact h.1.before (by decide) (by decide) hlist

theorem steady_call {op : Operator} (hop : op.fixity = .call) {es : List Expr}
    (h : ∀ e ∈ es, Fences (e.fenced ·) (e.pieces c s)) :
    Steady (Expr.fencedAll (op.fencesFirst es.length) (op.fencesOthers es.length) es)
      (op.arrange (Expr.piecesAll c s es)) := by
  have hlast : ((if op = .countDistinct then "(DISTINCT " else "(").toList.getLast? == some '(')
      = (op != .countDistinct) := by
    split
    case isTrue hop => rw [hop]; rfl
    case isFalse hop => rw [bne_iff_ne.mpr hop]; rfl
  have hlist := closedList (w := if op = .countDistinct then "(DISTINCT " else "(") (by split <;> decide) h
  rw [hlast, ← Expr.fencedAll_call, ← map_snd_piecesAll] at hlist
  rw [Operator.fencesFirst, Operator.fencesOthers, Operator.arrange.eq_def, hop]
  exact hlist.prepend op.symbol

theorem steady_arrange (op : Operator) {es : List Expr} (h : ∀ e ∈ es, Fences (e.fenced ·) (e.pieces c s)) :
    Steady (Expr.fencedAll (op.fencesFirst es.length) (op.fencesOthers es.length) es)
      (op.arrange (Expr.piecesAll c s es)) := by
  by_cases hin : op = .isIn
  · exact hin ▸ steady_member h
  by_cases hcall : op.fixity = .call
  · exact steady_call hcall h
  have hown : ∀ e ∈ es, Steady (e.fenced true) (enclosed op.precedence e.precedence (e.pieces c s)) :=
    fun e he => steady_operand hin (h e he)
  rw [Operator.fencesFirst_operand hin hcall, Operator.fencesOthers_operand hin hcall, Expr.fencedAll_same,
    Operator.arrange.eq_def, Expr.piecesAll_eq_map]
  simp only [List.map_map, List.flatMap_map, Function.comp_def]
  cases hfixity : op.fixity with
  | before => exact (flatMap fun e he => (hown e he).prepend " ").prepend _
  | behind => exact (flatMap fun e he => (hown e he).postpend " ").postpend _
  | between => exact intercalate (plain _) hown
  | call => exact absurd hfixity hcall
  | spaced =>
      rw [if_neg hin]
      exact intercalate (((plain " ").append (plain op.symbol)).append (plain " ")) hown

/-- A source gets parentheses when it is a statement. -/
theorem steady_asSource {v : View} (h : Fences (v.fenced ·) (v.pieces c s)) :
    Steady (v.fenced true) (v.asSource (v.pieces c s)) := by
  cases v with
  | select i q => exact h.parenthesised
  | table t => exact h
  | concrete t => exact h
  | join i j =>
      obtain ⟨n, o, t, p⟩ := j
      exact h

/-- An alias behind a word. -/
theorem steady_label (w l : String) : Steady true [.word w, .label l] :=
  of_flat (List.forall_mem_cons.mpr ⟨(fun _ heq => nomatch heq),
    List.forall_mem_singleton.mpr fun _ heq => nomatch heq⟩)

/-- The entries of a list each stand behind a blank. -/
theorem steady_list {α : Type} {f : α → Bool} {p : α → List Piece} {xs : List α}
    (h : ∀ x ∈ xs, Steady (f x) (.word " " :: p x)) : Steady (xs.all f) (listPieces (xs.map p)) := by
  rw [listPieces, List.map_map]
  exact intercalate (plain _) h

theorem steady_aliased (p : Projection) {f : Bool → Bool} {ps : List Piece} (h : Fences f ps) :
    Steady (f false) (.word " " :: p.aliased ps) := by
  have hentry : Steady (f false) (.word " " :: ps) := h.behind (by decide) (by decide)
  rw [Projection.aliased]
  split
  · exact (hentry.append (steady_label _ _)).congr fun _ => Bool.and_true _
  · exact hentry

/-- A single predicate gets no parentheses, and several ones do. -/
theorem steady_conjunction (keyword : String) (hne : keyword ≠ "") (hk : keyword.toList.getLast? ≠ some '(')
    {cs : List Condition} (h : ∀ k ∈ cs, Fences (k.expr.fenced ·) (k.expr.pieces c k.scope)) :
    Steady (Condition.fencedAll (cs.length != 1) cs)
      (clausePieces keyword (Condition.piecesAll c cs) conjunctionPieces) := by
  rw [Condition.fencedAll_eq, Condition.piecesAll_eq_map]
  rcases cs with - | ⟨k, - | ⟨k', cs⟩⟩
  · exact nil
  · exact ((List.forall_mem_singleton.mp h).behind hne hk).congr fun _ => (Bool.and_true _).symm
  · have hlist := intercalate (plain " AND ") fun x hx =>
      (h x hx).enclosed Precedence.conjunction x.expr.precedence fun htight d =>
        Expr.fenced_eq (Nat.ne_of_lt (Nat.lt_of_le_of_lt htight (by decide))) d true
    have hmany : ((k :: k' :: cs).length != 1) = true := rfl
    rw [hmany]
    simpa only [clausePieces, conjunctionPieces, List.map_cons, List.map_map, List.isEmpty_cons,
      Function.comp_def, Bool.false_eq_true, if_false] using hlist.prepend keyword

theorem steady_grouping {cs : List Condition}
    (h : ∀ k ∈ cs, Fences (k.expr.fenced ·) (k.expr.pieces c k.scope)) :
    Steady (Condition.fencedAll false cs) (clausePieces " GROUP BY" (Condition.piecesAll c cs)
      fun cs => listPieces (cs.map (·.2))) := by
  rw [clausePieces, Condition.fencedAll_eq, Condition.piecesAll_eq_map, List.map_map]
  split
  case isTrue hempty =>
      rw [List.map_eq_nil_iff.mp (List.isEmpty_iff.mp hempty)]
      exact nil
  case isFalse =>
      exact (steady_list fun k hk => (h k hk).behind (by decide) (by decide)).prepend _

end Piece

open Piece (Fences Steady)

namespace Source

variable {c : Catalog}

theorem steady_plain {src : Source} (hplain : src.view.isJoin = false ∨ src.on = none)
    (h : Fences (src.view.fenced ·) (src.view.pieces c src.scope)) : Steady src.fenced (Source.pieces c src) := by
  have hfenced : src.fenced = src.view.fenced true := by
    obtain ⟨v, a, s, on⟩ := src
    cases v with
    | join i j =>
        obtain rfl : on = none := hplain.resolve_left (by simp [View.isJoin])
        obtain ⟨n, o, t, p⟩ := j
        rfl
    | table t => rfl
    | concrete t => rfl
    | select i q => rfl
  rw [(Source.plain hplain).2, hfenced]
  exact ((Piece.steady_asSource h).append (Piece.steady_label " " _)).congr fun _ => Bool.and_true _

theorem steady_join {n : Option String} {i : Nat} {o t : View} {p e : Expr} {a : String} {s : Scope}
    (ht : Fences (t.fenced ·) (t.pieces c s)) (he : Fences (e.fenced ·) (e.pieces c s)) :
    Steady (Source.fenced ⟨.join i ⟨n, o, t, p⟩, a, s, some e⟩)
      (Source.pieces c ⟨.join i ⟨n, o, t, p⟩, a, s, some e⟩) := by
  have htarget := (Piece.steady_asSource ht).prepend "INNER JOIN "
  have hpredicate : Steady (e.fenced false) ([.word " ", .label a] ++ .word " ON " :: e.pieces c s) :=
    ((Piece.steady_label " " a).append (he.behind (by decide) (by decide))).congr fun _ => Bool.true_and _
  exact htarget.append hpredicate

theorem steady_after : ∀ {f : List Source}, (∀ src ∈ f, Steady src.fenced (Source.pieces c src)) →
    Steady (Source.fencedAll f) (Source.piecesAfter c f)
  | [], _ => .nil
  | ⟨v, a, s, on⟩ :: f, h => by
      have hgap : Steady true (if on.isSome then [Piece.word " "] else [.word ",", .word " "]) := by
        split
        · exact .plain _
        · exact (Fences.plain _).prepend _
      rw [List.forall_mem_cons] at h
      rw [piecesAfter, fencedAll]
      exact ((hgap.append h.1).congr fun _ => Bool.true_and _).append (steady_after h.2)

theorem steady_all {f : List Source} (h : ∀ src ∈ f, Steady src.fenced (Source.pieces c src)) :
    Steady (Source.fencedAll f) (if f.isEmpty then [.fault .missingSource] else Source.piecesAll c f) := by
  rcases f with - | ⟨⟨v, a, s, on⟩, f⟩
  · exact .of_flat (List.forall_mem_singleton.mpr fun _ heq => nomatch heq)
  · rw [List.forall_mem_cons] at h
    exact (h.1.append (steady_after h.2)).prepend " "

end Source

mutual

theorem Expr.fences (c : Catalog) : ∀ (e : Expr) (s : Scope), Fences (e.fenced ·) (e.pieces c s)
  | .literal _, _ => .of_flat (List.forall_mem_singleton.mpr fun _ heq => nomatch heq)
  | .apply op args, s => Piece.steady_arrange op (Expr.fencesAll c args s)
  | .column col, s => Piece.steady_leaf s (.column col)
  | .star v, s => Piece.steady_leaf s (.star v)
  | .projected v n d, s => Piece.steady_leaf s (.projected v n d)
  | .pinned e v, s => Piece.steady_leaf s (.pinned e v)
  | .within s' e, _ => e.fences c s'
  | .view v, s => v.fences c s

theorem Expr.fencesAll (c : Catalog) : ∀ (es : List Expr) (s : Scope), ∀ e ∈ es,
    Fences (e.fenced ·) (e.pieces c s)
  | [], _ => fun _ he => nomatch he
  | e :: es, s => List.forall_mem_cons.mpr ⟨e.fences c s, Expr.fencesAll c es s⟩

theorem View.fences (c : Catalog) : ∀ (v : View) (s : Scope), Fences (v.fenced ·) (v.pieces c s)
  | .table t, _ => .of_flat (List.forall_mem_singleton.mpr fun _ heq => nomatch heq)
  | .concrete t, _ => .of_flat (List.forall_mem_singleton.mpr fun _ heq => nomatch heq)
  | .join _ ⟨_, _, t, e⟩, s =>
    ((t.fences c s).behind (by decide) (by decide)).append ((e.fences c s).behind (by decide) (by decide))
  | .select _ q, _ => .statement (q.steady c)

/-- What stands around a statement makes no difference for those nested in it. -/
theorem Select.steady (c : Catalog) : ∀ q : Select, Steady q.fenced (q.pieces c)
  | ⟨i, f, p, w, h, g, pool, sc⟩ => by
      have hentries : Steady (Projection.fencedAll p)
          (listPieces (Select.entries c ⟨i, f, p, w, h, g, pool, sc⟩)) := by
        rw [Select.entries, Projection.fencedAll_eq]
        split
        case isTrue hempty =>
            have hnone : p = [] := List.isEmpty_iff.mp hempty
            rw [hnone]
            exact (Piece.steady_list fun d _ => Piece.steady_aliased d (Piece.steady_leaf _ _)).congr
              fun _ => List.all_eq_true.mpr fun _ _ => rfl
        case isFalse =>
            rw [Projection.piecesAll_eq_map]
            exact Piece.steady_list fun d hd => Piece.steady_aliased d (Projection.fencesAll c p d hd)
      have hfrom := Source.steady_all (Source.steadyAll c f)
      have hwhere := Piece.steady_conjunction " WHERE " (by decide) (by decide)
        (Condition.fencesAll c w)
      have hgroup := Piece.steady_grouping (Condition.fencesAll c g)
      have hhaving := Piece.steady_conjunction " HAVING " (by decide) (by decide)
        (Condition.fencesAll c h)
      rw [Select.pieces_eq, Select.fenced]
      exact ((((hentries.prepend _).append (hfrom.prepend _)).append hwhere).append hgroup).append hhaving

theorem Projection.fencesAll (c : Catalog) : ∀ ps : List Projection, ∀ p ∈ ps,
    Fences (p.definition.fenced ·) (p.definition.pieces c p.scope)
  | [] => fun _ hp => nomatch hp
  | ⟨e, _, s⟩ :: ps => List.forall_mem_cons.mpr ⟨e.fences c s, Projection.fencesAll c ps⟩

theorem Source.steadyAll (c : Catalog) : ∀ f : List Source, ∀ src ∈ f,
    Steady src.fenced (Source.pieces c src)
  | [] => fun _ hsrc => nomatch hsrc
  | ⟨v, a, s, on⟩ :: f => List.forall_mem_cons.mpr ⟨Source.steady c ⟨v, a, s, on⟩, Source.steadyAll c f⟩

theorem Source.steady (c : Catalog) : ∀ src : Source, Steady src.fenced (Source.pieces c src)
  | ⟨.table t, _, s, _⟩ => Source.steady_plain (.inl rfl) (View.fences c (.table t) s)
  | ⟨.concrete t, _, s, _⟩ => Source.steady_plain (.inl rfl) (View.fences c (.concrete t) s)
  | ⟨.select i q, _, s, _⟩ => Source.steady_plain (.inl rfl) (View.fences c (.select i q) s)
  | ⟨.join _ ⟨_, _, t, _⟩, _, s, some e⟩ => Source.steady_join (t.fences c s) (e.fences c s)
  | ⟨.join i j, _, s, none⟩ => Source.steady_plain (.inr rfl) (View.fences c (.join i j) s)

theorem Condition.fencesAll (c : Catalog) : ∀ cs : List Condition, ∀ k ∈ cs,
    Fences (k.expr.fenced ·) (k.expr.pieces c k.scope)
  | [] => fun _ hk => nomatch hk
  | ⟨e, s⟩ :: cs => List.forall_mem_cons.mpr ⟨e.fences c s, Condition.fencesAll c cs⟩

end

namespace Select

/-- The statements nested in the text of a statement, at any depth. -/
def nested (c : Catalog) (q : Select) : List Excerpt := Piece.nestedAll "" "" (q.pieces c)

theorem print_eq_ok {c : Catalog} {q : Select} {text : String} (h : q.print c = .ok text) :
    text = Piece.textAll (q.pieces c) := by
  rw [print, Printout.result.eq_def] at h
  split at h
  case h_1 hfaults =>
      rw [← Except.ok.inj h, printout, Printout.putAll_text, String.empty_append]
  case h_2 => cases h

/-- The statements nested in a printed statement are parts of its text, and all of them stand in parentheses
exactly if none of them is printed where no parentheses are. -/
theorem nested_in_parentheses_iff {c : Catalog} {q : Select} {text : String} (h : q.print c = .ok text) :
    (∀ x ∈ q.nested c, text = x.front ++ x.text ++ x.rest)
      ∧ ((∀ x ∈ q.nested c, x.InParentheses) ↔ q.fenced = true) := by
  refine ⟨fun x hx => ?_, q.steady c "" ""⟩
  rw [print_eq_ok h, ← Piece.nestedAll_split _ "" "" x hx, String.empty_append, String.append_empty]

/-- The statement that the nested one is listed by gives it parentheses. -/
theorem wealthyNames_nested : ∃ text, wealthyNames.print {} = .ok text ∧ wealthyNames.nested {} ≠ []
    ∧ ∀ x ∈ wealthyNames.nested {}, x.InParentheses := by
  obtain ⟨text, h⟩ := Except.exists_of_isOk (x := wealthyNames.print {}) (by decide +kernel)
  exact ⟨text, h, by decide +kernel, (nested_in_parentheses_iff h).2.mpr (by decide +kernel)⟩

/-- The sum of all revenues. -/
def revenueOfAll : Select :=
  (Call.project (.apply .sum [.ofPeople "revenue"])).attempt {}
    ((Call.addSource (.table people)).attempt {} (Select.empty 0))

/-- The sum of all revenues for each of the people. -/
def totalForEach : Select :=
  (Call.projectAs (.view (.select 7 revenueOfAll)) "total").attempt {}
    ((Call.addSource (.table people)).attempt {} (Select.empty 1))

/-- A statement that is projected gets no parentheses. -/
theorem projected_statement_bare : revenueOfAll.Reached ∧ totalForEach.Reached
    ∧ (totalForEach.print {}).toOption
      = some "SELECT SELECT SUM(p.revenue) FROM People p AS total FROM People p"
    ∧ ∃ x ∈ totalForEach.nested {}, x.text = "SELECT SUM(p.revenue) FROM People p" ∧ ¬ x.InParentheses :=
  ⟨.call (.call (.empty 0) _ {}) _ {}, .call (.call (.empty 1) _ {}) _ {}, by decide +kernel, by decide +kernel⟩

end Select

end SqlCompose
