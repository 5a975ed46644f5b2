import SqlCompose.Proofs.Reading.Literals

/-!
Comments in a printed expression. Two minus signs open a comment, and so do a slash and a star. Next to each other
they come only where an operand meets a minus sign, a slash or a star between operands. Nearly all operands begin
and end with something else. Only a negative number begins with a minus sign, and it is not put in parentheses:
behind a minus sign it opens a comment, and so does every operand that it is the first part of.
-/

namespace SqlCompose

open Piece (outsideAll Laid)

/-- Whether some characters open a comment. -/
def OpensComment (cs : List Char) : Prop := ['-', '-'] <:+: cs ∨ ['/', '*'] <:+: cs

instance : DecidablePred OpensComment := fun cs =>
  inferInstanceAs (Decidable (['-', '-'] <:+: cs ∨ ['/', '*'] <:+: cs))

/-- Whether a comment opens where some characters meet others. -/
def OpensBetween (xs ys : List Char) : Prop :=
  xs.getLast? = some '-' ∧ ys.head? = some '-' ∨ xs.getLast? = some '/' ∧ ys.head? = some '*'

/-- Characters that have no part in opening a comment. -/
def Neutral (cs : List Char) : Prop := ∀ x ∈ cs, x ∉ ['-', '/', '*']

instance : DecidablePred Neutral := fun cs => List.decidableBAll (fun x : Char => x ∉ ['-', '/', '*']) cs

section

variable {a b : Char} {xs ys w : List Char}

/-- Where two characters stand next to each other in two texts, one behind the other. -/
theorem pair_infix_append_iff : [a, b] <:+: xs ++ ys ↔
    [a, b] <:+: xs ∨ [a, b] <:+: ys ∨ xs.getLast? = some a ∧ ys.head? = some b := by
  rw [← List.singleton_suffix_iff_getLast?_eq_some, ← List.singleton_prefix_iff_head?_eq_some]
  constructor
  · intro h
    rcases List.infix_append_iff.mp h with h | h | ⟨l, l', hl, hxs, hys⟩
    · exact .inl h
    · exact .inr (.inl h)
    · rcases l with - | ⟨x, - | ⟨y, l⟩⟩
      · exact .inr (.inl (hl ▸ hys.isInfix))
      · obtain ⟨rfl, rfl⟩ := List.cons_eq_cons.mp hl
        exact .inr (.inr ⟨hxs, hys⟩)
      · obtain ⟨rfl, rfl, hnil⟩ : a = x ∧ b = y ∧ [] = l ++ l' := by simpa using hl
        rw [(List.append_eq_nil_iff.mp hnil.symm).1] at hxs
        exact .inl hxs.isInfix
  · rintro (h | h | ⟨hxs, hys⟩)
    · exact List.infix_append_iff.mpr (.inl h)
    · exact List.infix_append_iff.mpr (.inr (.inl h))
    · exact List.infix_append_iff.mpr (.inr (.inr ⟨[a], [b], rfl, hxs, hys⟩))

theorem Neutral.not_opensBetween_left (h : Neutral w) : ¬ OpensBetween xs w := by
  rintro (⟨-, hhead⟩ | ⟨-, hhead⟩)
  · exact h _ (List.mem_of_mem_head? hhead) (by decide)
  · exact h _ (List.mem_of_mem_head? hhead) (by decide)

theorem Neutral.not_opensBetween_right (h : Neutral w) : ¬ OpensBetween w ys := by
  rintro (⟨hlast, -⟩ | ⟨hlast, -⟩)
  · exact h _ (List.mem_of_getLast? hlast) (by decide)
  · exact h _ (List.mem_of_getLast? hlast) (by decide)

namespace OpensComment

/-- A comment opens in one of two texts or where they meet. -/
theorem append_iff : OpensComment (xs ++ ys) ↔ OpensComment xs ∨ OpensComment ys ∨ OpensBetween xs ys := by
  rw [OpensComment, pair_infix_append_iff, pair_infix_append_iff, OpensComment, OpensComment, OpensBetween]
  grind

theorem mem (h : OpensComment xs) : '-' ∈ xs ∨ '/' ∈ xs := by
  rcases h with h | h
  · exact .inl (h.subset List.mem_cons_self)
  · exact .inr (h.subset List.mem_cons_self)

theorem not_of_neutral (h : Neutral xs) : ¬ OpensComment xs := by
  intro hopens
  rcases hopens.mem with hmem | hmem
  · exact h _ hmem (by decide)
  · exact h _ hmem (by decide)

theorem neutral_append_iff (h : Neutral w) : OpensComment (w ++ ys) ↔ OpensComment ys := by
  rw [append_iff, or_iff_right (not_of_neutral h), or_iff_left h.not_opensBetween_right]

theorem append_neutral_iff (h : Neutral w) : OpensComment (xs ++ w) ↔ OpensComment xs := by
  rw [append_iff, or_iff_left (not_or.mpr ⟨not_of_neutral h, h.not_opensBetween_left⟩)]

/-- Comments of two texts with something that is not empty and opens none between them. -/
theorem joined_iff (h : ¬ OpensComment w) (hne : w ≠ []) : OpensComment (xs ++ (w ++ ys)) ↔
    OpensComment xs ∨ OpensComment ys ∨ OpensBetween xs w ∨ OpensBetween w ys := by
  have hbetween : OpensBetween xs (w ++ ys) ↔ OpensBetween xs w := by
    obtain ⟨c, cs, rfl⟩ := List.exists_cons_of_ne_nil hne
    exact Iff.rfl
  rw [append_iff, append_iff, or_iff_right h, hbetween, or_assoc, or_comm (a := OpensBetween w ys)]

/-- No comment opens where texts meet something that has no part in one. -/
theorem separated_iff (h : Neutral w) (hne : w ≠ []) :
    OpensComment (xs ++ (w ++ ys)) ↔ OpensComment xs ∨ OpensComment ys := by
  rw [joined_iff (not_of_neutral h) hne,
    or_iff_left (not_or.mpr ⟨h.not_opensBetween_left, h.not_opensBetween_right⟩)]

end OpensComment

end

theorem Literal.Plain.neutral {cs : List Char} (h : Plain cs) : Neutral cs := by
  intro x hx hsign
  simp only [List.mem_cons, List.not_mem_nil, or_false] at hsign
  rcases hsign with rfl | rfl | rfl <;> exact absurd (h _ hx) (by decide)

namespace Piece

variable {W : String → Prop} {ls : List (List Piece)} {ps : List Piece}

/-- Between words that have no part in a comment, parts open one only by themselves. -/
theorem Laid.opensComment_iff (hW : ∀ {w}, W w → Neutral w.toList) (h : Laid W ls ps) :
    OpensComment (outsideAll ps) ↔ ∃ l ∈ ls, OpensComment (outsideAll l) := by
  induction h with
  | nil =>
      have hempty : ¬ OpensComment [] := by decide
      exact iff_of_false hempty (by simp)
  | part ps => simp
  | front hw h ih => rw [outsideAll_word, OpensComment.neutral_append_iff (hW hw), ih]
  | @behind w ls ps hw h ih =>
      have hword : outsideAll [word w] = w.toList := List.append_nil _
      rw [outsideAll_append, hword, OpensComment.append_neutral_iff (hW hw), ih]
  | between hw hne h h' ih ih' =>
      rw [outsideAll_append, outsideAll_word,
        OpensComment.separated_iff (hW hw) (mt String.toList_eq_nil_iff.mp hne), ih, ih']
      simp only [List.mem_append, or_and_right, exists_or]

theorem opensComment_enclosed (around own : Nat) (ps : List Piece) :
    OpensComment (outsideAll (enclosed around own ps)) ↔ OpensComment (outsideAll ps) := by
  have h := (Laid.enclosed (W := fun w => Neutral w.toList) (by decide) (by decide) around own ps).opensComment_iff id
  simpa using h

/-- A constant shows a sign, if it has one, and then nothing that has a part in a comment. -/
theorem exists_outside_literal (v : Literal) : ∃ x xs, Neutral (x :: xs) ∧
    outside (.literal v) = if v.isSigned then '-' :: x :: xs else x :: xs := by
  by_cases hv : ∃ t, v = .string t
  · obtain ⟨t, rfl⟩ := hv
    exact ⟨'\'', ['\''], by decide, rfl⟩
  · rw [not_exists] at hv
    obtain ⟨x, xs, hplain, htext⟩ := v.exists_bareText hv
    refine ⟨x, xs, hplain.neutral, ?_⟩
    rw [← htext]
    cases v with
    | string t => exact absurd rfl (hv t)
    | _ => rfl

theorem not_opensComment_literal (v : Literal) : ¬ OpensComment (outside (.literal v)) := by
  obtain ⟨x, xs, hneutral, htext⟩ := exists_outside_literal v
  rw [htext]
  split
  · rw [← List.singleton_append, OpensComment.append_iff]
    rintro (h | h | ⟨-, hhead⟩ | ⟨hlast, -⟩)
    · exact absurd h (by decide)
    · exact OpensComment.not_of_neutral hneutral h
    · exact hneutral x List.mem_cons_self (by rw [Option.some.inj hhead]; decide)
    · exact absurd hlast (by decide)
  · exact OpensComment.not_of_neutral hneutral

end Piece

namespace Operator

theorem neutral_of_prints {op : Operator} {w : String} (hop : Neutral op.symbol.toList) (hw : op.Prints w) :
    Neutral w.toList := by
  have hwords : ∀ x ∈ [" ", "(", ")", ",", "(DISTINCT ", " IN ("], Neutral x.toList := by decide
  rcases hw with rfl | hw
  · exact hop
  · exact hwords w hw

theorem eq_subtract_of_getLast? {op : Operator} (hop : op.fixity = .between)
    (h : op.symbol.toList.getLast? = some '-') : op = .subtract := by
  cases op with
  | subtract => rfl
  | add | multiply | divide | equals | greater | less | concat => exact absurd h (by decide)
  | _ => cases hop

/-- The numbers of arguments that an operator is given. -/
def takes (op : Operator) (n : Nat) : Bool :=
  match op with
  | add | subtract | multiply | divide | equals | greater | less | isIn => n == 2
  | and => decide (2 ≤ n)
  | not | isNull | sum | avg | count | countDistinct => n == 1
  | concat | function _ => true

end Operator

mutual

/-- An expression of operators with as many arguments as they take, constants, and columns that its scope
resolves. -/
inductive Expr.Assembled : Scope → Expr → Prop
  | literal {s : Scope} (v : Literal) : Expr.Assembled s (.literal v)
  | leaf {s : Scope} {e : Expr} {name : String} {d : Dialect} {m : Mapping}
      (he : e.reference? = some (name, d)) (hm : s.resolveLeaf e = .ok m) : Expr.Assembled s e
  | apply {s : Scope} {op : Operator} {args : List Expr} (hop : op.takes args.length = true)
      (h : Expr.AllAssembled s args) : Expr.Assembled s (.apply op args)
  | within {s s' : Scope} {e : Expr} (h : Expr.Assembled s' e) : Expr.Assembled s (.within s' e)

/-- The same of all arguments. -/
inductive Expr.AllAssembled : Scope → List Expr → Prop
  | nil {s : Scope} : Expr.AllAssembled s []
  | cons {s : Scope} {e : Expr} {es : List Expr} (h : Expr.Assembled s e) (hs : Expr.AllAssembled s es) :
      Expr.AllAssembled s (e :: es)

end

namespace Expr

/-- Somewhere in an expression something holds of a part of it and the scope that part prints in. -/
inductive Occurs (P : Scope → Expr → Prop) : Scope → Expr → Prop
  | here {s : Scope} {e : Expr} (h : P s e) : Occurs P s e
  | argument {s : Scope} {op : Operator} {args : List Expr} {e : Expr} (he : e ∈ args) (h : Occurs P s e) :
      Occurs P s (.apply op args)
  | inside {s s' : Scope} {e : Expr} (h : Occurs P s' e) : Occurs P s (.within s' e)

/-- What an operand of an operator shows outside of its string constants. -/
def operand (c : Catalog) (s : Scope) (op : Operator) (e : Expr) : List Char :=
  outsideAll (Piece.enclosed op.precedence e.precedence (e.pieces c s))

/-- Where a comment opens in the text of an expression: in a name, or where an operand meets the sign behind it
or in front of it. -/
inductive Collision (c : Catalog) (s : Scope) : Expr → Prop
  | reference {e : Expr} {name : String} {d : Dialect} (he : e.reference? = some (name, d))
      (h : OpensComment (e.outside c s)) : Collision c s e
  | function {f : String} {args : List Expr} (h : OpensComment f.toList) : Collision c s (.apply (.function f) args)
  | sign {op : Operator} {l r : Expr} (hop : op.fixity = .between)
      (h : OpensBetween (l.operand c s op) op.symbol.toList ∨ OpensBetween op.symbol.toList (r.operand c s op)) :
      Collision c s (.apply op [l, r])

variable {c : Catalog} {s : Scope} {P : Scope → Expr → Prop}

theorem exists_piecesAll_iff {es : List Expr} :
    (∃ l ∈ (piecesAll c s es).map (·.2), OpensComment (outsideAll l)) ↔
      ∃ e ∈ es, OpensComment (e.outside c s) := by
  simp only [piecesAll_eq_map, List.map_map, List.mem_map, Function.comp_apply, exists_exists_and_eq_and, outside]

theorem occurs_apply_iff {op : Operator} {args : List Expr} :
    Occurs P s (.apply op args) ↔ P s (.apply op args) ∨ ∃ e ∈ args, Occurs P s e := by
  constructor
  · intro h
    cases h with
    | here h => exact .inl h
    | argument he h => exact .inr ⟨_, he, h⟩
  · rintro (h | ⟨e, he, h⟩)
    · exact .here h
    · exact .argument he h

theorem operand_opensComment_iff {op : Operator} {e : Expr} :
    OpensComment (e.operand c s op) ↔ OpensComment (e.outside c s) :=
  Piece.opensComment_enclosed ..

theorem outside_between {op : Operator} (hop : op.fixity = .between) (l r : Expr) :
    (Expr.apply op [l, r]).outside c s = l.operand c s op ++ (op.symbol.toList ++ r.operand c s op) := by
  rw [outside, pieces, Operator.arrange.eq_def, hop]
  simp [piecesAll, List.intercalate_cons_cons, operand]

theorem collision_sign_iff {op : Operator} (hop : op.fixity = .between) {l r : Expr} :
    Collision c s (.apply op [l, r]) ↔
      OpensBetween (l.operand c s op) op.symbol.toList ∨ OpensBetween op.symbol.toList (r.operand c s op) := by
  constructor
  · intro h
    cases h with
    | reference he h => cases he
    | function h => cases hop
    | sign hop h => exact h
  · exact .sign hop

theorem collision_function_iff {f : String} {args : List Expr} :
    Collision c s (.apply (.function f) args) ↔ OpensComment f.toList := by
  constructor
  · intro h
    cases h with
    | reference he h => cases he
    | function h => exact h
    | sign hop h => cases hop
  · exact .function

theorem not_collision_of_neutral {op : Operator} (hop : Neutral op.symbol.toList) {args : List Expr} :
    ¬ Collision c s (.apply op args) := by
  intro h
  cases h with
  | reference he h => cases he
  | function h => exact OpensComment.not_of_neutral hop h
  | sign hfixity h =>
      rcases h with h | h
      · exact hop.not_opensBetween_left h
      · exact hop.not_opensBetween_right h

/-- Comments opened by the operands of an operator. -/
theorem opensComment_apply_of_neutral {op : Operator} (hop : Neutral op.symbol.toList) {args : List Expr} :
    OpensComment ((Expr.apply op args).outside c s) ↔
      ∃ e ∈ args, OpensComment (e.outside c s) := by
  rw [outside, pieces, (op.arrange_laid _).opensComment_iff (Operator.neutral_of_prints hop), exists_piecesAll_iff]

theorem opensComment_call_iff {f : String} {args : List Expr} :
    OpensComment ((Expr.apply (.function f) args).outside c s) ↔
      OpensComment f.toList ∨ ∃ e ∈ args, OpensComment (e.outside c s) := by
  have hlist := Laid.separated (W := fun w => Neutral w.toList) (w := ",") (by decide) (by decide)
    (fun a => .part a.2) (piecesAll c s args)
  have houtside : (Expr.apply (.function f) args).outside c s = f.toList ++ ("(".toList ++
      (outsideAll ([Piece.word ","].intercalate ((piecesAll c s args).map (·.2))) ++ ")".toList)) := by
    simp [outside, pieces, Operator.arrange, Operator.fixity, Operator.symbol]
  rw [houtside, OpensComment.separated_iff (by decide) (by decide),
    OpensComment.append_neutral_iff (by decide), hlist.opensComment_iff id, exists_piecesAll_iff]

theorem opensComment_sign_iff {op : Operator} (hop : op.fixity = .between)
    (hsign : ¬ OpensComment op.symbol.toList) (hne : op.symbol.toList ≠ []) {l r : Expr} :
    OpensComment ((Expr.apply op [l, r]).outside c s) ↔
      Collision c s (.apply op [l, r]) ∨ ∃ e ∈ [l, r], OpensComment (e.outside c s) := by
  rw [outside_between hop, OpensComment.joined_iff hsign hne, operand_opensComment_iff,
    operand_opensComment_iff, collision_sign_iff hop, ← or_assoc, or_comm]
  simp

theorem opensComment_apply_iff {op : Operator} {args : List Expr} (hop : op.takes args.length = true)
    (hargs : ∀ e ∈ args, OpensComment (e.outside c s) ↔ e.Occurs (Collision c) s) :
    OpensComment ((Expr.apply op args).outside c s) ↔ (Expr.apply op args).Occurs (Collision c) s := by
  have hargs : (∃ e ∈ args, OpensComment (e.outside c s)) ↔ ∃ e ∈ args, e.Occurs (Collision c) s :=
    exists_congr fun e => and_congr_right (hargs e)
  rw [occurs_apply_iff, ← hargs]
  cases op with
  | function f => rw [opensComment_call_iff, collision_function_iff]
  | subtract | multiply | divide =>
      obtain ⟨l, r, rfl⟩ := List.length_eq_two.mp (eq_of_beq hop)
      exact opensComment_sign_iff rfl (by decide) (by decide)
  -- No other operator prints a character that has a part in opening a comment.
  | _ => rw [opensComment_apply_of_neutral (by decide), or_iff_right (not_collision_of_neutral (by decide))]

theorem occurs_literal_iff {v : Literal} : (Expr.literal v).Occurs P s ↔ P s (.literal v) := by
  refine ⟨fun h => ?_, .here⟩
  cases h with
  | here h => exact h

theorem occurs_iff_of_reference {e : Expr} {name : String} {d : Dialect} (he : e.reference? = some (name, d)) :
    e.Occurs P s ↔ P s e := by
  refine ⟨fun h => ?_, .here⟩
  cases h with
  | here h => exact h
  | argument hmem h => cases he
  | inside h => cases he

theorem occurs_within_iff {s' : Scope} {e : Expr} (hP : ¬ P s (.within s' e)) :
    (Expr.within s' e).Occurs P s ↔ e.Occurs P s' := by
  refine ⟨fun h => ?_, .inside⟩
  cases h with
  | here h => exact absurd h hP
  | inside h => exact h

mutual

/-- In the text of an expression comments open where parts of it collide, and nowhere else. -/
theorem Assembled.opensComment_iff : ∀ {s : Scope} {e : Expr}, e.Assembled s →
    (OpensComment (e.outside c s) ↔ e.Occurs (Collision c) s)
  | s, _, .literal v => by
      have hnone : ¬ Collision c s (.literal v) := by
        intro h
        cases h with
        | reference he h => cases he
      have houtside : (Expr.literal v).outside c s = Piece.outside (.literal v) := List.append_nil _
      rw [occurs_literal_iff, houtside]
      exact iff_of_false (Piece.not_opensComment_literal v) hnone
  | s, e, .leaf he hm => by
      rw [occurs_iff_of_reference he]
      refine ⟨.reference he, fun h => ?_⟩
      cases h with
      | reference he h => exact h
      | _ => cases he
  | _, _, .apply hop h => opensComment_apply_iff hop h.opensComment_iff
  | s, .within s' e, .within h => by
      have hnone : ¬ Collision c s (.within s' e) := by
        intro h
        cases h with
        | reference he h => cases he
      rw [occurs_within_iff hnone, ← h.opensComment_iff, outside, pieces]
      rfl

theorem AllAssembled.opensComment_iff : ∀ {s : Scope} {es : List Expr}, AllAssembled s es →
    ∀ e ∈ es, OpensComment (e.outside c s) ↔ e.Occurs (Collision c) s
  | _, _, .nil => fun _ h => nomatch h
  | _, _, .cons h hs => List.forall_mem_cons.mpr ⟨h.opensComment_iff, hs.opensComment_iff⟩

end

mutual

theorem Assembled.faultless : ∀ {s : Scope} {e : Expr}, e.Assembled s → ∀ x ∈ e.pieces c s, x.isFaulty = false
  | _, _, .literal v => List.forall_mem_singleton.mpr rfl
  | _, e, .leaf he hm => by
      rw [pieces_of_reference? he hm]
      exact List.forall_mem_singleton.mpr rfl
  | _, _, .apply _ h => Piece.Layout.faultless.arrange h.faultless
  | _, _, .within h => by
      rw [pieces]
      exact h.faultless

theorem AllAssembled.faultless : ∀ {s : Scope} {es : List Expr}, AllAssembled s es →
    ∀ a ∈ piecesAll c s es, ∀ x ∈ a.2, x.isFaulty = false
  | _, _, .nil => fun _ h => nomatch h
  | _, _, .cons h hs => List.forall_mem_cons.mpr ⟨h.faultless, hs.faultless⟩

end

end Expr

/-! How the texts of operands begin and end. -/

/-- The first of some characters is no star, and it is a minus sign exactly if something is so. -/
def Begins (signed : Prop) (cs : List Char) : Prop := ∃ x, cs.head? = some x ∧ x ≠ '*' ∧ (x = '-' ↔ signed)

/-- The last of some characters is no minus sign and no slash. -/
def Ends (cs : List Char) : Prop := ∃ x, cs.getLast? = some x ∧ x ≠ '-' ∧ x ≠ '/'

section

variable {A B : Prop} {xs ys : List Char}

theorem Begins.append (h : Begins A xs) (ys : List Char) : Begins A (xs ++ ys) := by
  obtain ⟨x, hx, h⟩ := h
  exact ⟨x, by rw [List.head?_append, hx, Option.some_or], h⟩

theorem Begins.congr (h : Begins A xs) (hAB : A ↔ B) : Begins B xs := by
  obtain ⟨x, hx, hstar, hminus⟩ := h
  exact ⟨x, hx, hstar, hminus.trans hAB⟩

theorem Begins.head?_eq_minus_iff (h : Begins A xs) : xs.head? = some '-' ↔ A := by
  obtain ⟨x, hx, -, hminus⟩ := h
  rw [hx, Option.some.injEq, hminus]

theorem Begins.head?_ne_star (h : Begins A xs) : xs.head? ≠ some '*' := by
  obtain ⟨x, hx, hstar, -⟩ := h
  exact fun heq => hstar (Option.some.inj (hx.symm.trans heq))

theorem Ends.getLast?_ne_minus (h : Ends xs) : xs.getLast? ≠ some '-' := by
  obtain ⟨x, hx, hminus, -⟩ := h
  exact fun heq => hminus (Option.some.inj (hx.symm.trans heq))

theorem Ends.getLast?_ne_slash (h : Ends xs) : xs.getLast? ≠ some '/' := by
  obtain ⟨x, hx, -, hslash⟩ := h
  exact fun heq => hslash (Option.some.inj (hx.symm.trans heq))

theorem Ends.append (h : Ends ys) (xs : List Char) : Ends (xs ++ ys) := by
  obtain ⟨x, hx, h⟩ := h
  exact ⟨x, by rw [List.getLast?_append, hx, Option.some_or], h⟩

theorem begins_of_not_mem {x : Char} (hx : x ∉ ['-', '/', '*']) (hA : ¬ A) (xs : List Char) :
    Begins A (x :: xs) := by
  simp only [List.mem_cons, List.not_mem_nil, or_false, not_or] at hx
  exact ⟨x, rfl, hx.2.2, iff_of_false hx.1 hA⟩

theorem ends_of_not_mem (hne : xs ≠ []) (hminus : '-' ∉ xs) (hslash : '/' ∉ xs) : Ends xs := by
  have hlast := List.getLast_mem hne
  exact ⟨xs.getLast hne, List.getLast?_eq_some_getLast hne, fun h => hminus (h ▸ hlast),
    fun h => hslash (h ▸ hlast)⟩

theorem ends_of_neutral (hne : xs ≠ []) (h : Neutral xs) : Ends xs :=
  ends_of_not_mem hne (fun hmem => h _ hmem (by decide)) fun hmem => h _ hmem (by decide)

end

namespace Piece

variable {A : Prop} {ps sep : List Piece} {ls : List (List Piece)}

theorem begins_intercalate (h : Begins A (outsideAll ps)) (sep : List Piece) (ls : List (List Piece)) :
    Begins A (outsideAll (sep.intercalate (ps :: ls))) := by
  cases ls with
  | nil => rwa [List.intercalate_singleton]
  | cons qs ls =>
      rw [List.intercalate_cons_cons, List.append_assoc, outsideAll_append]
      exact h.append _

theorem ends_intercalate (sep : List Piece) : ∀ {ls : List (List Piece)}, ls ≠ [] →
    (∀ ps ∈ ls, Ends (outsideAll ps)) → Ends (outsideAll (sep.intercalate ls))
  | [], hne, _ => absurd rfl hne
  | [ps], _, h => by
      rw [List.intercalate_singleton]
      exact h ps List.mem_cons_self
  | ps :: qs :: ls, _, h => by
      rw [List.forall_mem_cons] at h
      rw [List.intercalate_cons_cons, outsideAll_append]
      exact (ends_intercalate sep (List.cons_ne_nil qs ls) h.2).append _

theorem begins_enclosed {around own : Nat} (h : Begins A (outsideAll ps)) :
    Begins (own ≤ around ∧ A) (outsideAll (enclosed around own ps)) := by
  rw [enclosed]
  split
  case isTrue hlt => exact begins_of_not_mem (by decide) (fun hA => Nat.not_le_of_lt hlt hA.1) _
  case isFalse hle => exact h.congr (and_iff_right (Nat.le_of_not_lt hle)).symm

theorem ends_enclosed {around own : Nat} (h : Ends (outsideAll ps)) :
    Ends (outsideAll (enclosed around own ps)) := by
  rw [enclosed]
  split
  · rw [parenthesised, outsideAll_append]
    exact Ends.append ⟨')', rfl, by decide⟩ _
  · exact h

theorem begins_literal (v : Literal) : Begins (v.isSigned = true) (outside (.literal v)) := by
  obtain ⟨x, xs, hneutral, htext⟩ := exists_outside_literal v
  rw [htext]
  split
  case isTrue hsigned => exact ⟨'-', rfl, by decide, iff_of_true rfl hsigned⟩
  case isFalse hsigned => exact begins_of_not_mem (hneutral x List.mem_cons_self) hsigned xs

theorem ends_literal (v : Literal) : Ends (outside (.literal v)) := by
  obtain ⟨x, xs, hneutral, htext⟩ := exists_outside_literal v
  have hends : Ends (x :: xs) := ends_of_neutral (List.cons_ne_nil x xs) hneutral
  rw [htext]
  split
  · exact hends.append ['-']
  · exact hends

end Piece

namespace Expr

/-- A negative number stands at the beginning of an expression, and nothing in front of it. -/
inductive Signed : Expr → Prop
  | literal {v : Literal} (h : v.isSigned = true) : Signed (.literal v)
  | first {op : Operator} {e : Expr} {es : List Expr} (hop : op.fixity ∉ [.before, .call])
      (hle : e.precedence ≤ op.precedence) (h : Signed e) : Signed (.apply op (e :: es))
  | within {s : Scope} {e : Expr} (h : Signed e) : Signed (.within s e)

/-- A minus sign is followed by a negative number. -/
def SubtractsSigned (_ : Scope) (e : Expr) : Prop :=
  ∃ l r, e = .apply .subtract [l, r] ∧ r.precedence ≤ Operator.subtract.precedence ∧ r.Signed

/-- A text that could have a part in opening a comment: one with a minus sign or a slash in it or with a star at its
beginning. -/
def Suspicious (cs : List Char) : Prop := '-' ∈ cs ∨ '/' ∈ cs ∨ cs.head? = some '*'

instance : DecidablePred Suspicious := fun cs =>
  inferInstanceAs (Decidable ('-' ∈ cs ∨ '/' ∈ cs ∨ cs.head? = some '*'))

theorem suspicious_of_opensComment {cs : List Char} (h : OpensComment cs) : Suspicious cs :=
  h.mem.imp_right .inl

/-- An empty concatenation prints as nothing, and a name can be such that it opens a comment together with what
stands next to it. -/
inductive Irregular (c : Catalog) (s : Scope) : Expr → Prop
  | empty : Irregular c s (.apply .concat [])
  | function {f : String} {args : List Expr} (h : Suspicious f.toList) : Irregular c s (.apply (.function f) args)
  | reference {e : Expr} {name : String} {d : Dialect} (he : e.reference? = some (name, d))
      (h : Suspicious (e.outside c s)) : Irregular c s e

variable {c : Catalog} {s : Scope} {op : Operator} {e : Expr} {es : List Expr} {P : Scope → Expr → Prop}

theorem signed_apply_iff (hop : op.fixity ∉ [.before, .call]) :
    (Expr.apply op (e :: es)).Signed ↔ e.precedence ≤ op.precedence ∧ e.Signed := by
  constructor
  · intro h
    cases h with
    | first hop hle h => exact ⟨hle, h⟩
  · exact fun h => .first hop h.1 h.2

theorem not_signed_apply (hop : op.fixity ∈ [.before, .call]) : ¬ (Expr.apply op es).Signed := by
  intro h
  cases h with
  | first hop' => exact hop' hop

theorem signed_within_iff {s' : Scope} : (Expr.within s' e).Signed ↔ e.Signed := by
  constructor
  · intro h
    cases h with
    | within h => exact h
  · exact .within

/-- How the text of an expression begins and ends. -/
def Edged (c : Catalog) (s : Scope) (e : Expr) : Prop := Begins e.Signed (e.outside c s) ∧ Ends (e.outside c s)

theorem Edged.operand (h : e.Edged c s) (op : Operator) :
    Begins (e.precedence ≤ op.precedence ∧ e.Signed) (e.operand c s op) ∧ Ends (e.operand c s op) :=
  ⟨Piece.begins_enclosed h.1, Piece.ends_enclosed h.2⟩

theorem edged_between (hop : op.isBetween = true) (h : ∀ x ∈ e :: es, x.Edged c s) :
    (Expr.apply op (e :: es)).Edged c s := by
  have hfixity : op.fixity ∉ [.before, .call] := by cases op <;> first | decide | cases hop
  have hpieces : (Expr.apply op (e :: es)).outside c s = outsideAll (op.separator.intercalate
      ((piecesAll c s (e :: es)).map fun a => Piece.enclosed op.precedence a.1 a.2)) := by
    rw [outside, pieces, Operator.arrange_of_isBetween hop]
  rw [Edged, signed_apply_iff hfixity, hpieces]
  refine ⟨Piece.begins_intercalate ((h e List.mem_cons_self).operand op).1 .., ?_⟩
  refine Piece.ends_intercalate _ (List.cons_ne_nil _ _) fun ps hps => ?_
  rw [piecesAll_eq_map, List.map_map] at hps
  obtain ⟨x, hx, rfl⟩ := List.mem_map.mp hps
  exact ((h x hx).operand op).2

theorem edged_call (hop : op.fixity = .call) (hname : ¬ Suspicious op.symbol.toList) :
    (Expr.apply op es).Edged c s := by
  have hsigned : ¬ (Expr.apply op es).Signed := not_signed_apply (by simp [hop])
  have hends : ∃ front, (Expr.apply op es).outside c s = front ++ [')'] := by
    rw [outside, pieces, Operator.arrange.eq_def, hop]
    exact ⟨_, Piece.outsideAll_append _ _⟩
  have hbegins : ∃ rest, (Expr.apply op es).outside c s = op.symbol.toList ++ '(' :: rest := by
    rw [outside, pieces, Operator.arrange.eq_def, hop]
    dsimp only
    split
    · exact ⟨_, rfl⟩
    · exact ⟨_, rfl⟩
  refine ⟨?_, ?_⟩
  · obtain ⟨rest, hrest⟩ := hbegins
    rw [hrest]
    -- Without a name the text begins with the parenthesis.
    cases hsymbol : op.symbol.toList with
    | nil => exact begins_of_not_mem (by decide) hsigned _
    | cons x xs =>
        rw [hsymbol, Suspicious, not_or, not_or] at hname
        refine Begins.append ⟨x, rfl, fun h => ?_, iff_of_false (fun h => ?_) hsigned⟩ _
        · exact hname.2.2 (congrArg some h)
        · exact hname.1 (h ▸ List.mem_cons_self)
  · obtain ⟨front, hfront⟩ := hends
    rw [hfront]
    exact Ends.append ⟨')', rfl, by decide⟩ _

theorem edged_not (h : e.Edged c s) : (Expr.apply .not [e]).Edged c s := by
  have htext : (Expr.apply .not [e]).outside c s = "NOT ".toList ++ e.operand c s .not := by
    simp [outside, pieces, piecesAll, Operator.arrange, Operator.fixity, Operator.symbol, operand]
  rw [Edged, htext]
  exact ⟨begins_of_not_mem (by decide) (not_signed_apply (by decide)) _, ((h.operand .not).2).append _⟩

theorem edged_isNull (h : e.Edged c s) : (Expr.apply .isNull [e]).Edged c s := by
  have htext : (Expr.apply .isNull [e]).outside c s = e.operand c s .isNull ++ " IS NULL".toList := by
    simp [outside, pieces, piecesAll, Operator.arrange, Operator.fixity, Operator.symbol, operand]
  rw [Edged, htext, signed_apply_iff (by decide)]
  exact ⟨((h.operand .isNull).1).append _, Ends.append ⟨'L', rfl, by decide⟩ _⟩

theorem edged_isIn {l : Expr} (h : e.Edged c s) : (Expr.apply .isIn [e, l]).Edged c s := by
  have htext : (Expr.apply .isIn [e, l]).outside c s =
      e.operand c s .isIn ++ (" IN (".toList ++ l.outside c s ++ [')']) := by
    simp [outside, pieces, piecesAll, Operator.arrange, Operator.fixity, operand]
  rw [Edged, htext, signed_apply_iff (by decide)]
  exact ⟨((h.operand .isIn).1).append _, Ends.append (Ends.append ⟨')', rfl, by decide⟩ _) _⟩

theorem edged_reference {name : String} {d : Dialect} {m : Mapping} (he : e.reference? = some (name, d))
    (hm : s.resolveLeaf e = .ok m) (h : ¬ Suspicious (e.outside c s)) : e.Edged c s := by
  have hsigned : ¬ e.Signed := by
    intro hsigned
    cases hsigned <;> cases he
  have hne : e.outside c s ≠ [] := by
    rw [outside, pieces_of_reference? he hm]
    simp [outsideAll, Piece.outside, Piece.text, Piece.qualification]
  rw [Suspicious, not_or, not_or] at h
  refine ⟨?_, ends_of_not_mem hne h.1 h.2.1⟩
  obtain ⟨x, xs, htext⟩ := List.exists_cons_of_ne_nil hne
  rw [htext] at h ⊢
  exact ⟨x, rfl, fun hstar => h.2.2 (congrArg some hstar),
    iff_of_false (fun hminus => h.1 (hminus ▸ List.mem_cons_self)) hsigned⟩

theorem edged_apply {args : List Expr} (hop : op.takes args.length = true) (h : ∀ x ∈ args, x.Edged c s)
    (hregular : ¬ Irregular c s (.apply op args)) : (Expr.apply op args).Edged c s := by
  cases op with
  | not =>
      obtain ⟨x, rfl⟩ := List.length_eq_one_iff.mp (eq_of_beq hop)
      exact edged_not (h x List.mem_cons_self)
  | isNull =>
      obtain ⟨x, rfl⟩ := List.length_eq_one_iff.mp (eq_of_beq hop)
      exact edged_isNull (h x List.mem_cons_self)
  | isIn =>
      obtain ⟨x, l, rfl⟩ := List.length_eq_two.mp (eq_of_beq hop)
      exact edged_isIn (h x List.mem_cons_self)
  | sum | avg | count | countDistinct => exact edged_call rfl (by decide)
  | function f => exact edged_call rfl fun hname => hregular (.function hname)
  | concat =>
      cases args with
      | nil => exact absurd .empty hregular
      | cons x args => exact edged_between rfl h
  | _ =>
      cases args with
      | nil => cases hop
      | cons x args => exact edged_between rfl h

theorem edged_literal (v : Literal) : (Expr.literal v).Edged c s := by
  have hsigned : (Expr.literal v).Signed ↔ v.isSigned = true := by
    constructor
    · intro h
      cases h with
      | literal h => exact h
    · exact .literal
  have htext : (Expr.literal v).outside c s = Piece.outside (.literal v) := List.append_nil _
  rw [Edged, hsigned, htext]
  exact ⟨Piece.begins_literal v, Piece.ends_literal v⟩

theorem edged_within {s' : Scope} (h : e.Edged c s') : (Expr.within s' e).Edged c s := by
  rw [Edged, signed_within_iff, outside, pieces]
  exact h

mutual

/-- The text of a regular expression begins with a minus sign only if a negative number stands there, and neither
begins nor ends with anything else that could have a part in a comment. -/
theorem Assembled.edged : ∀ {s : Scope} {e : Expr}, e.Assembled s → ¬ e.Occurs (Irregular c) s → e.Edged c s
  | _, _, .literal v, _ => edged_literal v
  | _, _, .leaf he hm, hregular => edged_reference he hm fun h => hregular (.here (.reference he h))
  | _, _, .apply hop h, hregular =>
      edged_apply hop (h.edged fun _ hx hirregular => hregular (.argument hx hirregular))
        fun h => hregular (.here h)
  | _, _, .within h, hregular => edged_within (h.edged fun hirregular => hregular (.inside hirregular))

theorem AllAssembled.edged : ∀ {s : Scope} {es : List Expr}, AllAssembled s es →
    (∀ e ∈ es, ¬ e.Occurs (Irregular c) s) → ∀ e ∈ es, e.Edged c s
  | _, _, .nil, _ => fun _ h => nomatch h
  | _, _, .cons h hs, hregular => by
      rw [List.forall_mem_cons] at hregular
      exact List.forall_mem_cons.mpr ⟨h.edged hregular.1, hs.edged hregular.2⟩

end

theorem regular_literal (v : Literal) : ¬ (Expr.literal v).Occurs (Irregular c) s := by
  rw [occurs_literal_iff]
  intro h
  cases h with
  | reference he h => cases he

theorem regular_reference {name : String} {d : Dialect} (he : e.reference? = some (name, d))
    (h : ¬ Suspicious (e.outside c s)) : ¬ e.Occurs (Irregular c) s := by
  rw [occurs_iff_of_reference he]
  intro hirregular
  cases hirregular with
  | reference _ hsuspicious => exact h hsuspicious
  | _ => cases he

theorem regular_apply (hop : op.fixity ≠ .call) (hes : es ≠ []) (h : ∀ x ∈ es, ¬ x.Occurs (Irregular c) s) :
    ¬ (Expr.apply op es).Occurs (Irregular c) s := by
  rw [occurs_apply_iff]
  rintro (hirregular | ⟨x, hx, hirregular⟩)
  · cases hirregular with
    | empty => exact hes rfl
    | function => exact hop rfl
    | reference he h => cases he
  · exact h x hx hirregular

theorem AllAssembled.of_mem : ∀ {es : List Expr}, AllAssembled s es → ∀ x ∈ es, x.Assembled s
  | _, .nil => fun _ h => nomatch h
  | _, .cons h hs => List.forall_mem_cons.mpr ⟨h, hs.of_mem⟩

theorem Assembled.of_mem {args : List Expr} (h : (Expr.apply op args).Assembled s) :
    ∀ x ∈ args, x.Assembled s := by
  cases h with
  | leaf he hm => cases he
  | apply hop h => exact h.of_mem

theorem Assembled.of_within {s' : Scope} (h : (Expr.within s' e).Assembled s) : e.Assembled s' := by
  cases h with
  | leaf he hm => cases he
  | within h => exact h

/-- In a regular expression parts collide only where a minus sign is followed by a negative number. -/
theorem Assembled.collision_iff (h : e.Assembled s) (hregular : ¬ e.Occurs (Irregular c) s) :
    Collision c s e ↔ SubtractsSigned s e := by
  have hoperand : ∀ {op : Operator} {args : List Expr}, e = .apply op args → ∀ x ∈ args,
      Begins (x.precedence ≤ op.precedence ∧ x.Signed) (x.operand c s op) ∧ Ends (x.operand c s op) := by
    rintro op args rfl x hx
    exact ((h.of_mem x hx).edged fun hirregular => hregular (.argument hx hirregular)).operand op
  constructor
  · intro hcollision
    cases hcollision with
    | reference he hopens => exact absurd (.here (.reference he (suspicious_of_opensComment hopens))) hregular
    | function hopens => exact absurd (.here (.function (suspicious_of_opensComment hopens))) hregular
    | @sign op l r hop hmeet =>
        have hl := (hoperand rfl l (by simp)).2
        have hr := (hoperand rfl r (by simp)).1
        rcases hmeet with (⟨hlast, -⟩ | ⟨hlast, -⟩) | ⟨hsign, hhead⟩ | ⟨-, hhead⟩
        · exact absurd hlast hl.getLast?_ne_minus
        · exact absurd hlast hl.getLast?_ne_slash
        -- The only case that is left: an operand that begins with a minus sign, behind a minus sign.
        · obtain rfl := Operator.eq_subtract_of_getLast? hop hsign
          exact ⟨l, r, rfl, hr.head?_eq_minus_iff.mp hhead⟩
        · exact absurd hhead hr.head?_ne_star
  · rintro ⟨l, r, rfl, hsigned⟩
    exact .sign rfl (.inr (.inl ⟨rfl, (hoperand rfl r (by simp)).1.head?_eq_minus_iff.mpr hsigned⟩))

theorem Occurs.imp {Q : Scope → Expr → Prop} (hPQ : ∀ {s : Scope} {e : Expr}, e.Assembled s →
    ¬ e.Occurs (Irregular c) s → P s e → Q s e) (h : e.Occurs P s) :
      e.Assembled s → ¬ e.Occurs (Irregular c) s → e.Occurs Q s := by
  induction h with
  | here h => exact fun he hregular => .here (hPQ he hregular h)
  | argument hx h ih =>
      exact fun he hregular =>
        .argument hx (ih (he.of_mem _ hx) fun hirregular => hregular (.argument hx hirregular))
  | inside h ih =>
      exact fun he hregular => .inside (ih he.of_within fun hirregular => hregular (.inside hirregular))

theorem Assembled.occurs_collision_iff (h : e.Assembled s) (hregular : ¬ e.Occurs (Irregular c) s) :
    e.Occurs (Collision c) s ↔ e.Occurs SubtractsSigned s :=
  ⟨fun hcollision => hcollision.imp (fun he hr => (he.collision_iff hr).mp) h hregular,
    fun hsigned => hsigned.imp (fun he hr => (he.collision_iff hr).mpr) h hregular⟩

/-- An expression prints. Outside of its string constants, which are the literals of the text if no name has a
single quote in it, a comment opens exactly if parts of the expression collide: if there is no empty concatenation
in it and no name with a minus sign, a slash or a star at its beginning, exactly if a minus sign is followed by a
negative number somewhere. -/
theorem Assembled.comment_iff (c : Catalog) (h : e.Assembled s) : ∃ text, e.print c s = .ok text
    ∧ (e.Unquoted s → scan text.toList = some ⟨e.outside c s, e.strings⟩)
    ∧ (OpensComment (e.outside c s) ↔ e.Occurs (Collision c) s)
    ∧ (¬ e.Occurs (Irregular c) s → (OpensComment (e.outside c s) ↔ e.Occurs SubtractsSigned s)) := by
  refine ⟨_, print_of_faultless h.faultless, fun hunquoted => hunquoted.scan_textAll, h.opensComment_iff,
    fun hregular => ?_⟩
  rw [h.opensComment_iff, h.occurs_collision_iff hregular]

/-- A product that begins with a negative number, behind a minus sign. -/
theorem leading_factor_opens_comment : ∃ (s : Scope) (e : Expr), e.Assembled s ∧ e.Unquoted s
    ∧ ¬ e.Occurs (Irregular {}) s ∧ e.print {} s = .ok "p.total--2*3"
    ∧ scan "p.total--2*3".toList = some ⟨"p.total--2*3".toList, []⟩ ∧ OpensComment "p.total--2*3".toList := by
  let people : Table := ⟨0, "People", {}⟩
  let s : Scope := [⟨0, .table people, "p"⟩]
  let total : Expr := .column ⟨people, "total"⟩
  let product : Expr := .apply .multiply [.literal (.integer (-2)), .literal (.integer 3)]
  let e : Expr := .apply .subtract [total, product]
  have hresolved : s.resolveLeaf total = .ok ⟨0, .table people, "p"⟩ := by cbv
  have htotal : total.outside {} s = "p.total".toList := by cbv
  have he : e.Assembled s := .apply rfl (.cons (.leaf rfl hresolved)
    (.cons (.apply rfl (.cons (.literal _) (.cons (.literal _) .nil))) .nil))
  have hunquoted : e.Unquoted s := by
    refine .apply (by decide) (.cons (.leaf rfl (fun a ha => ?_) (fun name d h => ?_))
      (.cons (.apply (by decide) (.cons (.literal _) (.cons (.literal _) .nil))) .nil))
    · have hlabel : s.labelOf? total = some "p" := by cbv
      obtain rfl := Option.some.inj (hlabel.symm.trans ha)
      decide
    · cases h
      decide
  have hproduct : ¬ product.Occurs (Irregular {}) s :=
    regular_apply (by decide) (List.cons_ne_nil _ _) (List.forall_mem_cons.mpr
      ⟨regular_literal _, List.forall_mem_singleton.mpr (regular_literal _)⟩)
  have hregular : ¬ e.Occurs (Irregular {}) s :=
    regular_apply (by decide) (List.cons_ne_nil _ _) (List.forall_mem_cons.mpr
      ⟨regular_reference rfl (htotal ▸ by decide), List.forall_mem_singleton.mpr hproduct⟩)
  have hsigned : e.Occurs SubtractsSigned s :=
    .here ⟨total, product, rfl, by decide, .first (by decide) (by decide) (.literal (by decide))⟩
  have hprint : e.print {} s = .ok "p.total--2*3" := by cbv
  have houtside : e.outside {} s = "p.total--2*3".toList := by cbv
  obtain ⟨text, htext, hscan, -, hopens⟩ := he.comment_iff {}
  obtain rfl := Except.ok.inj (hprint.symm.trans htext)
  rw [houtside] at hscan hopens
  exact ⟨s, e, he, hunquoted, hregular, hprint, hscan hunquoted, (hopens hregular).mpr hsigned⟩

/-- One less minus two prints as one and a comment. -/
theorem negative_subtrahend_opens_comment : ∃ e : Expr, e.Assembled [] ∧ e.print {} [] = .ok "1--2"
    ∧ scan "1--2".toList = some ⟨"1--2".toList, []⟩ ∧ OpensComment "1--2".toList :=
  ⟨.apply .subtract [.literal (.integer 1), .literal (.integer (-2))],
    .apply rfl (.cons (.literal _) (.cons (.literal _) .nil)), by cbv, by rfl, by decide⟩

end Expr

end SqlCompose
