import SqlCompose.Proofs.Pieces

/-!
Printing composes. What an expression, a view or a statement adds to a printout is what it prints into an
empty one, with the positions of its faults moved by the bytes in front of it. Neither the text that stands
there nor the faults already met change what is printed.
-/

namespace SqlCompose

/-! What holds of the pieces of a query at every depth. -/

/-- What holds of layout, of every leaf in every scope, of the fault of a missing source, and of a nested
statement if it holds of the pieces of its body. -/
structure Piece.Pervasive (P : Piece → Prop) : Prop extends Piece.Layout P where
  leaf : ∀ (s : Scope) (e : Expr), ∀ x ∈ e.leafPiecesIn s, P x
  missing : P (.fault .missingSource)
  statement : ∀ body : List Piece, (∀ x ∈ body, P x) → P (.statement body)

section

variable {P : Piece → Prop}

mutual

theorem Expr.forall_shown (hP : Piece.Pervasive P) (c : Catalog) : ∀ (e : Expr) (raw : Bool) (s : Scope),
    ∀ o ∈ e.occurrences raw s, ∀ x ∈ o.pieces c, P x
  | .literal _, _, _ => fun _ ho => nomatch ho
  | .apply _ args, raw, s => Expr.forall_shownAll hP c args raw s
  | .column col, _, s => List.forall_mem_singleton.mpr (hP.leaf s (.column col))
  | .star v, _, s => List.forall_mem_singleton.mpr (hP.leaf s (.star v))
  | .projected v n d, _, s => List.forall_mem_singleton.mpr (hP.leaf s (.projected v n d))
  | .pinned e v, _, s => List.forall_mem_singleton.mpr (hP.leaf s (.pinned e v))
  | .within s' e, raw, _ => e.forall_shown hP c raw s'
  | .view v, _, s => v.forall_shown hP c s

theorem Expr.forall_shownAll (hP : Piece.Pervasive P) (c : Catalog) : ∀ (es : List Expr) (raw : Bool)
    (s : Scope), ∀ o ∈ Expr.occurrencesAll raw s es, ∀ x ∈ o.pieces c, P x
  | [], _, _ => fun _ ho => nomatch ho
  | e :: es, raw, s =>
    List.forall_mem_append.mpr ⟨e.forall_shown hP c raw s, Expr.forall_shownAll hP c es raw s⟩

theorem View.forall_shown (hP : Piece.Pervasive P) (c : Catalog) : ∀ (v : View) (s : Scope),
    ∀ o ∈ v.occurrences s, ∀ x ∈ o.pieces c, P x
  | .table _, _ => fun _ ho => nomatch ho
  | .concrete _, _ => fun _ ho => nomatch ho
  | .join _ ⟨_, _, t, e⟩, s =>
    List.forall_mem_append.mpr ⟨t.forall_shown hP c s, e.forall_shown hP c true s⟩
  | .select _ q, _ => List.forall_mem_singleton.mpr
    (List.forall_mem_singleton.mpr (hP.statement _ (q.forall_pieces hP c)))

/-- What holds of layout, leaves and nested statements holds of all pieces of a statement. -/
theorem Select.forall_pieces (hP : Piece.Pervasive P) (c : Catalog) : ∀ q : Select, ∀ x ∈ q.pieces c, P x
  | ⟨i, f, p, w, h, g, pool, sc⟩ => by
      refine hP.select (fun _ => hP.missing) (List.forall_mem_append.mpr ⟨List.forall_mem_append.mpr
        ⟨?_, Source.forall_shownAll hP c f⟩, ?_⟩)
      · rw [Select.projected]
        split
        case isTrue =>
            intro o ho
            obtain ⟨d, -, rfl⟩ := List.mem_map.mp ho
            exact hP.leaf d.scope d.definition
        case isFalse => exact Projection.forall_shownAll hP c p
      · rw [List.flatMap_append, List.flatMap_append]
        exact List.forall_mem_append.mpr ⟨List.forall_mem_append.mpr
          ⟨Condition.forall_shownAll hP c w, Condition.forall_shownAll hP c g⟩,
          Condition.forall_shownAll hP c h⟩

theorem Projection.forall_shownAll (hP : Piece.Pervasive P) (c : Catalog) : ∀ ps : List Projection,
    ∀ o ∈ ps.flatMap fun p => p.definition.occurrences false p.scope, ∀ x ∈ o.pieces c, P x
  | [] => fun _ ho => nomatch ho
  | ⟨e, _, s⟩ :: ps =>
    List.forall_mem_append.mpr ⟨e.forall_shown hP c false s, Projection.forall_shownAll hP c ps⟩

theorem Source.forall_shownAll (hP : Piece.Pervasive P) (c : Catalog) : ∀ f : List Source,
    ∀ o ∈ f.flatMap Source.occurrences, ∀ x ∈ o.pieces c, P x
  | [] => fun _ ho => nomatch ho
  | ⟨v, a, s, on⟩ :: f =>
    List.forall_mem_append.mpr ⟨Source.forall_shown hP c ⟨v, a, s, on⟩, Source.forall_shownAll hP c f⟩

theorem Source.forall_shown (hP : Piece.Pervasive P) (c : Catalog) : ∀ src : Source,
    ∀ o ∈ src.occurrences, ∀ x ∈ o.pieces c, P x
  | ⟨.join _ ⟨_, _, t, _⟩, _, s, some e⟩ =>
    List.forall_mem_append.mpr ⟨t.forall_shown hP c s, e.forall_shown hP c false s⟩
  | ⟨.join i ⟨n, o, t, p⟩, _, s, none⟩ => View.forall_shown hP c (.join i ⟨n, o, t, p⟩) s
  | ⟨.table t, _, s, _⟩ => View.forall_shown hP c (.table t) s
  | ⟨.concrete t, _, s, _⟩ => View.forall_shown hP c (.concrete t) s
  | ⟨.select i q, _, s, _⟩ => View.forall_shown hP c (.select i q) s

theorem Condition.forall_shownAll (hP : Piece.Pervasive P) (c : Catalog) : ∀ cs : List Condition,
    ∀ o ∈ cs.flatMap Condition.occurrences, ∀ x ∈ o.pieces c, P x
  | [] => fun _ ho => nomatch ho
  | ⟨e, s⟩ :: cs =>
    List.forall_mem_append.mpr ⟨e.forall_shown hP c false s, Condition.forall_shownAll hP c cs⟩

end

theorem Expr.forall_pieces (hP : Piece.Pervasive P) (c : Catalog) (e : Expr) (s : Scope) :
    ∀ x ∈ e.pieces c s, P x := hP.expr (e.forall_shown hP c false s)

theorem View.forall_pieces (hP : Piece.Pervasive P) (c : Catalog) (v : View) (s : Scope) :
    ∀ x ∈ v.pieces c s, P x := hP.view (v.forall_shown hP c s)

end

/-! Printouts behind each other. -/

/-- A fault with its position moved, if it has one. -/
def Error.moved (n : Nat) : Error → Error
  | positioned e p => positioned e (p + n)
  | e => e

theorem Error.moved_moved (n m : Nat) (e : Error) : (e.moved n).moved m = e.moved (n + m) := by
  cases e with
  | positioned e p => exact congrArg (positioned e) (Nat.add_assoc p n m)
  | _ => rfl

namespace Printout

/-- A printout behind another one: the text follows, and so do the faults, with their positions moved by the
bytes in front. -/
def followedBy (o f : Printout) : Printout :=
  ⟨o.text ++ f.text, o.faults ++ f.faults.map (·.moved o.text.utf8ByteSize)⟩

@[simp]
theorem followedBy_empty (o : Printout) : o.followedBy {} = o := by
  simp [followedBy]

theorem followedBy_assoc (o f g : Printout) :
    (o.followedBy f).followedBy g = o.followedBy (f.followedBy g) := by
  have hmoved : (Error.moved o.text.utf8ByteSize ∘ Error.moved f.text.utf8ByteSize)
      = Error.moved (o.text ++ f.text).utf8ByteSize := by
    funext e
    rw [Function.comp_apply, Error.moved_moved, String.utf8ByteSize_append, Nat.add_comm]
  simp [followedBy, String.append_assoc, List.append_assoc, hmoved]

end Printout

/-- What a piece adds to a printout is what it adds to an empty one. -/
def Piece.Composes (x : Piece) : Prop := ∀ o : Printout, o.put x = o.followedBy (({} : Printout).put x)

namespace Printout

theorem putAll_eq_followedBy : ∀ {ps : List Piece}, (∀ x ∈ ps, x.Composes) → ∀ o : Printout,
    o.putAll ps = o.followedBy (({} : Printout).putAll ps)
  | [], _, o => o.followedBy_empty.symm
  | x :: ps, h, o => by
      rw [List.forall_mem_cons] at h
      have hrest := putAll_eq_followedBy h.2
      calc (o.put x).putAll ps
        _ = (o.followedBy (({} : Printout).put x)).followedBy (({} : Printout).putAll ps) := by
          rw [hrest, h.1]
        _ = o.followedBy ((({} : Printout).put x).followedBy (({} : Printout).putAll ps)) :=
          followedBy_assoc ..
        _ = o.followedBy ((({} : Printout).put x).putAll ps) := by rw [← hrest]

theorem append_eq_followedBy (o : Printout) (text : String) :
    o.append text = o.followedBy (({} : Printout).append text) := by
  simp [append, followedBy]

end Printout

namespace Piece.Composes

theorem fault {e : Error} (h : ∀ n, e.moved n = e) : (Piece.fault e).Composes := by
  intro o
  simp [Printout.put, Printout.fault, Printout.followedBy, h]

theorem faultHere (e : Error) : (Piece.faultHere e).Composes := by
  intro o
  simp [Printout.put, Printout.faultHere, Printout.fault, Printout.followedBy, Error.moved]

theorem leafPieces (qualifier : Option String) (e : Expr) : ∀ x ∈ e.leafPieces qualifier, x.Composes := by
  cases e with
  | column c => exact List.forall_mem_singleton.mpr fun o => o.append_eq_followedBy _
  | star v => exact List.forall_mem_singleton.mpr fun o => o.append_eq_followedBy _
  | projected v n d =>
      cases n with
      | some n => exact List.forall_mem_singleton.mpr fun o => o.append_eq_followedBy _
      | none => exact List.forall_mem_singleton.mpr (.fault fun _ => rfl)
  | literal v => exact List.forall_mem_singleton.mpr (.fault fun _ => rfl)
  | apply op args => exact List.forall_mem_singleton.mpr (.fault fun _ => rfl)
  | pinned e v => exact List.forall_mem_singleton.mpr (.fault fun _ => rfl)
  | within s e => exact List.forall_mem_singleton.mpr (.fault fun _ => rfl)
  | view v => exact List.forall_mem_singleton.mpr (.fault fun _ => rfl)

theorem leafPiecesIn (s : Scope) (e : Expr) : ∀ x ∈ e.leafPiecesIn s, x.Composes := by
  rw [Expr.leafPiecesIn]
  cases s.resolveLeaf e with
  | ok m => exact leafPieces _ _
  | error cause => exact forall_mem_cons (.faultHere cause) (leafPieces none _)

/-- Every fault that is recorded as it is has no position of its own. -/
theorem pervasive : Piece.Pervasive Piece.Composes where
  word t o := o.append_eq_followedBy t
  label a o := o.append_eq_followedBy a
  name t d o := o.append_eq_followedBy (d.identifier t)
  literal v o := o.append_eq_followedBy v.sqlText
  leaf := leafPiecesIn
  missing := .fault fun _ => rfl
  statement _ h o := Printout.putAll_eq_followedBy h o

end Piece.Composes

/-! Faults that are recorded. -/

namespace Printout

mutual

theorem length_put_faults : ∀ (x : Piece) (o : Printout),
    o.faults.length ≤ (o.put x).faults.length ∧
      (x.isFaulty = true → o.faults.length < (o.put x).faults.length)
  | .word _, _ => ⟨Nat.le_refl _, fun h => nomatch h⟩
  | .literal _, _ => ⟨Nat.le_refl _, fun h => nomatch h⟩
  | .name _ _, _ => ⟨Nat.le_refl _, fun h => nomatch h⟩
  | .label _, _ => ⟨Nat.le_refl _, fun h => nomatch h⟩
  | .reference _ _ _, _ => ⟨Nat.le_refl _, fun h => nomatch h⟩
  | .star _, _ => ⟨Nat.le_refl _, fun h => nomatch h⟩
  | .statement body, o => length_putAll_faults body o
  | .fault e, o => by simp [put, fault]
  | .faultHere e, o => by simp [put, faultHere, fault]

theorem length_putAll_faults : ∀ (ps : List Piece) (o : Printout),
    o.faults.length ≤ (o.putAll ps).faults.length ∧
      (Piece.anyFaulty ps = true → o.faults.length < (o.putAll ps).faults.length)
  | [], _ => ⟨Nat.le_refl _, fun h => nomatch h⟩
  | x :: ps, o => by
      obtain ⟨hx, hfaulty⟩ := length_put_faults x o
      obtain ⟨hps, hrest⟩ := length_putAll_faults ps (o.put x)
      refine ⟨Nat.le_trans hx hps, fun h => ?_⟩
      rcases Bool.or_eq_true_iff.mp h with h | h
      · exact Nat.lt_of_lt_of_le (hfaulty h) hps
      · exact Nat.lt_of_le_of_lt hx (hrest h)

end

/-- Pieces record no fault just when none of them holds one. -/
theorem putAll_faults_iff {ps : List Piece} {o : Printout} :
    (o.putAll ps).faults = o.faults ↔ Piece.anyFaulty ps = false := by
  refine ⟨fun h => ?_, putAll_faults⟩
  rw [Bool.eq_false_iff]
  exact fun hfaulty => Nat.ne_of_gt ((length_putAll_faults ps o).2 hfaulty) (congrArg List.length h)

/-- What an expression, a view or a statement adds to a printout is what it prints into an empty one, and a
selector is listed for a source just when printing it records no fault, wherever it is tried. -/
theorem printing_composes (c : Catalog) (o : Printout) :
    (∀ (e : Expr) (s : Scope),
        o.putAll (e.pieces c s) = o.followedBy (({} : Printout).putAll (e.pieces c s)))
      ∧ (∀ (v : View) (s : Scope),
        o.putAll (v.pieces c s) = o.followedBy (({} : Printout).putAll (v.pieces c s)))
      ∧ (∀ q : Select, o.putAll (q.pieces c) = o.followedBy (q.printout c))
      ∧ ∀ (leaf : Expr) (s : Scope),
        leaf.printsIn s = true ↔ (o.putAll (leaf.leafPiecesIn s)).faults = o.faults := by
  refine ⟨fun e s => ?_, fun v s => ?_, fun q => ?_, fun leaf s => ?_⟩
  · exact putAll_eq_followedBy (e.forall_pieces Piece.Composes.pervasive c s) o
  · exact putAll_eq_followedBy (v.forall_pieces Piece.Composes.pervasive c s) o
  · exact putAll_eq_followedBy (q.forall_pieces Piece.Composes.pervasive c) o
  · rw [putAll_faults_iff, Expr.printsIn, Bool.not_eq_true']

/-- Positions count bytes. -/
example : (⟨"é=", []⟩ : Printout).putAll (Expr.pieces {} [] (.column ⟨⟨0, "People", {}⟩, "name"⟩))
    = ⟨"é=name", [.positioned (.unresolved "[TABLE 'People']" "[]") 3]⟩ := by decide +kernel

end Printout

end SqlCompose
