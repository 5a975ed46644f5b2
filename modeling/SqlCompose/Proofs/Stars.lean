import SqlCompose.Proofs.Declarations
import SqlCompose.Proofs.Listings

/-!
When a star is renamed. A clause that prints as a star behind an alias may have a name in the statement, and then
the name stands behind AS, although a star stands for many columns. It does not if the clause is a star and nothing
else, or has no name, or has the name of a star, which the first reference to a star gets from the pool. A statement
without projections names what its sources show, so all but the first of their stars are renamed.
-/

namespace SqlCompose

/-- A piece is a qualified star: the text behind its alias is a star. -/
def Piece.IsStar (x : Piece) : Prop := ∃ a, x.qualifier? = some a ∧ x.text = a ++ "." ++ "*"

/-- A qualified star ends in the identifier of a star. -/
theorem Piece.IsStar.identifier? {x : Piece} (h : x.IsStar) : x.identifier? = some Spelling.all.text := by
  obtain ⟨a, hqualifier, htext⟩ := h
  cases x with
  | star q => rfl
  | reference q n d =>
      obtain rfl : q = some a := hqualifier
      exact congrArg some (String.append_right_inj (a ++ ".") |>.mp htext)
  | word | literal | name | label | statement | fault | faultHere => cases hqualifier

namespace Projection

variable {c : Catalog} {p : Projection}

/-- A clause prints as a qualified star, apart from a name of its own. -/
def ShowsStar (c : Catalog) (p : Projection) : Prop := ∃ x, p.definition.pieces c p.scope = [x] ∧ x.IsStar

/-- A star is printed with a name behind AS. -/
def RenamesStar (c : Catalog) (p : Projection) : Prop :=
  ∃ x a, p.definition.pieces c p.scope = [x] ∧ x.IsStar ∧ p.entry c = [x, .word " AS ", .label a]

/-- What keeps the name of a clause from being printed, if the clause prints as a star. -/
def KeepsStar (p : Projection) : Prop :=
  (∃ v, p.definition = .star v) ∨ p.label = none ∨ (p.definition.isLeaf = true ∧ p.label = some "*")

/-- The database calls a leaf that prints as a star by the name of a star. -/
theorem ShowsStar.systemName? (h : p.ShowsStar c) (hleaf : p.definition.isLeaf = true) :
    p.definition.systemName? = some "*" := by
  obtain ⟨x, hx, hstar⟩ := h
  have hlast := Expr.identifier?_of_isLeaf c p.scope (e := p.definition) (by
    cases hd : p.definition with
    | within sc e => rw [hd] at hleaf; cases hleaf
    | literal | apply | column | star | projected | view | pinned => rw [hd] at hleaf; exact hleaf)
  rw [hx] at hlast
  obtain ⟨w, hw, htext⟩ := Option.map_eq_some_iff.mp (hlast.symm.trans hstar.identifier?)
  obtain rfl := Spelling.eq_of_text_eq_all htext.symm
  exact Expr.name_of_spelling? hw

/-- A clause that prints as a star prints no name exactly if something keeps it from that. -/
theorem ShowsStar.printedAlias?_eq_none_iff (h : p.ShowsStar c) : p.printedAlias? = none ↔ p.KeepsStar := by
  have hname := h.systemName?
  obtain ⟨d, l, sc⟩ := p
  cases l with
  | none => exact iff_of_true rfl (.inr (.inl rfl))
  | some a =>
      by_cases hstar : ∃ v, d = .star v
      · obtain ⟨v, rfl⟩ := hstar
        exact iff_of_true rfl (.inl ⟨v, rfl⟩)
      · have halias : printedAlias? ⟨d, some a, sc⟩ = if d.isLeaf && d.systemName? == some a then none else some a := by
          cases d with
          | star v => exact absurd ⟨v, rfl⟩ hstar
          | literal | apply | column | projected | view | pinned | within => rfl
        rw [halias, KeepsStar, or_iff_right hstar, or_iff_right (Option.some_ne_none a)]
        cases hleaf : d.isLeaf with
        | false => simp
        | true =>
            rw [hname hleaf, Bool.true_and]
            by_cases ha : a = "*"
            · subst ha
              exact iff_of_true rfl ⟨rfl, rfl⟩
            · rw [if_neg (fun h => ha (Option.some.inj (eq_of_beq h)).symm)]
              exact iff_of_false (Option.some_ne_none a) fun h => ha (Option.some.inj h.2)

/-- A star is renamed exactly if nothing keeps it from that. -/
theorem renamesStar_iff : p.RenamesStar c ↔ p.ShowsStar c ∧ ¬ p.KeepsStar := by
  constructor
  · rintro ⟨x, a, hx, hstar, hentry⟩
    have hshows : p.ShowsStar c := ⟨x, hx, hstar⟩
    refine ⟨hshows, fun hkeeps => ?_⟩
    rw [entry, aliased, hshows.printedAlias?_eq_none_iff.mpr hkeeps, hx] at hentry
    cases hentry
  · rintro ⟨⟨x, hx, hstar⟩, hkeeps⟩
    have hshows : p.ShowsStar c := ⟨x, hx, hstar⟩
    cases ha : p.printedAlias? with
    | none => exact absurd (hshows.printedAlias?_eq_none_iff.mp ha) hkeeps
    | some a =>
        refine ⟨x, a, hx, hstar, ?_⟩
        rw [entry, aliased, ha, hx]
        rfl

end Projection

/-! The names of the clauses that stand for a statement without any. -/

namespace Projection

variable {pool : AliasPool} {ps qs before after : List Projection} {p : Projection}

/-- The pool after some clauses have taken their names from it. -/
def poolAfter (pool : AliasPool) (ps : List Projection) : AliasPool :=
  ps.foldl (fun pool p => (pool.projectionAlias p.definition.name?).2) pool

/-- Each clause has the name that the pool gives it after the clauses in front of it. -/
def NamedFrom (pool : AliasPool) (ps : List Projection) : Prop :=
  ∀ before p after, ps = before ++ p :: after →
    p.label = ((poolAfter pool before).projectionAlias p.definition.name?).1

theorem namedFrom_nil : NamedFrom pool [] := fun before p after h => by
  cases before <;> cases h

theorem namedFrom_singleton (h : p.label = (pool.projectionAlias p.definition.name?).1) : NamedFrom pool [p] := by
  intro before x after hx
  cases before with
  | nil =>
      obtain ⟨rfl, -⟩ := List.cons.inj hx
      exact h
  | cons y before =>
      obtain ⟨-, hnil⟩ := List.cons.inj hx
      exact absurd hnil.symm (List.append_ne_nil_of_right_ne_nil before (List.cons_ne_nil x after))

theorem poolAfter_append : poolAfter pool (ps ++ qs) = poolAfter (poolAfter pool ps) qs := List.foldl_append

theorem NamedFrom.append (hp : NamedFrom pool ps) (hq : NamedFrom (poolAfter pool ps) qs) :
    NamedFrom pool (ps ++ qs) := by
  intro before p after h
  rcases List.append_eq_append_iff.mp h with ⟨mid, rfl, hqs⟩ | ⟨mid, rfl, hmid⟩
  · rw [poolAfter_append]
    exact hq mid p after hqs
  · cases mid with
    | nil =>
        rw [List.append_nil] at hq
        exact hq [] p after hmid.symm
    | cons x mid =>
        obtain ⟨rfl, -⟩ := List.cons.inj hmid
        exact hp before p mid rfl

/-- The star is taken once a clause has asked for it. -/
theorem star_mem_poolAfter : "*" ∈ (poolAfter pool ps).taken ↔
    "*" ∈ pool.taken ∨ ∃ p ∈ ps, p.definition.name? = some "*" := by
  induction ps generalizing pool with
  | nil => simp [poolAfter]
  | cons p ps ih =>
      have hstep : "*" ∈ (pool.projectionAlias p.definition.name?).2.taken ↔
          "*" ∈ pool.taken ∨ p.definition.name? = some "*" := by
        cases hname : p.definition.name? with
        | none => simp [AliasPool.projectionAlias]
        | some n =>
            show "*" ∈ (pool.allocate n).2.taken ↔ _
            rw [AliasPool.allocate_taken, List.mem_append, List.mem_singleton, eq_comm, AliasPool.fresh_eq_star,
              Option.some.injEq]
            tauto
      rw [poolAfter, List.foldl_cons, ← poolAfter, ih, hstep, List.exists_mem_cons_iff, or_assoc]

end Projection

namespace Source

open Projection

variable {c : Catalog} {pool : AliasPool}

theorem foldl_listStep_named {sc : Scope} : ∀ {es : List Expr} {ps : List Projection} {q : AliasPool},
    q = poolAfter pool ps → NamedFrom pool ps →
      (es.foldl (listStep sc) (ps, q)).2 = poolAfter pool (es.foldl (listStep sc) (ps, q)).1
        ∧ NamedFrom pool (es.foldl (listStep sc) (ps, q)).1
  | [], _, _, hq, hps => ⟨hq, hps⟩
  | e :: es, ps, q, hq, hps => by
      rw [List.foldl_cons, listStep]
      refine foldl_listStep_named ?_ (hps.append (namedFrom_singleton ?_))
      · rw [poolAfter_append, ← hq]
        rfl
      · rw [hq]

/-- A source takes the names of its clauses from the pool, one after the other. -/
theorem defaultProjections_named (src : Source) (c : Catalog) (pool : AliasPool) : (src.defaultProjections c pool).2
      = poolAfter pool (src.defaultProjections c pool).1 ∧ NamedFrom pool (src.defaultProjections c pool).1 := by
  rw [defaultProjections_eq]
  split
  · exact ⟨rfl, namedFrom_singleton rfl⟩
  · exact foldl_listStep_named rfl namedFrom_nil

theorem defaultProjectionsAll_named : ∀ {f : List Source} {pool : AliasPool},
    NamedFrom pool (defaultProjectionsAll c pool f)
  | [], _ => namedFrom_nil
  | src :: f, pool => by
      obtain ⟨hpool, hnamed⟩ := src.defaultProjections_named _ _
      exact hnamed.append (hpool ▸ defaultProjectionsAll_named)

end Source

namespace Select

variable {c : Catalog} {s : Select}

/-- A star that a statement shows for its sources keeps its name exactly if it is a star and nothing else, or the
first that asks for the name of a star. -/
theorem default_keepsStar_iff {before after : List Projection} {p : Projection}
    (hs : s.defaults c = before ++ p :: after) (h : p.ShowsStar c) : p.KeepsStar ↔
      (∃ v, p.definition = .star v) ∨ "*" ∉ s.aliases.taken ∧ ∀ x ∈ before, x.definition.name? ≠ some "*" := by
  have hlabel := Source.defaultProjectionsAll_named (c := c) before p after hs
  obtain ⟨src, -, rfl | ⟨hmem, -, -⟩⟩ := mem_defaults (hs ▸ List.mem_append_right _ List.mem_cons_self)
  · exact iff_of_true (.inl ⟨_, rfl⟩) (.inl ⟨_, rfl⟩)
  · -- the name asked for is the name that the database gives to a star
    obtain ⟨hleaf, hno, hname⟩ : p.definition.isLeaf = true ∧ (¬ ∃ v, p.definition = .star v)
        ∧ p.definition.name? = p.definition.systemName? := by
      rcases View.mem_selectors hmem with ⟨col, hcol, -⟩ | ⟨w, q, -, -, x, -, hx⟩
      · rw [hcol]
        exact ⟨rfl, nofun, rfl⟩
      · rw [hx]
        exact ⟨rfl, nofun, rfl⟩
    rw [hname, h.systemName? hleaf] at hlabel
    have hfresh : p.label = some "*" ↔ "*" ∉ (Projection.poolAfter s.aliases before).taken := by
      rw [hlabel]
      show some ((Projection.poolAfter s.aliases before).fresh "*") = some "*" ↔ _
      rw [Option.some.injEq, AliasPool.fresh_eq_star, and_iff_right rfl]
    have hsome : p.label ≠ none := hlabel ▸ Option.some_ne_none _
    rw [Projection.KeepsStar, or_iff_right hno, or_iff_right hno, or_iff_right hsome, and_iff_right hleaf, hfresh,
      Projection.star_mem_poolAfter]
    simp only [not_or, not_exists, not_and, ne_eq]

/-- A statement is printed as a part of another one, at any depth. -/
inductive Shows (c : Catalog) : Select → Select → Prop
  | self (s : Select) : Shows c s s
  | inside {s q r : Select} (h : .statement q ∈ s.occurrences c) (hr : Shows c q r) : Shows c s r

/-- What is printed between SELECT and FROM, at any depth, are the entries of the clauses shown there. None of them
renames a star exactly if at every depth the clauses that print as stars are stars and nothing else, or have no name
or that of a star, and among the clauses that stand for a statement without any only the first one asks for the name
of a star. -/
theorem stars_kept_iff (c : Catalog) (s : Select) :
    (∀ q, s.Shows c q → q.entries c = (q.shown c).map (·.entry c)) ∧
    ((∀ q, s.Shows c q → ∀ p ∈ q.shown c, ¬ p.RenamesStar c) ↔ ∀ q, s.Shows c q →
      (∀ p ∈ q.projections, p.ShowsStar c → p.KeepsStar) ∧
      (q.projections = [] → ∀ before p after, q.defaults c = before ++ p :: after → p.ShowsStar c →
        (∃ v, p.definition = .star v) ∨ "*" ∉ q.aliases.taken ∧ ∀ x ∈ before, x.definition.name? ≠ some "*")) := by
  refine ⟨fun q _ => entries_eq c q, forall_congr' fun q => imp_congr_right fun _ => ?_⟩
  simp only [Projection.renamesStar_iff, not_and, not_not]
  rw [shown]
  cases hps : q.projections with
  | cons p ps => exact ⟨fun h => ⟨h, fun hnil => absurd hnil (List.cons_ne_nil p ps)⟩, fun h => h.1⟩
  | nil =>
      rw [List.isEmpty_nil, if_pos rfl]
      constructor
      · refine fun h => ⟨List.forall_mem_nil _, fun _ before p after hq hstar => ?_⟩
        refine (default_keepsStar_iff hq hstar).mp ?_
        exact h p (hq ▸ List.mem_append_right _ List.mem_cons_self) hstar
      · rintro ⟨-, h⟩ p hp hstar
        obtain ⟨before, after, hq⟩ := List.append_of_mem hp
        exact (default_keepsStar_iff hq hstar).mpr (h rfl before p after hq hstar)

/-- All columns of a table, as a statement. -/
def allOf (t : Table) (mark : Nat) : Select :=
  (Call.project (.star (.table t))).attempt {} ((Call.addSource (.table t)).attempt {} (.empty mark))

/-- All people beside all departments. -/
def allBesideAll : Select :=
  (Call.addSource (.select 8 (allOf department 2))).attempt {} (allOf people 0).over

/-- The star of the second statement gets the name of a star with a number. -/
theorem allBesideAll_star_renamed : allBesideAll.Reached
    ∧ (allBesideAll.print {}).toOption = some ("SELECT a.*, b.* AS *1 FROM (SELECT p.* FROM People p) a, "
      ++ "(SELECT d.* FROM Department d) b")
    ∧ ¬ ∀ q, allBesideAll.Shows {} q → ∀ p ∈ q.shown {}, ¬ p.RenamesStar {} := by
  have hsecond : (allBesideAll.shown {}).any (fun p =>
      let pieces := p.definition.pieces {} p.scope
      p.printedAlias?.isSome && pieces.length == 1
        && pieces.all fun x => x.qualifier?.any fun a => x.text == a ++ "." ++ "*") = true := by decide +kernel
  refine ⟨.call (.call (.empty 1) _ {}) _ {}, by decide +kernel, fun h => ?_⟩
  obtain ⟨p, hp, hrenamed⟩ := List.any_eq_true.mp hsecond
  refine h _ (.self _) p hp ?_
  simp only [Bool.and_eq_true, beq_iff_eq, List.all_eq_true] at hrenamed
  obtain ⟨⟨hnamed, hlength⟩, hstar⟩ := hrenamed
  obtain ⟨a, ha⟩ := Option.isSome_iff_exists.mp hnamed
  obtain ⟨x, hx⟩ := List.length_eq_one_iff.mp hlength
  obtain ⟨b, hb, htext⟩ := (Option.any_eq_true _ _).mp (hstar x (hx ▸ List.mem_singleton.mpr rfl))
  refine ⟨x, a, hx, ⟨b, hb, eq_of_beq htext⟩, ?_⟩
  rw [Projection.entry, Projection.aliased, ha, hx]
  rfl

/-- The star of a table under a name of its own, pinned to the table. -/
example : (((Call.projectAs (.pinned (.star (.table people)) (.table people)) "x").attempt {}
    ((Call.addSource (.table people)).attempt {} (.empty 0))).print {}).toOption
      = some "SELECT p.* AS x FROM People p" := by
  decide +kernel

end Select

end SqlCompose
