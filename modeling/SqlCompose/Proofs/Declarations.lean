import SqlCompose.Proofs.Columns
import SqlCompose.Proofs.InStep

/-!
How a column of a nested statement is spelled, where it is declared and where it is taken. The nested statement
writes the name of a column between the quotes of the table the column is from, and an alias without quotes. What
the statement around it takes is written between the quotes of the first table of the nested statement. So both
texts are the same exactly if the alias, or the table of the column, goes with that first table.
-/

namespace SqlCompose

/-- How an identifier is spelled: its name, and what stands on both sides of it. -/
structure Spelling where
  name : String
  quote : String
deriving DecidableEq

namespace Spelling

/-- The text of an identifier. -/
def text (w : Spelling) : String := w.quote ++ w.name ++ w.quote

/-- All columns. -/
def all : Spelling := ⟨"*", ""⟩

variable {w x : Spelling}

theorem length_text (w : Spelling) : w.text.length = 2 * w.quote.length + w.name.length := by
  rw [text, String.length_append, String.length_append]
  omega

/-- The text of a name shows its quotes. -/
theorem eq_of_text_eq (hname : w.name = x.name) (h : w.text = x.text) : w = x := by
  -- the names are equally long, so the quotes are, and the texts come apart behind the first ones
  have hlength : w.quote.toList.length = x.quote.toList.length := by
    have htexts := congrArg String.length h
    rw [length_text, length_text, hname] at htexts
    rw [String.length_toList, String.length_toList]
    omega
  rw [text, text, String.append_assoc, String.append_assoc] at h
  rw [← String.toList_inj, String.toList_append, String.toList_append (s := x.quote)] at h
  have hquote : w.quote = x.quote := String.toList_inj.mp (List.append_inj h hlength).1
  obtain ⟨name, quote⟩ := w
  rw [mk.injEq]
  exact ⟨hname, hquote⟩

/-- A text of one character has no quotes around it. -/
theorem eq_of_text_eq_all (h : all.text = x.text) : all = x := by
  have hlength := congrArg String.length h
  rw [length_text, length_text] at hlength
  have hquote : x.quote = "" := by
    rw [← String.length_eq_zero_iff]
    have hone : all.name.length = 1 := rfl
    have hnone : all.quote.length = 0 := rfl
    omega
  refine eq_of_text_eq ?_ h
  rw [text, text, hquote] at h
  simpa [all] using h

end Spelling

namespace Dialect

/-- How a name is spelled in a dialect. -/
def spelling (d : Dialect) (name : String) : Spelling :=
  ⟨name, if d.quoteIdentifiers then d.identifierQuote else ""⟩

theorem identifier_eq (d : Dialect) (name : String) : d.identifier name = (d.spelling name).text := by
  rw [identifier, spelling, Spelling.text]
  split
  · rfl
  · rw [String.empty_append, String.append_empty]

end Dialect

/-- The identifier that a piece ends in. -/
def Piece.identifier? : Piece → Option String
  | label t => some t
  | reference _ n d => some (d.identifier n)
  | star _ => some Spelling.all.text
  | _ => none

namespace Expr

/-- An expression without the scopes around it. -/
def unscoped : Expr → Expr
  | within _ e => e.unscoped
  | e => e

/-- How an expression that is a column spells the name of the column. -/
def spelling? (e : Expr) : Option Spelling :=
  match e.unscoped.unpinned with
  | column c => some (c.table.dialect.spelling c.name)
  | star _ => some .all
  | projected v n _ => n.map v.dialect.spelling
  | _ => none

theorem systemName?_unscoped : ∀ e : Expr, e.systemName? = e.unscoped.systemName?
  | within _ e => systemName?_unscoped e
  | literal _ | apply .. | column _ | star _ | projected .. | view _ | pinned .. => rfl

theorem pieces_unscoped (c : Catalog) : ∀ (e : Expr) (s : Scope), ∃ s', e.pieces c s = e.unscoped.pieces c s'
  | within s' e, _ => by
      rw [pieces]
      exact pieces_unscoped c e s'
  | literal _, s | apply .., s | column _, s | star _, s | projected .., s | view _, s | pinned .., s => ⟨s, rfl⟩

/-- What the database names is a leaf. -/
theorem isLeaf_of_systemName? {n : String} : ∀ {e : Expr}, e.systemName? = some n → e.unscoped.isLeaf = true
  | within _ e, h => isLeaf_of_systemName? (e := e) h
  | column _, _ | star _, _ | projected .., _ | pinned .., _ => rfl
  | literal _, h | apply .., h | view _, h => nomatch h

variable {e : Expr} {n : String} {w : Spelling}

theorem name_of_spelling? (h : e.spelling? = some w) : e.systemName? = some w.name := by
  have hunpinned : ∀ e : Expr, e.unpinned.systemName? = e.systemName? := by
    intro e
    cases e <;> rfl
  rw [systemName?_unscoped, ← hunpinned]
  rw [spelling?] at h
  split at h
  case h_1 c heq => obtain rfl := Option.some.inj h; rw [heq]; rfl
  case h_2 v heq => obtain rfl := Option.some.inj h; rw [heq]; rfl
  case h_3 v n d heq =>
      obtain ⟨n, rfl, rfl⟩ := Option.map_eq_some_iff.mp h
      rw [heq]
      rfl
  case h_4 => cases h

/-- A leaf prints one piece, behind a fault if its source is not known. -/
theorem getLast?_leafPiecesIn (s : Scope) (e : Expr) :
    ∃ q, (leafPiecesIn s e).getLast? = (leafPieces q e.unpinned).getLast? := by
  rw [leafPiecesIn]
  cases s.resolveLeaf e with
  | ok m => exact ⟨some m.label, rfl⟩
  | error cause =>
      refine ⟨none, ?_⟩
      rw [resolvedPieces, leafPieces.eq_def]
      split <;> rfl

/-- The text of a column ends in its name as it is spelled. -/
theorem identifier?_of_isLeaf (c : Catalog) (s : Scope) (h : e.unscoped.isLeaf = true) :
    (e.pieces c s).getLast?.bind Piece.identifier? = e.spelling?.map Spelling.text := by
  obtain ⟨s', hpieces⟩ := pieces_unscoped c e s
  obtain ⟨q, hlast⟩ := getLast?_leafPiecesIn s' e.unscoped
  rw [hpieces, pieces_of_isLeaf h, hlast, spelling?]
  cases e.unscoped.unpinned with
  | column c => exact congrArg some (Dialect.identifier_eq _ _)
  | star v => rfl
  | projected v n d =>
      cases n with
      | none => rfl
      | some n => exact congrArg some (Dialect.identifier_eq _ _)
  | literal | apply | view | pinned | within => rfl

end Expr

namespace Projection

variable {p : Projection} {n : String} {w : Spelling} {c : Catalog}

/-- The pieces of an entry between SELECT and FROM. -/
def entry (c : Catalog) (p : Projection) : List Piece := p.aliased (p.definition.pieces c p.scope)

/-- The identifier that an entry declares for its column: the alias behind AS, or else the name of the column. -/
def declared? (c : Catalog) (p : Projection) : Option String := (p.entry c).getLast?.bind Piece.identifier?

/-- How the identifier that an entry declares is spelled. An alias has no quotes. -/
def spelling? (p : Projection) : Option Spelling :=
  match p.printedAlias? with
  | some a => some ⟨a, ""⟩
  | none => p.definition.spelling?

theorem label_of_printedAlias? {a : String} (h : p.printedAlias? = some a) : p.label = some a := by
  rw [printedAlias?.eq_def] at h
  split at h
  · cases h
  · cases h
  · split at h
    · cases h
    · rw [← h]
      assumption

/-- What has a name and prints without an alias is a leaf that the database gives this name, or a star. -/
theorem isLeaf_of_unaliased (hname : p.name? = some n) (h : p.printedAlias? = none) :
    p.definition.unscoped.isLeaf = true
      ∧ (p.definition.systemName? = some n ∨ p.definition.spelling? = some .all) := by
  rcases columnName?_of_name? hname with hcolumn | ⟨-, v, hv⟩
  · rw [columnName?, h, Option.none_or] at hcolumn
    exact ⟨Expr.isLeaf_of_systemName? hcolumn, .inl hcolumn⟩
  · rw [hv]
    exact ⟨rfl, .inr rfl⟩

/-- The text of an entry ends in its identifier as it is spelled. -/
theorem declared?_eq (c : Catalog) (hname : p.name? = some n) :
    p.declared? c = p.spelling?.map Spelling.text := by
  cases ha : p.printedAlias? with
  | some a =>
      have hentry : p.entry c = p.definition.pieces c p.scope ++ [.word " AS ", .label a] := by
        rw [entry, aliased, ha]
      have hspelling : p.spelling? = some ⟨a, ""⟩ := by
        rw [spelling?, ha]
      rw [declared?, hentry, hspelling, List.getLast?_append]
      exact congrArg some (by simp [Spelling.text])
  | none =>
      have hentry : p.entry c = p.definition.pieces c p.scope := by
        rw [entry, aliased, ha]
      have hspelling : p.spelling? = p.definition.spelling? := by
        rw [spelling?, ha]
      rw [declared?, hentry, hspelling]
      exact Expr.identifier?_of_isLeaf c p.scope (isLeaf_of_unaliased hname ha).1

theorem name_of_spelling? (hname : p.name? = some n) (h : p.spelling? = some w) : w.name = n ∨ w = .all := by
  rw [spelling?] at h
  split at h
  case h_1 a ha =>
      obtain rfl := Option.some.inj h
      rw [name?, label_of_printedAlias? ha] at hname
      exact .inl (Option.some.inj hname)
  case h_2 ha =>
      rcases (isLeaf_of_unaliased hname ha).2 with hsystem | hall
      · exact .inl (Option.some.inj ((Expr.name_of_spelling? h).symm.trans hsystem))
      · exact .inr (Option.some.inj (h.symm.trans hall))

/-- An entry declares a name as a dialect writes it exactly if it is spelled so. -/
theorem declared?_eq_identifier (c : Catalog) (hname : p.name? = some n) (d : Dialect) :
    p.declared? c = some (d.identifier n) ↔ p.spelling? = some (d.spelling n) := by
  rw [declared?_eq c hname, Dialect.identifier_eq, Option.map_eq_some_iff]
  constructor
  · rintro ⟨w, hw, htext⟩
    rcases name_of_spelling? hname hw with hwn | rfl
    · rw [hw, Spelling.eq_of_text_eq hwn htext]
    · rw [hw, Spelling.eq_of_text_eq_all htext]
  · intro h
    exact ⟨_, h, rfl⟩

end Projection

/-! The dialect of a nested statement. -/

namespace View

/-- A view writes names as the statement behind it. -/
theorem dialect_of_statement? (i : Nat) : ∀ {v : View} {q : Select}, v.statement? = some q →
    v.dialect = (View.select i q).dialect
  | .table _, _, h => nomatch h
  | .concrete _, _, h => nomatch h
  | .select _ ⟨_, [], _, _, _, _, _, _⟩, _, h => by
      obtain rfl := Option.some.inj h
      rfl
  | .select _ ⟨_, ⟨_, _, _, _⟩ :: _, _, _, _, _, _, _⟩, _, h => by
      obtain rfl := Option.some.inj h
      rfl
  | .join _ ⟨_, _, t, _⟩, _, h => dialect_of_statement? i (v := t) h

/-- Views of one statement write names alike, whatever stages of it they are of. -/
theorem dialect_of_grows {v w : View} {q r : Select} (hv : v.statement? = some q) (hw : w.statement? = some r)
    (h : q.Grows r) : v.dialect = w.dialect := by
  have hgrows : (View.select 0 q).Grows (.select 0 r) := h
  rw [dialect_of_statement? 0 hv, dialect_of_statement? 0 hw, hgrows.dialect]

end View

/-- The statement of an entry of a FROM list that is a statement. -/
def Source.nested? (src : Source) : Option Select := if src.view.isStatement then src.view.statement? else none

/-- A piece takes a projection from a source: it refers to it by its name, behind the alias of the source. -/
def Piece.Takes (src : Source) (p : Projection) : Piece → Prop
  | reference (some a) n _ => a = src.label ∧ p.name? = some n
  | _ => False

instance (src : Source) (p : Projection) : DecidablePred (Piece.Takes src p)
  | .reference (some a) n _ => inferInstanceAs (Decidable (a = src.label ∧ p.name? = some n))
  | .reference none _ _ => isFalse id
  | .word _ | .literal _ | .name _ _ | .label _ | .star _ | .statement _ | .fault _ | .faultHere _ => isFalse id

theorem Piece.Takes.reference {x : Piece} {src : Source} {p : Projection} (h : x.Takes src p) :
    ∃ n d, x = .reference (some src.label) n d ∧ p.name? = some n := by
  unfold Takes at h
  split at h
  case h_1 a n d =>
      obtain ⟨rfl, hname⟩ := h
      exact ⟨n, d, rfl, hname⟩
  case h_2 => exact h.elim

namespace Select

variable {s : Select} {c : Catalog}

/-- The projections that a statement prints. -/
def shown (c : Catalog) (q : Select) : List Projection :=
  if q.projections.isEmpty then q.defaults c else q.projections

/-- What a statement prints between SELECT and FROM are the entries of these projections. -/
theorem entries_eq (c : Catalog) (q : Select) : q.entries c = (q.shown c).map (·.entry c) := by
  rw [entries, shown]
  split
  · refine List.map_congr_left fun p hp => ?_
    have hleaf : p.definition.isLeaf = true := by
      obtain ⟨src, -, rfl | ⟨hmem, -, -⟩⟩ := mem_defaults hp
      · rfl
      · rcases View.mem_selectors hmem with ⟨col, hcol, -⟩ | ⟨w, q, -, -, x, -, hx⟩
        · rw [hcol]; rfl
        · rw [hx]; rfl
    rw [Projection.entry, Expr.pieces_of_isLeaf hleaf]
  · exact Projection.piecesAll_eq_map q.projections

/-- What a statement takes from a nested one by name is declared there by the same identifier. -/
def DeclaresAlike (c : Catalog) (s : Select) : Prop :=
  ∀ src ∈ s.sources, ∀ q ∈ src.nested?, ∀ p ∈ q.shown c, ∀ x ∈ s.pieces c, x.Takes src p →
    p.declared? c = x.identifier?

instance (c : Catalog) (s : Select) : Decidable (s.DeclaresAlike c) :=
  inferInstanceAs (Decidable (∀ src ∈ s.sources, ∀ q ∈ src.nested?, ∀ p ∈ q.shown c, ∀ x ∈ s.pieces c,
    x.Takes src p → p.declared? c = x.identifier?))

/-- What a statement takes from a nested one by name is spelled there with the quotes of the first table of the
nested statement. What a stray takes is spelled with the quotes of the stray. -/
def SpelledAlike (c : Catalog) (s : Select) : Prop :=
  ∀ src ∈ s.sources, ∀ q ∈ src.nested?, ∀ p ∈ q.shown c, ∀ n d, p.name? = some n →
    Piece.reference (some src.label) n d ∈ s.pieces c → ∀ o ∈ s.occurrences c,
      Piece.reference (some src.label) n d ∈ o.pieces c →
        (¬ o.Stray s src n → p.spelling? = some (src.view.dialect.spelling n))
          ∧ (o.Stray s src n → p.spelling? = some (d.spelling n))

/-- A reference that is no stray is written with the quotes of the first table of the nested statement. -/
theorem Backed.reference_dialect (h : s.Backed) {src : Source} {q : Select} {o : Occurrence} {n : String}
    {d : Dialect} (hsrc : src ∈ s.sources) (hq : q ∈ src.nested?) (ho : o ∈ s.occurrences c)
    (hstray : ¬ o.Stray s src n) (hx : Piece.reference (some src.label) n d ∈ o.pieces c) :
    d = src.view.dialect := by
  obtain ⟨hs, hq⟩ := Option.ite_none_right_eq_some.mp hq
  obtain ⟨sc, v, b, q₀, -, rfl, hv, hgrows, -⟩ := h.direct_reference hsrc hs hq ho hstray hx
  exact View.dialect_of_grows hv hq hgrows

/-- A statement declares alike what it takes from nested ones exactly if the aliases and the tables of the columns
it takes go with the first tables of the nested statements. -/
theorem Formed.declares_alike_iff (h : s.Formed) (c : Catalog) : s.DeclaresAlike c ↔ s.SpelledAlike c := by
  have hbacked : s.Backed := (h.induction Backed.empty Step.backed).1
  constructor
  · intro halike src hsrc q hq p hp n d hname hx o ho hxo
    have hspelled : p.spelling? = some (d.spelling n) :=
      (p.declared?_eq_identifier c hname d).mp (halike src hsrc q hq p hp _ hx ⟨rfl, hname⟩)
    refine ⟨fun hstray => ?_, fun _ => hspelled⟩
    rw [← hbacked.reference_dialect hsrc hq ho hstray hxo]
    exact hspelled
  · intro hspelled src hsrc q hq p hp x hx htakes
    obtain ⟨n, d, rfl, hname⟩ := htakes.reference
    -- the reference is part of an occurrence: a stray, or a leaf that was accepted through the source
    obtain ⟨o, ho, hxo⟩ := mem_pieces_reference hx
    obtain ⟨hdirect, hstrays⟩ := hspelled src hsrc q hq p hp n d hname hx o ho hxo
    refine (p.declared?_eq_identifier c hname d).mpr ?_
    by_cases hstray : o.Stray s src n
    · exact hstrays hstray
    · rw [hbacked.reference_dialect hsrc hq ho hstray hxo]
      exact hdirect hstray

/-- A table of people whose names are quoted. -/
def quotedPeople : Table := ⟨0, "People", ⟨true, "\""⟩⟩

/-- The names of the people under a label. -/
def namesAs (label : String) : Select :=
  (Call.projectAs (.column ⟨quotedPeople, "name"⟩) label).attempt {}
    ((Call.addSource (.table quotedPeople)).attempt {} (Select.empty 0))

/-- The names of the people, taken from a statement that has them under a label. -/
def takenAs (label : String) : Select :=
  (Call.project (.column ⟨quotedPeople, "name"⟩)).attempt {} (namesAs label).over

theorem takenAs_formed (label : String) : (takenAs label).Formed := by
  have hnames : (namesAs label).Formed :=
    ((Formed.empty 0).addTable quotedPeople {}).plainCall
      (k := .projectAs (.column ⟨quotedPeople, "name"⟩) label) rfl {}
  exact hnames.over.plainCall (k := .project (.column ⟨quotedPeople, "name"⟩)) rfl {}

/-- A label that is the name of the column is not printed, and the column has the quotes of its table. -/
theorem takenAs_name : ((takenAs "name").print {}).toOption
      = some "SELECT a.\"name\" FROM (SELECT p.\"name\" FROM \"People\" p) a"
    ∧ (takenAs "name").DeclaresAlike {} ∧ (takenAs "name").SpelledAlike {} := by
  have halike : (takenAs "name").DeclaresAlike {} := by decide +kernel
  exact ⟨by decide +kernel, halike, ((takenAs_formed "name").declares_alike_iff {}).mp halike⟩

/-- A label is declared without quotes and taken with quotes. -/
theorem takenAs_label : (takenAs "label").Formed
    ∧ ((takenAs "label").print {}).toOption
      = some "SELECT a.\"label\" AS name FROM (SELECT p.\"name\" AS label FROM \"People\" p) a"
    ∧ ¬ (takenAs "label").DeclaresAlike {} :=
  ⟨takenAs_formed "label", by decide +kernel, by decide +kernel⟩

end Select

end SqlCompose
