import SqlCompose.Proofs.Equality
import SqlCompose.Proofs.OwnSelectors
import SqlCompose.Proofs.Reuse

/-!
What a nested statement gives to the statement around it. For a column or a star that it accepts, it gives the first
clause with an equal definition, or else a new clause. Equality does not see the alias that a leaf resolves to, nor
the name it prints with, so the clause prints the same as the accepted leaf exactly if these two are the same. Of
them, projecting compares the alias, and providing compares nothing.
-/

namespace SqlCompose

namespace Expr

/-- Whether an expression comes down to a column or a star. -/
def isDatum (e : Expr) : Bool :=
  match e.core with
  | column _ => true
  | star _ => true
  | _ => false

/-- Equal expressions come down to a column or a star together. -/
theorem isDatum_of_beq : ∀ {e b : Expr}, e.beq b = true → b.isDatum = true → e.isDatum = true
  | column _, _, _, _ => rfl
  | star _, _, _, _ => rfl
  | projected _ _ d, b, h, hb => by
      rw [Expr.beq] at h
      exact isDatum_of_beq (e := d) h hb
  | pinned e _, b, h, hb => by
      rw [Expr.beq] at h
      exact isDatum_of_beq (e := e) h hb
  | within _ e, b, h, hb => by
      rw [Expr.beq] at h
      exact isDatum_of_beq (e := e) h hb
  | literal v, b, h, hb => by
      obtain ⟨w, hw, -⟩ := beq_literal.mp h
      rw [isDatum, hw] at hb
      cases hb
  | apply op as, b, h, hb => by
      obtain ⟨bs, hbs, -⟩ := beq_apply.mp h
      rw [isDatum, hbs] at hb
      cases hb
  | view v, b, h, hb => by
      obtain ⟨w, hw, -⟩ := beq_view.mp h
      rw [isDatum, hw] at hb
      cases hb

/-- A column or a star is a leaf, unless it has a scope of its own. -/
theorem isLeaf_or_scoped {e : Expr} (h : e.isDatum = true) :
    e.isLeaf = true ∨ ∃ sc d, e = .within sc d := by
  cases e with
  | column col => exact .inl rfl
  | star v => exact .inl rfl
  | projected v n d => exact .inl rfl
  | pinned d v => exact .inl rfl
  | within sc d => exact .inr ⟨sc, d, rfl⟩
  | literal v => cases h
  | apply op args => cases h
  | view v => cases h

end Expr

/-! The text of a leaf. -/

/-- The alias and the name that a leaf prints with, if it prints a name. -/
def Scope.qualified? (s : Scope) (leaf : Expr) : Option (Option String × String) :=
  leaf.leafText?.map (s.labelOf? leaf, ·)

namespace Expr

variable {e b : Expr} {s s' : Scope}

/-- A leaf that prints no name prints nothing. -/
theorem textAll_nameless (h : e.leafText? = none) (s : Scope) : Piece.textAll (leafPiecesIn s e) = "" := by
  have hleaf : ∀ q, Piece.textAll (leafPieces q e.unpinned) = "" := by
    intro q
    rw [leafText?] at h
    split at h
    case h_1 => cases h
    case h_2 => cases h
    case h_3 => cases h
    case h_4 hcolumn hstar hnamed =>
        unfold leafPieces
        split
        case h_1 col heq => exact absurd heq (hcolumn col)
        case h_2 v heq => exact absurd heq (hstar v)
        case h_3 v n d heq => exact absurd heq (hnamed v n d)
        case h_4 => rfl
        case h_5 => rfl
  rw [leafPiecesIn]
  cases s.resolveLeaf e with
  | ok m => exact hleaf _
  | error cause =>
      rw [resolvedPieces, Piece.textAll, Piece.text, String.empty_append]
      exact hleaf none

/-- A leaf that resolves and has a name prints something. -/
theorem textAll_named_ne_empty {x : String} (h : e.leafText? = some x)
    (hs : ∀ m ∈ s, AliasPool.Dotless m.label) (hlabel : (s.labelOf? e).isSome = true) :
    Piece.textAll (leafPiecesIn s e) ≠ "" := by
  obtain ⟨l, hl⟩ := Option.isSome_iff_exists.mp hlabel
  obtain ⟨ch, rest, hch, -⟩ := Scope.labelOf?_dotless hs hl
  rw [textAll_leafPiecesIn h, hl, Piece.qualification]
  intro hempty
  have hlist := congrArg String.toList hempty
  rw [String.toList_append, String.toList_append, hch] at hlist
  cases hlist

/-- Two leaves that resolve print the same exactly if they print the same name behind the same alias. -/
theorem text_leaf_eq_iff (hs : ∀ m ∈ s, AliasPool.Dotless m.label) (hs' : ∀ m ∈ s', AliasPool.Dotless m.label)
    (he : (s.labelOf? e).isSome = true) (hb : (s'.labelOf? b).isSome = true) :
    Piece.textAll (leafPiecesIn s e) = Piece.textAll (leafPiecesIn s' b) ↔
      s.qualified? e = s'.qualified? b := by
  rw [Scope.qualified?, Scope.qualified?]
  cases hx : e.leafText? with
  | none =>
      rw [textAll_nameless hx]
      cases hy : b.leafText? with
      | none => rw [textAll_nameless hy]; exact iff_of_true rfl rfl
      | some y => exact iff_of_false (textAll_named_ne_empty hy hs' hb).symm (fun h => nomatch h)
  | some x =>
      cases hy : b.leafText? with
      | none =>
          rw [textAll_nameless hy]
          exact iff_of_false (textAll_named_ne_empty hx hs he) (fun h => nomatch h)
      | some y =>
          obtain ⟨l, hl⟩ := Option.isSome_iff_exists.mp he
          obtain ⟨l', hl'⟩ := Option.isSome_iff_exists.mp hb
          rw [textAll_leafPiecesIn hx, textAll_leafPiecesIn hy, hl, hl',
            Piece.qualification_inj (Scope.labelOf?_dotless hs hl) (Scope.labelOf?_dotless hs' hl')]
          simp

end Expr

namespace Select

variable {s t q r : Select} {e a b d : Expr} {name : Option String} {c c' : Catalog}

mutual

/-- A column or a star is accepted as a leaf that comes down to a column or a star. -/
theorem Accepts.isDatum : ∀ {s t : Select} {e a : Expr}, s.Accepts e t a → e.isDatum = true →
    a.isLeaf = true ∧ a.isDatum = true
  | _, _, _, _, .literal _ _, he => nomatch he
  | _, _, _, _, .apply _ _, he => nomatch he
  | _, _, _, _, .own (d := d) _ _ h, he => h.isDatum (e := d) he
  | _, _, _, _, .view _, he => nomatch he
  | _, _, _, _, .kept hleaf _ _, he => ⟨hleaf, he⟩
  | _, _, leaf, _, .routed _ _ _ _ _ _ _ hp _, he => by
      have hunpinned : leaf.unpinned.isDatum = true := by
        cases leaf with
        | pinned b v => exact he
        | _ => exact he
      exact ⟨rfl, hp.isDatum hunpinned⟩

theorem Provides.isDatum : ∀ {q r : Select} {e d : Expr} {name : Option String}, q.Provides e r name d →
    e.isDatum = true → d.isDatum = true
  | _, _, _, _, _, .reused h hp, he => by
      have hbeq := List.find?_some hp
      exact Expr.isDatum_of_beq hbeq (h.isDatum he).2
  | _, _, _, _, _, .added h _ _, he => (h.isDatum he).2

end

/-- For an expression that it accepts, a statement gives a clause of its own: the first one with an equal definition,
or else a new one. -/
theorem provide_of_accept (h : s.accept e c = .ok ((t, b), c')) : ∃ u p,
    provide Select.accept s e c = .ok ((u, p.name?, p.definition), c') ∧ p ∈ u.projections ∧
      ((t.projections.find? (·.definition == b) = none ∧ u.projections = t.projections ++ [p] ∧
          p.definition = b ∧ p.scope = t.scope) ∨
        (t.projections.find? (·.definition == b) = some p ∧ u = t)) := by
  cases hfind : t.projections.find? (·.definition == b) with
  | none =>
      obtain ⟨l, pool, hpool⟩ : ∃ l pool, t.aliases.projectionAlias e.name? = (l, pool) := ⟨_, _, rfl⟩
      refine ⟨{ t with projections := t.projections ++ [⟨b, l, t.scope⟩], aliases := pool }, ⟨b, l, t.scope⟩,
        Build.bind_eq_ok.mpr ⟨(t, b), c', h, ?_⟩, List.mem_append_right _ List.mem_cons_self,
        .inl ⟨rfl, rfl, rfl, rfl⟩⟩
      simp only [hfind, hpool]
      rfl
  | some p => exact ⟨t, p, provide_reused h hfind, List.mem_of_find?_eq_some hfind, .inr ⟨rfl, rfl⟩⟩

/-- A leaf that resolves has an alias. -/
theorem labelOf?_isSome_of_resolves {x : Expr} {sc : Scope} (hx : x.isLeaf = true) (h : x.ResolvesIn sc) :
    (sc.labelOf? x).isSome = true := by
  obtain ⟨m, hm⟩ := h x (by rw [Expr.leaves_of_isLeaf hx]; exact List.mem_cons_self)
  rw [Scope.labelOf?, hm]
  rfl

/-- A clause that is a leaf and an accepted leaf print the same exactly if they print the same name behind the same
alias. -/
theorem Reached.text_eq_iff_qualified (h : s.Reached) {p : Projection} (hp : p ∈ s.projections)
    (hleaf : p.definition.isLeaf = true) (hbleaf : b.isLeaf = true) (hclause : p.definition.ResolvesIn p.scope)
    (hb : b.ResolvesIn s.scope) (k : Catalog) :
    p.text k = Piece.textAll (b.pieces k s.scope) ↔
      Scope.qualified? p.scope p.definition = Scope.qualified? s.scope b := by
  rw [Projection.text, Expr.pieces_of_isLeaf hleaf, Expr.pieces_of_isLeaf hbleaf]
  exact Expr.text_leaf_eq_iff (h.dotless_projection hp) h.dotless
    (labelOf?_isSome_of_resolves hleaf hclause) (labelOf?_isSome_of_resolves hbleaf hb)

/-- Projecting takes a clause with an equal definition for an accepted leaf exactly if the aliases are the same. -/
theorem covers_leaf_iff {p : Projection} (hbeq : p.definition.beq b = true) (hleaf : p.definition.isLeaf = true)
    (hbleaf : b.isLeaf = true) :
    t.covers b none p = true ↔ Scope.labelOf? p.scope p.definition = Scope.labelOf? t.scope b := by
  rw [covers_iff, leafAliases, leafAliases, Expr.leaves_of_isLeaf hleaf, Expr.leaves_of_isLeaf hbleaf]
  simp [hbeq, Scope.labelOf?]

/-- How a clause that was there before stands for an accepted leaf. The two print the same exactly if they print the
same name behind the same alias, where projecting would have compared the aliases. Without NaN both resolve. A clause
may also have a scope of its own. -/
def StandsFor (s t : Select) (p : Projection) (b : Expr) : Prop :=
  (∃ sc d, p.definition = .within sc d) ∨
    ((p.definition.ResolvesIn p.scope → b.ResolvesIn t.scope → ∀ k,
        (p.text k = Piece.textAll (b.pieces k t.scope) ↔
          Scope.qualified? p.scope p.definition = Scope.qualified? t.scope b)) ∧
      (t.covers b none p = true ↔ Scope.labelOf? p.scope p.definition = Scope.labelOf? t.scope b) ∧
      ((∀ src ∈ s.sources, src.view.nanFree = true) →
        p.definition.ResolvesIn p.scope ∧ b.ResolvesIn t.scope))

/-- For a column or a star that it accepts, a statement gives a clause of its own to the statement around it. A new
clause prints what was accepted, and a clause that was there before only stands for it. -/
theorem Reached.provided_text_iff (h : s.Reached) (he : e.isDatum = true)
    (hacc : s.accept e c = .ok ((t, b), c')) : ∃ u p,
    provide Select.accept s e c = .ok ((u, p.name?, p.definition), c') ∧ p ∈ u.projections ∧
      ((t.projections.find? (·.definition == b) = none ∧ u.projections = t.projections ++ [p] ∧
          ∀ k, p.text k = Piece.textAll (b.pieces k t.scope)) ∨
        (t.projections.find? (·.definition == b) = some p ∧ u = t ∧ s.StandsFor t p b)) := by
  have haccepts := accept_sound hacc
  obtain ⟨hbleaf, hbdatum⟩ := haccepts.isDatum he
  obtain ⟨u, p, hrun, hp, ⟨hfind, hu, hdef, hscope⟩ | ⟨hfind, rfl⟩⟩ := provide_of_accept hacc
  · exact ⟨u, p, hrun, hp, .inl ⟨hfind, hu, fun k => by rw [Projection.text, hdef, hscope]⟩⟩
  · refine ⟨u, p, hrun, hp, .inr ⟨hfind, rfl, ?_⟩⟩
    have hbeq : p.definition.beq b = true := List.find?_some (p := fun q : Projection => q.definition == b) hfind
    rcases Expr.isLeaf_or_scoped (Expr.isDatum_of_beq hbeq hbdatum) with hleaf | hscoped
    · rw [haccepts.projections] at hp
      refine .inr ⟨fun hclause hb => ?_, covers_leaf_iff hbeq hleaf hbleaf, fun hnan => ⟨?_, ?_⟩⟩
      · rw [haccepts.scope] at hb ⊢
        exact h.text_eq_iff_qualified hp hleaf hbleaf hclause hb
      · exact h.resolves hnan ⟨p.definition, p.scope⟩ (mem_clauses.mpr (.inl ⟨p, hp, rfl⟩))
      · rw [haccepts.scope]
        exact haccepts.resolves (h.linked.inScope hnan)
    · exact .inl hscoped

/-- The name of the people is projected already. -/
theorem peopleNames_name_provided : ∃ t b c' u p, peopleNames.Reached
    ∧ peopleNames.accept (.ofPeople "name") {} = .ok ((t, b), c')
    ∧ provide Select.accept peopleNames (.ofPeople "name") {} = .ok ((u, p.name?, p.definition), c')
    ∧ p ∈ u.projections ∧ peopleNames.StandsFor t p b := by
  have hreached : peopleNames.Reached := .call (.call (.empty 0) _ {}) _ {}
  have hshown : (peopleNames.accept (.ofPeople "name") {}).toOption.map
      (fun r => (r.1.1.projections.find? (·.definition == r.1.2)).isSome) = some true := by decide +kernel
  obtain ⟨⟨⟨t, b⟩, c'⟩, hacc, hfound⟩ := Except.exists_of_toOption hshown
  obtain ⟨u, p, hrun, hp, ⟨hnone, -⟩ | ⟨-, -, hstands⟩⟩ := hreached.provided_text_iff rfl hacc
  · rw [hnone] at hfound
    cases hfound
  · exact ⟨t, b, c', u, p, hreached, hacc, hrun, hp, hstands⟩

/-- A statement over the people and the people again, that projects the name. -/
def nameOfTwice : Select := (Call.project (.ofPeople "name")).attempt {} peopleTwice.over

/-- The statement with the people as a second source accepts the name of the second source, and gives the clause with
the name of the first one. -/
theorem peopleTwice_provides_other : peopleTwice.Reached ∧ (∃ t b c' u p,
    peopleTwice.accept (.ofPeople "name") {} = .ok ((t, b), c')
    ∧ provide Select.accept peopleTwice (.ofPeople "name") {} = .ok ((u, p.name?, p.definition), c')
    ∧ p ∈ u.projections ∧ p.text {} = "p.name" ∧ Piece.textAll (b.pieces {} t.scope) = "p1.name")
    ∧ (nameOfTwice.print {}).toOption
      = some "SELECT a.name FROM (SELECT p.name FROM People p, People p1) a" := by
  refine ⟨.call (.call (.call (.empty 0) _ {}) _ {}) _ {}, ?_, by decide +kernel⟩
  have hshown : (peopleTwice.accept (.ofPeople "name") {}).toOption.map (fun r =>
      ((r.1.1.projections.find? (·.definition == r.1.2)).map (Projection.text {}),
        Piece.textAll (r.1.2.pieces {} r.1.1.scope))) = some (some "p.name", "p1.name") := by decide +kernel
  obtain ⟨⟨⟨t, b⟩, c'⟩, hacc, hshown⟩ := Except.exists_of_toOption hshown
  obtain ⟨htext, hsecond⟩ := Prod.mk.inj hshown
  obtain ⟨u, p, hrun, hp, ⟨hnone, -⟩ | ⟨hfind, -⟩⟩ := provide_of_accept hacc
  · rw [hnone] at htext
    cases htext
  · rw [hfind] at htext
    exact ⟨t, b, c', u, p, hacc, hrun, hp, Option.some.inj htext, hsecond⟩

end Select

end SqlCompose
