import SqlCompose.Proofs.Listings
import SqlCompose.Proofs.Registries

/-!
What a predicate does to the entries between SELECT and FROM. Accepting it may let the statements in the
FROM list project more. Explicit projections stay as they are. A statement without projections lists the
names that its sources show, so its entries stay the same exactly if no source shows a new name. The one
exception is the text of a star, which a source without names prints as it prints the name of a star.
-/

namespace SqlCompose

namespace Source

variable {c : Catalog} {a b : Source}

/-- What an acceptance makes of a source: it stays the same, or it is a statement and grows. -/
def Follows (a b : Source) : Prop := b = a ∨ a.view.isStatement = true ∧ a.Grows b

/-- A source without names shows the name of a star instead. -/
structure Stars (c : Catalog) (a b : Source) : Prop where
  nameless : a.exposed c = []
  star : b.exposed c = ["*"]
  plain : a.view.dialect.identifier "*" = "*"

namespace Follows

theorem refl (a : Source) : a.Follows a := Or.inl rfl

theorem trans {d : Source} (h : a.Follows b) (hbd : b.Follows d) : a.Follows d := by
  rcases hbd with rfl | ⟨hs, hgrows⟩
  · exact h
  · rcases h with rfl | ⟨hs', hgrows'⟩
    · exact Or.inr ⟨hs, hgrows⟩
    · refine Or.inr ⟨hs', hgrows.1.trans hgrows'.1, hgrows.2.1.trans hgrows'.2.1,
        hgrows.2.2.1.trans hgrows'.2.2.1, hgrows'.2.2.2.trans hgrows.2.2.2⟩

/-- A source that changes is a statement and shows more names. -/
theorem broadens (h : a.Follows b) (ha : a.Headed) (c : Catalog) : Broadens c c a b := by
  rcases h with rfl | ⟨hs, hgrows⟩
  · obtain ⟨x, hx⟩ := ha.exists_shows c
    exact ⟨x, x, hx, hx, Or.inl rfl⟩
  · obtain ⟨q, hq⟩ := View.statement?_of_isStatement hs
    obtain ⟨r, hr, hqr⟩ := hgrows.2.2.2.statement? hq
    have hs' : b.view.isStatement = true := hgrows.2.2.2.isStatement.trans hs
    have hb : b.Headed := ha.grows hgrows
    obtain ⟨more, hmore⟩ : a.exposed c <+: b.exposed c := by
      rw [ha.exposed_eq hs hq, hb.exposed_eq hs' hr]
      exact hqr.projections.filterMap _
    refine ⟨_, _, ha.shows_statement hs, hb.shows_statement hs', Or.inr ⟨rfl, more, ?_⟩⟩
    rw [exhibit, exhibit, hgrows.1, hgrows.2.2.2.dialect, hmore]

end Follows

/-- One source without names shows the name of a star instead, and the others show the same names. -/
inductive OneStar (c : Catalog) : List Source → List Source → Prop
  | here {a b : Source} {f g : List Source} (h : a.Stars c b)
      (hfg : g.map (exposed c) = f.map (exposed c)) : OneStar c (a :: f) (b :: g)
  | there {a b : Source} {f g : List Source} (h : b.exposed c = a.exposed c) (hfg : OneStar c f g) :
      OneStar c (a :: f) (b :: g)

theorem oneStar_exhibits_iff : ∀ {f g : List Source},
    Exhibit.OneStar (f.map (exhibit c)) (g.map (exhibit c)) ↔ OneStar c f g
  | [], g => ⟨fun h => (nomatch h), fun h => (nomatch h)⟩
  | a :: f, [] => ⟨fun h => (nomatch h), fun h => (nomatch h)⟩
  | a :: f, b :: g => by
      constructor
      · intro h
        cases h with
        | here h hs =>
            rw [List.map_map, List.map_map] at hs
            exact .here ⟨h.nameless, h.star, h.plain⟩ hs
        | there h hs => exact .there h (oneStar_exhibits_iff.mp hs)
      · intro h
        cases h with
        | here h hfg =>
            refine .here ⟨h.nameless, h.star, h.plain⟩ ?_
            rw [List.map_map, List.map_map]
            exact hfg
        | there h hfg => exact .there h (oneStar_exhibits_iff.mpr hfg)

theorem Follows.all_refl (f : List Source) : List.Forall₂ Follows f f :=
  List.forall₂_same.mpr fun x _ => .refl x

end Source

namespace Select

mutual

/-- An acceptance changes only those sources of a statement that are statements themselves. -/
theorem Accepts.follows : ∀ {s t : Select} {e a : Expr}, s.Accepts e t a → s.Linked →
    List.Forall₂ Source.Follows s.sources t.sources
  | _, _, _, _, .literal s _, _ => Source.Follows.all_refl s.sources
  | _, _, _, _, .apply _ h, hs => h.follows hs
  | _, _, _, _, .own _ _ h, hs => h.follows hs
  | s, _, _, _, .view _, _ => Source.Follows.all_refl s.sources
  | s, _, _, _, .kept _ _ _, _ => Source.Follows.all_refl s.sources
  | _, _, _, _, .routed _ hm hstat hf _ hl hq hp hv, hs => by
      have hsrc := hf ▸ List.mem_append_right _ List.mem_cons_self
      have hkind := (hs.grows_of_label (Scope.resolveLeaf_mem hm) hsrc hl).isStatement.trans hstat
      have hgrows := (View.withStatement_spec hq hp.grows hv).1
      rw [hf]
      exact List.rel_append (Source.Follows.all_refl _)
        (.cons (Or.inr ⟨hkind, rfl, rfl, rfl, hgrows⟩) (Source.Follows.all_refl _))

theorem AcceptsAll.follows : ∀ {s t : Select} {es as : List Expr}, s.AcceptsAll es t as → s.Linked →
    List.Forall₂ Source.Follows s.sources t.sources
  | _, _, _, _, .nil s, _ => Source.Follows.all_refl s.sources
  | _, _, _, _, .cons h hes, hs =>
      List.forall₂_trans (R := Source.Follows) (fun _ _ _ => .trans) (h.follows hs)
        (hes.follows (hs.grows h.grows))

end

/-- A statement printed a star for one of its sources, and prints the name of a star for it now. -/
def StarNamed (c : Catalog) (s t : Select) : Prop :=
  "*" ∉ s.aliases.taken ∧ "*" ∉ (s.exposures c).flatten ∧ Source.OneStar c s.sources t.sources

variable {s t u : Select} {e a : Expr} {c c' k : Catalog}

theorem entries_of_projections (h : s.projections ≠ []) :
    s.entries k = Projection.piecesAll k s.projections := by
  rw [entries, if_neg (by rwa [List.isEmpty_iff])]

theorem Accepts.entries_iff (h : s.Accepts e t a) (hs : s.Linked)
    (hnan : ∀ src ∈ s.sources, src.view.nanFree = true) :
    (t.entries k).map Piece.textAll = (s.entries k).map Piece.textAll ↔
      s.projections ≠ [] ∨ t.exposures k = s.exposures k ∨ s.StarNamed k t := by
  by_cases hp : s.projections = []
  · have hbroadens : List.Forall₂ (Source.Broadens k k) s.sources t.sources :=
      ((List.forall₂_and_left _ _).mpr ⟨hs.headed hnan, h.follows hs⟩).imp
        fun _ _ hab => hab.2.broadens hab.1 k
    rw [textAll_entries hp, textAll_entries (h.projections.trans hp), h.aliases,
      Source.entryTexts_eq_iff hbroadens, Source.oneStar_exhibits_iff, or_iff_right (not_not.mpr hp)]
    exact Iff.rfl
  · rw [entries_of_projections hp, entries_of_projections (h.projections ▸ hp), h.projections]
    exact iff_of_true rfl (Or.inl hp)

/-- A predicate leaves the registries of the catalogue alone. It leaves the entries between SELECT and
FROM as they were exactly if the statement has projections, or no source shows a new name, or a source
shows the name of a star in place of a star and prints it the same. -/
theorem Reached.predicate_entries_iff (h : s.Reached)
    (hnan : ∀ src ∈ s.sources, src.view.nanFree = true)
    (hrun : (Call.filter e).run s c = .ok (t, c') ∨ (Call.filterGroups e).run s c = .ok (t, c')) :
    c'.registries = c.registries ∧ ∀ k,
      ((t.entries k).map Piece.textAll = (s.entries k).map Piece.textAll ↔
        s.projections ≠ [] ∨ t.exposures k = s.exposures k ∨ s.StarNamed k t) := by
  constructor
  · rcases hrun with hrun | hrun
    · exact s.filter_quiet e hrun
    · exact s.filterGroups_quiet e hrun
  intro k
  have haccepted : ∃ u e' a, s.Accepts e' u a ∧ (t = { u with filters := u.filters ++ [⟨a, u.scope⟩] }
      ∨ t = { u with having := u.having ++ [⟨a, u.scope⟩] }) := by
    rcases hrun with hrun | hrun
    all_goals
      obtain ⟨⟨u, a⟩, c₁, hu, h₁⟩ := Build.bind_eq_ok.mp (Build.rejecting_eq_ok.mp hrun)
      obtain ⟨rfl, -⟩ := Prod.mk.inj (Build.pure_eq_ok.mp h₁)
      obtain ⟨e', -, hacc⟩ : ∃ e', True ∧ s.Accepts e' u a :=
        acceptUnwrapping_sound (fun _ _ _ => trivial) _ trivial hu
    · exact ⟨u, e', a, hacc, Or.inl rfl⟩
    · exact ⟨u, e', a, hacc, Or.inr rfl⟩
  obtain ⟨u, e', a, hacc, rfl | rfl⟩ := haccepted
  · exact hacc.entries_iff h.linked hnan
  · exact hacc.entries_iff h.linked hnan

theorem wealthyNames_entries_iff : ∃ c',
    (Call.filter (.revenueAbove 1000)).run peopleNames.over {} = .ok (wealthyNames, c')
      ∧ c'.registries = #[] ∧ ∀ k,
        ((wealthyNames.entries k).map Piece.textAll = (peopleNames.over.entries k).map Piece.textAll ↔
          peopleNames.over.projections ≠ [] ∨ wealthyNames.exposures k = peopleNames.over.exposures k
            ∨ peopleNames.over.StarNamed k wealthyNames) := by
  obtain ⟨⟨t, c'⟩, hrun⟩ := Except.exists_of_isOk
    (show ((Call.filter (.revenueAbove 1000)).run peopleNames.over {}).isOk = true by decide +kernel)
  obtain rfl : wealthyNames = t := Call.attempt_eq hrun
  obtain ⟨hregistries, hiff⟩ :=
    peopleNames_over_reached.predicate_entries_iff (by decide +kernel) (Or.inl hrun)
  exact ⟨c', hrun, hregistries, hiff⟩

/-- A predicate on a column that the nested statement did not project changes what is returned. -/
theorem wealthyNames_entries_changed : peopleNames.over.Reached ∧
    ((Call.filter (.revenueAbove 1000)).run peopleNames.over {}).isOk = true ∧
      (peopleNames.over.entries {}).map Piece.textAll = ["a.name"] ∧
      (wealthyNames.entries {}).map Piece.textAll = ["a.name", "a.revenue"] := by
  refine ⟨peopleNames_over_reached, ?_⟩
  decide +kernel

/-- The text of a star stays when the nested statement gets a star for its only projection. -/
example :
    let everyone := ((Call.addSource (.table people)).attempt {} (Select.empty 0)).over
    let crowd := (Call.filter (.apply .greater
      [.apply .count [.star (.table people)], .literal (.integer 1)])).attempt {} everyone
    crowd.exposures {} = [["*"]] ∧ (crowd.entries {}).map Piece.textAll = ["a.*"] := by
  decide +kernel

end Select

end SqlCompose
