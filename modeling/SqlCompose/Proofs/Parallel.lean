import SqlCompose.Proofs.Inside
import SqlCompose.Proofs.Pieces

/-!
Two printings side by side. A relation between pieces that holds of the same pieces, and of pieces behind
each other if it holds part by part, is kept by operators, lists and clauses. So when one query is printed
with two catalogues, it holds of all pieces if it holds of the headings of the statements that list the
selectors of their sources: nothing else reads the catalogue.
-/

namespace SqlCompose

namespace Piece

/-- A relation between the pieces of two printings, under a condition, that is settled part by part. -/
structure Parallel (R : Prop → List Piece → List Piece → Prop) : Prop where
  same : ∀ ps, R True ps ps
  append : ∀ {A B : Prop} {ps qs ps' qs' : List Piece}, R A ps qs → R B ps' qs' →
    R (A ∧ B) (ps ++ ps') (qs ++ qs')
  statement : ∀ {A : Prop} {ps qs : List Piece}, R A ps qs → R A [.statement ps] [.statement qs]

/-- Arguments of the same binding strengths, each related under its part of a condition. -/
inductive ParallelAll (R : Prop → List Piece → List Piece → Prop) :
    Prop → List (Nat × List Piece) → List (Nat × List Piece) → Prop
  | nil : ParallelAll R True [] []
  | cons {A B : Prop} {n : Nat} {ps qs : List Piece} {args args' : List (Nat × List Piece)}
      (h : R A ps qs) (hs : ParallelAll R B args args') :
      ParallelAll R (A ∧ B) ((n, ps) :: args) ((n, qs) :: args')

variable {R : Prop → List Piece → List Piece → Prop} {A B : Prop} {ps qs : List Piece}
  {args args' : List (Nat × List Piece)}

theorem Parallel.congr (h : R A ps qs) (hAB : A ↔ B) : R B ps qs := propext hAB ▸ h

theorem ParallelAll.congr (h : ParallelAll R A args args') (hAB : A ↔ B) : ParallelAll R B args args' :=
  propext hAB ▸ h

/-- A way to lay out an argument that keeps a relation. -/
def Keeps (R : Prop → List Piece → List Piece → Prop) (f : Nat × List Piece → List Piece) : Prop :=
  ∀ {n : Nat} {A : Prop} {ps qs : List Piece}, R A ps qs → R A (f (n, ps)) (f (n, qs))

namespace Parallel

variable (hR : Parallel R)
include hR

theorem of_true (h : A) (ps : List Piece) : R A ps ps := congr (hR.same ps) (iff_of_true trivial h)

theorem prepend (h : R A ps qs) (fixed : List Piece) : R A (fixed ++ ps) (fixed ++ qs) :=
  congr (hR.append (hR.same fixed) h) (and_iff_right trivial)

theorem postpend (h : R A ps qs) (fixed : List Piece) : R A (ps ++ fixed) (qs ++ fixed) :=
  congr (hR.append h (hR.same fixed)) (and_iff_left trivial)

theorem parenthesised (h : R A ps qs) : R A (parenthesised ps) (parenthesised qs) :=
  hR.postpend (hR.prepend h [word "("]) [word ")"]

theorem enclosed (h : R A ps qs) (around own : Nat) :
    R A (enclosed around own ps) (enclosed around own qs) := by
  rw [Piece.enclosed, Piece.enclosed]
  split
  · exact hR.parenthesised h
  · exact h

variable {f : Nat × List Piece → List Piece}

theorem intercalate (hf : Keeps R f) (sep : List Piece) : ∀ {A : Prop} {args args' : List (Nat × List Piece)},
    ParallelAll R A args args' → R A (sep.intercalate (args.map f)) (sep.intercalate (args'.map f))
  | _, _, _, .nil => hR.same []
  | _, _, _, .cons h .nil => by
      simp only [List.map_cons, List.map_nil, List.intercalate_singleton]
      exact congr (hf h) (and_iff_left trivial).symm
  | _, _, _, .cons h (.cons h' hs) => by
      simp only [List.map_cons, List.intercalate_cons_cons]
      exact hR.append (hR.postpend (hf h) sep) (intercalate hf sep (.cons h' hs))

theorem flatMap (hf : Keeps R f) : ∀ {A : Prop} {args args' : List (Nat × List Piece)},
    ParallelAll R A args args' → R A (args.flatMap f) (args'.flatMap f)
  | _, _, _, .nil => hR.same []
  | _, _, _, .cons h hs => by
      rw [List.flatMap_cons, List.flatMap_cons]
      exact hR.append (hf h) (flatMap hf hs)

theorem arrange (op : Operator) (h : ParallelAll R A args args') :
    R A (op.arrange args) (op.arrange args') := by
  have hown : Keeps R fun a => Piece.enclosed op.precedence a.1 a.2 := fun h => hR.enclosed h _ _
  have hplain : Keeps R fun a => a.2 := fun h => h
  rw [Operator.arrange.eq_def, Operator.arrange.eq_def]
  cases op.fixity with
  | before =>
      simp only [List.flatMap_map]
      exact hR.prepend (hR.flatMap (fun h => hR.prepend (hown h) [.word " "]) h) [.word op.symbol]
  | behind =>
      simp only [List.flatMap_map]
      exact hR.postpend (hR.flatMap (fun h => hR.postpend (hown h) [.word " "]) h) [.word op.symbol]
  | call =>
      exact hR.prepend (hR.postpend (hR.intercalate hplain _ h) [.word ")"]) [.word op.symbol, .word _]
  | between => exact hR.intercalate hown _ h
  | spaced =>
      by_cases hin : op = .isIn
      · simp only [hin, if_true]
        cases h with
        | nil => exact hR.same []
        | cons h hs =>
            exact hR.postpend (hR.append (hR.enclosed h _ _)
              (hR.prepend (hR.intercalate hplain _ hs) [.word " IN ("])) [.word ")"]
      · simp only [hin, if_false]
        exact hR.intercalate hown _ h

theorem conjunction (h : ParallelAll R A args args') :
    R A (conjunctionPieces args) (conjunctionPieces args') := by
  have hown : Keeps R fun a => Piece.enclosed Precedence.conjunction a.1 a.2 := fun h => hR.enclosed h _ _
  cases h with
  | nil => exact hR.same []
  | cons h hs =>
      cases hs with
      | nil => exact congr h (and_iff_left trivial).symm
      | cons h' hs => exact hR.intercalate hown [word " AND "] (.cons h (.cons h' hs))

theorem list (h : ParallelAll R A args args') :
    R A (listPieces (args.map (·.2))) (listPieces (args'.map (·.2))) := by
  rw [listPieces, listPieces, List.map_map, List.map_map]
  exact hR.intercalate (fun h => hR.prepend h [word " "]) [word ","] h

theorem clause (keyword : String) (body : List (Nat × List Piece) → List Piece)
    (h : ParallelAll R A args args') (hbody : R A (body args) (body args')) :
    R A (clausePieces keyword args body) (clausePieces keyword args' body) := by
  cases h with
  | nil => exact hR.same []
  | cons h hs => exact hR.prepend hbody [word keyword]

theorem aliased (p : Projection) (h : R A ps qs) : R A (p.aliased ps) (p.aliased qs) := by
  rw [Projection.aliased, Projection.aliased]
  split
  · exact hR.postpend h _
  · exact h

theorem asSource (v : View) (h : R A ps qs) : R A (v.asSource ps) (v.asSource qs) := by
  rw [View.asSource, View.asSource]
  split
  · exact hR.parenthesised h
  · exact h

end Parallel

end Piece

/-! The statements that list the selectors of their sources. -/

mutual

/-- The statements without projections that are printed in an expression, at any depth. -/
def Expr.listings : Expr → List Select
  | .literal _ => []
  | .apply _ args => Expr.listingsAll args
  | .column _ => []
  | .star _ => []
  | .projected _ _ _ => []
  | .pinned _ _ => []
  | .within _ e => e.listings
  | .view v => v.listings

/-- The statements without projections that are printed in some expressions. -/
def Expr.listingsAll : List Expr → List Select
  | [] => []
  | e :: es => e.listings ++ Expr.listingsAll es

/-- The statements without projections that are printed in a view. -/
def View.listings : View → List Select
  | .table _ => []
  | .concrete _ => []
  | .join _ ⟨_, _, t, e⟩ => t.listings ++ e.listings
  | .select _ q => q.listings

/-- The statements without projections among a statement and what is printed in it. -/
def Select.listings : Select → List Select
  | ⟨i, f, p, w, h, g, pool, sc⟩ =>
    (if p.isEmpty then [⟨i, f, p, w, h, g, pool, sc⟩] else Projection.listingsAll p)
      ++ (Source.listingsAll f ++ (Condition.listingsAll w
        ++ (Condition.listingsAll g ++ Condition.listingsAll h)))

/-- The statements without projections that are printed in some projections. -/
def Projection.listingsAll : List Projection → List Select
  | [] => []
  | ⟨e, _, _⟩ :: ps => e.listings ++ Projection.listingsAll ps

/-- The statements without projections that are printed in a FROM list. -/
def Source.listingsAll : List Source → List Select
  | [] => []
  | ⟨v, a, s, o⟩ :: f => Source.listings ⟨v, a, s, o⟩ ++ Source.listingsAll f

/-- The statements without projections that are printed in an entry of a FROM list. -/
def Source.listings : Source → List Select
  | ⟨.join _ ⟨_, _, t, _⟩, _, _, some e⟩ => t.listings ++ e.listings
  | ⟨v, _, _, _⟩ => v.listings

/-- The statements without projections that are printed in some conditions. -/
def Condition.listingsAll : List Condition → List Select
  | [] => []
  | ⟨e, _⟩ :: cs => e.listings ++ Condition.listingsAll cs

end

/-- A statement without projections is among some views. -/
def Select.UnprojectedIn (views : List View) (r : Select) : Prop :=
  r.projections = [] ∧ ∃ i, .select i r ∈ views

theorem Select.UnprojectedIn.mono {views more : List View} {r : Select} (h : r.UnprojectedIn views)
    (hsub : views ⊆ more) : r.UnprojectedIn more := by
  obtain ⟨hr, i, hi⟩ := h
  exact ⟨hr, i, hsub hi⟩

theorem Source.inside_subset (src : Source) : src.view.inside ⊆ Source.insideAll [src] :=
  fun _ hv => Source.mem_insideAll.mpr ⟨src, List.mem_cons_self, Or.inl hv⟩

theorem Select.parts_subset (i : Nat) (f : List Source) (p : List Projection) (w v g : List Condition)
    (pool : AliasPool) (sc : List Mapping) :
    Source.insideAll f ⊆ Select.inside ⟨i, f, p, w, v, g, pool, sc⟩
      ∧ Projection.insideAll p ⊆ Select.inside ⟨i, f, p, w, v, g, pool, sc⟩
      ∧ Condition.insideAll w ⊆ Select.inside ⟨i, f, p, w, v, g, pool, sc⟩
      ∧ Condition.insideAll g ⊆ Select.inside ⟨i, f, p, w, v, g, pool, sc⟩
      ∧ Condition.insideAll v ⊆ Select.inside ⟨i, f, p, w, v, g, pool, sc⟩ := by
  refine ⟨?_, ?_, ?_, ?_, ?_⟩
  all_goals
    intro x hx
    simp only [Select.inside, List.mem_append]
    tauto

mutual

theorem Expr.mem_listings : ∀ {e : Expr} {r : Select}, r ∈ e.listings → r.UnprojectedIn e.inside
  | .apply _ args, _, h => @Expr.mem_listingsAll args _ h
  | .within _ e, _, h => Expr.mem_listings (e := e) h
  | .view v, _, h => View.mem_listings (v := v) h

theorem Expr.mem_listingsAll : ∀ {es : List Expr} {r : Select}, r ∈ Expr.listingsAll es →
    r.UnprojectedIn (Expr.insideAll es)
  | e :: es, _, h => by
      rcases List.mem_append.mp h with h | h
      · exact (Expr.mem_listings h).mono (List.subset_append_left _ _)
      · exact (Expr.mem_listingsAll h).mono (List.subset_append_right _ _)

theorem View.mem_listings : ∀ {v : View} {r : Select}, r ∈ v.listings → r.UnprojectedIn v.inside
  | .join i ⟨n, s, t, p⟩, _, h => by
      rw [View.inside]
      rcases List.mem_append.mp h with h | h
      · refine (View.mem_listings h).mono fun v hv => List.mem_cons_of_mem _ ?_
        exact List.mem_append_left _ (List.mem_append_right _ hv)
      · exact (Expr.mem_listings h).mono fun v hv => List.mem_cons_of_mem _ (List.mem_append_right _ hv)
  | .select i q, r, h => by
      obtain ⟨hr, rfl | ⟨k, hk⟩⟩ := Select.mem_listings (q := q) h
      · exact ⟨hr, i, List.mem_cons_self⟩
      · exact ⟨hr, k, List.mem_cons_of_mem _ hk⟩

/-- A statement that lists its sources has no projections, and is inside the statement or that itself. -/
theorem Select.mem_listings : ∀ {q r : Select}, r ∈ q.listings →
    r.projections = [] ∧ (r = q ∨ ∃ i, .select i r ∈ q.inside)
  | ⟨i, f, p, w, v, g, pool, sc⟩, r, h => by
      obtain ⟨hsources, hprojections, hfilters, hgrouping, hhaving⟩ := Select.parts_subset i f p w v g pool sc
      have hinside : ∀ {views : List View}, r.UnprojectedIn views →
          views ⊆ Select.inside ⟨i, f, p, w, v, g, pool, sc⟩ →
            r.projections = [] ∧ (r = ⟨i, f, p, w, v, g, pool, sc⟩
              ∨ ∃ k, .select k r ∈ Select.inside ⟨i, f, p, w, v, g, pool, sc⟩) :=
        fun h hsub => ⟨h.1, Or.inr (h.mono hsub).2⟩
      simp only [Select.listings, List.mem_append] at h
      rcases h with h | h | h | h | h
      · cases hnone : p.isEmpty with
        | true =>
            rw [hnone, if_pos rfl] at h
            obtain rfl := List.mem_singleton.mp h
            exact ⟨List.isEmpty_iff.mp hnone, Or.inl rfl⟩
        | false =>
            rw [hnone, if_neg Bool.false_ne_true] at h
            exact hinside (Projection.mem_listingsAll h) hprojections
      · exact hinside (Source.mem_listingsAll h) hsources
      · exact hinside (Condition.mem_listingsAll h) hfilters
      · exact hinside (Condition.mem_listingsAll h) hgrouping
      · exact hinside (Condition.mem_listingsAll h) hhaving

theorem Projection.mem_listingsAll : ∀ {ps : List Projection} {r : Select},
    r ∈ Projection.listingsAll ps → r.UnprojectedIn (Projection.insideAll ps)
  | ⟨e, _, _⟩ :: ps, _, h => by
      rcases List.mem_append.mp h with h | h
      · exact (Expr.mem_listings h).mono (List.subset_append_left _ _)
      · exact (Projection.mem_listingsAll h).mono (List.subset_append_right _ _)

theorem Source.mem_listingsAll : ∀ {f : List Source} {r : Select}, r ∈ Source.listingsAll f →
    r.UnprojectedIn (Source.insideAll f)
  | ⟨v, a, s, on⟩ :: f, _, h => by
      rcases List.mem_append.mp h with h | h
      · refine (Source.mem_listings h).mono fun x hx => ?_
        rcases Source.mem_insideAll.mp hx with ⟨src, hsrc, hx⟩
        exact Source.mem_insideAll.mpr ⟨src, List.mem_singleton.mp hsrc ▸ List.mem_cons_self, hx⟩
      · refine (Source.mem_listingsAll h).mono fun x hx => ?_
        rcases Source.mem_insideAll.mp hx with ⟨src, hsrc, hx⟩
        exact Source.mem_insideAll.mpr ⟨src, List.mem_cons_of_mem _ hsrc, hx⟩

theorem Source.mem_listings : ∀ {src : Source} {r : Select}, r ∈ src.listings →
    r.UnprojectedIn (Source.insideAll [src])
  | ⟨.join i ⟨n, o, t, p⟩, a, s, some e⟩, _, h => by
      rcases List.mem_append.mp h with h | h
      · refine (View.mem_listings h).mono fun x hx => Source.inside_subset _ ?_
        rw [View.inside, List.mem_cons, List.mem_append, List.mem_append]
        exact Or.inr (Or.inl (Or.inr hx))
      · exact (Expr.mem_listings h).mono fun x hx =>
          Source.mem_insideAll.mpr ⟨_, List.mem_cons_self, Or.inr ⟨e, rfl, hx⟩⟩
  | ⟨.join i ⟨n, o, t, p⟩, a, s, none⟩, _, h =>
      (View.mem_listings (v := .join i ⟨n, o, t, p⟩) h).mono (Source.inside_subset ⟨.join i _, a, s, none⟩)
  | ⟨.select i q, a, s, on⟩, _, h =>
      (View.mem_listings (v := .select i q) h).mono (Source.inside_subset ⟨.select i q, a, s, on⟩)

theorem Condition.mem_listingsAll : ∀ {cs : List Condition} {r : Select},
    r ∈ Condition.listingsAll cs → r.UnprojectedIn (Condition.insideAll cs)
  | ⟨e, _⟩ :: cs, _, h => by
      rcases List.mem_append.mp h with h | h
      · exact (Expr.mem_listings h).mono (List.subset_append_left _ _)
      · exact (Condition.mem_listingsAll h).mono (List.subset_append_right _ _)

end

namespace Select

/-- The pieces from SELECT to FROM. -/
def heading (c : Catalog) (q : Select) : List Piece :=
  .word "SELECT" :: listPieces (q.entries c) ++ [.word " FROM"]

end Select

namespace Piece.Parallel

variable {R : Prop → List Piece → List Piece → Prop} {K : Select → Prop} {c c' : Catalog}

theorem plainSource (hR : Parallel R) {A : Prop} {src : Source}
    (hplain : src.view.isJoin = false ∨ src.on = none)
    (h : R A (src.view.pieces c src.scope) (src.view.pieces c' src.scope)) :
    R A (Source.pieces c src) (Source.pieces c' src) := by
  rw [(Source.plain hplain).2, (Source.plain hplain).2]
  exact hR.postpend (hR.asSource _ h) _

mutual

theorem expr (hR : Parallel R) : ∀ (e : Expr) (s : Scope),
    (∀ r ∈ e.listings, R (K r) (r.heading c) (r.heading c')) →
      R (∀ r ∈ e.listings, K r) (e.pieces c s) (e.pieces c' s)
  | .literal _, _, _ => hR.of_true (fun _ hr => nomatch hr) _
  | .apply op args, s, h => hR.arrange op (hR.exprs args s h)
  | .column _, _, _ => hR.of_true (fun _ hr => nomatch hr) _
  | .star _, _, _ => hR.of_true (fun _ hr => nomatch hr) _
  | .projected _ _ _, _, _ => hR.of_true (fun _ hr => nomatch hr) _
  | .pinned _ _, _, _ => hR.of_true (fun _ hr => nomatch hr) _
  | .within s' e, _, h => hR.expr e s' h
  | .view v, s, h => hR.view v s h

theorem exprs (hR : Parallel R) : ∀ (es : List Expr) (s : Scope),
    (∀ r ∈ Expr.listingsAll es, R (K r) (r.heading c) (r.heading c')) →
      ParallelAll R (∀ r ∈ Expr.listingsAll es, K r) (Expr.piecesAll c s es) (Expr.piecesAll c' s es)
  | [], _, _ => ParallelAll.nil.congr (iff_of_true trivial fun _ hr => nomatch hr)
  | e :: es, s, h => by
      rw [Expr.listingsAll, List.forall_mem_append] at h
      rw [Expr.listingsAll, List.forall_mem_append]
      exact .cons (hR.expr e s h.1) (hR.exprs es s h.2)

theorem view (hR : Parallel R) : ∀ (v : View) (s : Scope),
    (∀ r ∈ v.listings, R (K r) (r.heading c) (r.heading c')) →
      R (∀ r ∈ v.listings, K r) (v.pieces c s) (v.pieces c' s)
  | .table _, _, _ => hR.of_true (fun _ hr => nomatch hr) _
  | .concrete _, _, _ => hR.of_true (fun _ hr => nomatch hr) _
  | .join _ ⟨_, _, t, e⟩, s, h => by
      rw [View.listings, List.forall_mem_append] at h
      rw [View.listings, List.forall_mem_append, View.pieces, View.pieces]
      exact hR.append (hR.prepend (hR.view t s h.1) [word "INNER JOIN "])
        (hR.prepend (hR.expr e s h.2) [word " ON "])
  | .select _ q, _, h => hR.statement (hR.select q h)

/-- What holds of the headings of the statements that list their sources holds of all pieces. -/
theorem select (hR : Parallel R) : ∀ q : Select, (∀ r ∈ q.listings, R (K r) (r.heading c) (r.heading c')) →
    R (∀ r ∈ q.listings, K r) (q.pieces c) (q.pieces c')
  | ⟨i, f, p, w, h, g, pool, sc⟩, hq => by
      simp only [Select.listings, List.forall_mem_append] at hq ⊢
      obtain ⟨hp, hf, hw, hg, hh⟩ := hq
      have hheading : R
          (∀ r ∈ (if p.isEmpty then [⟨i, f, p, w, h, g, pool, sc⟩] else Projection.listingsAll p), K r)
          (Select.heading c ⟨i, f, p, w, h, g, pool, sc⟩)
          (Select.heading c' ⟨i, f, p, w, h, g, pool, sc⟩) := by
        cases hnone : p.isEmpty with
        | true =>
            rw [hnone, if_pos rfl] at hp
            rw [if_pos rfl]
            exact congr (hp _ List.mem_cons_self) List.forall_mem_singleton.symm
        | false =>
            rw [hnone, if_neg Bool.false_ne_true] at hp
            have hlist := hR.list (hR.projections p hp)
            simp only [List.map_map, Function.comp_def, List.map_id'] at hlist
            rw [if_neg Bool.false_ne_true, Select.heading, Select.heading, Select.entries, Select.entries,
              hnone, if_neg Bool.false_ne_true, if_neg Bool.false_ne_true]
            exact hR.postpend (hR.prepend hlist [word "SELECT"]) [word " FROM"]
      have hfrom : R (∀ r ∈ Source.listingsAll f, K r)
          (if f.isEmpty then [.fault .missingSource] else Source.piecesAll c f)
          (if f.isEmpty then [.fault .missingSource] else Source.piecesAll c' f) := by
        have hsources := hR.sources f hf
        cases hnone : f.isEmpty with
        | true => exact hR.of_true (by simp [List.isEmpty_iff.mp hnone, Source.listingsAll]) _
        | false => exact hsources
      have hwhere := hR.conditions w hw
      have hgroup := hR.conditions g hg
      have hhaving := hR.conditions h hh
      have hclauses := hR.append (hR.clause " WHERE " _ hwhere (hR.conjunction hwhere))
        (hR.append (hR.clause " GROUP BY" (fun cs => listPieces (cs.map (·.2))) hgroup (hR.list hgroup))
          (hR.clause " HAVING " _ hhaving (hR.conjunction hhaving)))
      have hall := hR.append hheading (hR.append hfrom hclauses)
      rw [Select.pieces_eq, Select.pieces_eq]
      simpa only [Select.heading, List.append_assoc, List.cons_append, List.nil_append] using hall

theorem projections (hR : Parallel R) : ∀ ps : List Projection,
    (∀ r ∈ Projection.listingsAll ps, R (K r) (r.heading c) (r.heading c')) →
      ParallelAll R (∀ r ∈ Projection.listingsAll ps, K r) ((Projection.piecesAll c ps).map (0, ·))
        ((Projection.piecesAll c' ps).map (0, ·))
  | [], _ => ParallelAll.nil.congr (iff_of_true trivial fun _ hr => nomatch hr)
  | ⟨e, a, s⟩ :: ps, h => by
      rw [Projection.listingsAll, List.forall_mem_append] at h
      rw [Projection.listingsAll, List.forall_mem_append]
      exact .cons (hR.aliased _ (hR.expr e s h.1)) (hR.projections ps h.2)

theorem sources (hR : Parallel R) : ∀ f : List Source,
    (∀ r ∈ Source.listingsAll f, R (K r) (r.heading c) (r.heading c')) →
      R (∀ r ∈ Source.listingsAll f, K r) (Source.piecesAll c f) (Source.piecesAll c' f)
  | [], _ => hR.of_true (fun _ hr => nomatch hr) _
  | ⟨v, a, s, on⟩ :: f, h => by
      rw [Source.listingsAll, List.forall_mem_append] at h
      rw [Source.listingsAll, List.forall_mem_append]
      exact hR.append (hR.prepend (hR.source ⟨v, a, s, on⟩ h.1) [word " "]) (hR.sourcesAfter f h.2)

theorem sourcesAfter (hR : Parallel R) : ∀ f : List Source,
    (∀ r ∈ Source.listingsAll f, R (K r) (r.heading c) (r.heading c')) →
      R (∀ r ∈ Source.listingsAll f, K r) (Source.piecesAfter c f) (Source.piecesAfter c' f)
  | [], _ => hR.of_true (fun _ hr => nomatch hr) _
  | ⟨v, a, s, on⟩ :: f, h => by
      rw [Source.listingsAll, List.forall_mem_append] at h
      rw [Source.listingsAll, List.forall_mem_append]
      exact hR.append (hR.prepend (hR.source ⟨v, a, s, on⟩ h.1) _) (hR.sourcesAfter f h.2)

theorem source (hR : Parallel R) : ∀ src : Source,
    (∀ r ∈ src.listings, R (K r) (r.heading c) (r.heading c')) →
      R (∀ r ∈ src.listings, K r) (Source.pieces c src) (Source.pieces c' src)
  | ⟨.join _ ⟨_, _, t, _⟩, a, s, some e⟩, h => by
      rw [Source.listings, List.forall_mem_append] at h
      rw [Source.listings, List.forall_mem_append, Source.pieces, Source.pieces]
      exact hR.append (hR.prepend (hR.asSource t (hR.view t s h.1)) [word "INNER JOIN "])
        (hR.prepend (hR.expr e s h.2) [word " ", .label a, word " ON "])
  | ⟨.join i ⟨n, o, t, p⟩, _, s, none⟩, h => hR.plainSource (.inr rfl) (hR.view (.join i ⟨n, o, t, p⟩) s h)
  | ⟨.table t, _, s, _⟩, h => hR.plainSource (.inl rfl) (hR.view (.table t) s h)
  | ⟨.concrete t, _, s, _⟩, h => hR.plainSource (.inl rfl) (hR.view (.concrete t) s h)
  | ⟨.select i q, _, s, _⟩, h => hR.plainSource (.inl rfl) (hR.view (.select i q) s h)

theorem conditions (hR : Parallel R) : ∀ cs : List Condition,
    (∀ r ∈ Condition.listingsAll cs, R (K r) (r.heading c) (r.heading c')) →
      ParallelAll R (∀ r ∈ Condition.listingsAll cs, K r) (Condition.piecesAll c cs)
        (Condition.piecesAll c' cs)
  | [], _ => ParallelAll.nil.congr (iff_of_true trivial fun _ hr => nomatch hr)
  | ⟨e, s⟩ :: cs, h => by
      rw [Condition.listingsAll, List.forall_mem_append] at h
      rw [Condition.listingsAll, List.forall_mem_append]
      exact .cons (hR.expr e s h.1) (hR.conditions cs h.2)

end

end Piece.Parallel

/-! The same pieces. -/

/-- Pieces that are the same if something is so. -/
def Piece.Same (A : Prop) (ps qs : List Piece) : Prop := A → qs = ps

theorem Piece.Same.parallel : Piece.Parallel Piece.Same where
  same := fun _ _ => rfl
  append := fun h h' hAB => by rw [h hAB.1, h' hAB.2]
  statement := fun h hA => by rw [h hA]

section

variable {c c' : Catalog}

theorem Select.heading_of_selectors {r : Select}
    (h : ∀ src ∈ r.sources, src.view.selectors c' = src.view.selectors c) (hr : r.projections = []) :
    r.heading c' = r.heading c := by
  rw [heading, heading, entries, entries, hr, List.isEmpty_nil, if_pos rfl, if_pos rfl, defaults, defaults,
    Source.defaultProjectionsAll_of_selectors h]

/-- An expression prints the same with the same selectors of what is listed in it. -/
theorem Expr.pieces_of_selectors {e : Expr} {s : Scope}
    (h : ∀ r ∈ e.listings, ∀ src ∈ r.sources, src.view.selectors c' = src.view.selectors c) :
    e.pieces c' s = e.pieces c s :=
  Piece.Same.parallel.expr (K := fun _ => True) e s
    (fun r hr _ => Select.heading_of_selectors (h r hr) (Expr.mem_listings hr).1) fun _ _ => trivial

/-- A statement prints the same with the same selectors of what is listed in it. -/
theorem Select.pieces_of_selectors {q : Select}
    (h : ∀ r ∈ q.listings, ∀ src ∈ r.sources, src.view.selectors c' = src.view.selectors c) :
    q.pieces c' = q.pieces c :=
  Piece.Same.parallel.select (K := fun _ => True) q
    (fun r hr _ => heading_of_selectors (h r hr) (mem_listings hr).1) fun _ _ => trivial

end

end SqlCompose
