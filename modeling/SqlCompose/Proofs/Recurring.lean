import SqlCompose.Proofs.AcceptedAgain

/-!
Accepting an expression that was accepted before. The nested statements have grown in the meantime, and they have
what is asked of them: the same views resolve to the same sources, the same references are recognised, and the
projections made the first time are found. So nothing is projected any more, and the statement stays as it was, but
for the marks of new nodes. What is accepted is the same expression, too, but its references go through the new nodes.
-/

namespace SqlCompose

/-! Expressions without a NaN. -/

namespace Expr

/-- No NaN is in an expression, nor in the views inside it. -/
structure Definite (e : Expr) : Prop where
  constants : e.nanFree = true
  views : e.Throughout (·.nanFree = true)

namespace Definite

variable {e leaf : Expr} {es : List Expr} {op : Operator} {v : View} {n : Option String}

theorem head (h : (apply op (e :: es)).Definite) : e.Definite :=
  ⟨(Bool.and_eq_true_iff.mp h.constants).1, throughout_apply.mp h.views e List.mem_cons_self⟩

theorem tail (h : (apply op (e :: es)).Definite) : (apply op es).Definite :=
  ⟨(Bool.and_eq_true_iff.mp h.constants).2,
    throughout_apply.mpr fun x hx => throughout_apply.mp h.views x (List.mem_cons_of_mem e hx)⟩

theorem definition (h : (projected v n e).Definite) : e.Definite := ⟨h.constants, (throughout_projected.mp h.views).2⟩

theorem unpinned (h : leaf.Definite) : leaf.unpinned.Definite := by
  refine ⟨?_, h.views.unpinned⟩
  cases leaf with
  | pinned e v => exact h.constants
  | literal | apply | column | star | projected | view | within => exact h.constants

theorem beq_self (h : e.Definite) : e.beq e = true := beq_of_core h.constants rfl

end Definite

mutual

/-- What is equal to something is equal to itself. -/
theorem beq_self_of_beq : ∀ {a b : Expr}, a.beq b = true → a.beq a = true
  | .literal v, b, h => by
      obtain ⟨w, -, hvw⟩ := beq_literal.mp h
      exact beq_literal.mpr ⟨v, rfl, BEq.trans hvw (BEq.symm hvw)⟩
  | .apply op as, b, h => by
      obtain ⟨bs, -, has⟩ := beq_apply.mp h
      exact beq_apply.mpr ⟨as, rfl, beqAll_self_of_beqAll has⟩
  | .column c, _, _ => beq_of_core (e := .column c) rfl rfl
  | .star v, _, _ => beq_star.mpr ⟨v, rfl, View.beq_self v⟩
  | .view v, _, _ => beq_view.mpr ⟨v, rfl, View.beq_self v⟩
  | .projected v n d, b, h => by
      rw [Expr.beq] at h ⊢
      rw [beq_congr_core (b := .projected v n d) (d := d) rfl]
      exact beq_self_of_beq h
  | .pinned e v, b, h => by
      rw [Expr.beq] at h ⊢
      rw [beq_congr_core (b := .pinned e v) (d := e) rfl]
      exact beq_self_of_beq h
  | .within sc e, b, h => by
      rw [Expr.beq] at h ⊢
      rw [beq_congr_core (b := .within sc e) (d := e) rfl]
      exact beq_self_of_beq h
termination_by structural a => a

theorem beqAll_self_of_beqAll : ∀ {as bs : List Expr}, beqAll as bs = true → beqAll as as = true
  | [], _, _ => beqAll_nil.mpr rfl
  | a :: as, _, h => by
      obtain ⟨b, bs, rfl, hab, has⟩ := beqAll_cons.mp h
      exact beqAll_cons.mpr ⟨a, as, rfl, beq_self_of_beq hab, beqAll_self_of_beqAll has⟩
termination_by structural as => as

end

mutual

theorem nanFree_mapLeaves {f : Expr → Expr} (hf : ∀ leaf : Expr, leaf.nanFree = true → (f leaf).nanFree = true) :
    ∀ {e : Expr}, e.nanFree = true → (e.mapLeaves f).nanFree = true
  | .literal _, h => h
  | .apply _ _, h => nanFreeAll_mapLeavesAll hf h
  | .column _, h => hf _ h
  | .star _, h => hf _ h
  | .projected .., h => hf _ h
  | .view _, h => h
  | .pinned .., h => hf _ h
  | .within _ e, h => nanFree_mapLeaves (e := e) hf h

theorem nanFreeAll_mapLeavesAll {f : Expr → Expr}
    (hf : ∀ leaf : Expr, leaf.nanFree = true → (f leaf).nanFree = true) :
    ∀ {es : List Expr}, nanFreeAll es = true → nanFreeAll (mapLeavesAll f es) = true
  | [], _ => rfl
  | e :: es, h => by
      obtain ⟨he, hes⟩ := Bool.and_eq_true_iff.mp h
      exact Bool.and_eq_true_iff.mpr ⟨nanFree_mapLeaves hf he, nanFreeAll_mapLeavesAll hf hes⟩

end

theorem nanFree_settleLeaf {v w : View} {leaf : Expr} (h : leaf.nanFree = true) :
    (Join.settleLeaf v w leaf).nanFree = true := by
  cases leaf with
  | pinned e v => exact h
  | literal | apply | column | star | projected | view | within => exact h

end Expr

/-! What is equal to a view is equal to it when it has grown. -/

variable {N : Nodes}

namespace View

/-- Without a NaN, statements are equal as views exactly if they are equal, whatever their marks. -/
theorem beq_select_eq {i k : Nat} {q r : Select} (hq : (select i q).Throughout N.Holds)
    (hr : (select k r).Throughout N.Holds) (hnan : q.nanFree = true) : (select i q).beq (select k r) = q.beq r := by
  refine Bool.eq_iff_iff.mpr ⟨fun h => ?_, fun h => beq_select.mpr ⟨k, r, rfl, .inr h⟩⟩
  obtain ⟨k', r', heq, h⟩ := beq_select.mp h
  obtain ⟨rfl, rfl⟩ := select.inj heq
  rcases h with rfl | h
  · obtain rfl : q = r := hq.self.symm.trans hr.self
    exact Select.beq_of_grows hnan (.refl q)
  · exact h

/-- Without a NaN, joins are equal as views exactly if they are equal, whatever their marks. -/
theorem beq_join_eq {i k : Nat} {j l : Join} (hj : (join i j).Throughout N.Holds)
    (hl : (join k l).Throughout N.Holds) (hnan : (join i j).nanFree = true) : (join i j).beq (join k l) = j.beq l := by
  refine Bool.eq_iff_iff.mpr ⟨fun h => ?_, fun h => beq_join.mpr ⟨k, l, rfl, .inr h⟩⟩
  obtain ⟨k', l', heq, h⟩ := beq_join.mp h
  obtain ⟨rfl, rfl⟩ := join.inj heq
  rcases h with rfl | h
  · obtain rfl : j = l := hj.self.symm.trans hl.self
    -- another node of the same join is equal to it by what they hold
    have hgrows : (join i j).Grows (join (i + 1) j) := by
      cases j with
      | mk n s t p => exact ⟨rfl, rfl, rfl, .refl t⟩
    obtain ⟨k', l', heq, h⟩ := beq_join.mp (beq_of_grows hnan hgrows)
    obtain ⟨rfl, rfl⟩ := join.inj heq
    exact h.resolve_left (Nat.ne_of_lt (Nat.lt_succ_self i))
  · exact h

end View

mutual

theorem View.beq_congr_grows : ∀ {v w w' : View}, v.Throughout N.Holds → w.Throughout N.Holds →
    w'.Throughout N.Holds → v.nanFree = true → w.Grows w' → v.beq w = v.beq w'
  | _, .table _, w', _, _, _, _, h => by rw [show View.table _ = w' from h]
  | _, .concrete _, w', _, _, _, _, h => by rw [show View.concrete _ = w' from h]
  | .join i ⟨n, s, t, p⟩, .join k l, w', hv, hw, hw', hnan, h => by
      obtain ⟨k', l', rfl, hn, hs, hp, ht⟩ := h.of_join
      have hnan' := hnan
      simp only [View.nanFree, Bool.and_eq_true] at hnan'
      rw [View.beq_join_eq hv hw hnan, View.beq_join_eq hv hw' hnan]
      obtain ⟨n₁, s₁, t₁, p₁⟩ := l
      obtain ⟨n₂, s₂, t₂, p₂⟩ := l'
      simp only at hn hs hp ht
      subst hn hs hp
      have htarget := View.beq_congr_grows (v := t) hv.join.target hw.join.target hw'.join.target hnan'.1.2 ht
      simp only at htarget
      simp only [Join.beq, htarget]
  | .select i q, .select k r, w', hv, hw, hw', hnan, h => by
      obtain ⟨k', r', rfl, hr⟩ := h.of_select
      rw [View.beq_select_eq hv hw hnan, View.beq_select_eq hv hw' hnan]
      exact Select.beq_congr_grows (q := q) hv.select hw.select hw'.select hnan hr
  | .table _, .join k l, w', _, _, _, _, h | .concrete _, .join k l, w', _, _, _, _, h
  | .select _ _, .join k l, w', _, _, _, _, h => by
      obtain ⟨k', l', rfl, -⟩ := h.of_join
      simp only [View.beq]
  | .table _, .select k r, w', _, _, _, _, h | .concrete _, .select k r, w', _, _, _, _, h
  | .join _ _, .select k r, w', _, _, _, _, h => by
      obtain ⟨k', r', rfl, -⟩ := h.of_select
      simp only [View.beq]

theorem Select.beq_congr_grows : ∀ {q r r' : Select}, q.Throughout N.Holds → r.Throughout N.Holds →
    r'.Throughout N.Holds → q.nanFree = true → r.Grows r' → q.beq r = q.beq r'
  | ⟨i, f, _, w, h, g, _, _⟩, r, r', hq, hr, hr', hnan, hgrows => by
      simp only [Select.nanFree, Bool.and_eq_true] at hnan
      obtain ⟨hi, hf, -, hw, hh, hg, -, -⟩ := Select.grows_iff.mp hgrows
      have hsources := Source.beqAll_congr_grows (fun x hx => hq.views x hx) hr.views hr'.views hnan.1.1.1 hf
      simp only [Select.beq, hi, hw, hh, hg, hsources]

theorem Source.beqAll_congr_grows : ∀ {f g g' : List Source}, (∀ x ∈ f, x.view.Throughout N.Holds) →
    (∀ x ∈ g, x.view.Throughout N.Holds) → (∀ x ∈ g', x.view.Throughout N.Holds) → Source.nanFreeAll f = true →
      Source.GrowAll g g' → Source.beqAll f g = Source.beqAll f g'
  | _, [], _, _, _, _, _, h => by rw [show _ = [] from h]
  | [], ⟨_, _, _, _⟩ :: g, g', _, _, _, _, h => by
      obtain ⟨u, g₁, rfl, -⟩ := h
      simp only [Source.beqAll]
  | ⟨v, l, sc, on⟩ :: f, ⟨_, _, _, _⟩ :: g, g', hf, hg, hg', hnan, h => by
      obtain ⟨u, g₁, rfl, hv, htail⟩ := h
      rw [Source.nanFreeAll, Bool.and_eq_true] at hnan
      rw [List.forall_mem_cons] at hf hg hg'
      rw [Source.beqAll, Source.beqAll, View.beq_congr_grows hf.1 hg.1 hg'.1 hnan.1 hv,
        Source.beqAll_congr_grows hf.2 hg.2 hg'.2 hnan.2 htail]

end

/-- A statement recognises itself in the same views after it has grown. -/
theorem Select.isSelf_of_grows {s u : Select} {v : View} (hs : s.Throughout N.Holds) (hu : u.Throughout N.Holds)
    (hv : v.Throughout N.Holds) (hnan : v.nanFree = true) (h : s.Grows u) : u.isSelf v = s.isSelf v := by
  cases v with
  | table | concrete | join => rfl
  | select i r => exact (beq_congr_grows hv.select hs hu hnan h).symm

/-! A statement that stays as it was. -/

namespace Select

variable {s t u q r : Select} {e a b d leaf : Expr} {es as bs : List Expr} {c c' c₁ k : Catalog} {v w : View}
  {src : Source} {before after f g : List Source}

@[simp]
theorem unmarked_projections (s : Select) : s.unmarked.projections = s.projections := by
  cases s
  rfl

/-- A statement stays as it was, but for marks. It prints the same if it has projections. -/
structure Persists (s t : Select) : Prop where
  unmarked : t.unmarked = s.unmarked
  pieces : s.projections ≠ [] → ∀ k, t.pieces k = s.pieces k

namespace Persists

theorem refl (s : Select) : s.Persists s := ⟨rfl, fun _ _ => rfl⟩

theorem projections (h : s.Persists t) : t.projections = s.projections := by
  rw [← unmarked_projections, h.unmarked, unmarked_projections]

theorem trans (h : s.Persists t) (h' : t.Persists u) : s.Persists u where
  unmarked := h'.unmarked.trans h.unmarked
  pieces := fun hne k => (h'.pieces (h.projections ▸ hne) k).trans (h.pieces hne k)

end Persists

end Select

namespace View

/-- A view with a statement behind it that stays as it was. -/
structure Persists (v w : View) : Prop where
  unmarked : w.unmarked = v.unmarked
  precedence : w.precedence = v.precedence
  pieces : ∀ (k : Catalog) (sc : Scope), w.pieces k sc = v.pieces k sc
  source : ∀ (k : Catalog) (l : String) (sc : Scope) (on : Option Expr),
    Source.pieces k ⟨w, l, sc, on⟩ = Source.pieces k ⟨v, l, sc, on⟩

/-- The statement behind a view can be replaced, and the view stays as it was if the statement does. -/
theorem exists_withStatement_persists {q r : Select} (h : q.Persists r) (hne : q.projections ≠ []) :
    ∀ {v : View}, v.statement? = some q → ∀ c, ∃ w c', v.withStatement r c = .ok (w, c') ∧ v.Persists w
  | .table _, hq, _ => nomatch hq
  | .concrete _, hq, _ => nomatch hq
  | .select i _, hq, c => by
      obtain rfl := Option.some.inj hq
      refine ⟨_, _, Build.selectView_eq_ok.mpr rfl, ?_, rfl, fun k sc => ?_, fun k l sc on => ?_⟩
      · rw [View.unmarked, View.unmarked, h.unmarked]
      · rw [View.pieces, View.pieces, h.pieces hne]
      · rw [Source.pieces, Source.pieces, View.pieces, View.pieces, h.pieces hne]
        rfl
        all_goals intros; contradiction
  | .join i ⟨n, s, t, p⟩, hq, c => by
      obtain ⟨u, c₁, hu, ht⟩ := exists_withStatement_persists h hne (v := t) hq c
      refine ⟨_, _, Build.bind_eq_ok.mpr ⟨u, c₁, hu, Build.joinView_eq_ok.mpr rfl⟩, ?_, rfl, fun k sc => ?_,
        fun k l sc on => ?_⟩
      · rw [View.unmarked, View.unmarked, ht.unmarked]
      · rw [View.pieces, View.pieces, ht.pieces]
      · cases on with
        | none =>
            simp only [Source.pieces, View.pieces, ht.pieces]
            rfl
        | some e => simp only [Source.pieces, View.asSource, ht.precedence, ht.pieces]

end View

namespace Source

variable {a b : Source} {k : Catalog}

theorem piecesAfter_replace {after : List Source} (h : a.pieces k = b.pieces k) (hon : a.on = b.on)
    (before : List Source) : piecesAfter k (before ++ a :: after) = piecesAfter k (before ++ b :: after) := by
  induction before with
  | nil =>
      obtain ⟨v, l, sc, on⟩ := a
      obtain ⟨v', l', sc', on'⟩ := b
      obtain rfl : on = on' := hon
      rw [List.nil_append, List.nil_append, piecesAfter, piecesAfter, h]
  | cons x before ih =>
      obtain ⟨v, l, sc, on⟩ := x
      rw [List.cons_append, List.cons_append, piecesAfter, piecesAfter, ih]

theorem piecesAll_replace {after : List Source} (h : a.pieces k = b.pieces k) (hon : a.on = b.on)
    (before : List Source) : piecesAll k (before ++ a :: after) = piecesAll k (before ++ b :: after) := by
  cases before with
  | nil =>
      obtain ⟨v, l, sc, on⟩ := a
      obtain ⟨v', l', sc', on'⟩ := b
      rw [List.nil_append, List.nil_append, piecesAll, piecesAll, h]
  | cons x before =>
      obtain ⟨v, l, sc, on⟩ := x
      rw [List.cons_append, List.cons_append, piecesAll, piecesAll, piecesAfter_replace h hon before]

/-- A FROM list that has grown is split as the list before. -/
theorem GrowAll.split {after : List Source} : ∀ {before g : List Source}, GrowAll (before ++ a :: after) g →
    ∃ before' b after', g = before' ++ b :: after' ∧ a.Grows b ∧ before'.map (·.label) = before.map (·.label)
  | [], g, h => by
      obtain ⟨b, g', hb, -, rfl⟩ := List.forall₂_cons_left_iff.mp (growAll_iff.mp h)
      exact ⟨[], b, g', rfl, hb, rfl⟩
  | x :: before, g, h => by
      obtain ⟨y, g', hy, hg, rfl⟩ := List.forall₂_cons_left_iff.mp (growAll_iff.mp h)
      obtain ⟨before', b, after', rfl, hb, hlabels⟩ := GrowAll.split (growAll_iff.mpr hg)
      exact ⟨y :: before', b, after', rfl, hb, by rw [List.map_cons, List.map_cons, hy.1, hlabels]⟩

end Source

namespace Select

variable {s t u q r : Select} {e a b d leaf : Expr} {es as bs : List Expr} {c c' c₁ k : Catalog} {v w : View}
  {src : Source} {before after : List Source}

/-- The view of one source stays as it was. -/
theorem persists_replace (hf : s.sources = before ++ src :: after) (h : src.view.Persists w) :
    s.Persists { s with sources := before ++ { src with view := w } :: after } where
  unmarked := unmarked_replace hf h.unmarked
  pieces := by
    intro hne k
    have hsource : Source.pieces k { src with view := w } = src.pieces k := by
      cases src
      exact h.source k _ _ _
    have hempty : (before ++ { src with view := w } :: after).isEmpty = s.sources.isEmpty := by
      rw [hf]
      cases before <;> rfl
    have hentries : entries k { s with sources := before ++ { src with view := w } :: after } = s.entries k := by
      rw [entries, entries, if_neg (by simpa using hne), if_neg (by simpa using hne)]
    rw [pieces_eq, pieces_eq, hentries]
    simp only [hempty, Source.piecesAll_replace hsource rfl before, ← hf]

end Select

/-! Expressions that differ in the nodes of their references. -/

mutual

/-- An expression that was accepted twice: the same but for references, which go through a source of a statement the
first time and through what has become of it the second time. -/
inductive Expr.Twin (s : Select) : Expr → Expr → Prop
  | same (e : Expr) : Expr.Twin s e e
  | apply (op : Operator) {as bs : List Expr} (h : Expr.AllTwin s as bs) : Expr.Twin s (.apply op as) (.apply op bs)
  | reference {src : Source} {v w : View} (n : Option String) (d : Expr) (hsrc : src ∈ s.sources)
      (hv : src.view.Grows v) (hw : v.Grows w) : Expr.Twin s (.projected v n d) (.projected w n d)

/-- Arguments that were accepted twice. -/
inductive Expr.AllTwin (s : Select) : List Expr → List Expr → Prop
  | nil : Expr.AllTwin s [] []
  | cons {a b : Expr} {as bs : List Expr} (h : Expr.Twin s a b) (hs : Expr.AllTwin s as bs) :
      Expr.AllTwin s (a :: as) (b :: bs)

end

namespace Expr

variable {s t : Select} {a b : Expr} {as bs : List Expr}

mutual

/-- The same expressions are equal to both. -/
theorem Twin.beq_eq : ∀ {a b : Expr}, a.Twin s b → ∀ x : Expr, x.beq a = x.beq b
  | _, _, .same _, _ => rfl
  | _, _, .apply _ h, x => beq_apply_congr h.beqAll_eq x
  | _, _, .reference (v := v) (w := w) n d _ _ _, x =>
      beq_congr_core (b := .projected v n d) (d := .projected w n d) rfl x

theorem AllTwin.beqAll_eq : ∀ {as bs : List Expr}, AllTwin s as bs → ∀ xs : List Expr, beqAll xs as = beqAll xs bs
  | _, _, .nil, _ => rfl
  | _, _, .cons _ _, [] => by simp only [beqAll]
  | _, _, .cons h hs, x :: xs => by rw [beqAll, beqAll, h.beq_eq x, hs.beqAll_eq xs]

end

mutual

/-- A statement that has grown takes its references from the sources it had. -/
theorem Twin.of_grows (hst : s.Grows t) : ∀ {a b : Expr}, a.Twin t b → a.Twin s b
  | _, _, .same e => .same e
  | _, _, .apply op h => .apply op (h.of_grows hst)
  | _, _, .reference n d hsrc hv hw => by
      obtain ⟨x, hx, -, -, -, hgrows⟩ := hst.sources.of_mem hsrc
      exact .reference n d hx (hgrows.trans hv) hw

theorem AllTwin.of_grows (hst : s.Grows t) : ∀ {as bs : List Expr}, AllTwin t as bs → AllTwin s as bs
  | _, _, .nil => .nil
  | _, _, .cons h hs => .cons (h.of_grows hst) (hs.of_grows hst)

end

end Expr

/-! Accepting once more. -/

namespace Select

variable {s t u q r : Select} {e a b d leaf : Expr} {es as bs : List Expr} {c c' c₁ k : Catalog} {v w : View}
  {src : Source} {name : Option String}

/-- What comes of a run that accepts an expression: something that equals itself, in which all nodes are known. When the
statement has grown further, the same run succeeds, the statement stays as it was, and the same is accepted. -/
structure Recurs (run : Select → Build (Select × Expr)) (s : Select) (c : Catalog) (N : Nodes) (t : Select) (a : Expr)
    (c' : Catalog) : Prop where
  reflexive : a.beq a = true
  again : ∃ N', c.Learns N c' N' ∧ t.Throughout (c'.Knows N') ∧ a.Throughout (c'.Knows N') ∧
    ∀ {u : Select} {k : Catalog} {M : Nodes}, t.Grows u → c'.Learns N' k M → k.registries = c.registries →
      u.Throughout (k.Knows M) → ∃ u' b k', run u k = .ok ((u', b), k') ∧ u.Persists u' ∧ a.Twin s b

/-- Nested statements accept soundly, leave the registries alone, and accept once more what they have accepted. -/
structure Acceptor.Recurring (accept : Acceptor) : Prop where
  sound : accept.Sound
  quiet : accept.Quiet
  recurs : ∀ {s t : Select} {e a : Expr} {c c' : Catalog} {N : Nodes}, accept s e c = .ok ((t, a), c') →
    s.Throughout (c.Knows N) → e.Throughout (c.Knows N) → e.Definite → Recurs (accept · e) s c N t a c'

variable {accept : Acceptor}

/-- What is not changed is found again. -/
theorem Recurs.of_same {run : Select → Build (Select × Expr)} (hs : s.Throughout (c.Knows N))
    (ha : a.Throughout (c.Knows N)) (hself : a.beq a = true)
    (hrun : ∀ {u : Select} {k : Catalog}, s.Grows u → k.registries = c.registries → run u k = .ok ((u, a), k)) :
    Recurs run s c N s a c :=
  ⟨hself, N, .refl c N, hs, ha, fun hu _ hk _ => ⟨_, _, _, hrun hu hk, .refl _, .same a⟩⟩

/-- A nested statement finds the projection that it made or used the first time. -/
theorem provide_recurs (h : accept.Recurring) (hrun : provide accept q e c = .ok ((r, name, d), c'))
    (hq : q.Throughout (c.Knows N)) (he : e.Throughout (c.Knows N)) (hdef : e.Definite) :
    d.beq d = true ∧ ∃ N', c.Learns N c' N' ∧ r.Throughout (c'.Knows N') ∧ d.Throughout (c'.Knows N') ∧
      ∀ {u : Select} {k : Catalog} {M : Nodes}, r.Grows u → c'.Learns N' k M → k.registries = c.registries →
        u.Throughout (k.Knows M) → u.projections ≠ [] ∧
          ∃ u' k', provide accept u e k = .ok ((u', name, d), k') ∧ u.Persists u' := by
  obtain ⟨t, b, htb, hcase⟩ := provide_eq_ok hrun
  obtain ⟨hself, N', hlearns, ht, hb, hagain⟩ := h.recurs htb hq he hdef
  -- either way the projection is the first one whose definition equals what is accepted
  obtain ⟨p, hfind, rfl, rfl, htr, hr⟩ : ∃ p, r.projections.find? (·.definition == b) = some p ∧ name = p.name?
      ∧ d = p.definition ∧ t.Grows r ∧ r.Throughout (c'.Knows N') := by
    rcases hcase with ⟨p, hp, rfl, rfl, rfl⟩ | ⟨hnone, l, pool, hl, rfl, rfl, rfl⟩
    · exact ⟨p, hp, rfl, rfl, .refl _, ht⟩
    · refine ⟨⟨d, l, t.scope⟩, ?_, rfl, rfl, grows_of_projection hl, ht.adds hb (.projection hl)⟩
      rw [List.find?_append, hnone, Option.none_or]
      exact List.find?_cons_of_pos (p := fun x : Projection => x.definition == d) hself
  have hequal : p.definition.beq b = true := List.find?_some (p := fun x : Projection => x.definition == b) hfind
  refine ⟨Expr.beq_self_of_beq hequal, N', hlearns, hr,
    (throughout_iff.mp hr).2.1 p (List.mem_of_find?_eq_some hfind), fun hu hM hk huM => ?_⟩
  obtain ⟨u', b', k', hrun', hpersists, htwin⟩ := hagain (htr.trans hu) hM hk huM
  have hfound := hu.projections.find?_eq_some hfind
  have hfound' : u'.projections.find? (·.definition == b') = some p := by
    rw [hpersists.projections, ← hfound]
    exact List.find?_congr fun x _ => (htwin.beq_eq x.definition).symm
  exact ⟨List.ne_nil_of_mem (List.mem_of_find?_eq_some hfound), u', k', provide_reused hrun' hfound', hpersists⟩

theorem throughSource_of_provide (hq : src.view.statement? = some q)
    (hp : provide accept q leaf c = .ok ((r, name, d), c₁)) (hv : src.view.withStatement r c₁ = .ok (w, c')) :
    throughSource accept leaf src c = .ok (({ src with view := w }, .projected w name d), c') := by
  rw [throughSource, hq]
  exact Build.bind_eq_ok.mpr ⟨_, _, hp, Build.bind_eq_ok.mpr ⟨_, _, hv, rfl⟩⟩

/-- A leaf is kept once more, or led through the same source to the same projection. -/
theorem acceptLeaf_recurs (h : accept.Recurring) (hrun : acceptLeaf accept s leaf c = .ok ((t, a), c'))
    (hs : s.Throughout (c.Knows N)) (he : leaf.Throughout (c.Knows N)) (hdef : leaf.Definite) :
    Recurs (acceptLeaf accept · leaf) s c N t a c' := by
  obtain ⟨m, hm, hcheck, hcase⟩ := acceptLeaf_eq_ok hrun
  have hcheck' : ∀ {k : Catalog}, k.registries = c.registries → checkDeclared k m.view leaf.unpinned = .ok () :=
    fun hk => checkDeclared_congr hk m.view leaf.unpinned ▸ hcheck
  rcases hcase with ⟨hstatement, rfl, rfl, rfl⟩ |
    ⟨hstatement, before, src, after, q, r, name, d, c₁, v, hf, hbefore, hl, hq, hp, hv, rfl, rfl⟩
  case inl =>
      exact .of_same hs he hdef.beq_self fun hu hk =>
        acceptLeaf_kept (hu.scope ▸ hm) hstatement (hcheck' hk) accept
  case inr =>
      have hmem : src ∈ s.sources := hf ▸ List.mem_append_right _ List.mem_cons_self
      have hview := hs.views src hmem
      obtain ⟨i, hinner⟩ := hview.statement hq
      obtain ⟨hself, N₁, hlearns, hrN, hdN, hagain⟩ := provide_recurs h hp hinner.select he.unpinned hdef.unpinned
      obtain ⟨hgrows, hbehind⟩ := View.withStatement_spec hq (provide_sound h.sound hp).grows hv
      obtain ⟨N', hlearns', hvN⟩ := Catalog.learns_withStatement (hlearns.view hview) hrN hv
      have hall := hlearns.trans hlearns'
      refine ⟨?_, N', hall, ?_, Expr.throughout_projected.mpr ⟨hvN, hlearns'.expr hdN⟩, fun {u k M} hu hM hk huM => ?_⟩
      · rw [Expr.beq, Expr.beq_congr_core (b := .projected v name d) (d := d) rfl]
        exact hself
      · exact (hall.statement hs).replace hf hvN
      · obtain ⟨before', y, after', hsplit, hy, hlabels⟩ := hu.sources.split
        have hyview : v.Grows y.view := hy.2.2.2
        obtain ⟨q', hq', hrq⟩ := hyview.statement? hbehind
        obtain ⟨j, hinner'⟩ := (huM.views y (hsplit ▸ List.mem_append_right _ List.mem_cons_self)).statement hq'
        obtain ⟨hne, q'', k₁, hp', hpersists⟩ := hagain hrq (hlearns'.trans hM) hk hinner'.select
        obtain ⟨w, k', hw, hwpersists⟩ := View.exists_withStatement_persists hpersists hne hq' k₁
        have hwgrows := (View.withStatement_spec hq' (provide_sound h.sound hp').grows hw).1
        have hbefore' : ∀ l ∈ before.map (·.label), l ≠ m.label := List.forall_mem_map.mpr hbefore
        rw [← hlabels, List.forall_mem_map] at hbefore'
        exact ⟨_, _, k', acceptLeaf_routed (hu.scope ▸ hm) hstatement (hcheck' hk) hsplit hbefore' (hy.1.trans hl)
          (throughSource_of_provide hq' hp' hw), persists_replace hsplit hwpersists,
          .reference name d hmem hgrows (hyview.trans hwgrows)⟩

/-- What a view is accepted as equals itself. -/
theorem beq_self_acceptView (hnan : v.nanFree = true) (h : s.acceptView v = .ok a) : a.beq a = true := by
  rcases acceptView_cases h with ⟨w, rfl, -⟩ | ⟨i, j, x, y, rfl, -, -, rfl⟩
  · exact Expr.beq_view.mpr ⟨w, rfl, View.beq_self w⟩
  · obtain ⟨n, s, t, p⟩ := j
    simp only [View.nanFree, Bool.and_eq_true] at hnan
    exact Expr.beq_of_core (Expr.nanFree_mapLeaves (fun _ => Expr.nanFree_settleLeaf) hnan.2) rfl

theorem acceptView_congr (h : t.scope = s.scope) (v : View) : t.acceptView v = s.acceptView v := by
  cases v with
  | table | concrete | join | select => simp only [acceptView, h]

mutual

/-- What is accepted once is accepted once more. -/
theorem acceptWith_recurs (h : accept.Recurring) : ∀ {e : Expr} {s t : Select} {a : Expr} {c c' : Catalog} {N : Nodes},
    acceptWith accept s e c = .ok ((t, a), c') → s.Throughout (c.Knows N) → e.Throughout (c.Knows N) → e.Definite →
      Recurs (acceptWith accept · e) s c N t a c'
  | .literal v, s, t, a, c, c', N, hrun, hs, he, hdef => by
      rw [acceptWith] at hrun
      obtain ⟨hr, rfl⟩ := Prod.mk.inj (Build.pure_eq_ok.mp hrun)
      obtain ⟨rfl, rfl⟩ := Prod.mk.inj hr
      exact .of_same hs he hdef.beq_self fun _ _ => rfl
  | .apply op args, s, t, a, c, c', N, hrun, hs, he, hdef => by
      rw [acceptWith] at hrun
      obtain ⟨⟨u, bs⟩, c₁, hu, h₁⟩ := Build.bind_eq_ok.mp hrun
      obtain ⟨hr, rfl⟩ := Prod.mk.inj (Build.pure_eq_ok.mp h₁)
      obtain ⟨rfl, rfl⟩ := Prod.mk.inj hr
      obtain ⟨hself, N', hlearns, ht, has, hagain⟩ :=
        acceptAllWith_recurs h op hu hs (Expr.throughout_apply.mp he) hdef
      refine ⟨Expr.beq_apply.mpr ⟨bs, rfl, hself⟩, N', hlearns, ht, Expr.throughout_apply.mpr has,
        fun {u k M} hu hM hk huM => ?_⟩
      obtain ⟨u', bs', k', hrun', hpersists, htwin⟩ := hagain hu hM hk huM
      refine ⟨u', .apply op bs', k', ?_, hpersists, .apply op htwin⟩
      rw [acceptWith]
      exact Build.bind_eq_ok.mpr ⟨_, _, hrun', rfl⟩
  | .column col, s, t, a, c, c', N, hrun, hs, he, hdef => by
      rw [acceptWith] at hrun
      simp only [acceptWith]
      exact acceptLeaf_recurs h hrun hs he hdef
  | .star v, s, t, a, c, c', N, hrun, hs, he, hdef => by
      rw [acceptWith] at hrun
      simp only [acceptWith]
      exact acceptLeaf_recurs h hrun hs he hdef
  | .projected v n d, s, t, a, c, c', N, hrun, hs, he, hdef => by
      obtain ⟨hv, hd⟩ := Expr.throughout_projected.mp he
      have hvnan : v.nanFree = true := (Expr.throughout_projected.mp hdef.views).1.self
      have hgrows : s.Grows t := (acceptWith_sound h.sound hrun).grows
      rw [acceptWith] at hrun
      -- the statement takes the reference for one of its own both times or not at all
      have hrecognises : ∀ {u : Select} {k : Catalog} {N' M : Nodes}, c.Learns N c' N' → t.Grows u →
          c'.Learns N' k M → u.Throughout (k.Knows M) → u.isSelf v = s.isSelf v := by
        intro u k N' M hlearns hu hM huM
        have hall := hlearns.trans hM
        exact isSelf_of_grows (fun x hx => (hall.statement hs x hx).holds) (fun x hx => (huM x hx).holds)
          (fun x hx => (hall.view hv x hx).holds) hvnan (hgrows.trans hu)
      split at hrun
      case isTrue hown =>
          obtain ⟨hself, N', hlearns, ht, ha, hagain⟩ := acceptWith_recurs h hrun hs hd hdef.definition
          refine ⟨hself, N', hlearns, ht, ha, fun {u k M} hu hM hk huM => ?_⟩
          simp only [acceptWith, hrecognises hlearns hu hM huM, hown, if_true]
          exact hagain hu hM hk huM
      case isFalse hown =>
          obtain ⟨hself, N', hlearns, ht, ha, hagain⟩ := acceptLeaf_recurs h hrun hs he hdef
          refine ⟨hself, N', hlearns, ht, ha, fun {u k M} hu hM hk huM => ?_⟩
          simp only [acceptWith, hrecognises hlearns hu hM huM, hown]
          exact hagain hu hM hk huM
  | .pinned b v, s, t, a, c, c', N, hrun, hs, he, hdef => by
      rw [acceptWith] at hrun
      simp only [acceptWith]
      exact acceptLeaf_recurs h hrun hs he hdef
  | .view v, s, t, a, c, c', N, hrun, hs, he, hdef => by
      rw [acceptWith] at hrun
      obtain ⟨b, c₁, hb, h₁⟩ := Build.bind_eq_ok.mp hrun
      obtain ⟨hview, rfl⟩ := Build.lift_eq_ok.mp hb
      obtain ⟨hr, rfl⟩ := Prod.mk.inj (Build.pure_eq_ok.mp h₁)
      obtain ⟨rfl, rfl⟩ := Prod.mk.inj hr
      refine .of_same hs (hs.acceptView he hview) (beq_self_acceptView hdef.constants hview) fun hu _ => ?_
      rw [acceptWith, acceptView_congr hu.scope, hview]
      rfl
  | .within .., _, _, _, _, _, _, hrun, _, _, _ => absurd hrun (by rw [acceptWith]; exact Build.throw_ne_ok)

theorem acceptAllWith_recurs (h : accept.Recurring) (op : Operator) : ∀ {es : List Expr} {s t : Select}
    {as : List Expr} {c c' : Catalog} {N : Nodes}, acceptAllWith accept s es c = .ok ((t, as), c') →
      s.Throughout (c.Knows N) → (∀ e ∈ es, e.Throughout (c.Knows N)) → (Expr.apply op es).Definite →
        Expr.beqAll as as = true ∧ ∃ N', c.Learns N c' N' ∧ t.Throughout (c'.Knows N') ∧
          (∀ a ∈ as, a.Throughout (c'.Knows N')) ∧
          ∀ {u : Select} {k : Catalog} {M : Nodes}, t.Grows u → c'.Learns N' k M → k.registries = c.registries →
            u.Throughout (k.Knows M) →
              ∃ u' bs k', acceptAllWith accept u es k = .ok ((u', bs), k') ∧ u.Persists u' ∧ Expr.AllTwin s as bs
  | [], s, t, as, c, c', N, hrun, hs, _, _ => by
      rw [acceptAllWith] at hrun
      obtain ⟨hr, rfl⟩ := Prod.mk.inj (Build.pure_eq_ok.mp hrun)
      obtain ⟨rfl, rfl⟩ := Prod.mk.inj hr
      exact ⟨Expr.beqAll_nil.mpr rfl, N, .refl _ N, hs, List.forall_mem_nil _,
        fun {u k M} _ _ _ _ => ⟨u, [], k, rfl, .refl u, .nil⟩⟩
  | e :: es, s, t, as, c, c', N, hrun, hs, hes, hdef => by
      rw [acceptAllWith] at hrun
      rw [List.forall_mem_cons] at hes
      obtain ⟨⟨r, a⟩, c₁, hr, h₁⟩ := Build.bind_eq_ok.mp hrun
      obtain ⟨⟨w, bs⟩, c₂, hw, h₂⟩ := Build.bind_eq_ok.mp h₁
      obtain ⟨hr', rfl⟩ := Prod.mk.inj (Build.pure_eq_ok.mp h₂)
      obtain ⟨rfl, rfl⟩ := Prod.mk.inj hr'
      obtain ⟨hself, N₁, hlearns, hrN, haN, hagain⟩ := acceptWith_recurs h hr hs hes.1 hdef.head
      obtain ⟨hselfs, N', hlearns', htN, hbsN, hagain'⟩ :=
        acceptAllWith_recurs h op hw hrN (fun x hx => hlearns.expr (hes.2 x hx)) hdef.tail
      have hsr : s.Grows r := (acceptWith_sound h.sound hr).grows
      have hframe := (acceptAllWith_sound h.sound hw).frame
      have hrt : r.Grows t := grows_of_sources hframe.1 hframe.2
      have hregistries : c₁.registries = c.registries := acceptWith_quiet h.quiet e s hr
      refine ⟨Expr.beqAll_cons.mpr ⟨a, bs, rfl, hself, hselfs⟩, N', hlearns.trans hlearns', htN,
        List.forall_mem_cons.mpr ⟨hlearns'.expr haN, hbsN⟩, fun {u k M} hu hM hk huM => ?_⟩
      obtain ⟨u₁, b, k₁, hrun₁, hpersists, htwin⟩ := hagain (hrt.trans hu) (hlearns'.trans hM) hk huM
      -- the second run keeps the nodes known, as the first one did
      have he := (hlearns.trans (hlearns'.trans hM)).expr hes.1
      obtain ⟨-, M₁, hM₁, hu₁M, -, -⟩ := acceptWith_recurs h hrun₁ huM he hdef.head
      have hk₁ : k₁.registries = c₁.registries :=
        (acceptWith_quiet h.quiet e u hrun₁).trans (hk.trans hregistries.symm)
      obtain ⟨u', bs', k', hrun', hpersists', htwins⟩ :=
        hagain' (hu.trans (acceptWith_sound h.sound hrun₁).grows) (hM.trans hM₁) hk₁ hu₁M
      refine ⟨u', b :: bs', k', ?_, hpersists.trans hpersists', .cons htwin (htwins.of_grows hsr)⟩
      rw [acceptAllWith]
      exact Build.bind_eq_ok.mpr ⟨_, _, hrun₁, Build.bind_eq_ok.mpr ⟨_, _, hrun', rfl⟩⟩

end

theorem acceptorAt_recurring : ∀ n : Nat, (acceptorAt n).Recurring
  | 0 => ⟨fun h => absurd h Build.throw_ne_ok, fun _ _ => .throw _, fun h => absurd h Build.throw_ne_ok⟩
  | n + 1 => by
      refine ⟨acceptAt_sound n, acceptAt_quiet n, fun hrun => ?_⟩
      rw [show acceptorAt (n + 1) = acceptAt n from rfl, acceptAt_eq] at hrun ⊢
      exact acceptWith_recurs (acceptorAt_recurring n) hrun

/-- What a statement accepts once, it accepts once more. -/
theorem accept_recurs (hrun : s.accept e c = .ok ((t, a), c')) (hs : s.Throughout (c.Knows N))
    (he : e.Throughout (c.Knows N)) (hdef : e.Definite) : Recurs (Select.accept · e) s c N t a c' := by
  have hlevel : ∀ {u : Select}, t.Grows u → u.level = s.level := fun hu =>
    hu.sources.level.trans (accept_sound hrun).level
  rw [accept, acceptAt_eq] at hrun
  obtain ⟨hself, N', hlearns, ht, ha, hagain⟩ := acceptWith_recurs (acceptorAt_recurring s.level) hrun hs he hdef
  refine ⟨hself, N', hlearns, ht, ha, fun {u k M} hu hM hk huM => ?_⟩
  rw [accept, acceptAt_eq, hlevel hu]
  exact hagain hu hM hk huM

end Select

end SqlCompose
