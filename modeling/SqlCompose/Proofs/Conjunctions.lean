import Mathlib.Data.Nat.Find
import Mathlib.Logic.Function.Iterate
import SqlCompose.Proofs.Equality
import SqlCompose.Proofs.Leaves
import SqlCompose.Proofs.NamedJoins
import SqlCompose.Proofs.Pieces
import SqlCompose.Proofs.Reuse
import SqlCompose.Proofs.Unwrapping

/-!
A conjunction and its conjuncts. Predicates that are added one after the other are unwrapped each on its own, as often
as each needs; the arguments of a conjunction are unwrapped all together. If one number of steps of unwrapping gives
all predicates the form in which they were accepted, then the conjunction comes to the same, and prints the same. What
a statement accepts does not depend on the predicates it has, unless it is a reference to the statement itself.
-/

namespace SqlCompose

/-! Steps of unwrapping. -/

namespace Expr

variable {e : Expr} {n m k : Nat}

mutual

/-- What is not wrapped stays as it is. -/
theorem unwrap_of_not_wrapped : ∀ {e : Expr}, e.isWrapped = false → e.unwrap = e
  | .literal _, _ => rfl
  | .apply op _, h => congrArg (apply op) (unwrapAll_of_not_wrapped h)
  | .column _, _ => rfl
  | .star _, _ => rfl
  | .projected .., h => nomatch h
  | .view (.join _ _), h => nomatch h
  | .view (.table _), _ => rfl
  | .view (.concrete _), _ => rfl
  | .view (.select ..), _ => rfl
  | .pinned .., _ => rfl
  | .within .., _ => rfl

theorem unwrapAll_of_not_wrapped : ∀ {es : List Expr}, anyWrapped es = false → unwrapAll es = es
  | [], _ => rfl
  | e :: es, h => by
      rw [anyWrapped, Bool.or_eq_false_iff] at h
      rw [unwrapAll, unwrap_of_not_wrapped h.1, unwrapAll_of_not_wrapped h.2]

end

theorem unwrapAll_eq_map : ∀ es : List Expr, unwrapAll es = es.map unwrap
  | [] => rfl
  | e :: es => by rw [unwrapAll, List.map_cons, unwrapAll_eq_map es]

/-- The arguments are unwrapped all together. -/
theorem unwrap_iterate_apply (op : Operator) : ∀ (n : Nat) (es : List Expr),
    unwrap^[n] (.apply op es) = .apply op (es.map unwrap^[n])
  | 0, es => by rw [Function.iterate_zero, List.map_id]; rfl
  | n + 1, es => by
      rw [Function.iterate_succ_apply, unwrap, unwrapAll_eq_map, unwrap_iterate_apply op n, List.map_map]
      rfl

theorem wrapping_iterate (n : Nat) : ∀ e : Expr, (unwrap^[n] e).wrapping = e.wrapping - n := by
  induction n with
  | zero => exact fun e => rfl
  | succ n ih =>
      intro e
      rw [Function.iterate_succ_apply, ih, wrapping_unwrap, Nat.sub_sub, Nat.add_comm]

/-- An expression that comes to the same form after more steps has nothing left to unwrap in between. -/
theorem unwrap_iterate_between (hn : n ≤ k) (hk : k ≤ m) (h : unwrap^[n] e = unwrap^[m] e) :
    unwrap^[k] e = unwrap^[n] e := by
  obtain ⟨i, rfl⟩ := Nat.exists_eq_add_of_le hn
  rcases Nat.eq_zero_or_pos i with rfl | hi
  · rfl
  have hwrapping : (unwrap^[n] e).wrapping = 0 := by
    have hleft := wrapping_iterate n e
    have hright := wrapping_iterate m e
    rw [← h, hleft] at hright
    omega
  have hfixed : (unwrap^[n] e).unwrap = unwrap^[n] e := unwrap_of_not_wrapped (wrapping_eq_zero.mp hwrapping)
  rw [Nat.add_comm, Function.iterate_add_apply]
  exact Function.iterate_fixed hfixed i

end Expr

namespace Select

variable {s t u : Select} {e a p : Expr} {es as bs ps : List Expr} {c c' c₁ : Catalog} {n : Nat}
  {r : (Select × Expr) × Catalog}

/-- A statement accepts an expression after so many steps of unwrapping, and not after fewer. -/
def SettlesAt (s : Select) (e : Expr) (c : Catalog) (n : Nat) (r : (Select × Expr) × Catalog) : Prop :=
  s.accept (Expr.unwrap^[n] e) c = .ok r ∧ ∀ i < n, (s.accept (Expr.unwrap^[i] e) c).isOk = false

theorem acceptHarder_of_settlesAt : ∀ {n : Nat} {e : Expr}, s.SettlesAt e c n r → s.acceptHarder e c = .ok r
  | 0, e, h => by
      have hacc : s.accept e c = .ok r := h.1
      rw [acceptHarder_eq, hacc]
  | n + 1, e, h => by
      have hfirst : (s.accept e c).isOk = false := h.2 0 n.succ_pos
      have hrest : s.SettlesAt e.unwrap c n r := ⟨h.1, fun i hi => h.2 (i + 1) (Nat.succ_lt_succ hi)⟩
      rw [acceptHarder_eq]
      cases hacc : s.accept e c with
      | ok r =>
          rw [hacc] at hfirst
          cases hfirst
      | error cause =>
          dsimp only
          split
          case isTrue hw => exact acceptHarder_of_settlesAt hrest
          case isFalse hw =>
              -- nothing is left to unwrap, so all forms are the one that has failed
              have hfixed := Expr.unwrap_of_not_wrapped (Bool.eq_false_iff.mpr hw)
              have hlast := h.1
              rw [Function.iterate_fixed hfixed, hacc] at hlast
              cases hlast

/-- The number of steps is the first that suffices. -/
theorem SettlesAt.eq {m : Nat} {q : (Select × Expr) × Catalog} (h : s.SettlesAt e c n r) (h' : s.SettlesAt e c m q) :
    n = m := by
  rcases Nat.lt_trichotomy n m with hlt | heq | hlt
  · have hfailed := h'.2 n hlt
    rw [h.1] at hfailed
    cases hfailed
  · exact heq
  · have hfailed := h.2 m hlt
    rw [h'.1] at hfailed
    cases hfailed

theorem exists_settlesAt (h : s.acceptHarder e c = .ok r) : ∃ n, s.SettlesAt e c n r := by
  generalize hm : e.wrapping = m
  induction m generalizing e with
  | zero =>
      rw [acceptHarder_eq, Expr.wrapping_eq_zero.mp hm] at h
      cases hacc : s.accept e c with
      | error cause =>
          rw [hacc] at h
          cases h
      | ok q =>
          rw [hacc] at h
          exact ⟨0, hacc.trans h, nofun⟩
  | succ m ih =>
      rw [acceptHarder_eq] at h
      cases hacc : s.accept e c with
      | ok q =>
          rw [hacc] at h
          exact ⟨0, hacc.trans h, nofun⟩
      | error cause =>
          rw [hacc] at h
          dsimp only at h
          split at h
          case isFalse => cases h
          case isTrue hw =>
              obtain ⟨n, hn, hbefore⟩ := ih h (by rw [Expr.wrapping_unwrap, hm, Nat.add_sub_cancel])
              refine ⟨n + 1, hn, fun i hi => ?_⟩
              cases i with
              | zero =>
                  rw [Function.iterate_zero, id, hacc]
                  rfl
              | succ i => exact hbefore i (Nat.lt_of_succ_lt_succ hi)

end Select

/-! What a statement accepts does not depend on its predicates. -/

/-- Whether an expression is a reference to a projection of a statement with the identity, be it a copy. -/
def Expr.refersTo (i : Nat) : Expr → Bool
  | .projected (.select _ r) _ _ => r.identity == i
  | _ => false

/-- No leaf refers to a projection of a statement with the identity. -/
def Expr.Foreign (i : Nat) (e : Expr) : Prop := ∀ leaf ∈ e.leaves, leaf.refersTo i = false

instance (i : Nat) (e : Expr) : Decidable (e.Foreign i) := inferInstanceAs (Decidable (∀ _ ∈ _, _))

theorem Expr.Foreign.args {i : Nat} {op : Operator} {es : List Expr} (h : (Expr.apply op es).Foreign i) :
    ∀ e ∈ es, e.Foreign i :=
  fun e he leaf hleaf => h leaf (Expr.mem_leavesAll.mpr ⟨e, he, hleaf⟩)

namespace Select

variable {s t u : Select} {e a p : Expr} {es as bs ps : List Expr} {c c' c₁ : Catalog} {n : Nat}
  {fs : List Condition} {accept : Acceptor}

/-- A statement with other predicates. -/
def refilter (s : Select) (fs : List Condition) : Select := { s with filters := fs }

@[simp]
theorem refilter_refilter_filters (s : Select) (fs : List Condition) : (s.refilter fs).refilter s.filters = s := by
  cases s
  rfl

theorem isSelf_of_foreign {v : View} {n : Option String} {d : Expr}
    (h : (Expr.projected v n d).Foreign s.identity) : s.isSelf v = false := by
  cases v with
  | select k r =>
      have hne : (r.identity == s.identity) = false := h _ List.mem_cons_self
      refine Bool.eq_false_iff.mpr fun hself => ?_
      rw [(beq_iff.mp hself).1, beq_self_eq_true] at hne
      cases hne
  | table t => rfl
  | concrete t => rfl
  | join k j => rfl

theorem acceptView_refilter (v : View) : s.acceptView v = (s.refilter fs).acceptView v := by
  cases v <;> rfl

theorem acceptLeaf_refilter {leaf : Expr} (h : acceptLeaf accept s leaf c = .ok ((t, a), c')) :
    acceptLeaf accept (s.refilter fs) leaf c = .ok ((t.refilter fs, a), c') := by
  obtain ⟨m, c₁, hm, h₁⟩ := Build.bind_eq_ok.mp h
  obtain ⟨k, c₂, hk, h₂⟩ := Build.bind_eq_ok.mp h₁
  obtain ⟨⟨⟩, c₃, hcheck, h₃⟩ := Build.bind_eq_ok.mp h₂
  refine Build.bind_eq_ok.mpr ⟨m, c₁, hm, Build.bind_eq_ok.mpr ⟨k, c₂, hk, Build.bind_eq_ok.mpr ⟨(), c₃, hcheck, ?_⟩⟩⟩
  split at h₃
  case isTrue hs =>
      obtain ⟨⟨sources, b⟩, c₄, hu, h₄⟩ := Build.bind_eq_ok.mp h₃
      obtain ⟨hr, rfl⟩ := Prod.mk.inj (Build.pure_eq_ok.mp h₄)
      obtain ⟨rfl, rfl⟩ := Prod.mk.inj hr
      rw [if_pos hs]
      exact Build.bind_eq_ok.mpr ⟨(sources, a), c', hu, rfl⟩
  case isFalse hs =>
      obtain ⟨hr, rfl⟩ := Prod.mk.inj (Build.pure_eq_ok.mp h₃)
      obtain ⟨rfl, rfl⟩ := Prod.mk.inj hr
      rw [if_neg hs]
      rfl

mutual

theorem acceptWith_refilter (hsound : accept.Sound) : ∀ {e : Expr} {s t : Select} {a : Expr} {c c' : Catalog},
    e.Foreign s.identity → acceptWith accept s e c = .ok ((t, a), c') →
      acceptWith accept (s.refilter fs) e c = .ok ((t.refilter fs, a), c')
  | .literal v, s, t, a, c, c', _, h => by
      rw [acceptWith] at h ⊢
      obtain ⟨hr, rfl⟩ := Prod.mk.inj (Build.pure_eq_ok.mp h)
      obtain ⟨rfl, rfl⟩ := Prod.mk.inj hr
      rfl
  | .apply op args, s, t, a, c, c', hforeign, h => by
      rw [acceptWith] at h ⊢
      obtain ⟨⟨u, bs⟩, c₁, hu, h₁⟩ := Build.bind_eq_ok.mp h
      obtain ⟨hr, rfl⟩ := Prod.mk.inj (Build.pure_eq_ok.mp h₁)
      obtain ⟨rfl, rfl⟩ := Prod.mk.inj hr
      exact Build.bind_eq_ok.mpr ⟨_, _, acceptAllWith_refilter hsound hforeign.args hu, rfl⟩
  | .column col, s, t, a, c, c', _, h => by
      rw [acceptWith] at h ⊢
      exact acceptLeaf_refilter h
  | .star v, s, t, a, c, c', _, h => by
      rw [acceptWith] at h ⊢
      exact acceptLeaf_refilter h
  | .projected v n d, s, t, a, c, c', hforeign, h => by
      have hself : s.isSelf v = false := isSelf_of_foreign hforeign
      have hself' : (s.refilter fs).isSelf v = false := isSelf_of_foreign (s := s.refilter fs) hforeign
      rw [acceptWith, hself] at h
      rw [acceptWith, hself']
      exact acceptLeaf_refilter h
  | .pinned b v, s, t, a, c, c', _, h => by
      rw [acceptWith] at h ⊢
      exact acceptLeaf_refilter h
  | .view v, s, t, a, c, c', _, h => by
      rw [acceptWith] at h ⊢
      obtain ⟨b, c₁, hb, h₁⟩ := Build.bind_eq_ok.mp h
      obtain ⟨hr, rfl⟩ := Prod.mk.inj (Build.pure_eq_ok.mp h₁)
      obtain ⟨rfl, rfl⟩ := Prod.mk.inj hr
      exact Build.bind_eq_ok.mpr ⟨a, c', acceptView_refilter v ▸ hb, rfl⟩
  | .within sc b, s, t, a, c, c', _, h => absurd h (by rw [acceptWith]; exact Build.throw_ne_ok)

theorem acceptAllWith_refilter (hsound : accept.Sound) : ∀ {es : List Expr} {s t : Select} {as : List Expr}
    {c c' : Catalog}, (∀ e ∈ es, e.Foreign s.identity) → acceptAllWith accept s es c = .ok ((t, as), c') →
      acceptAllWith accept (s.refilter fs) es c = .ok ((t.refilter fs, as), c')
  | [], s, t, as, c, c', _, h => by
      rw [acceptAllWith] at h ⊢
      obtain ⟨hr, rfl⟩ := Prod.mk.inj (Build.pure_eq_ok.mp h)
      obtain ⟨rfl, rfl⟩ := Prod.mk.inj hr
      rfl
  | e :: es, s, t, as, c, c', hforeign, h => by
      rw [acceptAllWith] at h ⊢
      rw [List.forall_mem_cons] at hforeign
      obtain ⟨⟨u, b⟩, c₁, hu, h₁⟩ := Build.bind_eq_ok.mp h
      obtain ⟨⟨w, bs⟩, c₂, hw, h₂⟩ := Build.bind_eq_ok.mp h₁
      obtain ⟨hr, rfl⟩ := Prod.mk.inj (Build.pure_eq_ok.mp h₂)
      obtain ⟨rfl, rfl⟩ := Prod.mk.inj hr
      have hidentity : u.identity = s.identity := by rw [(acceptWith_sound hsound hu).frame.1]
      refine Build.bind_eq_ok.mpr ⟨_, _, acceptWith_refilter hsound hforeign.1 hu, ?_⟩
      exact Build.bind_eq_ok.mpr ⟨_, _, acceptAllWith_refilter hsound (hidentity ▸ hforeign.2) hw, rfl⟩

end

theorem accept_refilter (hforeign : e.Foreign s.identity) (h : s.accept e c = .ok ((t, a), c')) :
    (s.refilter fs).accept e c = .ok ((t.refilter fs, a), c') := by
  rw [accept, acceptAt_eq] at h
  show acceptAt s.level _ e c = _
  rw [acceptAt_eq]
  exact acceptWith_refilter (acceptorAt_sound s.level) hforeign h

/-- Other predicates do not change whether an expression is accepted. -/
theorem isOk_accept_refilter (hforeign : e.Foreign s.identity) :
    ((s.refilter fs).accept e c).isOk = (s.accept e c).isOk := by
  have hkeeps : ∀ {q r : Select}, r = q.refilter r.filters → e.Foreign q.identity →
      (q.accept e c).isOk = true → (r.accept e c).isOk = true := by
    intro q r hr hforeign hok
    obtain ⟨⟨⟨t, a⟩, c'⟩, hacc⟩ := Except.exists_of_isOk hok
    rw [hr, accept_refilter hforeign hacc]
    rfl
  refine Bool.eq_iff_iff.mpr ⟨hkeeps ?_ hforeign, hkeeps (r := s.refilter fs) rfl hforeign⟩
  exact (s.refilter_refilter_filters fs).symm

/-! Expressions that a statement accepts in turn. -/

/-- A statement accepts expressions one after the other. -/
inductive AcceptsInTurn : Select → Catalog → List Expr → Select → List Expr → Catalog → Prop
  | nil (s : Select) (c : Catalog) : AcceptsInTurn s c [] s [] c
  | cons {s t u : Select} {e a : Expr} {es as : List Expr} {c c₁ c' : Catalog}
      (h : s.accept e c = .ok ((t, a), c₁)) (hs : AcceptsInTurn t c₁ es u as c') :
      AcceptsInTurn s c (e :: es) u (a :: as) c'

theorem AcceptsInTurn.length_eq (h : s.AcceptsInTurn c es u as c') : as.length = es.length := by
  induction h with
  | nil => rfl
  | cons h hs ih => rw [List.length_cons, List.length_cons, ih]

/-- The number of levels stays the same, so every argument is accepted as by itself. -/
theorem acceptAllWith_iff {n : Nat} (hlevel : s.level = n) :
    acceptAllWith (acceptorAt n) s es c = .ok ((u, as), c') ↔ s.AcceptsInTurn c es u as c' := by
  induction es generalizing s as c with
  | nil =>
      rw [acceptAllWith, Build.pure_eq_ok]
      constructor
      · intro h
        obtain ⟨hr, rfl⟩ := Prod.mk.inj h
        obtain ⟨rfl, rfl⟩ := Prod.mk.inj hr
        exact .nil _ _
      · rintro ⟨⟩
        rfl
  | cons e es ih =>
      have hfirst : acceptWith (acceptorAt n) s e = s.accept e := by rw [accept, hlevel, acceptAt_eq]
      rw [acceptAllWith, hfirst]
      constructor
      · intro h
        obtain ⟨⟨t, a⟩, c₁, ht, h₁⟩ := Build.bind_eq_ok.mp h
        obtain ⟨⟨w, bs⟩, c₂, hw, h₂⟩ := Build.bind_eq_ok.mp h₁
        obtain ⟨hr, rfl⟩ := Prod.mk.inj (Build.pure_eq_ok.mp h₂)
        obtain ⟨rfl, rfl⟩ := Prod.mk.inj hr
        exact .cons ht ((ih ((accept_sound ht).level.trans hlevel)).mp hw)
      · rintro (_ | ⟨ht, hs⟩)
        have hrest := (ih ((accept_sound ht).level.trans hlevel)).mpr hs
        exact Build.bind_eq_ok.mpr ⟨_, _, ht, Build.bind_eq_ok.mpr ⟨_, _, hrest, rfl⟩⟩

/-- An operator is accepted with its arguments in turn. -/
theorem accept_apply_iff {op : Operator} : s.accept (.apply op es) c = .ok ((u, b), c') ↔
    ∃ as, b = .apply op as ∧ s.AcceptsInTurn c es u as c' := by
  rw [accept, acceptAt_eq, acceptWith]
  constructor
  · intro h
    obtain ⟨⟨t, as⟩, c₁, ht, h₁⟩ := Build.bind_eq_ok.mp h
    obtain ⟨hr, rfl⟩ := Prod.mk.inj (Build.pure_eq_ok.mp h₁)
    obtain ⟨rfl, rfl⟩ := Prod.mk.inj hr
    exact ⟨as, rfl, (acceptAllWith_iff rfl).mp ht⟩
  · rintro ⟨as, rfl, h⟩
    exact Build.bind_eq_ok.mpr ⟨_, _, (acceptAllWith_iff rfl).mpr h, rfl⟩

/-! Predicates one after the other. -/

/-- Add predicates to the WHERE clause one after the other. -/
def filterAll (s : Select) (ps : List Expr) : Build Select := ps.foldlM filter s

/-- Predicates are added one after the other, and each is accepted in a form of its own. -/
inductive FiltersAs : Select → Catalog → List Expr → List Expr → Select → Catalog → Prop
  | nil (s : Select) (c : Catalog) : FiltersAs s c [] [] s c
  | cons {s t u : Select} {p a : Expr} {ps bs : List Expr} {c c₁ c' : Catalog} {n : Nat}
      (h : s.SettlesAt p c n ((t, a), c₁))
      (hs : FiltersAs (t.refilter (t.filters ++ [⟨a, t.scope⟩])) c₁ ps bs u c') :
      FiltersAs s c (p :: ps) (Expr.unwrap^[n] p :: bs) u c'

theorem exists_filtersAs : ∀ {ps : List Expr} {s : Select} {c : Catalog}, s.filterAll ps c = .ok (u, c') →
    ∃ bs, s.FiltersAs c ps bs u c'
  | [], s, c, h => by
      obtain ⟨rfl, rfl⟩ := Prod.mk.inj (Build.pure_eq_ok.mp h)
      exact ⟨[], .nil _ _⟩
  | p :: ps, s, c, h => by
      obtain ⟨w, c₁, hw, h₁⟩ := Build.bind_eq_ok.mp h
      obtain ⟨⟨t, a⟩, c₂, ht, h₂⟩ := Build.bind_eq_ok.mp (Build.rejecting_eq_ok.mp hw)
      obtain ⟨rfl, rfl⟩ := Prod.mk.inj (Build.pure_eq_ok.mp h₂)
      obtain ⟨n, hn⟩ := exists_settlesAt ht
      obtain ⟨bs, hbs⟩ := exists_filtersAs h₁
      exact ⟨_, .cons hn hbs⟩

namespace FiltersAs

/-- The forms are accepted in turn also without the predicates in between. -/
theorem acceptsInTurn (h : s.FiltersAs c ps bs u c') (hforeign : ∀ b ∈ bs, b.Foreign s.identity)
    (fs : List Condition) : ∃ t as, (s.refilter fs).AcceptsInTurn c bs t as c' ∧ t.filters = fs ∧
      u = t.refilter (s.filters ++ as.map (⟨·, s.scope⟩)) := by
  induction h with
  | nil s c =>
      refine ⟨s.refilter fs, [], .nil _ _, rfl, ?_⟩
      rw [List.map_nil, List.append_nil, refilter_refilter_filters]
  | @cons s t u p a ps bs c c₁ c' n h hs ih =>
      rw [List.forall_mem_cons] at hforeign
      have hacc := accept_sound h.1
      have hframe := hacc.frame.1
      have hidentity : t.identity = s.identity := by rw [hframe]
      have hfilters : t.filters = s.filters := by rw [hframe]
      obtain ⟨w, as, hw, hwf, rfl⟩ := ih (hidentity ▸ hforeign.2)
      refine ⟨w, a :: as, .cons (accept_refilter hforeign.1 h.1) hw, hwf, ?_⟩
      rw [List.map_cons]
      show w.refilter ((t.filters ++ [⟨a, t.scope⟩]) ++ as.map (⟨·, t.scope⟩)) = _
      rw [hfilters, hacc.scope, List.append_assoc]
      rfl

/-- Fewer steps of unwrapping that suffice for all predicates in turn give them the same forms. -/
theorem forms_eq {n m : Nat} (hnm : n ≤ m) (h : s.FiltersAs c ps bs u c') (hbs : bs = ps.map Expr.unwrap^[m])
    (hforeign : ∀ p ∈ ps, ∀ k ≤ m, (Expr.unwrap^[k] p).Foreign s.identity)
    (hturn : (s.refilter fs).AcceptsInTurn c (ps.map Expr.unwrap^[n]) t as c₁) :
    ps.map Expr.unwrap^[n] = bs := by
  induction h generalizing t as with
  | nil s c => rfl
  | @cons s w u p a ps bs c c₂ c' k h hs ih =>
      rw [List.map_cons, List.cons.injEq] at hbs
      rw [List.forall_mem_cons] at hforeign
      rw [List.map_cons] at hturn
      obtain _ | ⟨hfirst, hrest⟩ := hturn
      have hok : (s.accept (Expr.unwrap^[n] p) c).isOk = true := by
        have hsame : ((s.refilter fs).accept _ c).isOk = _ := isOk_accept_refilter (hforeign.1 n hnm)
        rw [← hsame, hfirst]
        rfl
      have hkn : k ≤ n := by
        by_contra hlt
        rw [h.2 n (Nat.lt_of_not_le hlt)] at hok
        cases hok
      have hform : Expr.unwrap^[n] p = Expr.unwrap^[k] p := Expr.unwrap_iterate_between hkn hnm hbs.1
      have hframe := (accept_sound h.1).frame.1
      have hidentity : w.identity = s.identity := by rw [hframe]
      rw [hform, accept_refilter (hforeign.1 k (Nat.le_trans hkn hnm)) h.1] at hfirst
      cases hfirst
      rw [List.map_cons, hform, ih hbs.2 (hidentity ▸ hforeign.2) hrest]

end FiltersAs

/-- If one number of steps gives the predicates their forms, then the conjunction is accepted, and the same statement
has it instead of the predicates. -/
theorem filter_conjunction {m : Nat} (h : s.FiltersAs c ps bs u c') (hbs : bs = ps.map Expr.unwrap^[m])
    (hforeign : ∀ p ∈ ps, ∀ k ≤ m, (Expr.unwrap^[k] p).Foreign s.identity) : ∃ (t : Select) (as : List Expr),
      s.filter (.apply .and ps) c = .ok (t.refilter (s.filters ++ [⟨.apply .and as, s.scope⟩]), c') ∧
      u = t.refilter (s.filters ++ as.map (⟨·, s.scope⟩)) ∧ as.length = ps.length := by
  have hforms : ∀ b ∈ bs, b.Foreign s.identity := by
    rw [hbs]
    exact List.forall_mem_map.mpr fun p hp => hforeign p hp m (Nat.le_refl m)
  obtain ⟨t, as, hturn, hfilters, hu⟩ := h.acceptsInTurn hforms s.filters
  have hself : s.refilter s.filters = s := s.refilter_refilter_filters s.filters
  have hmany : (s.accept (Expr.unwrap^[m] (.apply .and ps)) c).isOk = true := by
    rw [Expr.unwrap_iterate_apply, ← hbs, accept_apply_iff.mpr ⟨as, rfl, hself ▸ hturn⟩]
    rfl
  -- the conjunction is accepted after the first number of steps that suffices, which gives the same forms
  have hexists : ∃ n, (s.accept (Expr.unwrap^[n] (.apply .and ps)) c).isOk = true := ⟨m, hmany⟩
  let n := Nat.find hexists
  obtain ⟨⟨⟨w, b⟩, d⟩, hw⟩ := Except.exists_of_isOk (Nat.find_spec hexists)
  have hform : ps.map Expr.unwrap^[n] = bs := by
    rw [Expr.unwrap_iterate_apply] at hw
    obtain ⟨as', -, hturn'⟩ := accept_apply_iff.mp hw
    have hagain : (s.refilter s.filters).AcceptsInTurn c (ps.map Expr.unwrap^[n]) w as' d := by
      rw [hself]
      exact hturn'
    exact h.forms_eq (Nat.find_min' hexists hmany) hbs hforeign hagain
  have hsettles : s.SettlesAt (.apply .and ps) c n ((t, .apply .and as), c') := by
    refine ⟨?_, fun i hi => Bool.eq_false_iff.mpr (Nat.find_min hexists hi)⟩
    rw [Expr.unwrap_iterate_apply, hform]
    exact accept_apply_iff.mpr ⟨as, rfl, hself ▸ hturn⟩
  have hscope : t.scope = s.scope := (accept_sound hsettles.1).scope
  refine ⟨t, as, ?_, hu, ?_⟩
  · refine Build.rejecting_eq_ok.mpr (Build.bind_eq_ok.mpr ⟨_, _, acceptHarder_of_settlesAt hsettles, ?_⟩)
    show Except.ok (t.refilter (t.filters ++ [⟨.apply .and as, t.scope⟩]), c') = _
    rw [hfilters, hscope]
  · rw [hturn.length_eq, hbs, List.length_map]

end Select

/-! Printing a conjunction among others. -/

namespace Piece

/-- An operator is printed in three pieces what stands between the predicates of a clause in one. -/
theorem putAll_intercalate_and : ∀ (ls : List (List Piece)) (o : Printout),
    o.putAll ([Piece.word " ", .word Operator.and.symbol, .word " "].intercalate ls)
      = o.putAll ([Piece.word " AND "].intercalate ls)
  | [], _ => rfl
  | [l], o => by rw [List.intercalate_singleton, List.intercalate_singleton]
  | l :: l' :: ls, o => by
      have hword : ∀ o : Printout,
          o.putAll [.word " ", .word Operator.and.symbol, .word " "] = o.putAll [.word " AND "] := by
        intro o
        show ((o.append " ").append "AND").append " " = o.append " AND "
        simp only [Printout.append, String.append_assoc]
        rfl
      simp only [List.intercalate_cons_cons, Printout.putAll_append, hword, putAll_intercalate_and (l' :: ls)]

/-- Predicates of a clause, each enclosed if it binds looser than a conjunction. -/
def joined (ps : List (Nat × List Piece)) : List Piece :=
  [Piece.word " AND "].intercalate (ps.map fun p => enclosed Precedence.conjunction p.1 p.2)

/-- A conjunction of some predicates prints like the predicates. -/
theorem putAll_joined {ys : List (Nat × List Piece)} (hys : ys ≠ []) : ∀ (xs : List (Nat × List Piece)) (o : Printout),
    o.putAll (joined (xs ++ [(Precedence.conjunction, Operator.and.arrange ys)])) = o.putAll (joined (xs ++ ys))
  | [], o => by
      rw [List.nil_append, List.nil_append, joined, List.map_singleton, List.intercalate_singleton, enclosed,
        if_neg (Nat.lt_irrefl _)]
      exact putAll_intercalate_and _ o
  | x :: xs, o => by
      have hfront : ∀ zs : List (Nat × List Piece), zs ≠ [] → joined (x :: zs)
          = enclosed Precedence.conjunction x.1 x.2 ++ [.word " AND "] ++ joined zs := by
        intro zs hzs
        rw [joined, List.map_cons, List.intercalate_cons_of_ne_nil (by simpa using hzs)]
        rfl
      rw [List.cons_append, List.cons_append, hfront _ (by simp), hfront _ (by simp [hys]), Printout.putAll_append,
        Printout.putAll_append _ (joined (xs ++ ys)), putAll_joined hys xs]

theorem conjunctionPieces_eq_joined {ps : List (Nat × List Piece)}
    (h : ∀ x, ps = [x] → x.1 ≤ Precedence.conjunction) : conjunctionPieces ps = joined ps := by
  match ps with
  | [] => rfl
  | [x] =>
      rw [joined, List.map_singleton, List.intercalate_singleton, enclosed,
        if_neg (Nat.not_lt_of_le (h x rfl))]
      rfl
  | x :: y :: zs => rfl

end Piece

namespace Select

variable {s t u : Select} {p : Expr} {as bs ps : List Expr} {c c' : Catalog}

/-- A statement with a conjunction of at least two predicates prints like the one with the predicates. -/
theorem print_conjunction (t : Select) (fs : List Condition) (sc : Scope) (has : 2 ≤ as.length) (k : Catalog) :
    (t.refilter (fs ++ [⟨.apply .and as, sc⟩])).print k = (t.refilter (fs ++ as.map (⟨·, sc⟩))).print k := by
  let ys := Expr.piecesAll k sc as
  have hys : 2 ≤ ys.length := by
    show 2 ≤ (Expr.piecesAll k sc as).length
    rw [Expr.piecesAll_eq_map, List.length_map]
    exact has
  have hone : Condition.piecesAll k (fs ++ [⟨.apply .and as, sc⟩])
      = Condition.piecesAll k fs ++ [(Precedence.conjunction, Operator.and.arrange ys)] := by
    rw [Condition.piecesAll_eq_map, Condition.piecesAll_eq_map, List.map_append]
    rfl
  have hall : Condition.piecesAll k (fs ++ as.map (⟨·, sc⟩)) = Condition.piecesAll k fs ++ ys := by
    show _ = _ ++ Expr.piecesAll k sc as
    rw [Condition.piecesAll_eq_map, Condition.piecesAll_eq_map, List.map_append, List.map_map, Expr.piecesAll_eq_map]
    rfl
  have hwhere : ∀ o : Printout,
      o.putAll (clausePieces " WHERE " (Condition.piecesAll k (fs ++ [⟨.apply .and as, sc⟩])) conjunctionPieces)
        = o.putAll (clausePieces " WHERE " (Condition.piecesAll k (fs ++ as.map (⟨·, sc⟩))) conjunctionPieces) := by
    intro o
    have hne : ys ≠ [] := List.ne_nil_of_length_pos (by omega)
    rw [hone, hall, clausePieces, clausePieces, if_neg (by simp), if_neg (by simp [hne]),
      Piece.conjunctionPieces_eq_joined fun x hx => ?_, Piece.conjunctionPieces_eq_joined fun x hx => ?_]
    · exact Piece.putAll_joined hne _ (o.put (.word " WHERE "))
    · have hlength := congrArg List.length hx
      rw [List.length_append, List.length_singleton] at hlength
      omega
    · have hlast := congrArg List.getLast? hx
      rw [List.getLast?_append, List.getLast?_singleton, List.getLast?_singleton] at hlast
      rw [← Option.some.inj hlast]
  rw [print, print, printout, printout, Select.pieces_eq, Select.pieces_eq]
  simp only [Printout.putAll_append]
  show (Printout.putAll (Printout.putAll (Printout.putAll _ _) _) _).result = _
  rw [show (t.refilter (fs ++ [⟨.apply .and as, sc⟩])).filters = fs ++ [⟨.apply .and as, sc⟩] from rfl, hwhere]
  rfl

/-- Predicates that can be added one after the other can be added as a conjunction, which prints the same, if one
number of steps of unwrapping gives all predicates the forms in which they are accepted, and if these forms and those
before refer to no projection of the statement itself. -/
theorem conjunction_prints_same (hrun : s.filterAll ps c = .ok (u, c')) (hp : Expr.conjunction ps = .ok p) :
    ∃ bs, s.FiltersAs c ps bs u c' ∧ ∀ m, bs = ps.map Expr.unwrap^[m] →
      (∀ p ∈ ps, ∀ k ≤ m, (Expr.unwrap^[k] p).Foreign s.identity) →
        ∃ u', s.filter p c = .ok (u', c') ∧ ∀ k, u'.print k = u.print k := by
  obtain ⟨bs, hbs⟩ := exists_filtersAs hrun
  refine ⟨bs, hbs, fun m hforms hforeign => ?_⟩
  rcases Expr.conjunction_eq_ok.mp hp with rfl | ⟨hmany, rfl⟩
  · obtain ⟨w, c₁, hw, h₁⟩ := Build.bind_eq_ok.mp hrun
    obtain ⟨rfl, rfl⟩ := Prod.mk.inj (Build.pure_eq_ok.mp h₁)
    exact ⟨u, hw, fun k => rfl⟩
  · obtain ⟨t, as, hfilter, rfl, hlength⟩ := filter_conjunction hbs hforms hforeign
    exact ⟨_, hfilter, print_conjunction t s.filters s.scope (hlength ▸ hmany)⟩

/-- The names of the people in a statement of their own. -/
def namesApart : Select :=
  (Call.project (.ofPeople "name")).attempt {} ((Call.addSource (.table people)).attempt {} (.empty 2))

/-- A predicate on the names of the people in a statement of their own. -/
def nameIsAda : Expr :=
  match namesApart.projections with
  | [p] => .equals (p.reference (.select 9 namesApart)) (.literal (.string "Ada"))
  | _ => .literal .null

/-- A predicate on the total of the revenues. -/
def totalAbove : Expr :=
  match revenueTotal.projections with
  | [p] => .apply .greater [p.reference (.select 8 revenueTotal), .literal (.integer 1000)]
  | _ => .literal .null

/-- One of the predicates has to be unwrapped, and the other one has nothing to unwrap. -/
theorem names_and_revenues_together : ∃ u c' bs u',
    revenueTotal.over.filterAll [nameIsAda, .revenueAbove 1000] {} = .ok (u, c')
    ∧ Expr.conjunction [nameIsAda, .revenueAbove 1000] = .ok (.apply .and [nameIsAda, .revenueAbove 1000])
    ∧ revenueTotal.over.FiltersAs {} [nameIsAda, .revenueAbove 1000] bs u c'
    ∧ bs = [nameIsAda, .revenueAbove 1000].map Expr.unwrap^[1]
    ∧ (∀ p ∈ [nameIsAda, .revenueAbove 1000], ∀ k ≤ 1, (Expr.unwrap^[k] p).Foreign revenueTotal.over.identity)
    ∧ revenueTotal.over.filter (.apply .and [nameIsAda, .revenueAbove 1000]) {} = .ok (u', c')
    ∧ ∀ k, u'.print k = u.print k := by
  have hrun : (revenueTotal.over.filterAll [nameIsAda, .revenueAbove 1000] {}).isOk = true := by decide +kernel
  obtain ⟨⟨u, c'⟩, hrun⟩ := Except.exists_of_isOk hrun
  obtain ⟨bs, hbs, hsame⟩ := conjunction_prints_same hrun rfl
  have hfails : (revenueTotal.over.accept nameIsAda {}).isOk = false := by decide +kernel
  have hrest : (revenueTotal.over.accept nameIsAda.unwrap {}).toOption.map (fun r =>
      ((r.1.1.refilter (r.1.1.filters ++ [⟨r.1.2, r.1.1.scope⟩])).accept (.revenueAbove 1000) r.2).isOk)
      = some true := by decide +kernel
  obtain ⟨⟨⟨t, a⟩, c₁⟩, ht, hrest⟩ := Except.exists_of_toOption hrest
  obtain ⟨r, hr⟩ := Except.exists_of_isOk hrest
  have hforms : bs = [nameIsAda, .revenueAbove 1000].map Expr.unwrap^[1] := by
    cases hbs with
    | cons h hs =>
        obtain rfl := h.eq (m := 1) ⟨ht, fun i hi => by obtain rfl := Nat.lt_one_iff.mp hi; exact hfails⟩
        obtain heq := h.1.symm.trans ht
        cases heq
        cases hs with
        | cons h' hs' =>
            obtain rfl := h'.eq (m := 0) ⟨hr, nofun⟩
            cases hs'
            rfl
  have hforeign : ∀ p ∈ [nameIsAda, .revenueAbove 1000], ∀ k ≤ 1,
      (Expr.unwrap^[k] p).Foreign revenueTotal.over.identity := by
    have hshown : ∀ p ∈ [nameIsAda, .revenueAbove 1000], p.Foreign revenueTotal.over.identity
        ∧ p.unwrap.Foreign revenueTotal.over.identity := by decide +kernel
    intro p hp k hk
    rcases Nat.le_one_iff_eq_zero_or_eq_one.mp hk with rfl | rfl
    · exact (hshown p hp).1
    · exact (hshown p hp).2
  obtain ⟨u', hfilter, hprint⟩ := hsame 1 hforms hforeign
  exact ⟨u, c', bs, u', hrun, rfl, hbs, hforms, hforeign, hfilter, hprint⟩

/-- A predicate that compares a selector of the statement itself with one of its source. -/
def ownTotalIsTotal : Expr :=
  match totalOnly.projections, revenueTotal.projections with
  | [q], [p] => .equals (q.reference (.select 10 totalOnly)) (p.reference (.select 8 revenueTotal))
  | _, _ => .literal .null

/-- What is printed after predicates have been added one after the other, and after they have been added as a
conjunction. -/
def printsBothWays (s : Select) (ps : List Expr) : Option String × Option String :=
  ((s.filterAll ps {}).toOption.bind fun r => (r.1.print {}).toOption,
    (s.filter (.apply .and ps) {}).toOption.bind fun r => (r.1.print {}).toOption)

/-- The total, accepted as it is by itself, is unwrapped together with the names. The selector of the statement
itself, accepted as it is in the conjunction, is unwrapped by itself, since the statement has got a predicate in
between and is not the same any more. -/
theorem conjunction_prints_otherwise : revenueTotal.over.Reached ∧ totalOnly.Reached
    ∧ revenueTotal.over.printsBothWays [totalAbove, nameIsAda]
      = (some ("SELECT a.total, a.name FROM (SELECT SUM(p.revenue) AS total, p.name FROM People p) a"
          ++ " WHERE a.total>1000 AND a.name='Ada'"),
        some ("SELECT a.total, a.revenue, a.name"
          ++ " FROM (SELECT SUM(p.revenue) AS total, p.revenue, p.name FROM People p) a"
          ++ " WHERE SUM(a.revenue)>1000 AND a.name='Ada'"))
    ∧ (revenueTotal.over.printsBothWays [totalAbove, nameIsAda]).1
      ≠ (revenueTotal.over.printsBothWays [totalAbove, nameIsAda]).2
    ∧ totalOnly.printsBothWays [.revenueAbove 1000, ownTotalIsTotal]
      = (some ("SELECT a.total FROM (SELECT SUM(p.revenue) AS total, p.revenue FROM People p) a"
          ++ " WHERE a.revenue>1000 AND a.total=SUM(a.revenue)"),
        some ("SELECT a.total FROM (SELECT SUM(p.revenue) AS total, p.revenue FROM People p) a"
          ++ " WHERE a.revenue>1000 AND a.total=a.total")) := by
  refine ⟨.call (.empty 1) _ {}, ?_, by decide +kernel, by decide +kernel, by decide +kernel⟩
  rw [totalOnly]
  split
  · exact .call (.call (.empty 1) _ {}) _ {}
  · exact .call (.empty 1) _ {}

end Select

end SqlCompose
