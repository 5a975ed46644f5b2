import SqlCompose.Proofs.Parallel
import SqlCompose.Proofs.Soundness

/-!
What a text tells. Two expressions of one shape, with the same operators, constants and names, print the
same text exactly if their leaves print with the same aliases. The aliases can be read off because a dot
ends them: the alias of a source has no dot behind its first character.
-/

namespace SqlCompose

/-! The aliases of sources are read up to the dot behind them. -/

namespace AliasPool

/-- An alias that is not empty and has no dot behind its first character. -/
def Dotless (a : String) : Prop := ∃ ch rest, a.toList = ch :: rest ∧ '.' ∉ rest

theorem lowercase_dotless (ch : Char) : Dotless (String.ofList (Text.lowercase ch)) := by
  rw [Dotless, String.toList_ofList, Text.lowercase]
  split
  · exact ⟨_, _, rfl, by decide⟩
  · split
    · exact ⟨_, _, rfl, List.not_mem_nil⟩
    · exact ⟨_, _, rfl, List.not_mem_nil⟩

theorem Dotless.candidate {stem : String} (h : Dotless stem) (k : Nat) : Dotless (candidate stem k) := by
  obtain ⟨ch, rest, hstem, hrest⟩ := h
  cases k with
  | zero => exact ⟨ch, rest, hstem, hrest⟩
  | succ k =>
      refine ⟨ch, rest ++ (toString (number k)).toList, ?_, ?_⟩
      · rw [AliasPool.candidate, String.toList_append, hstem, List.cons_append]
      · rw [List.mem_append, not_or]
        exact ⟨hrest, not_mem_number (by decide) (by decide) k⟩

theorem Dotless.fresh {stem : String} (h : Dotless stem) (p : AliasPool) : Dotless (p.fresh stem) := by
  obtain ⟨k, hk, -⟩ := p.exists_fresh_eq stem
  rw [hk]
  exact h.candidate k

/-- The alias of a source is dotless. -/
theorem viewAlias_dotless (p : AliasPool) (name : Option String) : Dotless (p.viewAlias name).1 := by
  rw [viewAlias]
  split
  case h_1 first rest hname => exact (lowercase_dotless first).fresh p
  case h_2 =>
      refine Dotless.fresh ⟨p.letter, [], ?_, List.not_mem_nil⟩ _
      exact String.toList_singleton p.letter

end AliasPool

namespace Piece

/-- Two texts up to their first dots. -/
theorem append_dot_inj : ∀ {xs us ys vs : List Char}, '.' ∉ xs → '.' ∉ us →
    (xs ++ '.' :: ys = us ++ '.' :: vs ↔ xs = us ∧ ys = vs)
  | [], [], _, _, _, _ => by simp
  | [], u :: us, _, _, _, hu => by
      have hne : '.' ≠ u := fun heq => hu (heq ▸ List.mem_cons_self)
      simp [hne]
  | x :: xs, [], _, _, hx, _ => by
      have hne : x ≠ '.' := fun heq => hx (heq ▸ List.mem_cons_self)
      simp [hne]
  | x :: xs, u :: us, ys, vs, hx, hu => by
      rw [List.mem_cons, not_or] at hx hu
      simp only [List.cons_append, List.cons.injEq, append_dot_inj hx.2 hu.2, and_assoc]

theorem qualification_inj {a b x y : String} (ha : AliasPool.Dotless a) (hb : AliasPool.Dotless b) :
    qualification (some a) ++ x = qualification (some b) ++ y ↔ a = b ∧ x = y := by
  obtain ⟨ch, rest, ha, hrest⟩ := ha
  obtain ⟨ch', rest', hb, hrest'⟩ := hb
  have hdot : ".".toList = ['.'] := rfl
  simp only [qualification, ← String.toList_inj, String.toList_append, ha, hb, hdot, List.append_assoc,
    List.cons_append, List.nil_append, List.cons.injEq, append_dot_inj hrest hrest', and_assoc]

/-! Texts that tell something. -/

/-- The texts of two lists of pieces, whatever stands behind them, are equal exactly if something is so and
the same stands behind them. -/
def Tells (A : Prop) (ps qs : List Piece) : Prop :=
  ∀ x y : String, textAll ps ++ x = textAll qs ++ y ↔ A ∧ x = y

namespace Tells

variable {A B : Prop} {ps qs : List Piece}

theorem text_eq_iff (h : Tells A ps qs) : textAll ps = textAll qs ↔ A := by
  have hempty := h "" ""
  simpa only [String.append_empty, and_true] using hempty

theorem of_eq (h : textAll ps = textAll qs) : Tells True ps qs := by
  intro x y
  rw [h, String.append_right_inj, true_and]

theorem congr (h : Tells A ps qs) (hAB : A ↔ B) : Tells B ps qs := by
  intro x y
  rw [h x y, hAB]

theorem parallel : Parallel Tells where
  same := fun ps => of_eq rfl
  append := by
    intro A B ps qs ps' qs' h h' x y
    rw [textAll_append, textAll_append, String.append_assoc, String.append_assoc, h, h', and_assoc]
  statement := by
    intro A ps qs h
    simpa only [Tells, textAll, text, String.append_empty] using h

end Tells

end Piece

/-! Expressions of one shape. -/

/-- The alias a leaf prints with in a scope. -/
def Scope.labelOf? (s : Scope) (leaf : Expr) : Option String :=
  (s.resolveLeaf leaf).toOption.map (·.label)

namespace Expr

/-- The text of a leaf behind its alias. -/
def leafText? (e : Expr) : Option String :=
  match e.unpinned with
  | column c => some (c.table.dialect.identifier c.name)
  | star _ => some "*"
  | projected v (some name) _ => some (v.dialect.identifier name)
  | _ => none

variable {e : Expr} {x : String}

theorem isPlain_of_leafText? (h : e.leafText? = some x) : e.unpinned.isPlain = true := by
  rw [leafText?] at h
  split at h
  case h_1 c heq => rw [heq]; rfl
  case h_2 v heq => rw [heq]; rfl
  case h_3 v n d heq => rw [heq]; rfl
  case h_4 => cases h

theorem isLeaf_of_plain (h : e.unpinned.isPlain = true) : e.isLeaf = true := by
  cases e with
  | column c => rfl
  | star v => rfl
  | projected v n d => rfl
  | pinned b v => rfl
  | literal v => cases h
  | apply op args => cases h
  | view v => cases h
  | within sc b => cases h

theorem precedence_of_plain (h : e.unpinned.isPlain = true) : e.precedence = Precedence.atom := by
  cases e with
  | column c => rfl
  | star v => rfl
  | projected v n d => rfl
  | pinned b v =>
      cases b with
      | column c => rfl
      | star v => rfl
      | projected v n d => rfl
      | pinned b v => cases h
      | literal v => cases h
      | apply op args => cases h
      | view v => cases h
      | within sc b => cases h
  | literal v => cases h
  | apply op args => cases h
  | view v => cases h
  | within sc b => cases h

theorem textAll_leafPieces (h : e.leafText? = some x) (q : Option String) :
    Piece.textAll (leafPieces q e.unpinned) = Piece.qualification q ++ x := by
  rw [leafText?] at h
  split at h
  case h_1 c heq =>
      obtain rfl := Option.some.inj h
      rw [heq]
      simp [leafPieces, Piece.textAll, Piece.text]
  case h_2 v heq =>
      obtain rfl := Option.some.inj h
      rw [heq]
      simp [leafPieces, Piece.textAll, Piece.text]
  case h_3 v n d heq =>
      obtain rfl := Option.some.inj h
      rw [heq]
      simp [leafPieces, Piece.textAll, Piece.text]
  case h_4 => cases h

theorem textAll_leafPiecesIn (h : e.leafText? = some x) (s : Scope) :
    Piece.textAll (leafPiecesIn s e) = Piece.qualification (s.labelOf? e) ++ x := by
  rw [leafPiecesIn, Scope.labelOf?]
  cases s.resolveLeaf e with
  | ok m => exact textAll_leafPieces h (some m.label)
  | error cause =>
      rw [resolvedPieces, Piece.textAll, Piece.text, String.empty_append]
      exact textAll_leafPieces h none

end Expr

mutual

/-- Two expressions have the same operators and names, and the constants and values in them print the
same. -/
inductive Expr.Alike (c : Catalog) (s s' : Scope) : Expr → Expr → Prop
  | literal {v w : Literal} (h : v.sqlText = w.sqlText) : Expr.Alike c s s' (.literal v) (.literal w)
  | apply (op : Operator) {as bs : List Expr} (h : Expr.AllAlike c s s' as bs) :
      Expr.Alike c s s' (.apply op as) (.apply op bs)
  | leaf {e b : Expr} {x : String} (he : e.leafText? = some x) (hb : b.leafText? = some x) :
      Expr.Alike c s s' e b
  | value {v w : View} (hp : v.precedence = w.precedence)
      (h : Piece.textAll (v.pieces c s) = Piece.textAll (w.pieces c s')) :
      Expr.Alike c s s' (.view v) (.view w)

/-- Arguments are alike one by one. -/
inductive Expr.AllAlike (c : Catalog) (s s' : Scope) : List Expr → List Expr → Prop
  | nil : Expr.AllAlike c s s' [] []
  | cons {e b : Expr} {es bs : List Expr} (h : Expr.Alike c s s' e b) (hs : Expr.AllAlike c s s' es bs) :
      Expr.AllAlike c s s' (e :: es) (b :: bs)

end

variable {c : Catalog} {s s' : Scope}

theorem Expr.Alike.precedence {e b : Expr} (h : e.Alike c s s' b) : e.precedence = b.precedence := by
  cases h with
  | literal h => rfl
  | apply op h => rfl
  | leaf he hb =>
      rw [precedence_of_plain (isPlain_of_leafText? he), precedence_of_plain (isPlain_of_leafText? hb)]
  | value hp h => exact hp

mutual

theorem Expr.Alike.length_leaves : ∀ {e b : Expr}, e.Alike c s s' b → e.leaves.length = b.leaves.length
  | _, _, .literal _ => rfl
  | _, _, .apply _ h => h.length_leaves
  | _, _, .leaf he hb => by
      rw [leaves_of_isLeaf (isLeaf_of_plain (isPlain_of_leafText? he)),
        leaves_of_isLeaf (isLeaf_of_plain (isPlain_of_leafText? hb))]
      rfl
  | _, _, .value _ _ => rfl

theorem Expr.AllAlike.length_leaves : ∀ {es bs : List Expr}, Expr.AllAlike c s s' es bs →
    (leavesAll es).length = (leavesAll bs).length
  | _, _, .nil => rfl
  | _, _, .cons h hs => by
      rw [leavesAll, leavesAll, List.length_append, List.length_append, h.length_leaves,
        hs.length_leaves]

end

/-- The leaves that resolve are the same ones. -/
def Scope.Matches (s s' : Scope) (es bs : List Expr) : Prop :=
  es.map (fun e => (s.labelOf? e).isSome) = bs.map fun b => (s'.labelOf? b).isSome

theorem Scope.labelOf?_dotless {leaf : Expr} {a : String} (hs : ∀ m ∈ s, AliasPool.Dotless m.label)
    (h : s.labelOf? leaf = some a) : AliasPool.Dotless a := by
  rw [labelOf?] at h
  cases hm : s.resolveLeaf leaf with
  | error cause =>
      rw [hm] at h
      cases h
  | ok m =>
      rw [hm] at h
      obtain rfl := Option.some.inj h
      exact hs m (resolveLeaf_mem hm)

/-- Two leaves of the same name tell their aliases. -/
theorem Expr.tells_leaf {e b : Expr} {x : String} (he : e.leafText? = some x) (hb : b.leafText? = some x)
    (hs : ∀ m ∈ s, AliasPool.Dotless m.label) (hs' : ∀ m ∈ s', AliasPool.Dotless m.label)
    (hmatch : (s.labelOf? e).isSome = (s'.labelOf? b).isSome) :
    Piece.Tells (s.labelOf? e = s'.labelOf? b) (leafPiecesIn s e) (leafPiecesIn s' b) := by
  intro y z
  rw [textAll_leafPiecesIn he, textAll_leafPiecesIn hb, String.append_assoc, String.append_assoc]
  cases ha : s.labelOf? e with
  | none =>
      rw [ha] at hmatch
      rw [Option.isSome_eq_false_iff.mp hmatch.symm |> Option.isNone_iff_eq_none.mp]
      simp [Piece.qualification]
  | some a =>
      rw [ha] at hmatch
      obtain ⟨a', ha'⟩ := Option.isSome_iff_exists.mp hmatch.symm
      rw [ha', Piece.qualification_inj (Scope.labelOf?_dotless hs ha) (Scope.labelOf?_dotless hs' ha'),
        String.append_right_inj, Option.some.injEq]

mutual

/-- Expressions of one shape tell the aliases of their leaves. -/
theorem Expr.Alike.tells (hs : ∀ m ∈ s, AliasPool.Dotless m.label)
    (hs' : ∀ m ∈ s', AliasPool.Dotless m.label) : ∀ {e b : Expr}, e.Alike c s s' b →
      s.Matches s' e.leaves b.leaves →
        Piece.Tells (e.leaves.map s.labelOf? = b.leaves.map s'.labelOf?) (e.pieces c s) (b.pieces c s')
  | _, _, .literal (v := v) (w := w) h, _ => by
      have htext : Piece.textAll [.literal v] = Piece.textAll [.literal w] := by
        simp only [Piece.textAll, Piece.text, h]
      exact (Piece.Tells.of_eq htext).congr (iff_of_true trivial rfl)
  | _, _, .apply op h, hmatch => Piece.Tells.parallel.arrange op (h.tells hs hs' hmatch)
  | e, b, .leaf he hb, hmatch => by
      have hleaf := isLeaf_of_plain (isPlain_of_leafText? he)
      have hleaf' := isLeaf_of_plain (isPlain_of_leafText? hb)
      rw [leaves_of_isLeaf hleaf, leaves_of_isLeaf hleaf'] at hmatch ⊢
      rw [pieces_of_isLeaf hleaf, pieces_of_isLeaf hleaf']
      simp only [Scope.Matches, List.map_cons, List.map_nil, List.cons.injEq, and_true] at hmatch ⊢
      exact tells_leaf he hb hs hs' hmatch
  | _, _, .value _ h, _ => (Piece.Tells.of_eq h).congr (iff_of_true trivial rfl)

theorem Expr.AllAlike.tells (hs : ∀ m ∈ s, AliasPool.Dotless m.label)
    (hs' : ∀ m ∈ s', AliasPool.Dotless m.label) : ∀ {es bs : List Expr}, Expr.AllAlike c s s' es bs →
      s.Matches s' (leavesAll es) (leavesAll bs) →
        Piece.ParallelAll Piece.Tells ((leavesAll es).map s.labelOf? = (leavesAll bs).map s'.labelOf?)
          (piecesAll c s es) (piecesAll c s' bs)
  | _, _, .nil, _ => Piece.ParallelAll.nil.congr (iff_of_true trivial rfl)
  | e :: es, b :: bs, .cons h htail, hmatch => by
      have hlength := h.length_leaves
      simp only [Scope.Matches, leavesAll, List.map_append] at hmatch
      obtain ⟨hhead, hrest⟩ := List.append_inj hmatch (by simpa using hlength)
      have htells := Piece.ParallelAll.cons (n := e.precedence) (h.tells hs hs' hhead)
        (htail.tells hs hs' hrest)
      rw [piecesAll, piecesAll, ← h.precedence]
      refine htells.congr ?_
      rw [leavesAll, leavesAll, List.map_append, List.map_append]
      refine ⟨fun ⟨h₁, h₂⟩ => by rw [h₁, h₂], fun heq => List.append_inj heq (by simpa using hlength)⟩

end

/-- Expressions of one shape print the same exactly if their leaves have the same aliases. -/
theorem Expr.Alike.text_eq_iff {e b : Expr} (h : e.Alike c s s' b)
    (hs : ∀ m ∈ s, AliasPool.Dotless m.label) (hs' : ∀ m ∈ s', AliasPool.Dotless m.label)
    (hmatch : s.Matches s' e.leaves b.leaves) :
    Piece.textAll (e.pieces c s) = Piece.textAll (b.pieces c s') ↔
      Select.leafAliases e s = Select.leafAliases b s' :=
  (h.tells hs hs' hmatch).text_eq_iff

/-- The text of the definition of a projection, in its own scope. -/
def Projection.text (c : Catalog) (p : Projection) : String :=
  Piece.textAll (p.definition.pieces c p.scope)

/-! The scopes of a statement that calls can reach. -/

namespace Select

variable {s u : Select}

theorem Step.dotless {Ok : Expr → Prop} {OkView : View → Prop} (h : Step Ok OkView s u)
    (hs : ∀ m ∈ s.scope, AliasPool.Dotless m.label) : ∀ m ∈ u.scope, AliasPool.Dotless m.label := by
  have hfresh : ∀ {name : Option String} {a : String} {pool : AliasPool},
      s.aliases.viewAlias name = (a, pool) → AliasPool.Dotless a := by
    intro name a pool ha
    have hspec := s.aliases.viewAlias_dotless name
    rw [ha] at hspec
    exact hspec
  cases h with
  | source mark hv hw hj ha => exact List.forall_mem_cons.mpr ⟨hfresh ha, hs⟩
  | join mark hv hl ha h =>
      show ∀ m ∈ Select.scope _, _
      rw [listing, h.scope]
      exact List.forall_mem_cons.mpr ⟨hfresh ha, hs⟩
  | clause he h hu =>
      rw [hu.scope, h.scope]
      exact hs

theorem Reached.dotless (h : s.Reached) : ∀ m ∈ s.scope, AliasPool.Dotless m.label :=
  h.induction (P := fun s => ∀ m ∈ s.scope, AliasPool.Dotless m.label)
    (fun _ _ h => absurd h List.not_mem_nil) Step.dotless

theorem Reached.dotless_projection (h : s.Reached) {p : Projection} (hp : p ∈ s.projections) :
    ∀ m ∈ p.scope, AliasPool.Dotless m.label := by
  have hsub : p.scope ⊆ s.scope :=
    h.clause_scope (k := ⟨p.definition, p.scope⟩) (mem_clauses.mpr (Or.inl ⟨p, hp, rfl⟩))
  exact fun m hm => h.dotless m (hsub hm)

end Select

end SqlCompose
