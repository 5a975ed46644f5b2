import SqlCompose.Proofs.Pieces
import SqlCompose.Proofs.Runs

/-!
What a statement without projections lists. Each source contributes the names that it shows, each under an
alias if it is taken already, or a star if there are none. When sources show more names than before, the
texts of the entries stay the same exactly if the names do, or if one source without names shows the name of
a star now, which prints as a star does.
-/

namespace SqlCompose

/-! Which aliases change when the star is taken. -/

namespace AliasPool

theorem candidate_ne_star {stem : String} (h : stem ≠ "*") (k : Nat) : candidate stem k ≠ "*" := by
  cases k with
  | zero => exact h
  | succ k =>
      intro heq
      have hlist : stem.toList ++ (toString (number k)).toList = ['*'] := by
        rw [← String.toList_append]
        exact congrArg String.toList heq
      rcases List.append_eq_singleton_iff.mp hlist with ⟨-, hstar⟩ | ⟨-, hnil⟩
      · exact not_mem_number (by decide) (by decide) k (hstar ▸ List.mem_cons_self)
      · exact toString_number_ne_empty k (String.toList_eq_nil_iff.mp hnil)

theorem fresh_eq_star {p : AliasPool} {n : String} : p.fresh n = "*" ↔ n = "*" ∧ "*" ∉ p.taken := by
  constructor
  · intro h
    obtain rfl : n = "*" := by
      by_contra hn
      obtain ⟨k, hk, -⟩ := p.exists_fresh_eq n
      exact candidate_ne_star hn k (hk.symm.trans h)
    exact ⟨rfl, fresh_eq_stem.mp h⟩
  · rintro ⟨rfl, hfree⟩
    exact fresh_eq_stem.mpr hfree

/-- A pool has the star taken besides the aliases of another one. -/
structure Starred (p q : AliasPool) : Prop where
  free : "*" ∉ p.taken
  taken : ∀ a, a ∈ q.taken ↔ a = "*" ∨ a ∈ p.taken

namespace Starred

variable {p q : AliasPool} {n : String}

theorem fresh_eq (h : p.Starred q) (hn : n ≠ "*") : q.fresh n = p.fresh n := by
  refine fresh_congr fun k => ?_
  rw [h.taken, or_iff_right (candidate_ne_star hn k)]

theorem allocate (h : p.Starred q) (hn : n ≠ "*") : (p.allocate n).2.Starred (q.allocate n).2 where
  free := by
    rw [allocate_taken, List.mem_append, List.mem_singleton, not_or]
    exact ⟨h.free, fun heq => hn (fresh_eq_star.mp heq.symm).1⟩
  taken := by
    intro a
    rw [allocate_taken, allocate_taken, List.mem_append, List.mem_append, h.taken, h.fresh_eq hn, or_assoc]

theorem of_free (h : "*" ∉ p.taken) : p.Starred (p.allocate "*").2 where
  free := h
  taken := by
    intro a
    rw [allocate_taken, fresh_eq_stem.mpr h, List.mem_append, List.mem_singleton, or_comm]

theorem star_mem (h : p.Starred q) : "*" ∈ q.taken := (h.taken "*").mpr (Or.inl rfl)

end Starred

end AliasPool

/-- Only the star itself is quoted to a star. -/
theorem Dialect.identifier_append_eq_star {d : Dialect} {n rest : String}
    (h : d.identifier n ++ rest = "*") (hrest : rest.length ≠ 1) :
    n = "*" ∧ d.identifier "*" = "*" ∧ rest = "" := by
  have hlength : (d.identifier n).length + rest.length = 1 := by
    rw [← String.length_append, h]
    rfl
  obtain rfl : rest = "" := String.length_eq_zero_iff.mp (by omega)
  rw [String.append_empty] at h
  cases hq : d.quoteIdentifiers with
  | false => simpa [identifier, hq] using h
  | true =>
      simp only [identifier, hq, if_true] at h ⊢
      have hempty : d.identifierQuote = "" := by
        have hsum := congrArg String.length h
        rw [String.length_append, String.length_append] at hsum
        have hone : ("*" : String).length = 1 := rfl
        exact String.length_eq_zero_iff.mp (by omega)
      rw [hempty] at h ⊢
      simpa using h

namespace Projection

/-- The entry of a projection that stands for a statement without any. -/
def defaultEntry (p : Projection) : List Piece := p.aliased (p.definition.leafPiecesIn p.scope)

end Projection

namespace Source

/-- The names that a source shows in a statement without projections. -/
def exposed (c : Catalog) (src : Source) : List String :=
  ((src.view.selectors c).filter (Expr.printsIn src.scope)).filterMap (·.name?)

/-- The entry of a name: a reference, with an alias if the name is taken. -/
def nameEntry (label : String) (d : Dialect) (pool : AliasPool) (n : String) : List Piece :=
  .reference (some label) n d
    :: if pool.fresh n = n then [] else [.word " AS ", .label (pool.fresh n)]

/-- The entries of some names, and the pool after them. -/
def nameEntries (label : String) (d : Dialect) : AliasPool → List String → List (List Piece) × AliasPool
  | pool, [] => ([], pool)
  | pool, n :: ns =>
    (nameEntry label d pool n :: (nameEntries label d (pool.allocate n).2 ns).1,
      (nameEntries label d (pool.allocate n).2 ns).2)

section Names

variable {label : String} {d : Dialect} {p q : AliasPool} {n : String}

theorem length_nameEntries : ∀ (ns : List String) (pool : AliasPool),
    (nameEntries label d pool ns).1.length = ns.length
  | [], _ => rfl
  | n :: ns, pool => by
      rw [nameEntries, List.length_cons, length_nameEntries ns, List.length_cons]

theorem textAll_nameEntry : Piece.textAll (nameEntry label d p n) =
    label ++ "." ++ (d.identifier n ++ if p.fresh n = n then "" else " AS " ++ p.fresh n) := by
  rw [nameEntry]
  split <;> simp [Piece.textAll, Piece.text, Piece.qualification, String.append_assoc]

/-- A name prints as a star does only if it is the star, printed without quotes and alias. -/
theorem nameEntry_eq_star :
    Piece.textAll (nameEntry label d p n) = Piece.textAll [.star (some label)]
      ↔ n = "*" ∧ d.identifier "*" = "*" ∧ "*" ∉ p.taken := by
  have hstar : Piece.textAll [.star (some label)] = label ++ "." ++ "*" := by
    simp [Piece.textAll, Piece.text, Piece.qualification]
  rw [textAll_nameEntry, hstar, String.append_right_inj]
  constructor
  · intro h
    -- an alias is longer than a star, so the star must come from the name
    have hrest : (if p.fresh n = n then "" else " AS " ++ p.fresh n).length ≠ 1 := by
      split
      · decide
      · rw [String.length_append]
        have hfour : (" AS " : String).length = 4 := rfl
        omega
    obtain ⟨rfl, hd, hnone⟩ := Dialect.identifier_append_eq_star h hrest
    refine ⟨rfl, hd, AliasPool.fresh_eq_stem.mp ?_⟩
    by_contra hfresh
    rw [if_neg hfresh] at hnone
    exact absurd (String.append_eq_empty_iff.mp hnone).1 (by decide)
  · rintro ⟨rfl, hd, hfree⟩
    rw [if_pos (AliasPool.fresh_eq_stem.mpr hfree), hd]
    rfl

theorem star_mem_nameEntries : ∀ {ns : List String} {p : AliasPool},
    "*" ∈ (nameEntries label d p ns).2.taken ↔ "*" ∈ p.taken ∨ "*" ∈ ns
  | [], p => by simp [nameEntries]
  | n :: ns, p => by
      rw [nameEntries, star_mem_nameEntries, AliasPool.allocate_taken, List.mem_append,
        List.mem_singleton, List.mem_cons, eq_comm, AliasPool.fresh_eq_star, eq_comm]
      tauto

theorem faultless_nameEntries : ∀ (ns : List String) (p : AliasPool),
    ∀ e ∈ (nameEntries label d p ns).1, ∀ z ∈ e, z.isFaulty = false
  | [], _ => fun _ he => nomatch he
  | n :: ns, p => by
      rw [nameEntries, List.forall_mem_cons]
      refine ⟨Piece.forall_mem_cons rfl ?_, faultless_nameEntries ns _⟩
      split
      · exact fun _ hz => nomatch hz
      · exact Piece.forall_mem_cons rfl (List.forall_mem_singleton.mpr rfl)

theorem taken_subset_nameEntries : ∀ (ns : List String) (p : AliasPool),
    p.taken ⊆ (nameEntries label d p ns).2.taken
  | [], _ => List.Subset.refl _
  | n :: ns, p =>
      List.Subset.trans (List.subset_append_left p.taken [p.fresh n])
        (taken_subset_nameEntries ns (p.allocate n).2)

/-- A taken star changes the text of the name of a star, and of no other name. -/
theorem nameEntries_starred : ∀ {ns : List String} {p q : AliasPool}, p.Starred q →
    ((nameEntries label d q ns).1.map Piece.textAll = (nameEntries label d p ns).1.map Piece.textAll
        ↔ "*" ∉ ns)
      ∧ ("*" ∉ ns → (nameEntries label d p ns).2.Starred (nameEntries label d q ns).2)
  | [], p, q, h => ⟨by simp [nameEntries], fun _ => h⟩
  | n :: ns, p, q, h => by
      by_cases hn : n = "*"
      · subst hn
        have hheads : Piece.textAll (nameEntry label d q "*") ≠ Piece.textAll (nameEntry label d p "*") := by
          have hq : q.fresh "*" ≠ "*" := fun hfresh => AliasPool.fresh_eq_stem.mp hfresh h.star_mem
          rw [textAll_nameEntry, textAll_nameEntry, if_neg hq, if_pos (AliasPool.fresh_eq_stem.mpr h.free)]
          intro heq
          rw [String.append_right_inj, String.append_right_inj] at heq
          exact absurd (String.append_eq_empty_iff.mp heq).1 (by decide)
        refine ⟨⟨fun heq => absurd (List.cons.inj heq).1 hheads, fun hmem => ?_⟩, fun hmem => ?_⟩
        · exact absurd List.mem_cons_self hmem
        · exact absurd List.mem_cons_self hmem
      · obtain ⟨htexts, hpools⟩ := @nameEntries_starred ns _ _ (h.allocate hn)
        have hheads : nameEntry label d q n = nameEntry label d p n := by
          rw [nameEntry, nameEntry, h.fresh_eq hn]
        have hmem : "*" ∉ n :: ns ↔ "*" ∉ ns := by
          rw [List.mem_cons, not_or, and_iff_right (Ne.symm hn)]
        rw [hmem]
        refine ⟨?_, hpools⟩
        rw [nameEntries, nameEntries, List.map_cons, List.map_cons, hheads, List.cons.injEq,
          and_iff_right rfl]
        exact htexts

end Names

end Source

/-! Lists of sources, each known by the names that it shows. -/

/-- What a source lists: some names under an alias, or a star under an alias if there are none. -/
structure Exhibit where
  starLabel : String
  label : String
  dialect : Dialect
  names : List String

namespace Exhibit

/-- The entries for a source, and the pool after them. -/
def entries (pool : AliasPool) (x : Exhibit) : List (List Piece) × AliasPool :=
  if x.names = [] then ([[.star (some x.starLabel)]], pool)
  else Source.nameEntries x.label x.dialect pool x.names

/-- The texts of the entries for a source. -/
def entryTexts (pool : AliasPool) (x : Exhibit) : List String := (x.entries pool).1.map Piece.textAll

/-- The texts of the entries for some sources, one after the other. -/
def texts : AliasPool → List Exhibit → List String
  | _, [] => []
  | pool, x :: xs => x.entryTexts pool ++ texts (x.entries pool).2 xs

/-- A source shows more names than before, or is as it was. -/
def Widens (x y : Exhibit) : Prop :=
  y = x ∨ x.starLabel = x.label ∧ ∃ more, y = { x with names := x.names ++ more }

/-- A source without names shows the name of a star instead, which is not quoted. -/
structure Stars (x y : Exhibit) : Prop where
  nameless : x.names = []
  star : y.names = ["*"]
  plain : x.dialect.identifier "*" = "*"

/-- One source without names shows the name of a star instead, and the others show the same names. -/
inductive OneStar : List Exhibit → List Exhibit → Prop
  | here {x y : Exhibit} {xs ys : List Exhibit} (h : x.Stars y) (hs : ys.map names = xs.map names) :
      OneStar (x :: xs) (y :: ys)
  | there {x y : Exhibit} {xs ys : List Exhibit} (h : y.names = x.names) (hs : OneStar xs ys) :
      OneStar (x :: xs) (y :: ys)

/-- Two exhibits with the same names and quotes. -/
structure Alike (x y : Exhibit) : Prop where
  dialect : y.dialect = x.dialect
  names : y.names = x.names

variable {x y : Exhibit} {xs ys : List Exhibit} {p q : AliasPool}

theorem length_entryTexts (x : Exhibit) (p : AliasPool) :
    (x.entryTexts p).length = max 1 x.names.length := by
  rw [entryTexts, List.length_map, entries]
  split
  case isTrue hnone => rw [hnone]; rfl
  case isFalse hsome =>
      have hpos := List.length_pos_iff.mpr hsome
      rw [Source.length_nameEntries]
      omega

theorem star_mem_entries : "*" ∈ (x.entries p).2.taken ↔ "*" ∈ p.taken ∨ "*" ∈ x.names := by
  rw [entries]
  split
  case isTrue hnone => simp [hnone]
  case isFalse hsome => exact Source.star_mem_nameEntries

/-- A taken star changes what is listed for a source exactly if the source shows the name of a star. -/
theorem entries_starred (x : Exhibit) (hpq : p.Starred q) :
    (x.entryTexts q = x.entryTexts p ↔ "*" ∉ x.names)
      ∧ ("*" ∉ x.names → (x.entries p).2.Starred (x.entries q).2) := by
  rw [entryTexts, entryTexts, entries, entries]
  split
  case isTrue hnone => exact ⟨by simp [hnone], fun _ => hpq⟩
  case isFalse hsome => exact Source.nameEntries_starred hpq

theorem faultless_entries (x : Exhibit) (p : AliasPool) :
    ∀ e ∈ (x.entries p).1, ∀ z ∈ e, z.isFaulty = false := by
  rw [entries]
  split
  · exact List.forall_mem_singleton.mpr (List.forall_mem_singleton.mpr rfl)
  · exact Source.faultless_nameEntries x.names p

theorem texts_eq_nil_iff : texts p xs = [] ↔ xs = [] := by
  cases xs with
  | nil => exact iff_of_true rfl rfl
  | cons x xs =>
      refine iff_of_false (fun h => ?_) (List.cons_ne_nil x xs)
      have hlength := x.length_entryTexts p
      rw [texts, List.append_eq_nil_iff] at h
      rw [h.1, List.length_nil] at hlength
      omega

theorem Widens.eq_of_names (h : x.Widens y) (hnames : y.names = x.names) : y = x := by
  obtain rfl | ⟨-, more, rfl⟩ := h
  · rfl
  · exact congrArg (fun ns => { x with names := ns }) hnames

theorem Widens.names_prefix (h : x.Widens y) : x.names <+: y.names := by
  obtain rfl | ⟨-, more, rfl⟩ := h
  · exact List.prefix_rfl
  · exact List.prefix_append _ _

theorem Widens.length_le (h : x.Widens y) (p q : AliasPool) :
    (x.entryTexts p).length ≤ (y.entryTexts q).length := by
  have hnames := h.names_prefix.length_le
  rw [length_entryTexts, length_entryTexts]
  omega

/-- Where the texts stay the same, a source shows the same names, or the name of a star for none. -/
theorem Widens.names_eq_or_stars (h : x.Widens y) (heq : y.entryTexts q = x.entryTexts p) :
    y.names = x.names ∨ (x.Stars y ∧ "*" ∉ q.taken) := by
  have hlength : max 1 y.names.length = max 1 x.names.length := by
    rw [← length_entryTexts y q, ← length_entryTexts x p, heq]
  obtain rfl | ⟨hstar, more, rfl⟩ := h
  · exact Or.inl rfl
  · by_cases hnone : x.names = []
    · rw [hnone] at hlength
      match more with
      | [] => exact Or.inl (List.append_nil _)
      | n :: m :: ns =>
          simp only [List.nil_append, List.length_cons, List.length_nil] at hlength
          omega
      | [n] =>
          rw [entryTexts, entryTexts, entries, entries, if_pos hnone, if_neg (by simp), hnone, hstar] at heq
          obtain ⟨rfl, hplain, hfree⟩ := Source.nameEntry_eq_star.mp (List.cons.inj heq).1
          exact Or.inr ⟨⟨hnone, by rw [hnone]; rfl, hplain⟩, hfree⟩
    · have hpos := List.length_pos_iff.mpr hnone
      rw [List.length_append] at hlength
      have hmore : more = [] := List.length_eq_zero_iff.mp (by omega)
      exact Or.inl (by rw [hmore, List.append_nil])

theorem Stars.entries (hs : x.Stars y) (h : x.Widens y) (hfree : "*" ∉ p.taken) :
    y.entryTexts p = x.entryTexts p ∧ (x.entries p).2 = p ∧ (y.entries p).2 = (p.allocate "*").2 := by
  obtain rfl | ⟨hstar, more, rfl⟩ := h
  · exact absurd (hs.nameless.symm.trans hs.star) (by simp)
  · have hnames := hs.star
    simp only at hnames
    rw [entryTexts, entryTexts, Exhibit.entries, Exhibit.entries, if_pos hs.nameless, hnames,
      if_neg (List.cons_ne_nil _ _), hstar]
    exact ⟨congrArg (fun t => [t]) (Source.nameEntry_eq_star.mpr ⟨rfl, hs.plain, hfree⟩), rfl, rfl⟩

theorem length_texts_le (h : List.Forall₂ Widens xs ys) :
    ∀ p q : AliasPool, (texts p xs).length ≤ (texts q ys).length := by
  induction h with
  | nil => exact fun p q => Nat.le_refl _
  | @cons x y xs ys hxy hxs ih =>
      intro p q
      have hhead := hxy.length_le p q
      have htail := ih (x.entries p).2 (y.entries q).2
      rw [texts, texts, List.length_append, List.length_append]
      omega

/-- No source contributes less than before, so equal texts are equal source by source. -/
theorem texts_cons_eq_iff (h : x.Widens y) (hs : List.Forall₂ Widens xs ys) :
    texts q (y :: ys) = texts p (x :: xs) ↔
      y.entryTexts q = x.entryTexts p ∧ texts (y.entries q).2 ys = texts (x.entries p).2 xs := by
  rw [texts, texts]
  constructor
  · intro heq
    have hhead := h.length_le p q
    have htail := length_texts_le hs (x.entries p).2 (y.entries q).2
    have hsum := congrArg List.length heq
    rw [List.length_append, List.length_append] at hsum
    exact List.append_inj heq (by omega)
  · rintro ⟨hhead, htail⟩
    rw [hhead, htail]

/-- With the star taken, the texts stay the same exactly if the names do and no name is a star. -/
theorem texts_starred (h : List.Forall₂ Widens xs ys) : ∀ {p q : AliasPool}, p.Starred q →
    (texts q ys = texts p xs ↔ ys.map names = xs.map names ∧ "*" ∉ (xs.map names).flatten) := by
  induction h with
  | nil => exact fun _ => iff_of_true rfl ⟨rfl, List.not_mem_nil⟩
  | @cons x y xs ys hxy hxs ih =>
      intro p q hpq
      obtain ⟨htexts, hpools⟩ := x.entries_starred hpq
      rw [texts_cons_eq_iff hxy hxs, List.map_cons, List.map_cons, List.cons.injEq, List.flatten_cons,
        List.mem_append, not_or]
      constructor
      · rintro ⟨hhead, htail⟩
        rcases hxy.names_eq_or_stars hhead with hnames | ⟨-, hfree⟩
        · obtain rfl := hxy.eq_of_names hnames
          have habsent := htexts.mp hhead
          obtain ⟨hrest, hnone⟩ := (ih (hpools habsent)).mp htail
          exact ⟨⟨hnames, hrest⟩, habsent, hnone⟩
        · exact absurd hpq.star_mem hfree
      · rintro ⟨⟨hnames, hrest⟩, habsent, hnone⟩
        obtain rfl := hxy.eq_of_names hnames
        exact ⟨htexts.mpr habsent, (ih (hpools habsent)).mpr ⟨hrest, hnone⟩⟩

/-- The texts stay the same exactly if all names do, or one star becomes the name of a star. -/
theorem texts_eq_iff (h : List.Forall₂ Widens xs ys) : ∀ {p : AliasPool},
    texts p ys = texts p xs ↔ ys.map names = xs.map names
      ∨ ("*" ∉ p.taken ∧ "*" ∉ (xs.map names).flatten ∧ OneStar xs ys) := by
  -- up to the first source that differs both pools are the same, and behind it one has taken the star
  induction h with
  | nil => simp
  | @cons x y xs ys hxy hxs ih =>
      intro p
      rw [texts_cons_eq_iff hxy hxs, List.map_cons, List.map_cons, List.cons.injEq, List.flatten_cons,
        List.mem_append, not_or]
      constructor
      · rintro ⟨hhead, htail⟩
        rcases hxy.names_eq_or_stars hhead with hnames | ⟨hstars, hfree⟩
        · obtain rfl := hxy.eq_of_names hnames
          rcases ih.mp htail with hrest | ⟨hfree, habsent, hone⟩
          · exact Or.inl ⟨hnames, hrest⟩
          · rw [star_mem_entries, not_or] at hfree
            exact Or.inr ⟨hfree.1, ⟨hfree.2, habsent⟩, .there hnames hone⟩
        · obtain ⟨-, hp, hq⟩ := hstars.entries hxy hfree
          rw [hp, hq] at htail
          obtain ⟨hrest, habsent⟩ := (texts_starred hxs (AliasPool.Starred.of_free hfree)).mp htail
          refine Or.inr ⟨hfree, ⟨?_, habsent⟩, .here hstars hrest⟩
          rw [hstars.nameless]
          exact List.not_mem_nil
      · rintro (⟨hnames, hrest⟩ | ⟨hfree, ⟨habsent, hnone⟩, hone⟩)
        · obtain rfl := hxy.eq_of_names hnames
          exact ⟨rfl, ih.mpr (Or.inl hrest)⟩
        · cases hone with
          | here hstars hrest =>
              obtain ⟨htexts, hp, hq⟩ := hstars.entries hxy hfree
              rw [hp, hq]
              exact ⟨htexts, (texts_starred hxs (AliasPool.Starred.of_free hfree)).mpr ⟨hrest, hnone⟩⟩
          | there hnames hone =>
              obtain rfl := hxy.eq_of_names hnames
              have hfree' : "*" ∉ (y.entries p).2.taken := by
                rw [star_mem_entries, not_or]
                exact ⟨hfree, habsent⟩
              exact ⟨rfl, ih.mpr (Or.inr ⟨hfree', hnone, hone⟩)⟩

theorem Alike.symm (h : x.Alike y) : y.Alike x := ⟨h.dialect.symm, h.names.symm⟩

theorem map_names_of_alike (h : List.Forall₂ Alike xs ys) : ys.map names = xs.map names := by
  induction h with
  | nil => rfl
  | cons hxy _ ih => rw [List.map_cons, List.map_cons, hxy.names, ih]

/-- Whether a star becomes the name of a star depends on the names and quotes, and on nothing else. -/
theorem OneStar.congr {xs' ys' : List Exhibit} (h : OneStar xs ys) (hxs : List.Forall₂ Alike xs xs')
    (hys : List.Forall₂ Alike ys ys') : OneStar xs' ys' := by
  induction h generalizing xs' ys' with
  | here h hs =>
      obtain ⟨x', xs', hx, hxs', rfl⟩ := List.forall₂_cons_left_iff.mp hxs
      obtain ⟨y', ys', hy, hys', rfl⟩ := List.forall₂_cons_left_iff.mp hys
      refine .here ⟨hx.names.trans h.nameless, hy.names.trans h.star, ?_⟩ ?_
      · rw [hx.dialect]
        exact h.plain
      · rw [map_names_of_alike hxs', map_names_of_alike hys', hs]
  | there h hs ih =>
      obtain ⟨x', xs', hx, hxs', rfl⟩ := List.forall₂_cons_left_iff.mp hxs
      obtain ⟨y', ys', hy, hys', rfl⟩ := List.forall₂_cons_left_iff.mp hys
      exact .there (hy.names.trans (h.trans hx.names.symm)) (ih hxs' hys')

end Exhibit

/-! The views whose selectors are columns. -/

namespace View

/-- The table whose columns are the selectors of a view, if they are columns. -/
def columnTable? : View → Option Table
  | table t => some t
  | concrete m => some m
  | join _ ⟨_, _, t, _⟩ => t.columnTable?
  | select .. => none

theorem selectors_of_columnTable {c : Catalog} {t : Table} : ∀ {v : View}, v.columnTable? = some t →
    v.selectors c = (c.columns t).map .column
  | table _, h => by cases h; rfl
  | concrete _, h => by cases h; rfl
  | join _ ⟨_, _, w, _⟩, h => selectors_of_columnTable (v := w) h

/-- Selectors that are no columns are the same in all catalogues. -/
theorem selectors_of_no_columnTable (c c' : Catalog) : ∀ {v : View}, v.columnTable? = none →
    v.selectors c' = v.selectors c
  | join _ ⟨_, _, w, _⟩, h => selectors_of_no_columnTable c c' (v := w) h
  | select _ _, _ => rfl

theorem dialect_of_columnTable {t : Table} : ∀ {v : View}, v.columnTable? = some t → v.dialect = t.dialect
  | table _, h => by cases h; rfl
  | concrete _, h => by cases h; rfl
  | join _ ⟨_, _, w, _⟩, h => dialect_of_columnTable (v := w) h

theorem Grows.columnTable? : ∀ {v w : View}, v.Grows w → w.columnTable? = v.columnTable?
  | .table _, _, h => by obtain rfl : _ = _ := h; rfl
  | .concrete _, _, h => by obtain rfl : _ = _ := h; rfl
  | .select _ _, .select _ _, _ => rfl
  | .join _ ⟨_, _, t, _⟩, .join _ ⟨_, _, w, _⟩, ⟨_, _, _, h⟩ => Grows.columnTable? (v := t) (w := w) h

/-- A view stands for the table whose columns it has. -/
theorem compatible_of_columnTable {t : Table} : ∀ {v : View}, v.columnTable? = some t →
    v.compatible (.table t) = true
  | table _, h => by
      cases h
      exact compatible_of_beq (beq_of_grows rfl (.refl _))
  | concrete _, h => by
      cases h
      have hinherits : (concrete t).inherits (.table t) = true := by
        rw [inherits]
        exact compatible_of_beq (beq_of_grows rfl (.refl _))
      rw [compatible, hinherits, Bool.or_true, Bool.true_or]
  | join i ⟨n, s, w, p⟩, h => by
      have htarget : w.compatible (.table t) = true := compatible_of_columnTable h
      have hinherits : (join i ⟨n, s, w, p⟩).inherits (.table t) = true := by
        rw [inherits, if_neg (by simp [isJoin]), htarget]
      rw [compatible, hinherits, Bool.or_true, Bool.true_or]

end View

/-- The selectors of a statement are references that resolve to what the statement was before. -/
theorem View.selectors_of_statement {v : View} {q : Select} (hs : v.isStatement = true)
    (hq : v.statement? = some q) : ∃ w : View, w.dialect = v.dialect
      ∧ (∀ c, v.selectors c = q.projections.map (·.reference w))
      ∧ ∀ m : Mapping, m.view.nanFree = true → m.view.Grows v → Scope.isMappingOf m w = true := by
  cases v with
  | table t => cases hs
  | concrete t => cases hs
  | select i r =>
      obtain rfl := Option.some.inj hq
      exact ⟨.select i r, rfl, fun c => rfl,
        fun m hm hgrows => Scope.isMappingOf_of_beq (beq_of_grows hm hgrows)⟩
  | join i j =>
      obtain ⟨n, s, t, p⟩ := j
      cases t with
      | table t => cases hs
      | concrete t => cases hs
      | join k l => cases hs
      | select k r =>
          obtain rfl := Option.some.inj hq
          refine ⟨.select k r, rfl, fun c => rfl, fun m hm hgrows => ?_⟩
          obtain ⟨mark, view, label⟩ := m
          obtain ⟨i', ⟨n', s', t', p'⟩, rfl, ht⟩ := Grows.to_join hgrows
          have hnan : t'.nanFree = true := by
            simp only [View.nanFree, Bool.and_eq_true] at hm
            exact hm.1.2
          have hbeq : (t' == View.select k r) = true := beq_of_grows hnan ht
          show (_ || t' == View.select k r) = true
          rw [hbeq, Bool.or_true]

namespace Source

/-! What a source contributes. -/

/-- The entries that a source contributes, and the pool after them. -/
def defaultEntries (c : Catalog) (pool : AliasPool) (src : Source) : List (List Piece) × AliasPool :=
  ((src.defaultProjections c pool).1.map (·.defaultEntry), (src.defaultProjections c pool).2)

/-- An expression is listed by its name, qualified with an alias. -/
def Lists (sc : Scope) (label : String) (d : Dialect) (e : Expr) : Prop :=
  ∃ n, e.name? = some n ∧ ∀ a, Projection.defaultEntry ⟨e, some a, sc⟩
    = .reference (some label) n d :: if a = n then [] else [.word " AS ", .label a]

theorem Lists.of_column {sc : Scope} {col : Column} {m : Mapping} (h : sc.resolve col.view = .ok m) :
    Lists sc m.label col.table.dialect (.column col) := by
  refine ⟨col.name, rfl, fun a => ?_⟩
  have hleaf : Expr.leafPiecesIn sc (.column col)
      = [.reference (some m.label) col.name col.table.dialect] := by
    rw [Expr.leafPiecesIn, Scope.resolveLeaf, h]
    rfl
  rw [Projection.defaultEntry, hleaf, Projection.aliased]
  by_cases ha : a = col.name
  · simp [Projection.printedAlias?, Expr.isLeaf, Expr.systemName?, ha]
  · have hne : ¬ col.name = a := fun h => ha h.symm
    simp [Projection.printedAlias?, Expr.isLeaf, Expr.systemName?, ha, hne]

theorem Lists.of_reference {sc : Scope} {v : View} {n : String} {d : Expr} {m : Mapping}
    (h : sc.resolveExact v = .ok m) : Lists sc m.label v.dialect (.projected v (some n) d) := by
  refine ⟨n, rfl, fun a => ?_⟩
  have hleaf : Expr.leafPiecesIn sc (.projected v (some n) d)
      = [.reference (some m.label) n v.dialect] := by
    rw [Expr.leafPiecesIn, Scope.resolveLeaf, h]
    rfl
  rw [Projection.defaultEntry, hleaf, Projection.aliased]
  by_cases ha : a = n
  · simp [Projection.printedAlias?, Expr.isLeaf, Expr.systemName?, ha]
  · have hne : ¬ n = a := fun h => ha h.symm
    simp [Projection.printedAlias?, Expr.isLeaf, Expr.systemName?, ha, hne]

theorem printsIn_unnamed {sc : Scope} {v : View} {d : Expr} :
    Expr.printsIn sc (.projected v none d) = false := by
  rw [Expr.printsIn, Expr.leafPiecesIn]
  cases sc.resolveLeaf (.projected v none d) <;> rfl

theorem printsIn_reference {sc : Scope} {v : View} {m : Mapping} (h : sc.resolveExact v = .ok m)
    (p : Projection) : (p.reference v).printsIn sc = p.name?.isSome := by
  rw [Projection.reference]
  cases hn : p.name? with
  | none => exact printsIn_unnamed
  | some n =>
      rw [Expr.printsIn, Expr.leafPiecesIn, Scope.resolveLeaf, h]
      rfl

theorem printsIn_unresolved {sc : Scope} {leaf : Expr} {cause : Error}
    (h : sc.resolveLeaf leaf = .error cause) : Expr.printsIn sc leaf = false := by
  rw [Expr.printsIn, Expr.leafPiecesIn, h]
  rfl

theorem exists_lists_columns (c : Catalog) (sc : Scope) (t : Table) : ∃ label,
    ∀ e ∈ (c.columns t).map Expr.column, Expr.printsIn sc e = true → Lists sc label t.dialect e := by
  cases hm : sc.resolve (.table t) with
  | ok m =>
      refine ⟨m.label, fun e he _ => ?_⟩
      obtain ⟨col, hcol, rfl⟩ := List.mem_map.mp he
      obtain ⟨n, -, rfl⟩ := List.mem_map.mp hcol
      exact Lists.of_column hm
  | error cause =>
      refine ⟨"", fun e he hprint => ?_⟩
      obtain ⟨col, hcol, rfl⟩ := List.mem_map.mp he
      obtain ⟨n, -, rfl⟩ := List.mem_map.mp hcol
      have hfault : Expr.printsIn sc (.column ⟨t, n⟩) = false := printsIn_unresolved hm
      exact absurd hprint (by simp [hfault])

/-- The selectors of a view that print are listed alike. -/
theorem exists_lists (c : Catalog) (sc : Scope) (v : View) :
    ∃ label, ∀ e ∈ v.selectors c, Expr.printsIn sc e = true → Lists sc label v.dialect e := by
  fun_induction View.selectors c v with
  | case1 t => exact exists_lists_columns c sc t
  | case2 t => exact exists_lists_columns c sc t
  | case3 i n s t p ih => exact ih
  | case4 i q =>
      cases hm : Scope.resolveExact sc (.select i q) with
      | ok m =>
          refine ⟨m.label, fun e he hprint => ?_⟩
          obtain ⟨p, -, rfl⟩ := List.mem_map.mp he
          rw [Projection.reference] at hprint ⊢
          cases hn : p.name? with
          | none => exact absurd hprint (by simp [hn, printsIn_unnamed])
          | some n => exact Lists.of_reference hm
      | error cause =>
          refine ⟨"", fun e he hprint => ?_⟩
          obtain ⟨p, -, rfl⟩ := List.mem_map.mp he
          have hfault : (p.reference (.select i q)).printsIn sc = false := printsIn_unresolved hm
          exact absurd hprint (by simp [hfault])

theorem foldl_listStep {sc : Scope} {label : String} {d : Dialect} :
    ∀ {es : List Expr} (acc : List Projection × AliasPool), (∀ e ∈ es, Lists sc label d e) →
      (es.foldl (listStep sc) acc).1.map (·.defaultEntry)
          = acc.1.map (·.defaultEntry) ++ (nameEntries label d acc.2 (es.filterMap (·.name?))).1
        ∧ (es.foldl (listStep sc) acc).2 = (nameEntries label d acc.2 (es.filterMap (·.name?))).2
  | [], acc, _ => ⟨(List.append_nil _).symm, rfl⟩
  | e :: es, acc, h => by
      rw [List.forall_mem_cons] at h
      obtain ⟨⟨n, hn, hentry⟩, hes⟩ := h
      obtain ⟨hentries, hpool⟩ := foldl_listStep (listStep sc acc e) hes
      have hstep : listStep sc acc e
          = (acc.1 ++ [⟨e, some (acc.2.fresh n), sc⟩], (acc.2.allocate n).2) := by
        rw [listStep, hn]
        rfl
      rw [hstep] at hentries hpool
      rw [List.foldl_cons, List.filterMap_cons, hn, nameEntries, hstep]
      refine ⟨?_, hpool⟩
      rw [hentries, List.map_append, List.map_singleton, hentry, List.append_assoc,
        List.singleton_append, nameEntry]

variable {c : Catalog} {src : Source}

/-- A source that lists its selectors alike contributes the names that it shows, or a star. -/
theorem defaultEntries_eq {label : String} {d : Dialect} (pool : AliasPool)
    (h : ∀ e ∈ src.view.selectors c, Expr.printsIn src.scope e = true → Lists src.scope label d e) :
    src.defaultEntries c pool = if src.exposed c = [] then
        ([Projection.defaultEntry ⟨.star src.view, none, src.scope⟩], pool)
      else nameEntries label d pool (src.exposed c) := by
  have hall : ∀ e ∈ (src.view.selectors c).filter (Expr.printsIn src.scope),
      Lists src.scope label d e := by
    intro e he
    rw [List.mem_filter] at he
    exact h e he.1 he.2
  cases hes : (src.view.selectors c).filter (Expr.printsIn src.scope) with
  | nil =>
      have hnone : src.exposed c = [] := by rw [exposed, hes, List.filterMap_nil]
      rw [if_pos hnone, defaultEntries, defaultProjections_eq, hes]
      rfl
  | cons e es =>
      rw [hes] at hall
      obtain ⟨n, hn, -⟩ := hall e List.mem_cons_self
      have hsome : src.exposed c ≠ [] := by
        rw [exposed, hes, List.filterMap_cons, hn]
        exact List.cons_ne_nil _ _
      obtain ⟨hentries, hpool⟩ := foldl_listStep ([], pool) hall
      have hfold : src.defaultProjections c pool = (e :: es).foldl (listStep src.scope) ([], pool) := by
        rw [defaultProjections_eq, hes]
        rfl
      rw [if_neg hsome, defaultEntries, hfold, exposed, hes]
      exact Prod.ext hentries hpool

/-- What a source contributes is what is listed for an exhibit. -/
structure Shows (c : Catalog) (src : Source) (x : Exhibit) : Prop where
  dialect : x.dialect = src.view.dialect
  names : x.names = src.exposed c
  entries : ∀ pool, src.defaultEntries c pool = x.entries pool

/-- The names that a source shows, under its alias and with its quotes. -/
def exhibit (c : Catalog) (src : Source) : Exhibit :=
  ⟨src.label, src.label, src.view.dialect, src.exposed c⟩

/-- The scope of a source begins with the source as it was, and the source is free of NaN. -/
structure Headed (src : Source) : Prop where
  head : ∃ m rest, src.scope = m :: rest ∧ m.label = src.label ∧ m.view.Grows src.view
  nanFree : src.view.nanFree = true

namespace Headed

theorem grows {a b : Source} (h : a.Headed) (hab : a.Grows b) : b.Headed := by
  obtain ⟨hl, hs, -, hv⟩ := hab
  obtain ⟨m, rest, heq, hm, hgrows⟩ := h.head
  refine ⟨⟨m, rest, hs.trans heq, hm.trans hl.symm, hgrows.trans hv⟩, ?_⟩
  rw [hv.nanFree]
  exact h.nanFree

/-- A star of the source resolves to it. -/
theorem exists_resolve (h : src.Headed) : ∃ m, Scope.resolve src.scope src.view = .ok m
    ∧ m.label = src.label := by
  obtain ⟨⟨m, rest, hscope, hlabel, hgrows⟩, hnan⟩ := h
  refine ⟨m, ?_, hlabel⟩
  rw [hscope]
  exact Scope.resolve_head
    (View.compatible_of_beq (View.beq_of_grows (hgrows.nanFree.symm.trans hnan) hgrows))

/-- A source that lists its selectors under an alias shows its names under that alias. -/
theorem shows_of_lists {label : String} (h : src.Headed) (hlists : ∀ e ∈ src.view.selectors c,
    Expr.printsIn src.scope e = true → Lists src.scope label src.view.dialect e) :
    src.Shows c ⟨src.label, label, src.view.dialect, src.exposed c⟩ := by
  obtain ⟨m, hm, hlabel⟩ := h.exists_resolve
  have hstar : Projection.defaultEntry ⟨.star src.view, none, src.scope⟩ = [.star (some src.label)] := by
    rw [Projection.defaultEntry, Projection.aliased, Projection.printedAlias?, Expr.leafPiecesIn,
      Scope.resolveLeaf, hm, ← hlabel]
    rfl
  refine ⟨rfl, rfl, fun pool => ?_⟩
  rw [defaultEntries_eq pool hlists, hstar, Exhibit.entries]

theorem exists_shows (h : src.Headed) (c : Catalog) : ∃ x, src.Shows c x := by
  obtain ⟨label, hlists⟩ := exists_lists c src.scope src.view
  exact ⟨_, h.shows_of_lists hlists⟩

/-- The selectors of a statement in a FROM list are references that resolve to it. -/
theorem exists_resolved {q : Select} (h : src.Headed) (hs : src.view.isStatement = true)
    (hq : src.view.statement? = some q) : ∃ w m, w.dialect = src.view.dialect ∧ m.label = src.label
      ∧ (∀ c, src.view.selectors c = q.projections.map (·.reference w))
      ∧ Scope.resolveExact src.scope w = .ok m := by
  obtain ⟨w, hdialect, hselectors, hmapping⟩ := View.selectors_of_statement hs hq
  obtain ⟨⟨m, rest, hscope, hlabel, hgrows⟩, hnan⟩ := h
  refine ⟨w, m, hdialect, hlabel, hselectors, ?_⟩
  rw [hscope]
  exact Scope.resolveExact_head (hmapping m (hgrows.nanFree.symm.trans hnan) hgrows)

/-- A statement in a FROM list shows the names of its projections. -/
theorem exposed_eq {q : Select} (h : src.Headed) (hs : src.view.isStatement = true)
    (hq : src.view.statement? = some q) : src.exposed c = q.projections.filterMap (·.name?) := by
  obtain ⟨w, m, -, -, hselectors, hexact⟩ := h.exists_resolved hs hq
  rw [exposed, hselectors, List.filter_map, List.filterMap_map, List.filterMap_filter]
  refine List.filterMap_congr fun p _ => ?_
  simp only [Function.comp_apply, printsIn_reference hexact]
  cases hn : p.name? with
  | none => rfl
  | some n => exact hn

theorem shows_statement (h : src.Headed) (hs : src.view.isStatement = true) :
    src.Shows c (src.exhibit c) := by
  obtain ⟨q, hq⟩ := View.statement?_of_isStatement hs
  obtain ⟨w, m, hdialect, hlabel, hselectors, hexact⟩ := h.exists_resolved hs hq
  refine h.shows_of_lists fun e he hprint => ?_
  rw [hselectors] at he
  obtain ⟨p, -, rfl⟩ := List.mem_map.mp he
  rw [printsIn_reference hexact, Option.isSome_iff_exists] at hprint
  obtain ⟨n, hn⟩ := hprint
  rw [Projection.reference, hn, ← hdialect, ← hlabel]
  exact Lists.of_reference hexact

/-- The columns of a table in a FROM list resolve to it. -/
theorem resolve_table {t : Table} (h : src.Headed) (ht : src.view.columnTable? = some t) :
    ∃ m, Scope.resolve src.scope (.table t) = .ok m ∧ m.label = src.label := by
  obtain ⟨⟨m, rest, hscope, hlabel, hgrows⟩, -⟩ := h
  refine ⟨m, ?_, hlabel⟩
  rw [hscope]
  exact Scope.resolve_head (View.compatible_of_columnTable (hgrows.columnTable? ▸ ht))

/-- A table in a FROM list, or behind a join in it, shows its registered columns. -/
theorem exposed_columns {t : Table} (h : src.Headed) (ht : src.view.columnTable? = some t) :
    src.exposed c = (c.registry t).columns := by
  obtain ⟨m, hm, -⟩ := h.resolve_table ht
  have hprints : ∀ e ∈ (c.columns t).map Expr.column, Expr.printsIn src.scope e = true := by
    intro e he
    obtain ⟨col, hcol, rfl⟩ := List.mem_map.mp he
    obtain ⟨n, -, rfl⟩ := List.mem_map.mp hcol
    rw [Expr.printsIn, Expr.leafPiecesIn, Scope.resolveLeaf, Column.view, hm]
    rfl
  rw [exposed, View.selectors_of_columnTable ht, List.filter_eq_self.mpr hprints, Catalog.columns,
    List.filterMap_map, List.filterMap_map]
  exact List.filterMap_some

theorem shows_columns {t : Table} (h : src.Headed) (ht : src.view.columnTable? = some t) :
    src.Shows c (src.exhibit c) := by
  obtain ⟨m, hm, hlabel⟩ := h.resolve_table ht
  refine h.shows_of_lists fun e he _ => ?_
  rw [View.selectors_of_columnTable ht] at he
  obtain ⟨col, hcol, rfl⟩ := List.mem_map.mp he
  obtain ⟨n, -, rfl⟩ := List.mem_map.mp hcol
  rw [← hlabel, View.dialect_of_columnTable ht]
  exact Lists.of_column hm

end Headed

/-- The texts of the entries that some sources contribute. -/
def entryTexts (c : Catalog) (pool : AliasPool) (f : List Source) : List String :=
  (defaultProjectionsAll c pool f).map fun p => Piece.textAll p.defaultEntry

variable {c' : Catalog} {f g : List Source} {xs ys : List Exhibit}

theorem entryTexts_eq_texts (h : List.Forall₂ (Shows c) f xs) :
    ∀ pool, entryTexts c pool f = Exhibit.texts pool xs := by
  induction h with
  | nil => exact fun _ => rfl
  | @cons a x f xs hax hfx ih =>
      intro pool
      have hentries := hax.entries pool
      rw [Exhibit.texts, Exhibit.entryTexts, ← hentries, ← ih, entryTexts, defaultProjectionsAll,
        List.map_append, defaultEntries, List.map_map]
      rfl

theorem faultless_defaults (h : List.Forall₂ (Shows c) f xs) : ∀ pool,
    ∀ p ∈ defaultProjectionsAll c pool f, ∀ z ∈ p.defaultEntry, z.isFaulty = false := by
  induction h with
  | nil => exact fun _ _ hp => nomatch hp
  | @cons a x f xs hax hfx ih =>
      intro pool
      have hentries := congrArg Prod.fst (hax.entries pool)
      rw [defaultProjectionsAll, List.forall_mem_append]
      refine ⟨fun p hp => ?_, ih _⟩
      exact x.faultless_entries pool _ (hentries ▸ List.mem_map_of_mem hp)

theorem Shows.alike (h : List.Forall₂ (Shows c) f xs) :
    List.Forall₂ Exhibit.Alike xs (f.map (exhibit c)) :=
  List.forall₂_map_right_iff.mpr (h.flip.imp fun _ _ hax => ⟨hax.dialect.symm, hax.names.symm⟩)

/-- A source shows more names than before, or lists what it did. -/
def Broadens (c c' : Catalog) (a b : Source) : Prop :=
  ∃ x y : Exhibit, a.Shows c x ∧ b.Shows c' y ∧ x.Widens y

theorem exists_exhibits (h : List.Forall₂ (Broadens c c') f g) : ∃ xs ys, List.Forall₂ (Shows c) f xs
    ∧ List.Forall₂ (Shows c') g ys ∧ List.Forall₂ Exhibit.Widens xs ys := by
  induction h with
  | nil => exact ⟨[], [], .nil, .nil, .nil⟩
  | cons hab _ ih =>
      obtain ⟨x, y, hx, hy, hxy⟩ := hab
      obtain ⟨xs, ys, hxs, hys, hall⟩ := ih
      exact ⟨x :: xs, y :: ys, .cons hx hxs, .cons hy hys, .cons hxy hall⟩

/-- The texts of all entries stay the same exactly if the names do, or one star becomes its own name. -/
theorem entryTexts_eq_iff (h : List.Forall₂ (Broadens c c') f g) {pool : AliasPool} :
    entryTexts c' pool g = entryTexts c pool f ↔ g.map (exposed c') = f.map (exposed c)
      ∨ ("*" ∉ pool.taken ∧ "*" ∉ (f.map (exposed c)).flatten
        ∧ Exhibit.OneStar (f.map (exhibit c)) (g.map (exhibit c'))) := by
  obtain ⟨xs, ys, hf, hg, hwidens⟩ := exists_exhibits h
  have hx := Shows.alike hf
  have hy := Shows.alike hg
  have hone : Exhibit.OneStar xs ys ↔ Exhibit.OneStar (f.map (exhibit c)) (g.map (exhibit c')) :=
    ⟨fun h => h.congr hx hy, fun h => h.congr (hx.flip.imp fun _ _ hab => hab.symm)
      (hy.flip.imp fun _ _ hab => hab.symm)⟩
  rw [entryTexts_eq_texts hf, entryTexts_eq_texts hg, Exhibit.texts_eq_iff hwidens, hone,
    ← Exhibit.map_names_of_alike hx, ← Exhibit.map_names_of_alike hy, List.map_map, List.map_map]
  rfl

end Source

namespace Select

variable {s : Select} {k : Catalog}

/-- The names that each source of a statement shows. -/
def exposures (c : Catalog) (s : Select) : List (List String) := s.sources.map (Source.exposed c)

theorem Linked.headed (h : s.Linked) (hnan : ∀ src ∈ s.sources, src.view.nanFree = true) :
    ∀ src ∈ s.sources, src.Headed :=
  fun src hsrc => ⟨(h.captured src hsrc).2, hnan src hsrc⟩

theorem textAll_entries (h : s.projections = []) :
    (s.entries k).map Piece.textAll = Source.entryTexts k s.aliases s.sources := by
  rw [entries, h, List.isEmpty_nil, if_pos rfl, defaults, Source.entryTexts, List.map_map]
  rfl

end Select

end SqlCompose
