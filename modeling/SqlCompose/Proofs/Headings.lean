import SqlCompose.Proofs.Listings
import SqlCompose.Proofs.Parallel

/-!
The printouts of one statement with two catalogues, of which the second one lets sources show more names.
Stars, signs and digits are light characters, and all others are heavy. A list of more names has at least as
many heavy characters, since a star stands for no name and the number behind a taken alias is made of digits
and a sign. So if the two texts are equal they have the same weight part by part, and each list of names prints
as it did.
-/

namespace SqlCompose

/-! The weight of a text. -/

namespace Text

/-- Stars, signs and digits are light, and all other characters are heavy. -/
def isHeavy (ch : Char) : Bool := !(ch == '*' || ch == '-' || ch.isDigit)

/-- How many heavy characters are in a text. -/
def weight (s : String) : Nat := s.toList.countP isHeavy

/-- A text begins with a heavy character. -/
def BeginsHeavy (s : String) : Prop := ∃ ch ∈ s.toList.head?, isHeavy ch = true

variable {s t a b u v : String}

@[simp]
theorem weight_append (s t : String) : weight (s ++ t) = weight s + weight t := by
  rw [weight, String.toList_append, List.countP_append]
  rfl

theorem BeginsHeavy.append (h : BeginsHeavy s) (t : String) : BeginsHeavy (s ++ t) := by
  obtain ⟨ch, hch, hheavy⟩ := h
  refine ⟨ch, ?_, hheavy⟩
  rw [String.toList_append, List.head?_append, Option.mem_def.mp hch]
  rfl

/-- What two texts of the same weight differ by at their ends is light, so it is nothing in front of a text
that begins with a heavy character. -/
theorem eq_nil_of_weight {w rest : List Char} (h : t.toList = s.toList ++ w) (hw : weight t = weight s)
    (hrest : ∃ ch ∈ (w ++ rest).head?, isHeavy ch = true) : w = [] := by
  have hlight : w.countP isHeavy = 0 := by
    rw [weight, weight, h, List.countP_append] at hw
    omega
  cases w with
  | nil => rfl
  | cons ch w =>
      obtain ⟨ch', hhead, hheavy⟩ := hrest
      obtain rfl : ch = ch' := Option.some.inj hhead
      exact absurd hheavy (List.countP_eq_zero.mp hlight ch List.mem_cons_self)

/-- If the parts of one text are no lighter than those of another, equal texts have equal parts. -/
theorem append_eq_append_iff_of_weight (hab : weight a ≤ weight b) (huv : weight u ≤ weight v)
    (hu : BeginsHeavy u) (hv : BeginsHeavy v) : a ++ u = b ++ v ↔ a = b ∧ u = v := by
  refine ⟨fun heq => ?_, fun ⟨h, h'⟩ => by rw [h, h']⟩
  have hweight : weight b = weight a := by
    have hsum := congrArg weight heq
    rw [weight_append, weight_append] at hsum
    omega
  have hlist := congrArg String.toList heq
  rw [String.toList_append, String.toList_append, List.append_eq_append_iff] at hlist
  obtain ⟨w, hb, hrest⟩ | ⟨w, ha, hrest⟩ := hlist
  · rw [BeginsHeavy, hrest] at hu
    obtain rfl := eq_nil_of_weight hb hweight hu
    rw [List.append_nil] at hb
    exact ⟨String.toList_inj.mp hb.symm, String.toList_inj.mp hrest⟩
  · rw [BeginsHeavy, hrest] at hv
    obtain rfl := eq_nil_of_weight ha hweight.symm hv
    rw [List.append_nil] at ha
    exact ⟨String.toList_inj.mp ha, String.toList_inj.mp hrest.symm⟩

end Text

/-! More aliases taken make no entry lighter. -/

namespace AliasPool

open Text

variable {p q : AliasPool} {n : String}

theorem weight_candidate (stem : String) (k : Nat) : weight (candidate stem k) = weight stem := by
  cases k with
  | zero => rfl
  | succ k =>
      have hlight : weight (toString (number k)) = 0 := by
        refine List.countP_eq_zero.mpr fun ch hch => ?_
        rcases isDigit_of_mem_number hch with rfl | hdigit
        · decide
        · simp [isHeavy, hdigit]
      rw [candidate, weight_append, hlight, Nat.add_zero]

theorem weight_fresh (p : AliasPool) (n : String) : weight (p.fresh n) = weight n := by
  obtain ⟨k, hk, -⟩ := p.exists_fresh_eq n
  rw [hk, weight_candidate]

/-- An alias that is still free when more are taken is handed out again. -/
theorem fresh_eq_of_subset (h : p.taken ⊆ q.taken) (hfree : p.fresh n ∉ q.taken) :
    q.fresh n = p.fresh n := by
  obtain ⟨k, hk, -, hbefore⟩ := p.exists_fresh_eq n
  rw [hk] at hfree ⊢
  exact fresh_eq_candidate hfree fun j hj => h (hbefore j hj)

theorem allocate_subset (h : p.taken ⊆ q.taken) (n : String) :
    (p.allocate n).2.taken ⊆ (q.allocate n).2.taken := by
  rw [allocate_taken, allocate_taken]
  refine List.append_subset.mpr ⟨List.Subset.trans h (List.subset_append_left _ _), ?_⟩
  refine List.cons_subset.mpr ⟨?_, List.nil_subset _⟩
  rw [List.mem_append, List.mem_singleton]
  by_cases hmem : p.fresh n ∈ q.taken
  · exact Or.inl hmem
  · exact Or.inr (fresh_eq_of_subset h hmem).symm

end AliasPool

namespace Source

open Text

variable {label : String} {d : Dialect} {p q : AliasPool}

theorem weight_nameEntry_le (h : p.taken ⊆ q.taken) (n : String) :
    weight (Piece.textAll (nameEntry label d p n)) ≤ weight (Piece.textAll (nameEntry label d q n)) := by
  have halias : weight (if p.fresh n = n then "" else " AS " ++ p.fresh n)
      ≤ weight (if q.fresh n = n then "" else " AS " ++ q.fresh n) := by
    by_cases hq : q.fresh n = n
    · have hp : p.fresh n = n :=
        AliasPool.fresh_eq_stem.mpr fun hmem => AliasPool.fresh_eq_stem.mp hq (h hmem)
      exact Nat.le_of_eq (by rw [if_pos hp, if_pos hq])
    · rw [if_neg hq]
      split
      · exact Nat.zero_le _
      · refine Nat.le_of_eq ?_
        rw [weight_append, weight_append, AliasPool.weight_fresh, AliasPool.weight_fresh]
  rw [textAll_nameEntry, textAll_nameEntry]
  simp only [weight_append]
  omega

theorem weight_star_le (p : AliasPool) (n : String) :
    weight (Piece.textAll [.star (some label)]) ≤ weight (Piece.textAll (nameEntry label d p n)) := by
  have hstar : Piece.textAll [.star (some label)] = label ++ "." ++ "*" := by
    simp [Piece.textAll, Piece.text, Piece.qualification]
  have hlight : weight "*" = 0 := rfl
  rw [hstar, textAll_nameEntry]
  simp only [weight_append, hlight]
  omega

end Source

/-! Lists of texts of which the second one has no lighter texts, and maybe more of them. -/

namespace Text

/-- Each text of a list has its own text in another list that is no lighter, in the same order. -/
inductive Covered : List String → List String → Prop
  | nil : Covered [] []
  | cons {t u : String} {ts us : List String} (h : weight t ≤ weight u) (hs : Covered ts us) :
      Covered (t :: ts) (u :: us)
  | extra (u : String) {ts us : List String} (hs : Covered ts us) : Covered ts (u :: us)

/-- Some texts as they stand in a list behind another one. -/
def behind : List String → String
  | [] => ""
  | t :: ts => ", " ++ (t ++ behind ts)

namespace Covered

variable {ts us ts' us' : List String} {x y : String}

theorem nil_left : ∀ us : List String, Covered [] us
  | [] => .nil
  | u :: us => .extra u (nil_left us)

theorem append (h : Covered ts us) (h' : Covered ts' us') : Covered (ts ++ ts') (us ++ us') := by
  induction h with
  | nil => exact h'
  | cons htu _ ih => exact .cons htu ih
  | extra u _ ih => exact .extra u ih

theorem length_le (h : Covered ts us) : ts.length ≤ us.length := by
  induction h with
  | nil => exact Nat.le_refl _
  | cons _ _ ih => exact Nat.succ_le_succ ih
  | extra u _ ih => exact Nat.le_succ_of_le ih

theorem weight_le (h : Covered ts us) : weight (behind ts) ≤ weight (behind us) := by
  induction h with
  | nil => exact Nat.le_refl _
  | cons htu _ ih =>
      simp only [behind, weight_append]
      omega
  | extra u _ ih =>
      simp only [behind, weight_append]
      omega

end Covered

theorem beginsHeavy_behind {x : String} (hx : BeginsHeavy x) : ∀ ts : List String,
    BeginsHeavy (behind ts ++ x)
  | [] => by rwa [behind, String.empty_append]
  | t :: ts => by
      have hcomma : BeginsHeavy ", " := ⟨',', rfl, rfl⟩
      rw [behind, String.append_assoc]
      exact hcomma.append _

/-- Lists of texts that are equal with no lighter text behind them are equal. -/
theorem Covered.behind_append_eq_iff {ts us : List String} {x y : String} (h : Covered ts us)
    (hxy : weight x ≤ weight y) (hx : BeginsHeavy x) (hy : BeginsHeavy y) :
    behind ts ++ x = behind us ++ y ↔ ts = us ∧ x = y := by
  induction h with
  | nil => rw [String.append_right_inj, and_iff_right rfl]
  | @cons t u ts us htu hs ih =>
      have hrest : weight (behind ts ++ x) ≤ weight (behind us ++ y) := by
        have hle := hs.weight_le
        rw [weight_append, weight_append]
        omega
      simp only [behind, String.append_assoc, String.append_right_inj]
      rw [append_eq_append_iff_of_weight htu hrest
          (beginsHeavy_behind hx ts) (beginsHeavy_behind hy us), ih, List.cons.injEq, and_assoc]
  | @extra u ts us hs ih =>
      -- one text more is heavier by its comma
      refine iff_of_false (fun heq => ?_) fun ⟨heq, _⟩ => ?_
      · have hsum := congrArg weight heq
        have hle := hs.weight_le
        have hcomma : weight ", " = 2 := rfl
        simp only [behind, weight_append, hcomma] at hsum
        omega
      · have hlength := hs.length_le
        rw [heq, List.length_cons] at hlength
        omega

end Text

namespace Exhibit

open Text

variable {x y : Exhibit} {xs ys : List Exhibit} {p q : AliasPool}

theorem covered_names {label : String} {d : Dialect} (more : List String) :
    ∀ {ns : List String} {p q : AliasPool}, p.taken ⊆ q.taken →
      Covered ((Source.nameEntries label d p ns).1.map Piece.textAll)
          ((Source.nameEntries label d q (ns ++ more)).1.map Piece.textAll)
        ∧ (Source.nameEntries label d p ns).2.taken ⊆ (Source.nameEntries label d q (ns ++ more)).2.taken
  | [], p, q, h => ⟨.nil_left _, List.Subset.trans h (Source.taken_subset_nameEntries more q)⟩
  | n :: ns, p, q, h => by
      obtain ⟨hcovered, hpools⟩ := @covered_names label d more ns _ _ (AliasPool.allocate_subset h n)
      exact ⟨.cons (Source.weight_nameEntry_le h n) hcovered, hpools⟩

/-- A source that shows more names has no lighter entries, and takes no fewer aliases. -/
theorem Widens.covered (h : x.Widens y) (hpq : p.taken ⊆ q.taken) :
    Covered (x.entryTexts p) (y.entryTexts q) ∧ (x.entries p).2.taken ⊆ (y.entries q).2.taken := by
  obtain ⟨more, hy, hstar⟩ : ∃ more, y = { x with names := x.names ++ more }
      ∧ (more = [] ∨ x.starLabel = x.label) := by
    obtain rfl | ⟨hstar, more, hy⟩ := h
    · exact ⟨[], by rw [List.append_nil], Or.inl rfl⟩
    · exact ⟨more, hy, Or.inr hstar⟩
  subst hy
  rw [entryTexts, entryTexts, entries, entries]
  by_cases hnone : x.names = []
  · rw [if_pos hnone, hnone]
    cases more with
    | nil => exact ⟨.cons (Nat.le_refl _) .nil, hpq⟩
    | cons n more =>
        rw [hstar.resolve_left (List.cons_ne_nil n more)]
        refine ⟨.cons (Source.weight_star_le q n) (.nil_left _), ?_⟩
        exact List.Subset.trans hpq (Source.taken_subset_nameEntries (n :: more) q)
  · rw [if_neg hnone, if_neg (by simp [hnone])]
    exact covered_names more hpq

theorem covered_texts (h : List.Forall₂ Widens xs ys) : ∀ {p q : AliasPool}, p.taken ⊆ q.taken →
    Covered (texts p xs) (texts q ys) := by
  induction h with
  | nil => exact fun _ => .nil
  | cons hxy _ ih =>
      intro p q hpq
      obtain ⟨hcovered, hpools⟩ := hxy.covered hpq
      exact hcovered.append (ih hpools)

end Exhibit

theorem Printout.text_eq_of_result_eq {o o' : Printout} (h : o'.result = o.result) : o'.text = o.text := by
  obtain ⟨text, faults⟩ := o
  obtain ⟨text', faults'⟩ := o'
  cases faults with
  | nil =>
      cases faults' with
      | nil => exact Except.ok.inj h
      | cons e es => cases h
  | cons e es =>
      cases faults' with
      | nil => cases h
      | cons e' es' => exact (Error.printing.inj (Except.error.inj h)).2

/-! Pieces whose texts are compared by weight. -/

namespace Piece

open Text

variable {A : Prop} {ps qs : List Piece}

/-- The second pieces are no lighter than the first. With no lighter text behind them, their texts are equal
exactly if something is so and the same stands behind them. -/
structure Grows (A : Prop) (ps qs : List Piece) : Prop where
  weight_le : weight (textAll ps) ≤ weight (textAll qs)
  append_eq_iff : ∀ x y : String, weight x ≤ weight y →
    (textAll ps ++ x = textAll qs ++ y ↔ A ∧ x = y)

theorem Grows.text_eq_iff (h : Grows A ps qs) : textAll ps = textAll qs ↔ A := by
  have hempty := h.append_eq_iff "" "" (Nat.le_refl _)
  simpa only [String.append_empty, and_true] using hempty

theorem Grows.parallel : Parallel Grows where
  same := fun ps => ⟨Nat.le_refl _, fun x y _ => by rw [String.append_right_inj, true_and]⟩
  append := by
    intro A B ps qs ps' qs' h h'
    refine ⟨?_, fun x y hxy => ?_⟩
    · have hfront := h.weight_le
      have hback := h'.weight_le
      rw [textAll_append, textAll_append, weight_append, weight_append]
      omega
    · have hback : weight (textAll ps' ++ x) ≤ weight (textAll qs' ++ y) := by
        have hle := h'.weight_le
        rw [weight_append, weight_append]
        omega
      rw [textAll_append, textAll_append, String.append_assoc, String.append_assoc,
        h.append_eq_iff _ _ hback, h'.append_eq_iff _ _ hxy, and_assoc]
  statement := by
    intro A ps qs h
    have htext : ∀ ps : List Piece, textAll [.statement ps] = textAll ps := fun ps => by
      rw [textAll, textAll, text, String.append_empty]
    exact ⟨by rw [htext, htext]; exact h.weight_le, by rw [htext, htext]; exact h.append_eq_iff⟩

/-- Pieces that print alike behind any printout if something is so. -/
def PrintAlike (A : Prop) (ps qs : List Piece) : Prop := A → ∀ o : Printout, o.putAll qs = o.putAll ps

theorem PrintAlike.parallel : Parallel PrintAlike where
  same := fun _ _ _ => rfl
  append := by
    intro A B ps qs ps' qs' h h' hAB o
    rw [Printout.putAll_append, Printout.putAll_append, h hAB.1, h' hAB.2]
  statement := fun h hA o => h hA o

/-- Pieces without faults print as their texts do. -/
theorem putAll_eq_of_text (hps : anyFaulty ps = false) (hqs : anyFaulty qs = false)
    (h : textAll qs = textAll ps) (o : Printout) : o.putAll qs = o.putAll ps := by
  have htext : (o.putAll qs).text = (o.putAll ps).text := by
    rw [Printout.putAll_text, Printout.putAll_text, h]
  have hfaults : (o.putAll qs).faults = (o.putAll ps).faults := by
    rw [Printout.putAll_faults hqs, Printout.putAll_faults hps]
  exact Printout.mk.injEq .. ▸ ⟨htext, hfaults⟩

theorem textAll_listPieces : ∀ (e : List Piece) (es : List (List Piece)),
    "," ++ textAll (listPieces (e :: es)) = behind ((e :: es).map textAll)
  | e, [] => by
      simp only [listPieces, List.map_cons, List.map_nil, List.intercalate_singleton, textAll, text, behind,
        String.append_empty, ← String.append_assoc]
      rfl
  | e, e' :: es => by
      have hrest := textAll_listPieces e' es
      simp only [listPieces, List.map_cons, List.intercalate_cons_cons] at hrest ⊢
      rw [behind, ← hrest]
      simp only [textAll_append, textAll, text, String.append_empty, ← String.append_assoc]
      rfl

end Piece

namespace Select

open Text

variable {r : Select} {c c' : Catalog}

theorem entries_of_listing (h : r.projections = []) :
    r.entries c = (r.defaults c).map Projection.defaultEntry := by
  rw [entries, h, List.isEmpty_nil, if_pos rfl]
  rfl

theorem exists_heading_text (h : r.entries c ≠ []) : ∃ l, "," ++ l = behind ((r.entries c).map Piece.textAll)
    ∧ Piece.textAll (r.heading c) = "SELECT" ++ (l ++ " FROM") := by
  obtain ⟨e, es, hes⟩ := List.exists_cons_of_ne_nil h
  refine ⟨Piece.textAll (listPieces (r.entries c)), ?_, ?_⟩
  · rw [hes, Piece.textAll_listPieces]
  · simp only [heading, Piece.textAll_append, Piece.textAll, Piece.text, List.cons_append,
      String.append_empty]

/-- A heading with more entries is heavier, and its text tells whether the entries are the same. -/
theorem heading_grows
    (h : Covered ((r.entries c).map Piece.textAll) ((r.entries c').map Piece.textAll))
    (hnone : r.entries c = [] → r.entries c' = []) :
    Piece.Grows ((r.entries c').map Piece.textAll = (r.entries c).map Piece.textAll)
      (r.heading c) (r.heading c') := by
  by_cases hempty : r.entries c = []
  · have hsame : r.heading c' = r.heading c := by rw [heading, heading, hempty, hnone hempty]
    rw [hsame, hempty, hnone hempty]
    exact Piece.Parallel.congr (Piece.Grows.parallel.same _) (iff_of_true trivial rfl)
  · have hempty' : r.entries c' ≠ [] := by
      intro heq
      have hlength := h.length_le
      rw [heq, List.length_map, List.map_nil, List.length_nil] at hlength
      exact hempty (List.length_eq_zero_iff.mp (Nat.le_zero.mp hlength))
    obtain ⟨l, hl, htext⟩ := exists_heading_text hempty
    obtain ⟨l', hl', htext'⟩ := exists_heading_text hempty'
    have hweight := h.weight_le
    have hlist := congrArg weight hl
    have hlist' := congrArg weight hl'
    rw [weight_append] at hlist hlist'
    refine ⟨?_, fun x y hxy => ?_⟩
    · rw [htext, htext']
      simp only [weight_append]
      omega
    · have hfrom : ∀ z : String, BeginsHeavy (" FROM" ++ z) :=
        fun z => BeginsHeavy.append ⟨' ', rfl, rfl⟩ z
      have hbehind : weight (" FROM" ++ x) ≤ weight (" FROM" ++ y) := by
        rw [weight_append, weight_append]
        omega
      calc Piece.textAll (r.heading c) ++ x = Piece.textAll (r.heading c') ++ y
          ↔ "," ++ l ++ (" FROM" ++ x) = "," ++ l' ++ (" FROM" ++ y) := by
            simp only [htext, htext', String.append_assoc, String.append_right_inj]
        _ ↔ behind ((r.entries c).map Piece.textAll) ++ (" FROM" ++ x)
            = behind ((r.entries c').map Piece.textAll) ++ (" FROM" ++ y) := by rw [hl, hl']
        _ ↔ _ := by
            rw [h.behind_append_eq_iff hbehind (hfrom x) (hfrom y), String.append_right_inj,
              eq_comm (b := (r.entries c').map Piece.textAll)]

/-- The sources of a statement show more names with another catalogue, or list what they did. -/
def Broadens (c c' : Catalog) (r : Select) : Prop := ∀ src ∈ r.sources, Source.Broadens c c' src src

/-- One source of a statement is shown with a star, and with another catalogue by the name of a star, which
prints the same. -/
def StarListed (c c' : Catalog) (r : Select) : Prop :=
  "*" ∉ r.aliases.taken ∧ "*" ∉ (r.exposures c).flatten
    ∧ Exhibit.OneStar (r.sources.map (Source.exhibit c)) (r.sources.map (Source.exhibit c'))

/-- The sources of a statement are listed by the same names with another catalogue, or by the name of a star
in place of a star. -/
def ListsAlike (c c' : Catalog) (r : Select) : Prop :=
  r.exposures c' = r.exposures c ∨ r.StarListed c c'

namespace Broadens

theorem forall₂ (h : r.Broadens c c') : List.Forall₂ (Source.Broadens c c') r.sources r.sources :=
  List.forall₂_same.mpr h

theorem texts_eq_iff (h : r.Broadens c c') (hr : r.projections = []) :
    (r.entries c').map Piece.textAll = (r.entries c).map Piece.textAll ↔ r.ListsAlike c c' := by
  rw [textAll_entries hr, textAll_entries hr, Source.entryTexts_eq_iff h.forall₂]
  exact Iff.rfl

theorem heading_grows (h : r.Broadens c c') (hr : r.projections = []) :
    Piece.Grows (r.ListsAlike c c') (r.heading c) (r.heading c') := by
  obtain ⟨xs, ys, hxs, hys, hwidens⟩ := Source.exists_exhibits h.forall₂
  refine Piece.Parallel.congr (Select.heading_grows ?_ fun hnone => ?_) (h.texts_eq_iff hr)
  · rw [textAll_entries hr, textAll_entries hr, Source.entryTexts_eq_texts hxs,
      Source.entryTexts_eq_texts hys]
    exact Exhibit.covered_texts hwidens (List.Subset.refl _)
  · have hempty : Exhibit.texts r.aliases xs = [] := by
      rw [← Source.entryTexts_eq_texts hxs, ← textAll_entries hr, hnone, List.map_nil]
    obtain rfl := Exhibit.texts_eq_nil_iff.mp hempty
    have hsources := List.forall₂_nil_right_iff.mp hxs
    rw [entries_of_listing hr, defaults, hsources]
    rfl

theorem faultless_heading {xs : List Exhibit} (hr : r.projections = [])
    (h : List.Forall₂ (Source.Shows c) r.sources xs) : Piece.anyFaulty (r.heading c) = false := by
  have hlist : ∀ z ∈ listPieces (r.entries c), z.isFaulty = false := by
    refine Piece.Layout.faultless.list fun e he => ?_
    rw [entries_of_listing hr] at he
    obtain ⟨p, hp, rfl⟩ := List.mem_map.mp he
    exact Source.faultless_defaults h r.aliases p hp
  exact Piece.anyFaulty_eq_false (Piece.forall_mem_append (Piece.forall_mem_cons rfl hlist)
    (List.forall_mem_singleton.mpr rfl))

theorem heading_printAlike (h : r.Broadens c c') (hr : r.projections = []) :
    Piece.PrintAlike (r.ListsAlike c c') (r.heading c) (r.heading c') := by
  intro halike
  obtain ⟨xs, ys, hxs, hys, -⟩ := Source.exists_exhibits h.forall₂
  exact Piece.putAll_eq_of_text (faultless_heading hr hxs) (faultless_heading hr hys)
    (((h.heading_grows hr).text_eq_iff).mpr halike).symm

end Broadens

/-- Where the sources of all statements that list them show more names, a statement prints the same text or
the same error exactly if each of these lists prints as it did. -/
theorem print_eq_iff {q : Select} (h : ∀ r ∈ q.listings, r.Broadens c c') :
    q.print c' = q.print c ↔ ∀ r ∈ q.listings, r.ListsAlike c c' := by
  have hgrows := Piece.Grows.parallel.select q
    fun r hr => (h r hr).heading_grows (Select.mem_listings hr).1
  have hprint := Piece.PrintAlike.parallel.select q
    fun r hr => (h r hr).heading_printAlike (Select.mem_listings hr).1
  refine ⟨fun heq => hgrows.text_eq_iff.mp ?_, fun halike => ?_⟩
  · have htext := Printout.text_eq_of_result_eq heq
    simpa only [printout, Printout.putAll_text, String.empty_append] using htext.symm
  · rw [print, print, printout, printout, hprint halike]

end Select

end SqlCompose
