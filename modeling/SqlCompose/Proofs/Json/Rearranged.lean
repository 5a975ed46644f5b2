import SqlCompose.Proofs.Json.Meanings

/-!
What does not matter to a configuration: the layout of its text, the order of the members, and members that are
not known. The members are gone through by steps that commute and pass over unknown names, so any arrangement of
them means the same; and leaving out a known member leaves its place empty, for the default.
-/

namespace SqlCompose.Json

/-- A member with a proper name that is none of some others. -/
def Foreign (known : List String) (m : Member) : Prop := ∃ name, stringValue? m.1 = some name ∧ name ∉ known

/-- The members of an object in any order, with foreign ones among them. -/
def Rearranged (known : List String) (ms ms' : List Member) : Prop :=
  ∃ added, (∀ m ∈ added, Foreign known m) ∧ ms'.Perm (ms ++ added)

/-- The members of an object without one of a name. -/
def Without (name : String) (ms ms' : List Member) : Prop :=
  ∃ l parts v r, stringValue? parts = some name ∧ ms = l ++ (parts, v) :: r ∧ ms' = l ++ r

/-- The members of an object, with a change to the members of an object that stands under a name in it. -/
def Inside (name : String) (change : List Member → List Member → Prop) (ms ms' : List Member) : Prop :=
  ∃ l parts inner inner' r, stringValue? parts = some name ∧ ms = l ++ (parts, .object inner) :: r ∧
    ms' = l ++ (parts, .object inner') :: r ∧ change inner inner'

/-- A member is foreign if its name is written without escapes and none of the others. -/
theorem foreign_unescaped {known : List String} {cs : List Char} {h : ∀ c ∈ cs, NeedsNoEscape c}
    (hknown : String.ofList cs ∉ known) (v : Wording) : Foreign known (unescaped cs h, v) :=
  ⟨String.ofList cs, stringValue?_unescaped cs h, hknown⟩

/-! Going through members. -/

variable {σ : Type} {step : σ → String → Wording → Option σ} {known : List String} {s t : σ}
  {ms ms' added : List Member}

/-- Any two members can be taken in either order. -/
def Commutes (step : σ → String → Wording → Option σ) : Prop :=
  ∀ s name v name' v', (step s name v).bind (fun t => step t name' v') = (step s name' v').bind fun t => step t name v

section Places

variable {α β : Type} {p x : Option α} {q y : Option β}

theorem fill_eq_some_iff {z : Option α} : fill p x = some z ↔ p = none ∧ ∃ a, x = some a ∧ z = some a := by
  cases p <;> cases x <;> simp [fill, eq_comm]

/-- A place is not filled twice. -/
theorem fill_twice (g : Option α → σ) (z : Option α) :
    ((fill p x).bind fun p' => (fill p' z).map g) = none := by
  cases p <;> cases x <;> rfl

theorem fill_apart (g : Option α → Option β → σ) :
    ((fill p x).bind fun p' => (fill q y).map (g p')) = (fill q y).bind fun q' => (fill p x).map (g · q') := by
  cases fill p x <;> cases fill q y <;> rfl

/-- Steps that fill one of two places each can be taken in either order. -/
theorem commutes_of_places (g : Option α → Option β → σ) (hg : ∀ s, ∃ p q, s = g p q) {first second : String}
    {f : Wording → Option α} {f' : Wording → Option β}
    (hstep : ∀ p q name v, step (g p q) name v =
      if name = first then (fill p (f v)).map (g · q)
      else if name = second then (fill q (f' v)).map (g p)
      else some (g p q)) : Commutes step := by
  have hfirst : ∀ p q {name} (v), name = first → step (g p q) name v = (fill p (f v)).map (g · q) :=
    fun p q name v h => by rw [hstep, if_pos h]
  have hsecond : ∀ p q {name} (v), name ≠ first ∧ name = second → step (g p q) name v = (fill q (f' v)).map (g p) :=
    fun p q name v h => by rw [hstep, if_neg h.1, if_pos h.2]
  have hother : ∀ s {name} (v), name ≠ first ∧ name ≠ second → step s name v = some s := by
    intro s name v h
    obtain ⟨p, q, rfl⟩ := hg s
    rw [hstep, if_neg h.1, if_neg h.2]
  have hcases : ∀ name, name = first ∨ (name ≠ first ∧ name = second) ∨ name ≠ first ∧ name ≠ second := by
    intro name
    by_cases h : name = first
    · exact .inl h
    · exact .inr ((em (name = second)).imp (⟨h, ·⟩) (⟨h, ·⟩))
  intro s name v name' v'
  obtain ⟨p, q, rfl⟩ := hg s
  rcases hcases name with h | h | h <;> rcases hcases name' with h' | h' | h'
  · simp only [hfirst _ _ _ h, hfirst _ _ _ h', Option.bind_map, Function.comp_def, fill_twice]
  · simp only [hfirst _ _ _ h, hsecond _ _ _ h', Option.bind_map, Function.comp_def]
    exact fill_apart g
  · simp only [hother _ _ h', Option.bind_some, Option.bind_fun_some]
  · simp only [hsecond _ _ _ h, hfirst _ _ _ h', Option.bind_map, Function.comp_def]
    exact (fill_apart g).symm
  · simp only [hsecond _ _ _ h, hsecond _ _ _ h', Option.bind_map, Function.comp_def, fill_twice]
  · simp only [hother _ _ h', Option.bind_some, Option.bind_fun_some]
  · simp only [hother _ _ h, Option.bind_some, Option.bind_fun_some]
  · simp only [hother _ _ h, Option.bind_some, Option.bind_fun_some]
  · simp only [hother _ _ h, hother _ _ h', Option.bind_some]

end Places

theorem memberStep_comm (hstep : Commutes step) (s : σ) (m m' : Member) :
    (memberStep step s m).bind (fun t => memberStep step t m')
      = (memberStep step s m').bind fun t => memberStep step t m := by
  simp only [memberStep]
  cases stringValue? m.1 with
  | none => cases stringValue? m'.1 <;> simp
  | some name =>
      cases stringValue? m'.1 with
      | none => simp
      | some name' => exact hstep s name m.2 name' m'.2

theorem foldMembers_cons (step : σ → String → Wording → Option σ) (s : σ) (m : Member) (ms : List Member) :
    foldMembers step s (m :: ms) = (memberStep step s m).bind fun t => foldMembers step t ms := List.foldlM_cons

theorem foldMembers_append (step : σ → String → Wording → Option σ) (s : σ) (ms ms' : List Member) :
    foldMembers step s (ms ++ ms') = (foldMembers step s ms).bind fun t => foldMembers step t ms' :=
  List.foldlM_append

theorem foldMembers_perm (hstep : Commutes step) (h : ms.Perm ms') (s : σ) :
    foldMembers step s ms = foldMembers step s ms' := by
  induction h generalizing s with
  | nil => rfl
  | cons m _ ih =>
      rw [foldMembers_cons, foldMembers_cons]
      exact congrArg (Option.bind _) (funext ih)
  | swap m m' ms =>
      simp only [foldMembers_cons, ← Option.bind_assoc]
      rw [memberStep_comm hstep]
  | trans _ _ ih ih' => exact (ih s).trans (ih' s)

theorem foldMembers_foreign (hforeign : ∀ s name v, name ∉ known → step s name v = some s)
    (h : ∀ m ∈ added, Foreign known m) (s : σ) : foldMembers step s added = some s := by
  induction added with
  | nil => rfl
  | cons m added ih =>
      rw [List.forall_mem_cons] at h
      obtain ⟨⟨name, hname, hknown⟩, hadded⟩ := h
      rw [foldMembers_cons, memberStep, hname, Option.bind_some, hforeign s name m.2 hknown, Option.bind_some]
      exact ih hadded

theorem foldMembers_rearranged (hstep : Commutes step) (hforeign : ∀ s name v, name ∉ known → step s name v = some s)
    (h : Rearranged known ms ms') (s : σ) : foldMembers step s ms' = foldMembers step s ms := by
  obtain ⟨added, hadded, hperm⟩ := h
  have hrest : (fun t => foldMembers step t added) = some := funext (foldMembers_foreign hforeign hadded)
  rw [foldMembers_perm hstep hperm, foldMembers_append, hrest, Option.bind_fun_some]

theorem foldMembers_last (hstep : Commutes step) {name : String} {parts : List StringPart}
    (hname : stringValue? parts = some name) (v : Wording) (l r : List Member) (s : σ) :
    foldMembers step s (l ++ (parts, v) :: r) = (foldMembers step s (l ++ r)).bind fun t => step t name v := by
  have hperm : (l ++ (parts, v) :: r).Perm ((l ++ r) ++ [(parts, v)]) :=
    List.perm_middle.trans (List.perm_append_singleton _ _).symm
  have hlast : (fun t => foldMembers step t [(parts, v)]) = fun t => step t name v := funext fun t => by
    rw [foldMembers_cons, memberStep, hname, Option.bind_some]
    exact Option.bind_fun_some _
  rw [foldMembers_perm hstep hperm, foldMembers_append, hlast]

theorem foldMembers_without {name : String} (hstep : Commutes step) (h : Without name ms ms')
    (hms : foldMembers step s ms = some t) :
    ∃ v t', foldMembers step s ms' = some t' ∧ step t' name v = some t := by
  obtain ⟨l, parts, v, r, hname, rfl, rfl⟩ := h
  rw [foldMembers_last hstep hname] at hms
  exact ⟨v, Option.bind_eq_some_iff.mp hms⟩

theorem foldMembers_inside {name : String} {change : List Member → List Member → Prop} (hstep : Commutes step)
    (h : Inside name change ms ms') (hms : foldMembers step s ms = some t) :
    ∃ inner inner' t', change inner inner' ∧ step t' name (.object inner) = some t ∧
      foldMembers step s ms' = step t' name (.object inner') := by
  obtain ⟨l, parts, inner, inner', r, hname, rfl, rfl, hchange⟩ := h
  rw [foldMembers_last hstep hname] at hms
  obtain ⟨t', ht', ht⟩ := Option.bind_eq_some_iff.mp hms
  exact ⟨inner, inner', t', hchange, ht, by rw [foldMembers_last hstep hname, ht', Option.bind_some]⟩

end SqlCompose.Json

namespace SqlCompose.Config

open Json

variable {ms ms' : List Member}

/-- The names of the database properties. -/
def databaseNames : List String := ["quoteIdentifiers", "identifierQuote"]

/-- The names of the members of a configuration. -/
def names : List String := ["version", "database"]

theorem databaseStep_commutes : Commutes databaseStep :=
  commutes_of_places DatabaseMembers.mk (fun s => ⟨s.quoteIdentifiers, s.identifierQuote, rfl⟩)
    fun _ _ _ _ => rfl

theorem configStep_commutes : Commutes configStep :=
  commutes_of_places Members.mk (fun s => ⟨s.version, s.database, rfl⟩) fun _ _ _ _ => rfl

theorem databaseStep_foreign (m : DatabaseMembers) (name : String) (v : Wording) (h : name ∉ databaseNames) :
    databaseStep m name v = some m := by
  rw [databaseNames, List.mem_cons, List.mem_singleton, not_or] at h
  rw [databaseStep, if_neg h.1, if_neg h.2]

theorem configStep_foreign (m : Members) (name : String) (v : Wording) (h : name ∉ names) :
    configStep m name v = some m := by
  rw [names, List.mem_cons, List.mem_singleton, not_or] at h
  rw [configStep, if_neg h.1, if_neg h.2]

/-! The database properties. -/

variable {inner inner' : List Member} {d : Dialect} {c : Config}

theorem databaseOf_rearranged (h : Rearranged databaseNames inner inner') :
    databaseOf (.object inner') = databaseOf (.object inner) :=
  congrArg (Option.map DatabaseMembers.dialect)
    (foldMembers_rearranged databaseStep_commutes databaseStep_foreign h {})

/-- Without a property, what is meant is what the others are read to. -/
theorem databaseOf_without {name : String} {f : Dialect → Dialect} (h : Without name inner inner')
    (hf : ∀ m m' v, databaseStep m' name v = some m → m'.dialect = f m.dialect)
    (hd : databaseOf (.object inner) = some d) : databaseOf (.object inner') = some (f d) := by
  obtain ⟨m, hm, rfl⟩ := Option.map_eq_some_iff.mp hd
  obtain ⟨v, m', hm', hlast⟩ := foldMembers_without databaseStep_commutes h hm
  rw [← hf m m' v hlast]
  exact congrArg (Option.map DatabaseMembers.dialect) hm'

theorem databaseOf_without_quoteIdentifiers (h : Without "quoteIdentifiers" inner inner')
    (hd : databaseOf (.object inner) = some d) :
    databaseOf (.object inner') = some { d with quoteIdentifiers := empty.database.quoteIdentifiers } := by
  refine databaseOf_without (f := fun d => { d with quoteIdentifiers := _ }) h (fun m m' v hlast => ?_) hd
  obtain ⟨q, hq, rfl⟩ := Option.map_eq_some_iff.mp hlast
  obtain ⟨hnone, -⟩ := fill_eq_some_iff.mp hq
  rw [DatabaseMembers.dialect, hnone]
  rfl

theorem databaseOf_without_identifierQuote (h : Without "identifierQuote" inner inner')
    (hd : databaseOf (.object inner) = some d) :
    databaseOf (.object inner') = some { d with identifierQuote := empty.database.identifierQuote } := by
  refine databaseOf_without (f := fun d => { d with identifierQuote := _ }) h (fun m m' v hlast => ?_) hd
  obtain ⟨q, hq, rfl⟩ := Option.map_eq_some_iff.mp hlast
  obtain ⟨hnone, -⟩ := fill_eq_some_iff.mp hq
  rw [DatabaseMembers.dialect, hnone]
  rfl

/-! Configurations. -/

theorem ofMembers_rearranged (h : Rearranged names ms ms') : ofMembers ms' = ofMembers ms :=
  congrArg (Option.bind · Members.config?) (foldMembers_rearranged configStep_commutes configStep_foreign h {})

theorem ofMembers_without_database (h : Without "database" ms ms') (hc : ofMembers ms = some c) :
    ofMembers ms' = some { c with database := empty.database } := by
  obtain ⟨m, hm, hconfig⟩ := Option.bind_eq_some_iff.mp hc
  obtain ⟨v, m', hm', hlast⟩ := foldMembers_without configStep_commutes h hm
  obtain ⟨q, hq, rfl⟩ := Option.map_eq_some_iff.mp hlast
  obtain ⟨hnone, -⟩ := fill_eq_some_iff.mp hq
  obtain ⟨w, hw, rfl⟩ := Option.map_eq_some_iff.mp hconfig
  rw [ofMembers, hm', Option.bind_some, Members.config?, hw, hnone]
  rfl

/-- A change to the properties of the database shows in the configuration as it shows in the properties. -/
theorem ofMembers_inside {change : List Member → List Member → Prop} {f : Dialect → Dialect}
    (hchange : ∀ {inner inner' d}, change inner inner' → databaseOf (.object inner) = some d →
      databaseOf (.object inner') = some (f d))
    (h : Inside "database" change ms ms') (hc : ofMembers ms = some c) :
    ofMembers ms' = some { c with database := f c.database } := by
  obtain ⟨m, hm, hconfig⟩ := Option.bind_eq_some_iff.mp hc
  obtain ⟨inner, inner', m', hinner, hlast, hm'⟩ := foldMembers_inside configStep_commutes h hm
  obtain ⟨q, hq, rfl⟩ := Option.map_eq_some_iff.mp hlast
  obtain ⟨hnone, d, hd, rfl⟩ := fill_eq_some_iff.mp hq
  obtain ⟨w, hw, rfl⟩ := Option.map_eq_some_iff.mp hconfig
  have hfill : fill m'.database (databaseOf (.object inner')) = some (some (f d)) :=
    fill_eq_some_iff.mpr ⟨hnone, f d, hchange hinner hd, rfl⟩
  have hstep : configStep m' "database" (.object inner') = some { m' with database := some (f d) } :=
    congrArg (Option.map (Members.mk m'.version)) hfill
  rw [ofMembers, hm', hstep, Option.bind_some, Members.config?, hw]
  rfl

/-! Texts. -/

/-- The members of a configuration in any order, and so the properties of its database, with foreign members among
them. -/
def Rearrangement (ms ms' : List Member) : Prop :=
  ∃ ms₁, (ms₁ = ms ∨ Inside "database" (Rearranged databaseNames) ms ms₁) ∧ Rearranged names ms₁ ms'

theorem ofMembers_rearrangement (h : Rearrangement ms ms') (hc : ofMembers ms = some c) : ofMembers ms' = some c := by
  obtain ⟨ms₁, hinside, houter⟩ := h
  rw [ofMembers_rearranged houter]
  rcases hinside with rfl | hinside
  · exact hc
  · exact ofMembers_inside (f := id) (fun h hd => (databaseOf_rearranged h).trans hd) hinside hc

/-- The text of a file is what its bytes are read as. -/
theorem ofFile_toUTF8 (directory text : String) : ofFile directory (some text.toUTF8) = ofText directory text := by
  have hbytes : String.fromUTF8? text.toUTF8 = some text := dif_pos text.isValidUTF8
  rw [ofFile, hbytes]

theorem ofFile_eq_ok_iff (directory : String) {text : String} (h : (Wording.object ms).HasText text.toList) :
    ofFile directory (some text.toUTF8) = .ok c ↔ ofMembers ms = some c := by
  rw [ofFile_toUTF8, ofText_eq_ok_iff directory h]

theorem exists_object_of_ofFile {directory text : String} (h : ofFile directory (some text.toUTF8) = .ok c)
    (hopen : (text.toList.dropWhile isSpace).head? = some '\x7b') :
    ∃ ms, (Wording.object ms).HasText text.toList := by
  rw [ofFile_toUTF8, ofText] at h
  split at h
  case h_2 => cases h
  case h_1 c' hread =>
      obtain ⟨v, blanks, hblank, hv⟩ := exists_wording hread
      obtain ⟨ms, rfl⟩ := Reader.exists_object hv hopen
      exact ⟨ms, blanks, hblank, hv⟩

/-- Neither the layout of an accepted text of an object matters nor the order of its members, nor do members that
are not known; and any known member but the version can be left out, for its default. An accepted text is one of an
object if its first token opens one. -/
theorem only_known_members_matter (directory : String) {text : String} {c : Config}
    (h : ofFile directory (some text.toUTF8) = .ok c) :
    ((text.toList.dropWhile isSpace).head? = some '\x7b' → ∃ ms, (Wording.object ms).HasText text.toList) ∧
    ∀ ms, (Wording.object ms).HasText text.toList → ∀ ms' (text' : String), (Wording.object ms').HasText text'.toList →
      (Rearrangement ms ms' → ofFile directory (some text'.toUTF8) = .ok c) ∧
      (Without "database" ms ms' →
        ofFile directory (some text'.toUTF8) = .ok { c with database := empty.database }) ∧
      (Inside "database" (Without "quoteIdentifiers") ms ms' →
        ofFile directory (some text'.toUTF8)
          = .ok { c with database.quoteIdentifiers := empty.database.quoteIdentifiers }) ∧
      (Inside "database" (Without "identifierQuote") ms ms' →
        ofFile directory (some text'.toUTF8)
          = .ok { c with database.identifierQuote := empty.database.identifierQuote }) := by
  refine ⟨exists_object_of_ofFile h, fun ms hms ms' text' hms' => ?_⟩
  have hc := (ofFile_eq_ok_iff directory hms).mp h
  simp only [ofFile_eq_ok_iff directory hms']
  refine ⟨fun h => ofMembers_rearrangement h hc, fun h => ofMembers_without_database h hc, fun h => ?_, fun h => ?_⟩
  · exact ofMembers_inside (f := fun d => { d with quoteIdentifiers := empty.database.quoteIdentifiers })
      databaseOf_without_quoteIdentifiers h hc
  · exact ofMembers_inside (f := fun d => { d with identifierQuote := empty.database.identifierQuote })
      databaseOf_without_identifierQuote h hc

/-- The text of an object with a blank in front of each token. -/
def spacedText (blank : Char) (ms : List Member) : String :=
  String.ofList ((Wording.object ms).tokens.flatMap ([blank] ++ ·))

theorem hasText_spacedText {blank : Char} (h : isSpace blank = true) (ms : List Member) :
    (Wording.object ms).HasText (spacedText blank ms).toList := by
  rw [spacedText, String.toList_ofList]
  exact hasText_spaced (Reader.blank_singleton h) _

/-- A member for the second version. -/
def versionTwo : Member :=
  (unescaped "version".toList (needsNoEscape_of_all (by decide)),
    .number ⟨false, ⟨['2'], singleton_digits rfl⟩, none, none, fun _ h => (nomatch (List.cons.inj h).1)⟩)

/-- A member for properties of the database. -/
def databaseWith (ms : List Member) : Member :=
  (unescaped "database".toList (needsNoEscape_of_all (by decide)), .object ms)

/-- A member that asks for quotes. -/
def quoting : Member := (unescaped "quoteIdentifiers".toList (needsNoEscape_of_all (by decide)), .boolean true)

/-- A member that makes bars the quotes. -/
def barQuote : Member :=
  (unescaped "identifierQuote".toList (needsNoEscape_of_all (by decide)),
    .string (unescaped "|".toList (needsNoEscape_of_all (by decide))))

/-- A member that is not known. -/
def remark : Member := (unescaped "remark".toList (needsNoEscape_of_all (by decide)), .list [.null, .object []])

theorem bar_quotes_rearranged :
    ofFile "tables" (some (spacedText ' ' [versionTwo, databaseWith [quoting, barQuote]]).toUTF8)
        = .ok ⟨2, ⟨true, "|"⟩⟩ ∧
      ofFile "tables"
          (some (spacedText '\n' [remark, databaseWith [remark, barQuote, quoting], versionTwo]).toUTF8)
        = .ok ⟨2, ⟨true, "|"⟩⟩ ∧
      ofFile "tables" (some (spacedText '\t' [versionTwo]).toUTF8) = .ok ⟨2, {}⟩ ∧
      ofFile "tables" (some (spacedText ' ' [versionTwo, databaseWith [barQuote]]).toUTF8)
        = .ok ⟨2, ⟨false, "|"⟩⟩ ∧
      ofFile "tables" (some (spacedText ' ' [versionTwo, databaseWith [quoting]]).toUTF8)
        = .ok ⟨2, ⟨true, "\""⟩⟩ := by
  have htext := hasText_spacedText (show isSpace ' ' = true from rfl) [versionTwo, databaseWith [quoting, barQuote]]
  have haccepted := (ofFile_eq_ok_iff (c := ⟨2, ⟨true, "|"⟩⟩) "tables" htext).mpr (by decide)
  have hremark : ∀ known : List String, "remark" ∉ known → ∀ m ∈ [remark], Foreign known m :=
    fun _ h => List.forall_mem_singleton.mpr (foreign_unescaped h _)
  have hproperties : Rearranged databaseNames [quoting, barQuote] [remark, barQuote, quoting] :=
    ⟨[remark], hremark _ (by decide), List.reverse_perm [quoting, barQuote, remark]⟩
  have hmembers : Rearranged names [versionTwo, databaseWith [remark, barQuote, quoting]]
      [remark, databaseWith [remark, barQuote, quoting], versionTwo] :=
    ⟨[remark], hremark _ (by decide), List.reverse_perm [versionTwo, databaseWith [remark, barQuote, quoting], remark]⟩
  have hall := fun ms text => (only_known_members_matter "tables" haccepted).2 _ htext ms text
  refine ⟨haccepted, (hall _ _ (hasText_spacedText rfl _)).1 ?_, (hall _ _ (hasText_spacedText rfl _)).2.1 ?_,
    (hall _ _ (hasText_spacedText rfl _)).2.2.1 ?_, (hall _ _ (hasText_spacedText rfl _)).2.2.2 ?_⟩
  · exact ⟨_, .inr ⟨[versionTwo], _, _, _, [], rfl, rfl, rfl, hproperties⟩, hmembers⟩
  · exact ⟨[versionTwo], _, _, [], rfl, rfl, rfl⟩
  · exact ⟨[versionTwo], _, _, _, [], rfl, rfl, rfl, [], _, _, [barQuote], rfl, rfl, rfl⟩
  · exact ⟨[versionTwo], _, _, _, [], rfl, rfl, rfl, [quoting], _, _, [], rfl, rfl, rfl⟩

end SqlCompose.Config
