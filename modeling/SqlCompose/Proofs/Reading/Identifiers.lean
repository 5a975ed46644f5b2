import SqlCompose.Config.Basic
import SqlCompose.Proofs.Reading.Tokens

/-!
Quoted identifiers. A quote opens one, two quotes inside it stand for one, and any other quote closes it. A text
that reads as an identifier is the name with each of its quotes written twice, between quotes. A name prints as
it is, so it reads back exactly if there is no quote in it; string constants, in which quotes are written twice,
always do.
-/

namespace SqlCompose

namespace Identifier

/-- Read the rest of a quoted identifier: the name, and what is left over. -/
def readRest (q : Char) : List Char → Option (List Char × List Char)
  | [] => none
  | [c] => if c = q then some ([], []) else none
  | c :: c' :: cs =>
    if c = q then
      if c' = q then (readRest q cs).map fun (name, rest) => (q :: name, rest)
      else some ([], c' :: cs)
    else (readRest q (c' :: cs)).map fun (name, rest) => (c :: name, rest)

/-- Read a quoted identifier. -/
def read (q : Char) : List Char → Option (List Char × List Char)
  | [] => none
  | c :: cs => if c = q then readRest q cs else none

/-- The characters of a name, each quote written twice. -/
def doubled (q : Char) (name : List Char) : List Char := name.flatMap fun c => if c = q then [c, c] else [c]

variable {q c : Char} {cs name rest : List Char}

theorem doubled_cons_self (q : Char) (name : List Char) : doubled q (q :: name) = q :: q :: doubled q name := by
  simp [doubled]

theorem doubled_cons_of_ne (h : c ≠ q) (name : List Char) : doubled q (c :: name) = c :: doubled q name := by
  simp [doubled, h]

theorem length_doubled (q : Char) (name : List Char) :
    (doubled q name).length = name.length + name.count q := by
  induction name with
  | nil => rfl
  | cons c name ih =>
      by_cases hc : c = q
      · rw [hc, doubled_cons_self, List.count_cons_self, List.length_cons, List.length_cons, ih, List.length_cons]
        omega
      · rw [doubled_cons_of_ne hc, List.count_cons_of_ne hc, List.length_cons, ih, List.length_cons]
        omega

/-- Doubling the quotes of a name leaves it as it is exactly if it has none. -/
theorem doubled_eq_self_iff : doubled q name = name ↔ q ∉ name := by
  constructor
  · intro h
    have hlength := congrArg List.length h
    rw [length_doubled] at hlength
    exact List.count_eq_zero.mp (by omega)
  · intro h
    induction name with
    | nil => rfl
    | cons c name ih =>
        rw [List.mem_cons, not_or] at h
        rw [doubled_cons_of_ne (Ne.symm h.1), ih h.2]

theorem readRest_cons_of_ne (h : c ≠ q) (cs : List Char) :
    readRest q (c :: cs) = (readRest q cs).map fun (name, rest) => (c :: name, rest) := by
  cases cs with
  | nil =>
      rw [readRest, readRest, Option.map_none]
      exact if_neg h
  | cons c' cs => rw [readRest, if_neg h]

theorem readRest_closing (h : rest.head? ≠ some q) : readRest q (q :: rest) = some ([], rest) := by
  cases rest with
  | nil => rw [readRest, if_pos rfl]
  | cons c rest =>
      have hc : c ≠ q := fun hc => h (congrArg some hc)
      rw [readRest, if_pos rfl, if_neg hc]

/-- A doubled name is read up to the quote behind it. -/
theorem readRest_doubled (h : rest.head? ≠ some q) (name : List Char) :
    readRest q (doubled q name ++ q :: rest) = some (name, rest) := by
  induction name with
  | nil => exact readRest_closing h
  | cons c name ih =>
      by_cases hc : c = q
      · rw [hc, doubled_cons_self, List.cons_append, List.cons_append, readRest, if_pos rfl, if_pos rfl, ih]
        rfl
      · rw [doubled_cons_of_ne hc, List.cons_append, readRest_cons_of_ne hc, ih]
        rfl

/-- What is read as a name is the name with its quotes doubled. -/
theorem eq_doubled_of_readRest (h : readRest q cs = some (name, rest)) :
    cs = doubled q name ++ q :: rest ∧ rest.head? ≠ some q := by
  -- Characters left: none, one (a quote or not), or two of which both, the first or neither is a quote.
  fun_induction readRest q cs generalizing name with
  | case1 => cases h
  | case2 =>
      cases h
      exact ⟨rfl, fun h => nomatch h⟩
  | case3 => cases h
  | case4 cs ih =>
      obtain ⟨⟨name', rest'⟩, hread, heq⟩ := Option.map_eq_some_iff.mp h
      cases heq
      obtain ⟨hcs, hrest⟩ := ih hread
      exact ⟨by rw [doubled_cons_self, List.cons_append, List.cons_append, ← hcs], hrest⟩
  | case5 c' cs hc' =>
      cases h
      exact ⟨rfl, fun h => hc' (Option.some.inj h)⟩
  | case6 c c' cs hc ih =>
      obtain ⟨⟨name', rest'⟩, hread, heq⟩ := Option.map_eq_some_iff.mp h
      cases heq
      obtain ⟨hcs, hrest⟩ := ih hread
      exact ⟨by rw [doubled_cons_of_ne hc, List.cons_append, ← hcs], hrest⟩

/-- The texts that read as a name with something left over. -/
theorem read_cons_eq_some_iff :
    read q (q :: cs) = some (name, rest) ↔ cs = doubled q name ++ q :: rest ∧ rest.head? ≠ some q := by
  rw [read, if_pos rfl]
  constructor
  · exact eq_doubled_of_readRest
  · rintro ⟨rfl, hrest⟩
    exact readRest_doubled hrest name

end Identifier

namespace Config

theorem exists_quote_of_dialect {c : Config} {d : Dialect} (h : c.dialect = .ok d) :
    ∃ q, d.identifierQuote = String.singleton q := by
  rw [dialect] at h
  split at h
  · cases h
  · split at h
    case isTrue hquote =>
        cases h
        rw [isQuote] at hquote
        split at hquote
        case h_1 q heq => exact ⟨q, String.toList_inj.mp (heq.trans (String.toList_singleton q).symm)⟩
        case h_2 => cases hquote
    case isFalse => cases h

theorem dialect_default_quote (quoted : Bool) :
    dialect ⟨currentVersion, { quoteIdentifiers := quoted }⟩ = .ok { quoteIdentifiers := quoted } := by
  have hletter : Text.isAlphanumeric '"' = false := by
    rw [Text.isAlphanumeric, Text.inRanges_eq]
    decide +kernel
  have hblank : Text.isBlank '"' = false := by
    rw [Text.isBlank, Text.inRanges_eq]
    decide +kernel
  have hquote : isQuote "\"" = true := by
    show (!Text.isAlphanumeric '"' && !Text.isBlank '"') = true
    rw [hletter, hblank]
    rfl
  rw [dialect, if_neg (fun h => h rfl), if_pos hquote]

/-- With the quote of any configuration that is accepted, a name reads back as itself, with nothing left over,
exactly if the quote is not in it. -/
theorem identifier_reads_back_iff {c : Config} {d : Dialect} (h : c.dialect = .ok d)
    (hquoted : d.quoteIdentifiers = true) : ∃ q, d.identifierQuote = String.singleton q ∧
      ∀ name : String, Identifier.read q (d.identifier name).toList = some (name.toList, []) ↔
        q ∉ name.toList := by
  obtain ⟨q, hq⟩ := exists_quote_of_dialect h
  refine ⟨q, hq, fun name => ?_⟩
  have htext : (d.identifier name).toList = q :: (name.toList ++ [q]) := by
    simp [Dialect.identifier, hquoted, hq]
  rw [htext, Identifier.read_cons_eq_some_iff, List.append_left_inj, eq_comm, Identifier.doubled_eq_self_iff]
  exact and_iff_left (fun h => nomatch h)

/-- A name of letters, with the default quote. -/
theorem default_quote_reads_back : ∃ c d, Config.dialect c = .ok d ∧ d.quoteIdentifiers = true ∧
    ∃ q, d.identifierQuote = String.singleton q ∧
      Identifier.read q (d.identifier "People").toList = some ("People".toList, []) := by
  let c : Config := ⟨1, ⟨true, "\""⟩⟩
  have hc : c.dialect = .ok c.database := dialect_default_quote true
  obtain ⟨q, hq, hread⟩ := identifier_reads_back_iff hc rfl
  have hquote : "\"".toList = [q] := (congrArg String.toList hq).trans (String.toList_singleton q)
  obtain rfl : '"' = q := List.singleton_inj.mp hquote
  exact ⟨c, c.database, hc, rfl, '"', hq, (hread "People").mpr (by decide)⟩

/-- A name with the default quote in it ends at this quote, and the rest of it is left over. -/
theorem quote_escapes : ∃ c d, Config.dialect c = .ok d ∧ d.quoteIdentifiers = true ∧
    d.identifierQuote = "\"" ∧ d.identifier "a\"b" = "\"a\"b\"" ∧
      Identifier.read '"' "\"a\"b\"".toList = some (['a'], ['b', '"']) :=
  ⟨⟨1, ⟨true, "\""⟩⟩, ⟨true, "\""⟩, dialect_default_quote true, rfl, rfl, rfl, rfl⟩

end Config

end SqlCompose
