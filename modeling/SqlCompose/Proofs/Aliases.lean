import Mathlib.Data.List.Nodup
import Mathlib.Data.List.Perm.Subperm
import Std.Data.String.ToInt
import SqlCompose.AliasPool

/-!
What a pool of aliases promises: an alias it hands out was not taken before and is taken from then on,
and nothing else changes among the taken ones. The candidates for a stem are pairwise different, so one
candidate more than there are taken aliases always contains a free one.
-/

namespace SqlCompose.AliasPool

/-! Numbers. -/

/-- Numbers are different, as those that have wrapped around stay below the later ones. -/
theorem number_injective : Function.Injective number := by
  intro i j h
  have hsize : Int32.size = 4294967296 := rfl
  simp only [number, Int32.toInt_ofNat', hsize, Int.bmod_def] at h
  split_ifs at h <;> omega

/-- A number is written with digits, behind a sign if it is negative. -/
theorem isDigit_of_mem_number {k : Nat} {ch : Char} (h : ch ∈ (toString (number k)).toList) :
    ch = '-' ∨ ch.isDigit = true := by
  have hdigits : ∀ n : Nat, ch ∈ n.repr.toList → ch.isDigit = true := by
    intro n hn
    rw [Nat.toList_repr] at hn
    exact Nat.isDigit_of_mem_toDigits (by decide) (by decide) hn
  rw [Int.toString_eq_repr, Int.repr_eq_if] at h
  split at h
  · exact .inr (hdigits _ h)
  · rw [String.toList_append, List.mem_append] at h
    exact h.imp List.mem_singleton.mp (hdigits _)

theorem not_mem_number {ch : Char} (hsign : ch ≠ '-') (hdigit : ch.isDigit = false) (k : Nat) :
    ch ∉ (toString (number k)).toList := by
  intro hmem
  rcases isDigit_of_mem_number hmem with rfl | hisDigit
  · exact hsign rfl
  · exact Bool.eq_false_iff.mp hdigit hisDigit

theorem toString_number_ne_empty (k : Nat) : toString (number k) ≠ "" := by
  rw [Int.toString_eq_repr, Int.repr_eq_if]
  split
  · exact Nat.repr_ne_empty
  · exact fun h => Nat.repr_ne_empty (String.append_eq_empty_iff.mp h).2

theorem candidate_injective (stem : String) : Function.Injective (candidate stem) := by
  intro i j h
  cases i with
  | zero =>
      cases j with
      | zero => rfl
      | succ j => exact absurd (String.append_eq_left_iff.mp h.symm) (toString_number_ne_empty j)
  | succ i =>
      cases j with
      | zero => exact absurd (String.append_eq_left_iff.mp h) (toString_number_ne_empty i)
      | succ j =>
          have htext : toString (number i) = toString (number j) := (String.append_right_inj stem).mp h
          rw [Int.toString_eq_repr, Int.toString_eq_repr] at htext
          exact congrArg (· + 1) (number_injective (Int.repr_injective htext))

/-! Fresh aliases. -/

/-- Candidates of one stem that are all taken are no more than the taken aliases. -/
theorem le_length_taken {p : AliasPool} {stem : String} {k : Nat}
    (hbefore : ∀ j < k, candidate stem j ∈ p.taken) : k ≤ p.taken.length := by
  have hnodup : ((List.range k).map (candidate stem)).Nodup :=
    List.Nodup.map (candidate_injective stem) List.nodup_range
  have hsub : (List.range k).map (candidate stem) ⊆ p.taken := by
    intro a ha
    obtain ⟨j, hj, rfl⟩ := List.mem_map.mp ha
    exact hbefore j (List.mem_range.mp hj)
  have hle := (List.subperm_of_subset hnodup hsub).length_le
  rwa [List.length_map, List.length_range] at hle

/-- Some candidate is free: there are more of them than taken aliases. -/
theorem exists_free_candidate (p : AliasPool) (stem : String) :
    ∃ a ∈ (List.range (p.taken.length + 1)).map (candidate stem), a ∉ p.taken := by
  by_contra hall
  push Not at hall
  have hle := le_length_taken fun j hj => hall _ (List.mem_map_of_mem (List.mem_range.mpr hj))
  omega

/-- The alias handed out is the first candidate that is free. -/
theorem exists_fresh_eq (p : AliasPool) (stem : String) : ∃ k, p.fresh stem = candidate stem k
    ∧ candidate stem k ∉ p.taken ∧ ∀ j < k, candidate stem j ∈ p.taken := by
  obtain ⟨a, ha, hfree⟩ := p.exists_free_candidate stem
  obtain ⟨i, hi, rfl⟩ := List.mem_map.mp ha
  cases hfind : (List.range (p.taken.length + 1)).find?
      ((fun a => !p.taken.contains a) ∘ candidate stem) with
  | none =>
      rw [List.find?_eq_none] at hfind
      simpa [hfree] using hfind i hi
  | some k =>
      have hfresh : p.fresh stem = candidate stem k := by
        show ((List.map _ _).find? _).getD stem = _
        rw [List.find?_map, hfind]
        rfl
      obtain ⟨hk, -, hbefore⟩ := List.find?_range_eq_some.mp hfind
      exact ⟨k, hfresh, by simpa using hk, fun j hj => by simpa using hbefore j hj⟩

theorem fresh_not_mem (p : AliasPool) (stem : String) : p.fresh stem ∉ p.taken := by
  obtain ⟨k, hk, hfree, -⟩ := p.exists_fresh_eq stem
  rw [hk]
  exact hfree

/-- The first candidate that is free is handed out. -/
theorem fresh_eq_candidate {p : AliasPool} {stem : String} {k : Nat} (hfree : candidate stem k ∉ p.taken)
    (hbefore : ∀ j < k, candidate stem j ∈ p.taken) : p.fresh stem = candidate stem k := by
  obtain ⟨i, hi, hfree', hbefore'⟩ := p.exists_fresh_eq stem
  rcases Nat.lt_trichotomy i k with hlt | rfl | hlt
  · exact absurd (hbefore i hlt) hfree'
  · exact hi
  · exact absurd (hbefore' k hlt) hfree

/-- A fresh alias depends on which candidates are taken, and on nothing else. -/
theorem fresh_congr {p q : AliasPool} {stem : String}
    (h : ∀ k, candidate stem k ∈ p.taken ↔ candidate stem k ∈ q.taken) : p.fresh stem = q.fresh stem := by
  obtain ⟨k, hk, hfree, hbefore⟩ := q.exists_fresh_eq stem
  rw [hk]
  exact fresh_eq_candidate (fun hmem => hfree ((h k).mp hmem)) fun j hj => (h j).mpr (hbefore j hj)

/-- A stem that is free is handed out as it is. -/
theorem fresh_eq_stem {p : AliasPool} {stem : String} : p.fresh stem = stem ↔ stem ∉ p.taken :=
  ⟨fun h => h ▸ p.fresh_not_mem stem,
    fun h => fresh_eq_candidate (k := 0) h fun j hj => absurd hj (Nat.not_lt_zero j)⟩

@[simp]
theorem allocate_taken (p : AliasPool) (stem : String) :
    (p.allocate stem).2.taken = p.taken ++ [p.fresh stem] := rfl

/-- Taking an alias for a source: it is fresh, and taken afterwards. -/
theorem viewAlias_spec (p : AliasPool) (name : Option String) :
    (p.viewAlias name).1 ∉ p.taken ∧
      (p.viewAlias name).2.taken = p.taken ++ [(p.viewAlias name).1] := by
  unfold viewAlias
  split
  · exact ⟨p.fresh_not_mem _, rfl⟩
  · exact ⟨fresh_not_mem { p with letter := letterAfter p.letter } _, rfl⟩

@[simp]
theorem projectionAlias_some (p : AliasPool) (name : String) :
    p.projectionAlias (some name) = (some (p.fresh name), (p.allocate name).2) := rfl

theorem projectionAlias_taken {p pool : AliasPool} {name l : Option String}
    (h : p.projectionAlias name = (l, pool)) : pool.taken = p.taken ++ l.toList := by
  cases name with
  | none =>
      obtain ⟨rfl, rfl⟩ := Prod.mk.inj h
      rw [Option.toList_none, List.append_nil]
  | some name =>
      obtain ⟨rfl, rfl⟩ := Prod.mk.inj h
      rfl

/-- The alias of a projection, if it gets one, is fresh. -/
theorem projectionAlias_fresh {p pool : AliasPool} {name l : Option String}
    (h : p.projectionAlias name = (l, pool)) : l.toList.Nodup ∧ ∀ x ∈ l.toList, x ∉ p.taken := by
  cases name with
  | none =>
      obtain ⟨rfl, rfl⟩ := Prod.mk.inj h
      exact ⟨List.nodup_nil, fun _ hx => nomatch hx⟩
  | some name =>
      obtain ⟨rfl, rfl⟩ := Prod.mk.inj h
      exact ⟨List.nodup_singleton _, List.forall_mem_singleton.mpr (p.fresh_not_mem name)⟩

end SqlCompose.AliasPool
