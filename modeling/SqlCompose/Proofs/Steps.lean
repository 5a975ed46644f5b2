import SqlCompose.Select.Compose

/-!
Opening steps that succeed. A step reads and extends the catalogue and may fail; the lemmas here say,
for each way of putting steps together, what a success of the whole says about its parts.
-/

namespace SqlCompose

theorem bind_eq_ok {α β : Type} {x : Except Error α} {f : α → Except Error β} {b : β} :
    x >>= f = .ok b ↔ ∃ a, x = .ok a ∧ f a = .ok b := by
  cases x with
  | error cause => simp [bind, Except.bind]
  | ok a => simp [bind, Except.bind]

theorem Except.exists_of_isOk {α : Type} {x : Except Error α} (h : x.isOk = true) :
    ∃ a, x = .ok a := by
  cases x with
  | error cause => cases h
  | ok a => exact ⟨a, rfl⟩

theorem Except.exists_of_toOption {α β : Type} {x : Except Error α} {f : α → β} {b : β}
    (h : x.toOption.map f = some b) : ∃ a, x = .ok a ∧ f a = b := by
  cases x with
  | error cause => cases h
  | ok a => exact ⟨a, rfl, Option.some.inj h⟩

namespace Build

variable {α β : Type} {c : Catalog}

theorem bind_eq_ok {x : Build α} {f : α → Build β} {r : β × Catalog} :
    (x >>= f) c = .ok r ↔ ∃ a c', x c = .ok (a, c') ∧ f a c' = .ok r := by
  change (x c >>= fun p => f p.1 p.2) = .ok r ↔ _
  rw [SqlCompose.bind_eq_ok]
  exact Prod.exists

theorem bind_congr {x : Build α} {f g : α → Build β} (h : ∀ a c', x c = .ok (a, c') → f a c' = g a c') :
    (x >>= f) c = (x >>= g) c := by
  change (x c >>= fun p => f p.1 p.2) = (x c >>= fun p => g p.1 p.2)
  cases hx : x c with
  | error cause => rfl
  | ok p => exact h p.1 p.2 hx

@[simp]
theorem pure_eq_ok {a : α} {r : α × Catalog} : (pure a : Build α) c = .ok r ↔ r = (a, c) := by
  change Except.ok (a, c) = .ok r ↔ _
  rw [Except.ok.injEq, eq_comm]

@[simp]
theorem throw_ne_ok {cause : Error} {r : α × Catalog} : (throw cause : Build α) c ≠ .ok r :=
  fun h => nomatch (h : Except.error cause = .ok r)

@[simp]
theorem lift_eq_ok {x : Except Error α} {a : α} {c' : Catalog} :
    (liftM x : Build α) c = .ok (a, c') ↔ x = .ok a ∧ c' = c := by
  cases x with
  | error cause =>
      exact ⟨fun h => (nomatch (h : Except.error cause = .ok (a, c'))), fun h => (nomatch h.1)⟩
  | ok b =>
      change Except.ok (b, c) = .ok (a, c') ↔ _
      simp only [Except.ok.injEq, Prod.mk.injEq]
      exact and_congr_right fun _ => eq_comm

@[simp]
theorem get_eq_ok {r : Catalog × Catalog} : (get : Build Catalog) c = .ok r ↔ r = (c, c) := by
  change Except.ok (c, c) = .ok r ↔ _
  rw [Except.ok.injEq, eq_comm]

@[simp]
theorem joinView_eq_ok {j : Join} {r : View × Catalog} :
    joinView j c = .ok r ↔ r = (.join c.nextMark j, c.freshMark.2) := by
  change Except.ok (View.join c.nextMark j, c.freshMark.2) = .ok r ↔ _
  rw [Except.ok.injEq, eq_comm]

@[simp]
theorem selectView_eq_ok {s : Select} {r : View × Catalog} :
    selectView s c = .ok r ↔ r = (.select c.nextMark s, c.freshMark.2) := by
  change Except.ok (View.select c.nextMark s, c.freshMark.2) = .ok r ↔ _
  rw [Except.ok.injEq, eq_comm]

@[simp]
theorem rejecting_eq_ok {clause : Clause} {subject : String} {step : Build α} {r : α × Catalog} :
    rejecting clause subject step c = .ok r ↔ step c = .ok r := by
  unfold rejecting
  cases step c with
  | error cause => simp
  | ok a => simp

end Build

end SqlCompose
