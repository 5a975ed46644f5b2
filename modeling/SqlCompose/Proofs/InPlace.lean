import SqlCompose.Proofs.Steps

/-!
Accepting in place. A statement that accepts an expression changes as it goes, and when it fails half-way,
what nested statements have projected until then stays projected. On a copy that is thrown away after a
failure this is the acceptance that gives a new statement or none.
-/

namespace SqlCompose

/-- A step that changes what it works on. What it has changed before it fails stays changed. -/
abbrev InPlace (σ α : Type) := ExceptT Error (StateM (σ × Catalog)) α

namespace InPlace

variable {σ τ α β : Type}

/-- What is worked on, at present. -/
def read : InPlace σ σ := fun (s, c) => (.ok s, s, c)

/-- Change what is worked on. -/
def write (s : σ) : InPlace σ Unit := fun (_, c) => (.ok (), s, c)

/-- A step that changes nothing but the catalogue. -/
def ofBuild (step : Build α) : InPlace σ α := fun (s, c) =>
  match step c with
  | .ok (a, c) => (.ok a, s, c)
  | .error cause => (.error cause, s, c)

/-- Work on a part, and put it back whether that fails or not. -/
def onPart (part : τ) (step : InPlace τ α) (restore : τ → Build σ) : InPlace σ α := fun (s, c) =>
  let (r, part, c) := step (part, c)
  match restore part c with
  | .ok (s, c) => (r, s, c)
  | .error cause => (r.bind fun _ => .error cause, s, c)

/-- A step on a copy, which takes the place of the original unless the step fails. -/
def onCopy (step : InPlace σ α) (s : σ) : Build (σ × α) := fun c =>
  match step (s, c) with
  | (.ok a, s, c) => .ok ((s, a), c)
  | (.error cause, _) => .error cause

variable {s : σ}

@[simp]
theorem onCopy_pure (a : α) : (pure a : InPlace σ α).onCopy s = pure (s, a) := rfl

@[simp]
theorem onCopy_throw (cause : Error) : (throw cause : InPlace σ α).onCopy s = throw cause := rfl

@[simp]
theorem onCopy_read : (read : InPlace σ σ).onCopy s = pure (s, s) := rfl

@[simp]
theorem onCopy_write (t : σ) : (write t).onCopy s = pure (t, ()) := rfl

@[simp]
theorem onCopy_bind (step : InPlace σ α) (f : α → InPlace σ β) :
    (step >>= f).onCopy s = (do
      let (t, a) ← step.onCopy s
      (f a).onCopy t) := by
  funext c
  have hbind : (step >>= f) (s, c) = match step (s, c) with
      | (.ok a, p) => f a p
      | (.error cause, p) => (.error cause, p) := by
    show ExceptT.bindCont f (step (s, c)).1 (step (s, c)).2 = _
    rcases step (s, c) with ⟨r | r, p⟩ <;> rfl
  show (match (step >>= f) (s, c) with
    | (.ok a, s, c) => Except.ok ((s, a), c)
    | (.error cause, _) => .error cause) = (step.onCopy s c) >>= fun p => (f p.1.2).onCopy p.1.1 p.2
  rw [hbind, onCopy]
  rcases step (s, c) with ⟨r | a, t, d⟩ <;> rfl

@[simp]
theorem onCopy_ofBuild (step : Build α) : (ofBuild step : InPlace σ α).onCopy s = do return (s, ← step) := by
  funext c
  show (match ofBuild step (s, c) with
    | (.ok a, s, c) => Except.ok ((s, a), c)
    | (.error cause, _) => .error cause) = (step c) >>= fun p => .ok ((s, p.1), p.2)
  rw [ofBuild]
  rcases step c with cause | ⟨a, d⟩ <;> rfl

@[simp]
theorem onCopy_onPart (part : τ) (step : InPlace τ α) (restore : τ → Build σ) :
    (onPart part step restore).onCopy s = (do
      let (part, a) ← step.onCopy part
      return (← restore part, a)) := by
  funext c
  show (match onPart part step restore (s, c) with
    | (.ok a, s, c) => Except.ok ((s, a), c)
    | (.error cause, _) => .error cause)
    = (step.onCopy part c) >>= fun p => (restore p.1.1 p.2) >>= fun q => .ok ((q.1, p.1.2), q.2)
  rw [onPart, onCopy]
  rcases step (part, c) with ⟨cause | a, p, d⟩
  · dsimp only
    rcases restore p d with other | ⟨t, d'⟩ <;> rfl
  · change _ = (restore p d) >>= fun q => Except.ok ((q.1, a), q.2)
    dsimp only
    rcases restore p d with other | ⟨t, d'⟩ <;> rfl

end InPlace

namespace Select

/-- How a statement one level down accepts an expression in place. -/
abbrev Worker := Expr → InPlace Select Expr

/-- Project an expression for the statement around, in place. -/
def provideInPlace (accept : Worker) (e : Expr) : InPlace Select (Option String × Expr) := do
  let accepted ← accept e
  let s ← InPlace.read
  match s.projections.find? (·.definition == accepted) with
  | some p => return (p.name?, p.definition)
  | none =>
    let (a, pool) := s.aliases.projectionAlias e.name?
    let p : Projection := ⟨accepted, a, s.scope⟩
    InPlace.write { s with projections := s.projections ++ [p], aliases := pool }
    return (p.name?, accepted)

/-- Change the first source with an alias in place. -/
def updateSourceInPlace (a : String) (f : InPlace Source Expr) : List Source → InPlace (List Source) Expr
  | [] => throw (.notSupported (.projectThrough a))
  | src :: rest =>
    if src.label == a then InPlace.onPart src f fun src => return src :: rest
    else InPlace.onPart rest (updateSourceInPlace a f rest) fun rest => return src :: rest

/-- Have the statement behind a source project a leaf in place. -/
def throughSourceInPlace (accept : Worker) (leaf : Expr) : InPlace Source Expr := do
  let src ← InPlace.read
  match src.view.statement? with
  | none => throw (.notSupported (.projectThrough src.label))
  | some inner =>
    let (name, definition) ← InPlace.onPart inner (provideInPlace accept leaf) fun inner =>
      return { src with view := ← src.view.withStatement inner }
    return .projected (← InPlace.read).view name definition

/-- Accept a leaf in place. -/
def acceptLeafInPlace (accept : Worker) (leaf : Expr) : InPlace Select Expr := do
  let s ← InPlace.read
  let m ← InPlace.ofBuild (liftM (Scope.resolveLeaf s.scope leaf))
  InPlace.ofBuild do liftM (checkDeclared (← get) m.view leaf.unpinned)
  if m.view.isStatement then
    InPlace.onPart s.sources
      (updateSourceInPlace m.label (throughSourceInPlace accept leaf.unpinned) s.sources)
      fun sources => return { s with sources := sources }
  else return leaf

mutual

/-- Accept an expression in place, given how nested statements accept. -/
def acceptInPlaceWith (accept : Worker) : Expr → InPlace Select Expr
  | .literal v => return .literal v
  | .apply op args => return .apply op (← acceptAllInPlaceWith accept args)
  | .column c => acceptLeafInPlace accept (.column c)
  | .star v => acceptLeafInPlace accept (.star v)
  | .projected v n d => do
    if (← InPlace.read).isSelf v then acceptInPlaceWith accept d
    else acceptLeafInPlace accept (.projected v n d)
  | .pinned e v => acceptLeafInPlace accept (.pinned e v)
  | .view v => do
    let s ← InPlace.read
    InPlace.ofBuild (liftM (s.acceptView v))
  | .within sc e => throw (.notSupported (.acceptScoped (Expr.within sc e).describe))

/-- Accept the arguments one after the other, in place. -/
def acceptAllInPlaceWith (accept : Worker) : List Expr → InPlace Select (List Expr)
  | [] => return []
  | e :: es => return (← acceptInPlaceWith accept e) :: (← acceptAllInPlaceWith accept es)

end

/-- Accept an expression in place into a statement with at most the given number of levels inside. -/
def acceptInPlaceAt : Nat → Worker
  | 0 => acceptInPlaceWith fun e => throw (.notSupported (.resolve e.describe))
  | n + 1 => acceptInPlaceWith (acceptInPlaceAt n)

/-- Accept an expression in place. -/
def acceptInPlace (e : Expr) : InPlace Select Expr := do
  let s ← InPlace.read
  acceptInPlaceAt s.level e

/-! On a copy, this is accepting. -/

variable {work : Worker} {accept : Acceptor}

theorem provideInPlace_onCopy (h : ∀ e s, (work e).onCopy s = accept s e) (e : Expr) (s : Select) :
    (provideInPlace work e).onCopy s = provide accept s e := by
  rw [provideInPlace, provide, InPlace.onCopy_bind, h]
  refine bind_congr fun ⟨t, accepted⟩ => ?_
  dsimp only
  rw [InPlace.onCopy_bind, InPlace.onCopy_read, pure_bind]
  dsimp only
  cases t.projections.find? (·.definition == accepted) with
  | some p => rfl
  | none => rfl

theorem updateSourceInPlace_onCopy {a : String} {f : InPlace Source Expr} {g : Source → Build (Source × Expr)}
    (h : ∀ src, f.onCopy src = g src) : ∀ sources sources' : List Source,
      (updateSourceInPlace a f sources).onCopy sources' = updateSource a g sources
  | [], _ => rfl
  | src :: rest, _ => by
      rw [updateSourceInPlace, updateSource]
      split
      · rw [InPlace.onCopy_onPart, h]
        rfl
      · rw [InPlace.onCopy_onPart, updateSourceInPlace_onCopy h rest]
        rfl

theorem throughSourceInPlace_onCopy (h : ∀ e s, (work e).onCopy s = accept s e) (leaf : Expr) (src : Source) :
    (throughSourceInPlace work leaf).onCopy src = throughSource accept leaf src := by
  rw [throughSourceInPlace, throughSource, InPlace.onCopy_bind, InPlace.onCopy_read, pure_bind]
  dsimp only
  cases src.view.statement? with
  | none => rfl
  | some inner =>
      dsimp only
      rw [InPlace.onCopy_bind, InPlace.onCopy_onPart, provideInPlace_onCopy h]
      simp only [bind_assoc, pure_bind, InPlace.onCopy_bind, InPlace.onCopy_read, InPlace.onCopy_pure]

theorem acceptLeafInPlace_onCopy (h : ∀ e s, (work e).onCopy s = accept s e) (leaf : Expr) (s : Select) :
    (acceptLeafInPlace work leaf).onCopy s = acceptLeaf accept s leaf := by
  rw [acceptLeafInPlace, acceptLeaf, InPlace.onCopy_bind, InPlace.onCopy_read, pure_bind]
  simp only [InPlace.onCopy_bind, InPlace.onCopy_ofBuild, bind_assoc, pure_bind]
  refine bind_congr fun m => bind_congr fun c => bind_congr fun _ => ?_
  split
  · rw [InPlace.onCopy_onPart, updateSourceInPlace_onCopy (throughSourceInPlace_onCopy h leaf.unpinned)]
    rfl
  · rfl

mutual

theorem acceptInPlaceWith_onCopy (h : ∀ e s, (work e).onCopy s = accept s e) :
    ∀ (e : Expr) (s : Select), (acceptInPlaceWith work e).onCopy s = acceptWith accept s e
  | .literal _, _ => rfl
  | .apply op args, s => by
      rw [acceptInPlaceWith, acceptWith, InPlace.onCopy_bind, acceptAllInPlaceWith_onCopy h args]
      rfl
  | .column _, _ => acceptLeafInPlace_onCopy h ..
  | .star _, _ => acceptLeafInPlace_onCopy h ..
  | .projected v n d, s => by
      rw [acceptInPlaceWith, acceptWith, InPlace.onCopy_bind, InPlace.onCopy_read, pure_bind]
      dsimp only
      split
      · exact acceptInPlaceWith_onCopy h d s
      · exact acceptLeafInPlace_onCopy h ..
  | .pinned .., _ => acceptLeafInPlace_onCopy h ..
  | .view v, s => by
      rw [acceptInPlaceWith, acceptWith, InPlace.onCopy_bind, InPlace.onCopy_read, pure_bind]
      exact InPlace.onCopy_ofBuild _
  | .within .., _ => rfl

theorem acceptAllInPlaceWith_onCopy (h : ∀ e s, (work e).onCopy s = accept s e) :
    ∀ (es : List Expr) (s : Select), (acceptAllInPlaceWith work es).onCopy s = acceptAllWith accept s es
  | [], _ => rfl
  | e :: es, s => by
      rw [acceptAllInPlaceWith, acceptAllWith, InPlace.onCopy_bind, acceptInPlaceWith_onCopy h e]
      refine bind_congr fun ⟨t, a⟩ => ?_
      dsimp only
      rw [InPlace.onCopy_bind, acceptAllInPlaceWith_onCopy h es]
      rfl

end

theorem acceptInPlaceAt_onCopy : ∀ (n : Nat) (e : Expr) (s : Select),
    (acceptInPlaceAt n e).onCopy s = acceptAt n s e
  | 0 => acceptInPlaceWith_onCopy fun _ _ => rfl
  | n + 1 => acceptInPlaceWith_onCopy (acceptInPlaceAt_onCopy n)

/-- Accepting gives what accepting in place makes of a copy. -/
theorem acceptInPlace_onCopy (e : Expr) (s : Select) : (acceptInPlace e).onCopy s = s.accept e := by
  rw [acceptInPlace, InPlace.onCopy_bind, InPlace.onCopy_read, pure_bind]
  exact acceptInPlaceAt_onCopy s.level e s

end Select

end SqlCompose
