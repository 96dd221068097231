import AspectProxy.Machine.Loading

/-!
How steps that change a state and may fail follow one another. What comes behind a step runs on the state that the step
leaves, unless the step fails.
-/

namespace AspectProxy

section Steps

variable {x : ExceptT ε (StateM σ) α} {f : α → ExceptT ε (StateM σ) β} {s t r : σ} {a : α} {b : β} {e : ε}

theorem run_bind (h : x s = (.ok a, t)) : (x >>= f) s = f a t := by
  simp only [Bind.bind, ExceptT.bind, ExceptT.mk, StateT.bind, h]
  rfl

theorem run_bind_error (h : x s = (.error e, t)) : (x >>= f) s = (.error e, t) := by
  simp only [Bind.bind, ExceptT.bind, ExceptT.mk, StateT.bind, h]
  rfl

theorem of_run_bind (h : (x >>= f) s = (.ok b, r)) : ∃ a t, x s = (.ok a, t) ∧ f a t = (.ok b, r) := by
  rcases ran : x s with ⟨_ | a, t⟩
  · rw [run_bind_error ran] at h
    cases h
  · exact ⟨a, t, rfl, (run_bind ran).symm.trans h⟩

/-- Steps that agree, and agree in what follows wherever they get to. -/
theorem run_bind_congr {y : ExceptT ε (StateM σ) α} {g : α → ExceptT ε (StateM σ) β} (first : x s = y s)
    (rest : ∀ a t, x s = (.ok a, t) → f a t = g a t) : (x >>= f) s = (y >>= g) s := by
  rcases ran : x s with ⟨e | a, t⟩
  · rw [run_bind_error ran, run_bind_error (first ▸ ran)]
  · rw [run_bind ran, run_bind (first ▸ ran), rest a t ran]

end Steps

namespace Machine

section Builds

variable {x : Build α} {f : α → Build β} {built built' : List LoadedClass} {m m' : Machine} {a : α}

theorem Build.run_bind (h : x built m = (.ok (a, built'), m')) : (x >>= f) built m = f a built' m' :=
  AspectProxy.run_bind h

theorem Build.run_bind_error {e : DefinitionError} (h : x built m = (.error e, m')) : (x >>= f) built m = (.error e, m') :=
  AspectProxy.run_bind_error h

theorem Build.run_bind_congr {y : Build α} {g : α → Build β} (first : x built m = y built m)
    (rest : ∀ a built' m', x built m = (.ok (a, built'), m') → f a built' m' = g a built' m') :
    (x >>= f) built m = (y >>= g) built m :=
  AspectProxy.run_bind_congr first fun r m' ran => rest r.1 r.2 m' ran

theorem Build.of_run_bind {r : β × List LoadedClass} (h : (x >>= f) built m = (.ok r, m')) :
    ∃ a built₁ m₁, x built m = (.ok (a, built₁), m₁) ∧ f a built₁ m₁ = (.ok r, m') := by
  obtain ⟨⟨a, built₁⟩, m₁, first, rest⟩ := AspectProxy.of_run_bind h
  exact ⟨a, built₁, m₁, first, rest⟩

theorem Build.of_lift_ok {r : Except DefinitionError α} (h : Build.lift r built m = (.ok (a, built'), m')) :
    r = .ok a ∧ built' = built ∧ m' = m := by
  cases r with
  | error e => cases h
  | ok a => cases h; exact ⟨rfl, rfl, rfl⟩

end Builds

end Machine

end AspectProxy
