import Mathlib.Data.Option.Basic

/-- The mutex is locked by exactly those that are inside of their critical section. -/
def Guards {Owner : Type} (mutex : Option Owner) (inside : Owner → Prop) : Prop :=
  ∀ owner, inside owner ↔ mutex = some owner

namespace Guards

variable {Owner : Type} {mutex : Option Owner} {inside inside' : Owner → Prop} {a b : Owner}

theorem exclusive (guards : Guards mutex inside) (left : inside a) (right : inside b) : a = b :=
  Option.some.inj (((guards a).mp left).symm.trans ((guards b).mp right))

theorem nobody (guards : Guards none inside) : ¬ inside a := fun here => by
  simpa using (guards a).mp here

theorem congr (guards : Guards mutex inside) (same : ∀ owner, inside' owner ↔ inside owner) :
    Guards mutex inside' :=
  fun owner => (same owner).trans (guards owner)

theorem acquire (guards : Guards none inside) (enters : inside' a)
    (others : ∀ owner, owner ≠ a → (inside' owner ↔ inside owner)) : Guards (some a) inside' := by
  intro owner
  by_cases same : owner = a
  · simp [same, enters]
  · have outside : ¬ inside owner := guards.nobody
    simp [others owner same, outside, Ne.symm same]

theorem release (guards : Guards mutex inside) (was : inside a) (leaves : ¬ inside' a)
    (others : ∀ owner, owner ≠ a → (inside' owner ↔ inside owner)) : Guards none inside' := by
  intro owner
  by_cases same : owner = a
  · simp [same, leaves]
  · have outside : ¬ inside owner := fun here => same (guards.exclusive here was)
    simp [others owner same, outside]

end Guards
