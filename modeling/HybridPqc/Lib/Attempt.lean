import Mathlib.Init

/-!
# Attempts

An *attempt* changes a state, and says whether it is successful; it may also go wrong. Attempts are
made one after the other up to the first one that fails, as by a program that returns
`false` as soon as something it calls does.

`Attempt.Spec P a E Q` says that from a state with `P`, the attempt does not go wrong: it leaves a
state with `Q` if it is successful, and one with `E` otherwise.
-/

/-- An attempt: what goes wrong, or whether it is successful, and the state. -/
abbrev Attempt (ε σ : Type) := σ → Except ε (Bool × σ)

namespace Attempt

variable {ε σ : Type} {P P' Q Q' R E E' : σ → Prop} {a b : Attempt ε σ} {s s' : σ}

/-- Nothing is attempted. -/
def skip : Attempt ε σ := fun s => .ok (true, s)

/-- The state is changed. -/
def modify (f : σ → σ) : Attempt ε σ := fun s => .ok (true, f s)

/-- It is checked. -/
def check (p : σ → Bool) : Attempt ε σ := fun s => .ok (p s, s)

/-- One attempt, then another one. -/
def andThen (a b : Attempt ε σ) : Attempt ε σ := fun s =>
  match a s with
  | .error e => .error e
  | .ok (false, s) => .ok (false, s)
  | .ok (true, s) => b s

/-- What becomes of a state. -/
def Spec (P : σ → Prop) (a : Attempt ε σ) (E Q : σ → Prop) : Prop :=
  ∀ s, P s → (∃ s', a s = .ok (false, s') ∧ E s') ∨ ∃ s', a s = .ok (true, s') ∧ Q s'

theorem Spec.skip : Spec P (skip : Attempt ε σ) E P := fun s h => .inr ⟨s, rfl, h⟩

theorem Spec.modify {f : σ → σ} (h : ∀ s, P s → Q (f s)) : Spec P (modify f : Attempt ε σ) E Q :=
  fun s hs => .inr ⟨f s, rfl, h s hs⟩

theorem Spec.check {p : σ → Bool} (h : ∀ s, P s → p s = false → E s) :
    Spec P (check p : Attempt ε σ) E fun s => P s ∧ p s = true := by
  intro s hs
  cases hp : p s with
  | false => exact .inl ⟨s, by rw [Attempt.check, hp], h s hs hp⟩
  | true => exact .inr ⟨s, by rw [Attempt.check, hp], hs, hp⟩

/-- Attempts one after the other. -/
theorem Spec.andThen (ha : Spec P a E Q) (hb : Spec Q b E R) : Spec P (a.andThen b) E R := by
  intro s hs
  obtain ⟨s', hr, hE⟩ | ⟨s', hr, hQ⟩ := ha s hs
  · exact .inl ⟨s', by rw [Attempt.andThen, hr], hE⟩
  · obtain ⟨s'', hr', hE⟩ | ⟨s'', hr', hR⟩ := hb s' hQ
    · exact .inl ⟨s'', by rw [Attempt.andThen, hr]; exact hr', hE⟩
    · exact .inr ⟨s'', by rw [Attempt.andThen, hr]; exact hr', hR⟩

theorem Spec.mono (h : Spec P a E Q) (hP : ∀ s, P' s → P s) (hE : ∀ s, E s → E' s)
    (hQ : ∀ s, Q s → Q' s) : Spec P' a E' Q' := by
  intro s hs
  obtain ⟨s', hr, h'⟩ | ⟨s', hr, h'⟩ := h s (hP s hs)
  · exact .inl ⟨s', hr, hE s' h'⟩
  · exact .inr ⟨s', hr, hQ s' h'⟩

end Attempt
