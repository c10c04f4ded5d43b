import Mathlib.Logic.Basic

/-! # Fallible computations

Equations and a rule of postconditions for computations in `Except`.  `Ends r E P` says that `r`
yields a value with `P` or stops with one of the errors `E`. -/

namespace Netatalk.Fallible

variable {ε α β : Type}

@[simp] theorem ok_bind (a : α) (f : α → Except ε β) : (Except.ok a >>= f) = f a := rfl

@[simp] theorem error_bind (e : ε) (f : α → Except ε β) : (Except.error e >>= f) = .error e := rfl

variable {f : α → Except ε β} {x : Except ε α}

theorem bind_eq_ok {b : β} : (x >>= f) = .ok b ↔ ∃ a, x = .ok a ∧ f a = .ok b := by
  cases x with
  | error | ok => simp

theorem bind_congr_ok {g : α → Except ε β}
    (h : ∀ a, x = .ok a → f a = g a) : (x >>= f) = (x >>= g) := by
  cases x with
  | error => rfl
  | ok a => exact h a rfl

/-- A computation yields a value with `P`, or stops with an error of `E`. -/
def Ends (r : Except ε α) (E : ε → Prop) (P : α → Prop) : Prop :=
  match r with
  | .ok a => P a
  | .error e => E e

section ends
variable {E : ε → Prop} {P P' : α → Prop} {Q : β → Prop}

theorem Ends.bind (hx : Ends x E P) (hf : ∀ a, P a → Ends (f a) E Q) : Ends (x >>= f) E Q := by
  cases x with
  | error => exact hx
  | ok a => exact hf a hx

theorem Ends.mono (hx : Ends x E P) (h : ∀ a, P a → P' a) : Ends x E P' := by
  cases x with
  | error => exact hx
  | ok a => exact h a hx

theorem Ends.foldlM {g : α → β → Except ε α} (hg : ∀ a b, P a → Ends (g a b) E P) {a : α}
    (ha : P a) (l : List β) : Ends (l.foldlM g a) E P := by
  induction l generalizing a with
  | nil => exact ha
  | cons b l ih => exact (hg a b ha).bind fun a' ha' => ih ha'

theorem Ends.of_ok {a : α} (hx : Ends x E P) (h : x = .ok a) : P a := by
  subst h
  exact hx

theorem Ends.cases (hx : Ends x E P) : (∃ a, x = .ok a) ∨ ∃ e, E e ∧ x = .error e := by
  cases x with
  | error e => exact .inr ⟨e, hx, rfl⟩
  | ok a => exact .inl ⟨a, rfl⟩

end ends

end Netatalk.Fallible
