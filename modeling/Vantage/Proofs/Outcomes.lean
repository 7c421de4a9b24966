/-
**Computations that may fail, taken apart.**

Main results:

* `bind_eq_ok`, `bind_eq_error` — a sequence of two computations succeeds when both do, and fails
  when one does;
* `map_eq_ok` — so does a computation whose result is passed on;
* `mapError_ok` — renaming the failures leaves a success alone;
* `any_toOption` — what a computation leads to can be tested;
* `elim_eq_ok_iff`, `elim_eq_error_iff` — looking for a value succeeds when there is one.
-/

set_option relaxedAutoImplicit false
set_option autoImplicit false

namespace Vantage

variable {ε ε' α β : Type}

@[simp] theorem ok_bind (a : α) (f : α → Except ε β) : (Except.ok a >>= f) = f a := rfl

@[simp] theorem error_bind (e : ε) (f : α → Except ε β) :
    (Except.error e >>= f) = Except.error e := rfl

@[simp] theorem pure_eq_ok (a : α) : (pure a : Except ε α) = Except.ok a := rfl

theorem bind_eq_ok {x : Except ε α} {f : α → Except ε β} {b : β} :
    x >>= f = .ok b ↔ ∃ a, x = .ok a ∧ f a = .ok b := by
  cases x with
  | error e => simp
  | ok a => simp

theorem bind_eq_error {x : Except ε α} {f : α → Except ε β} {e : ε} :
    x >>= f = .error e ↔ x = .error e ∨ ∃ a, x = .ok a ∧ f a = .error e := by
  cases x with
  | error e' => simp
  | ok a => simp

theorem map_eq_ok {x : Except ε α} {f : α → β} {b : β} :
    x.map f = .ok b ↔ ∃ a, x = .ok a ∧ f a = b := by
  cases x <;> simp [Except.map]

@[simp] theorem mapError_ok (a : α) (f : ε → ε') : (Except.ok a).mapError f = .ok a := rfl

/-- What a computation leads to can be tested. -/
theorem any_toOption {x : Except ε α} {p : α → Bool} :
    x.toOption.any p = true ↔ ∃ a, x = .ok a ∧ p a = true := by
  cases x <;> simp [Except.toOption]

/-- What is found is the outcome. -/
theorem elim_eq_ok_iff {o : Option α} {e : ε} {a : α} :
    o.elim (.error e) Except.ok = .ok a ↔ o = some a := by
  cases o with
  | none => simp
  | some b => simp

/-- Where nothing is found, a failure is the outcome. -/
theorem elim_eq_error_iff {o : Option α} {e e' : ε} :
    o.elim (.error e) Except.ok = .error e' ↔ e' = e ∧ ∀ a, o ≠ some a := by
  cases o with
  | none => simp [eq_comm]
  | some b => simp

end Vantage
