import Resumable.Machine.Value

/-!
# Bindings

Which variable holds which value.  A variable that is not bound is read as the zero of its type,
so bindings begin empty.
-/

set_option autoImplicit false

namespace Resumable.Machine

open Resumable.Symbol

/-- The values of some variables; each variable is bound once at most. -/
abbrev Bindings (κ : Type) := List (κ × Value)

namespace Bindings

variable {κ : Type} [DecidableEq κ]

/-- The value of a variable. -/
def get? (b : Bindings κ) (k : κ) : Option Value := b.lookup k

/-- Give a variable a value. -/
def put (k : κ) (v : Value) : Bindings κ → Bindings κ
  | [] => [(k, v)]
  | (k', v') :: rest => if k' = k then (k, v) :: rest else (k', v') :: put k v rest

/-- What was put can be read. -/
@[simp] theorem get?_put_self (k : κ) (v : Value) (b : Bindings κ) :
    (put k v b).get? k = some v := by
  induction b with
  | nil => simp [put, get?]
  | cons entry rest ih =>
    obtain ⟨k', v'⟩ := entry
    by_cases h : k' = k
    · simp [put, get?, h]
    · have h' : (k == k') = false := by simp [Ne.symm h]
      simpa [put, get?, h, List.lookup_cons, h'] using ih

/-- Other variables keep their values. -/
theorem get?_put_of_ne {k k' : κ} (h : k' ≠ k) (v : Value) (b : Bindings κ) :
    (put k v b).get? k' = b.get? k' := by
  induction b with
  | nil =>
    have h' : (k' == k) = false := by simp [h]
    simp [put, get?, List.lookup_cons, h']
  | cons entry rest ih =>
    obtain ⟨j, w⟩ := entry
    by_cases hj : j = k
    · subst hj
      have h' : (k' == j) = false := by simp [h]
      simp [put, get?, List.lookup_cons, h']
    · simp only [put, hj, if_false, get?, List.lookup_cons] at ih ⊢
      cases k' == j <;> simp [ih]

end Bindings

end Resumable.Machine
