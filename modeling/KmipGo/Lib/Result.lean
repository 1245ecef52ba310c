/-! # Outcomes of a partial, fallible call

`Res ε α` is what a call of a language with both error values and panics can
do: return a value, return an error, or panic.  The bind stops at the first
outcome that is not a value.
-/

namespace KmipGo.Lib

inductive Res (ε : Type u) (α : Type v) where
  | ok (value : α)
  | err (error : ε)
  | panic
deriving DecidableEq, Repr

namespace Res

variable {ε : Type u} {α β : Type v}

protected def bind (x : Res ε α) (f : α → Res ε β) : Res ε β :=
  match x with
  | ok a => f a
  | err e => err e
  | panic => panic

instance : Monad (Res ε) where
  pure := ok
  bind := Res.bind

@[simp] theorem pure_eq (a : α) : (pure a : Res ε α) = ok a := rfl
@[simp] theorem ok_bind (a : α) (f : α → Res ε β) : (ok a >>= f : Res ε β) = f a := rfl
@[simp] theorem err_bind (e : ε) (f : α → Res ε β) : (err e >>= f : Res ε β) = err e := rfl
@[simp] theorem panic_bind (f : α → Res ε β) : (panic >>= f : Res ε β) = panic := rfl

/-- A bind returns a value exactly when both of its parts do. -/
theorem bind_eq_ok {x : Res ε α} {f : α → Res ε β} {b : β} :
    x >>= f = ok b ↔ ∃ a, x = ok a ∧ f a = ok b := by
  cases x <;> simp

/-- A bind panics only where one of its parts does. -/
theorem bind_ne_panic {x : Res ε α} {f : α → Res ε β} (hx : x ≠ panic) (hf : ∀ a, f a ≠ panic) :
    x >>= f ≠ panic := by
  cases x with
  | ok a => exact hf a
  | err e => exact nofun
  | panic => exact absurd rfl hx

/-- An access that panics when it has nothing to return. -/
def ofOption : Option α → Res ε α
  | some a => ok a
  | none => panic

@[simp] theorem ofOption_some (a : α) : (ofOption (some a) : Res ε α) = ok a := rfl
@[simp] theorem ofOption_none : (ofOption none : Res ε α) = panic := rfl

/-- The value of a call that returned one. -/
def toOption : Res ε α → Option α
  | ok a => some a
  | _ => none

@[simp] theorem toOption_ok (a : α) : (ok a : Res ε α).toOption = some a := rfl

theorem toOption_eq_some {x : Res ε α} {a : α} : x.toOption = some a ↔ x = ok a := by
  cases x <;> simp [toOption]

end Res

theorem eq_ok_of_toOption {ε α : Type} {r : Except ε α} {a : α} (h : r.toOption = some a) : r = .ok a := by
  cases r with
  | error e => cases h
  | ok b =>
    cases h
    rfl

end KmipGo.Lib
