/-!
This module contains the ways in which a kernel function can fail to return.
-/

inductive Fault where
  -- An access outside of a bag, or with the wrong type.
  | access
  -- `RequireArgumentEx`
  | argument (funcname argname msg : String)
  -- `ErrorQuit` and `ErrorMayQuit`, with the two values for the format string
  | quit (msg : String) (arg1 arg2 : Int)
  -- A loop has not ended within the number of rounds that the model allows
  | fuel
  -- An integer operation that C leaves undefined
  | undefined
  deriving DecidableEq, Repr

abbrev Result := Except Fault

theorem ok_bind {α β : Type} (a : α) (f : α → Result β)
    : ((Except.ok a : Result α) >>= f) = f a :=
  rfl

theorem of_bind_eq_ok {α β : Type} {x : Result α} {f : α → Result β} {b : β}
    (h : (x >>= f) = .ok b) : ∃ a, x = .ok a ∧ f a = .ok b := by
  cases x with
  | error e => cases h
  | ok a => exact ⟨a, rfl, h⟩
