import Mathlib.Data.List.Basic

/-!
# Logs

A log is a list of events, the last one first.  `Always P log` says of every event that
`P` holds of it and of the log before it, which is how a safety property of a run is put.
`Since start stop log` says that an event that starts something has not been followed by one
that stops it, which is how a state is read off a run.
-/

namespace Log

variable {ε : Type*} {P : ε → List ε → Prop} {start : ε → List ε → Prop} {stop : ε → Prop}
  {e : ε} {log : List ε}

def Always (P : ε → List ε → Prop) : List ε → Prop
  | [] => True
  | e :: log => P e log ∧ Always P log

def Since (start : ε → List ε → Prop) (stop : ε → Prop) : List ε → Prop
  | [] => False
  | e :: log => start e log ∨ (¬stop e ∧ Since start stop log)

theorem always_nil : Always P [] := trivial

@[simp] theorem not_since_nil : ¬Since start stop [] := id

@[simp] theorem since_cons :
    Since start stop (e :: log) ↔ start e log ∨ (¬stop e ∧ Since start stop log) := Iff.rfl

theorem Since.of_cons (h : Since start stop (e :: log)) (hstart : ¬start e log) :
    Since start stop log := (h.resolve_left hstart).2

theorem Always.of_append {later : List ε} (h : Always P (later ++ log)) : Always P log := by
  induction later with
  | nil => exact h
  | cons a later ih => exact ih h.2

end Log
