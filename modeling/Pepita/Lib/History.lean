import Mathlib.Data.List.DropRight
import Mathlib.Tactic

set_option autoImplicit false

/-! # Looking back in a history

A history is a list of events, the oldest first. Protocol laws speak of the last event of some
kind and of what has happened since then.
-/

namespace History

variable {α : Type*} (p : α → Bool)

/-- The last event with `p`. -/
def last (h : List α) : Option α := h.reverse.find? p

/-- What has happened since the last event with `p`; everything, if there was none. -/
def since (h : List α) : List α := h.rtakeWhile fun a => !p a

@[simp] theorem last_nil : last p [] = none := rfl

theorem last_snoc (h : List α) (a : α) :
    last p (h ++ [a]) = if p a then some a else last p h := by
  unfold last
  rw [List.reverse_append, List.reverse_singleton, List.singleton_append, List.find?_cons]
  cases p a <;> rfl

theorem since_snoc (h : List α) (a : α) :
    since p (h ++ [a]) = if p a then [] else since p h ++ [a] := by
  unfold since
  rw [List.rtakeWhile_concat]
  cases p a <;> rfl

end History
