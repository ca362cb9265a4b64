import Mathlib.Data.List.DropRight

/-! Trimming a list at both ends. What is trimmed is part of the list, and trimming it
again changes nothing. -/

namespace Foundation

variable {α β : Type*} {p : α → Bool} {l : List α}

/-- Without the elements at either end that satisfy `p`. -/
def trim (p : α → Bool) (l : List α) : List α := (l.dropWhile p).rdropWhile p

theorem infix_trim (p : α → Bool) (l : List α) : trim p l <:+: l :=
  (List.rdropWhile_prefix _ _).isInfix.trans (List.dropWhile_suffix _).isInfix

theorem trim_trim (p : α → Bool) (l : List α) : trim p (trim p l) = trim p l := by
  have hhead : ((l.dropWhile p).rdropWhile p).dropWhile p = (l.dropWhile p).rdropWhile p := by
    rw [List.dropWhile_eq_self_iff]
    intro hlen
    have hkept := List.rdropWhile_prefix p (l.dropWhile p)
    rw [hkept.getElem hlen]
    exact List.dropWhile_get_zero_not p l _
  simp only [trim]
  rw [hhead, List.rdropWhile_idempotent]

theorem trim_eq_self (h : ∀ a ∈ l, p a = false) : trim p l = l := by
  have hdrop : l.dropWhile p = l := by
    rw [List.dropWhile_eq_self_iff]
    exact fun hlen => by simp [h _ (List.getElem_mem hlen)]
  rw [trim, hdrop, List.rdropWhile_eq_self_iff]
  exact fun hne => by simp [h _ (List.getLast_mem hne)]

theorem trim_map {f : α → β} {q : β → Bool} (h : ∀ a, q (f a) = p a) (l : List α) :
    trim q (l.map f) = (trim p l).map f := by
  have hcomp : q ∘ f = p := funext h
  rw [trim, trim, List.dropWhile_map, hcomp, List.rdropWhile, List.rdropWhile, ← List.map_reverse,
    List.dropWhile_map, hcomp, List.map_reverse]

end Foundation
