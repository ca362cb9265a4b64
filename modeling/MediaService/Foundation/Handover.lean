import Mathlib.Data.List.Basic
import Mathlib.Data.List.Nodup

/-! Work handed over after it is committed. A job is due from its commit until the one
call that hands it to a broker; the broker keeps what it took, and takes a job at most
once if it counts it as one it has. A call may be lost on the way, so a job that is no
longer due need not be held. -/

namespace Foundation

/-- The jobs still due, and those the broker has taken. -/
structure Handover (π : Type*) where
  due : List π
  held : List π

namespace Handover

variable {π : Type*}

def empty : Handover π := ⟨[], []⟩

/-- Committed work is due. -/
def commit (h : Handover π) (ps : List π) : Handover π := { h with due := h.due ++ ps }

@[simp] theorem commit_nil (h : Handover π) : h.commit [] = h := by
  unfold commit
  rw [List.append_nil]

variable [DecidableEq π]

/-- The one call for a job that is due. What is delivered is taken, unless the broker has
the same job. -/
def hand (same : π → π → Bool) (h : Handover π) (p : π) (delivered : Bool) : Handover π :=
  if p ∈ h.due then
    { due := h.due.erase p
      held := if delivered ∧ !h.held.any (same p) then h.held ++ [p] else h.held }
  else h

variable {same : π → π → Bool} {h : Handover π} {p q : π} {delivered : Bool}

theorem held_hand_mono (hq : q ∈ h.held) : q ∈ (h.hand same p delivered).held := by
  unfold hand
  split
  · dsimp only
    split
    · exact List.mem_append_left _ hq
    · exact hq
  · exact hq

/-- The broker holds nothing that was not due. -/
theorem mem_held_hand (hq : q ∈ (h.hand same p delivered).held) :
    q ∈ h.held ∨ q = p ∧ p ∈ h.due ∧ delivered = true := by
  unfold hand at hq
  split at hq
  · rename_i hdue
    dsimp only at hq
    split at hq
    · rename_i htaken
      rcases List.mem_append.mp hq with hq | hq
      · exact .inl hq
      · exact .inr ⟨List.mem_singleton.mp hq, hdue, htaken.1⟩
    · exact .inl hq
  · exact .inl hq

theorem mem_due_hand (hq : q ∈ (h.hand same p delivered).due) : q ∈ h.due := by
  unfold hand at hq
  split at hq
  · exact List.mem_of_mem_erase hq
  · exact hq

/-- A call settles no job but its own. -/
theorem due_hand_of_ne (hq : q ∈ h.due) (hne : q ≠ p) : q ∈ (h.hand same p delivered).due := by
  unfold hand
  split
  · exact (List.mem_erase_of_ne hne).mpr hq
  · exact hq

variable (same) in
/-- A delivered job is held, or one the broker counts as the same. -/
theorem held_hand (hp : p ∈ h.due) : ∃ q ∈ (h.hand same p true).held, q = p ∨ same p q = true := by
  unfold hand
  rw [if_pos hp]
  by_cases htaken : h.held.any (same p) = true
  · obtain ⟨q, hq, hsame⟩ := List.any_eq_true.mp htaken
    exact ⟨q, by simp [htaken, hq], .inr hsame⟩
  · exact ⟨p, by simp [htaken], .inl rfl⟩

end Handover

end Foundation
