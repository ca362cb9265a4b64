import Mathlib.Algebra.BigOperators.Group.Finset.Basic
import Mathlib.Logic.Function.Basic
import Mathlib.Tactic.Abel
import MediaService.Foundation.Run

/-! Parties that take turns on a shared state. Each stands at a place of its own
program, and a turn changes the shared state and the place of the party that
takes it, so a list of turns is one interleaving of the programs. A fact about
every party's place survives a turn when the party's own step restores it and
every other step leaves it alone. A party whose turns come in one piece behaves
as if it ran alone. -/

namespace Foundation

/-- The shared state, and where each party is in its program. -/
structure Parties (ι σ τ : Type*) where
  shared : σ
  place : ι → τ

section Turn

variable {ι σ τ α : Type*} [DecidableEq ι] (act : ι → σ → τ → α → σ × τ)

/-- One party's next step, taken with the input `m.2`. -/
def turn (s : Parties ι σ τ) (m : ι × α) : Parties ι σ τ :=
  ⟨(act m.1 s.shared (s.place m.1) m.2).1,
    Function.update s.place m.1 (act m.1 s.shared (s.place m.1) m.2).2⟩

variable {act}

@[simp] theorem turn_shared (s : Parties ι σ τ) (i : ι) (a : α) :
    (turn act s (i, a)).shared = (act i s.shared (s.place i) a).1 := rfl

@[simp] theorem turn_place_self (s : Parties ι σ τ) (i : ι) (a : α) :
    (turn act s (i, a)).place i = (act i s.shared (s.place i) a).2 := by
  simp [turn]

theorem turn_place_ne (s : Parties ι σ τ) {i j : ι} (h : j ≠ i) (a : α) :
    (turn act s (i, a)).place j = s.place j := by
  simp [turn, h]

/-- What holds of every party beside the shared state: a step restores it for the
party that takes it and leaves it alone for the others. -/
theorem turn_inv {G : σ → Prop} {L : ι → σ → τ → Prop}
    (hshared : ∀ i s t a, G s → L i s t → G (act i s t a).1)
    (hown : ∀ i s t a, G s → L i s t → L i (act i s t a).1 (act i s t a).2)
    (hother : ∀ i j s t u a, i ≠ j → G s → L i s t → L j s u → L j (act i s t a).1 u)
    {s : Parties ι σ τ} (hs : G s.shared ∧ ∀ i, L i s.shared (s.place i)) (m : ι × α) :
    G (turn act s m).shared ∧ ∀ i, L i (turn act s m).shared ((turn act s m).place i) := by
  obtain ⟨i, a⟩ := m
  obtain ⟨hG, hL⟩ := hs
  refine ⟨hshared i _ _ a hG (hL i), fun j => ?_⟩
  by_cases hj : j = i
  · subst hj
    rw [turn_place_self]
    exact hown j _ _ a hG (hL j)
  · rw [turn_place_ne s hj]
    exact hother i j _ _ _ a (Ne.symm hj) hG (hL i) (hL j)

/-- Turns of one party in a row are a run of its program alone. -/
theorem run_turn_alone (s : Parties ι σ τ) (i : ι) (as : List α) :
    run (turn act) s (as.map fun a => (i, a)) =
      ⟨(run (fun p a => act i p.1 p.2 a) (s.shared, s.place i) as).1,
        Function.update s.place i
          (run (fun p a => act i p.1 p.2 a) (s.shared, s.place i) as).2⟩ := by
  induction as generalizing s with
  | nil => simp
  | cons a as ih =>
    rw [List.map_cons, run_cons, ih, run_cons, turn_shared, turn_place_self]
    congr 1
    simp [turn]

/-- Parties that take their turns one after the other, each all of its own: what
one party's turns do from its place is what they do to each. -/
theorem run_each (act : ι → σ → τ → α → σ × τ) (R : σ → Prop) (p p' : ι → τ) (as : List α)
    (halone : ∀ i s, R s → R (run (fun q a => act i q.1 q.2 a) (s, p i) as).1 ∧
      (run (fun q a => act i q.1 q.2 a) (s, p i) as).2 = p' i)
    {l : List ι} (hl : l.Nodup) (s : Parties ι σ τ) (hs : R s.shared)
    (hp : ∀ i ∈ l, s.place i = p i) :
    R (run (turn act) s (l.flatMap fun i => as.map fun a => (i, a))).shared ∧
      ∀ j, (run (turn act) s (l.flatMap fun i => as.map fun a => (i, a))).place j =
        if j ∈ l then p' j else s.place j := by
  induction l generalizing s with
  | nil => exact ⟨hs, fun j => rfl⟩
  | cons i l ih =>
    obtain ⟨hi, hl⟩ := List.nodup_cons.mp hl
    have hplace := hp i List.mem_cons_self
    obtain ⟨hR, hend⟩ := halone i s.shared hs
    rw [← hplace] at hR hend
    obtain ⟨hR', hplaces⟩ := ih hl
      (run (turn act) s (as.map fun a => (i, a))) (by rw [run_turn_alone]; exact hR) (by
        intro j hj
        have hne : j ≠ i := fun he => hi (he ▸ hj)
        rw [run_turn_alone]
        simp only [Function.update_of_ne hne]
        exact hp j (List.mem_cons_of_mem i hj))
    rw [List.flatMap_cons, run_append]
    refine ⟨hR', fun j => ?_⟩
    rw [hplaces j, run_turn_alone]
    by_cases hj : j = i
    · subst hj
      simp [hi, hend]
    · simp [hj]

/-- A sum over the places changes by what the turn changes of its party's. -/
theorem sum_place_turn {M : Type*} [AddCommGroup M] [Fintype ι] (f : τ → M) (s : Parties ι σ τ)
    (i : ι) (a : α) :
    ∑ j, f ((turn act s (i, a)).place j) =
      ∑ j, f (s.place j) + (f (act i s.shared (s.place i) a).2 - f (s.place i)) := by
  have hrest : ∑ j ∈ Finset.univ.erase i, f ((turn act s (i, a)).place j) =
      ∑ j ∈ Finset.univ.erase i, f (s.place j) :=
    Finset.sum_congr rfl fun j hj => by rw [turn_place_ne s (Finset.ne_of_mem_erase hj)]
  rw [← Finset.add_sum_erase _ _ (Finset.mem_univ i), hrest, turn_place_self,
    ← Finset.add_sum_erase Finset.univ (fun j => f (s.place j)) (Finset.mem_univ i)]
  abel

end Turn

/-! ### Two programs -/

/-- Two parties with programs of their own. -/
structure Duo (σ τ υ : Type*) where
  shared : σ
  left : τ
  right : υ

section Duo

variable {σ τ υ α : Type*} (left : σ → τ → α → σ × τ) (right : σ → υ → α → σ × υ)

/-- The next step of the left party or of the right one, with the input `m.2`. -/
def duoTurn (s : Duo σ τ υ) : Bool × α → Duo σ τ υ
  | (false, a) => { s with
      shared := (left s.shared s.left a).1
      left := (left s.shared s.left a).2 }
  | (true, a) => { s with
      shared := (right s.shared s.right a).1
      right := (right s.shared s.right a).2 }

variable {left right}

/-- What either party's step restores, under a condition on the step, holds
throughout a run of such steps. -/
theorem always_duo {I : σ → τ → υ → Prop} {C : Duo σ τ υ → Bool × α → Prop}
    (hleft : ∀ s a, I s.shared s.left s.right → C s (false, a) →
      I (left s.shared s.left a).1 (left s.shared s.left a).2 s.right)
    (hright : ∀ s a, I s.shared s.left s.right → C s (true, a) →
      I (right s.shared s.right a).1 s.left (right s.shared s.right a).2)
    {s : Duo σ τ υ} {ms : List (Bool × α)} (hs : I s.shared s.left s.right)
    (hC : Guarded (duoTurn left right) C s ms) :
    Always (duoTurn left right) (fun s => I s.shared s.left s.right) s ms := by
  refine always_of_step (C := C) (fun s m h hm => ?_) hs hC
  obtain ⟨i, a⟩ := m
  cases i with
  | false => exact hleft s a h hm
  | true => exact hright s a h hm

end Duo

end Foundation
