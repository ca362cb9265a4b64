import Mathlib.Data.List.Basic

/-! Loops as their bodies. A body goes on with a new state or ends the loop with a result. A
run lists the states the body is entered with, so a loop that has a run terminates, with this
result and no other. A loop that marks what it has seen visits nothing twice. -/

namespace Foundation.Loop

variable {σ β ι : Type*} {body : σ → σ ⊕ β}

/-- From `s` the loop enters its body with the states `ss` and ends with `r`. -/
inductive Runs (body : σ → σ ⊕ β) : σ → List σ → β → Prop
  | stop {s : σ} {r : β} : body s = .inr r → Runs body s [s] r
  | next {s s' : σ} {ss : List σ} {r : β} :
      body s = .inl s' → Runs body s' ss r → Runs body s (s :: ss) r

theorem Runs.unique {s : σ} {ss ss' : List σ} {r r' : β} (h : Runs body s ss r)
    (h' : Runs body s ss' r') : ss = ss' ∧ r = r' := by
  induction h generalizing ss' with
  | stop hb =>
    cases h' with
    | stop hb' =>
      rw [hb] at hb'
      exact ⟨rfl, Sum.inr.inj hb'⟩
    | next hb' _ =>
      rw [hb] at hb'
      cases hb'
  | next hb _ ih =>
    cases h' with
    | stop hb' =>
      rw [hb] at hb'
      cases hb'
    | next hb' hrest =>
      rw [hb] at hb'
      obtain rfl := Sum.inl.inj hb'
      obtain ⟨rfl, rfl⟩ := ih hrest
      exact ⟨rfl, rfl⟩

/-! ### Visits -/

variable [DecidableEq ι] {here : σ → Option ι} {seen : σ → List ι}

/-- What the states have at hand and have not seen before. -/
def visits (here : σ → Option ι) (seen : σ → List ι) (ss : List σ) : List ι :=
  ss.filterMap fun s => (here s).filter fun a => a ∉ seen s

/-- A body that goes on has seen what it had at hand, and all it had seen before. -/
def Marks (body : σ → σ ⊕ β) (here : σ → Option ι) (seen : σ → List ι) : Prop :=
  ∀ s s', body s = .inl s' → (∀ a, here s = some a → a ∈ seen s') ∧ seen s ⊆ seen s'

theorem Runs.visits_fresh (hmarks : Marks body here seen) {s : σ} {ss : List σ} {r : β}
    (h : Runs body s ss r) :
    (visits here seen ss).Nodup ∧ ∀ a ∈ visits here seen ss, a ∉ seen s := by
  have hhead : ∀ s : σ, ∀ a, (here s).filter (fun a => a ∉ seen s) = some a →
      here s = some a ∧ a ∉ seen s := by
    intro s a ha
    rw [Option.filter_eq_some_iff] at ha
    exact ⟨ha.1, of_decide_eq_true ha.2⟩
  induction h with
  | @stop s r hb =>
    rw [visits, List.filterMap_cons]
    cases hs : (here s).filter (fun a => a ∉ seen s) with
    | none => simp
    | some a =>
      obtain ⟨-, hnew⟩ := hhead s a hs
      simpa using hnew
  | @next s s' ss r hb _ ih =>
    obtain ⟨hat, hgrow⟩ := hmarks s s' hb
    obtain ⟨hnodup, hout⟩ := ih
    have hold : ∀ a ∈ visits here seen ss, a ∉ seen s := fun a ha hs => hout a ha (hgrow hs)
    rw [visits, List.filterMap_cons, ← visits]
    cases hs : (here s).filter (fun a => a ∉ seen s) with
    | none => exact ⟨hnodup, hold⟩
    | some a =>
      obtain ⟨hnow, hnew⟩ := hhead s a hs
      exact ⟨List.nodup_cons.mpr ⟨fun ha => hout a ha (hat a hnow), hnodup⟩,
        List.forall_mem_cons.mpr ⟨hnew, hold⟩⟩

end Foundation.Loop
