import MediaService.Foundation.Forest
import MediaService.Foundation.Loop

/-! The two walks of a forest as loops. A climb goes from parent to parent as long as there is
a row it has not seen, a descent takes the last of its pending entries and pushes its children.
Both end on every finite set of rows, cycles and missing parents included, and meet what the
bounded recursions meet. -/

namespace Foundation

open Loop

variable {ι ρ ε α : Type*} [DecidableEq ι]

/-! ### Climbing -/

/-- A chain and its closure: what a climb with enough fuel has met is closed under parents. -/
theorem climb_closed {next : ι → Option ι} {ids : List ι} (hids : ∀ a b, next a = some b → a ∈ ids)
    {fuel : ℕ} (start : Option ι) {seen : List ι} (hnodup : seen.Nodup) (hseen : seen ⊆ ids)
    (hfuel : ids.length + 1 ≤ fuel + seen.length) :
    (∀ a, start = some a → a ∈ seen ∨ a ∈ climb next fuel start seen) ∧
      ∀ e ∈ climb next fuel start seen, ∀ b, next e = some b →
        b ∈ seen ∨ b ∈ climb next fuel start seen := by
  induction fuel generalizing start seen with
  | zero =>
    have := (List.subperm_of_subset hnodup hseen).length_le
    omega
  | succ fuel ih =>
    cases start with
    | none => simp [climb]
    | some a =>
      rw [climb]
      split_ifs with ha
      · simp [ha]
      · refine ⟨by simp, fun e he b hb => ?_⟩
        by_cases hrow : a ∈ ids
        · obtain ⟨hstart, hclosed⟩ := ih (next a) (List.nodup_cons.mpr ⟨ha, hnodup⟩)
            (List.cons_subset.mpr ⟨hrow, hseen⟩) (by rw [List.length_cons]; omega)
          have hmet : b ∈ a :: seen ∨ b ∈ climb next fuel (next a) (a :: seen) := by
            rcases List.mem_cons.mp he with rfl | he
            · exact hstart b hb
            · exact hclosed e he b hb
          simp only [List.mem_cons] at hmet ⊢
          tauto
        · -- Without a row there is no parent, and the climb is over.
          have hnone : next a = none := by
            cases hn : next a with
            | none => rfl
            | some c => exact absurd (hids a c hn) hrow
          rw [hnone, climb_none, List.mem_singleton] at he
          rw [he, hnone] at hb
          cases hb

theorem reach_of_mem_climb {next : ι → Option ι} {a x : ι} {fuel : ℕ} {seen : List ι}
    (hx : x ∈ climb next fuel (some a) seen) :
    Relation.ReflTransGen (fun a b => next a = some b) a x := by
  induction fuel generalizing a seen with
  | zero => cases hx
  | succ fuel ih =>
    rw [climb] at hx
    split_ifs at hx with ha
    · cases hx
    · rcases List.mem_cons.mp hx with rfl | hx
      · exact .refl
      · cases hn : next a with
        | none =>
          rw [hn, climb_none] at hx
          cases hx
        | some b =>
          rw [hn] at hx
          exact .head hn (ih hx)

/-- The climb meets exactly the chain of parents. -/
theorem mem_climb {next : ι → Option ι} {ids : List ι} (hids : ∀ a b, next a = some b → a ∈ ids)
    {fuel : ℕ} (hfuel : ids.length + 1 ≤ fuel) {a x : ι} :
    x ∈ climb next fuel (some a) [] ↔ Relation.ReflTransGen (fun a b => next a = some b) a x := by
  refine ⟨reach_of_mem_climb, fun h => ?_⟩
  obtain ⟨hstart, hclosed⟩ := climb_closed hids (some a) List.nodup_nil (List.nil_subset _) hfuel
  induction h with
  | refl => exact (hstart a rfl).resolve_left List.not_mem_nil
  | tail _ hb ih => exact (hclosed _ ih _ hb).resolve_left List.not_mem_nil

/-- The variables of a climb. -/
structure Climb (ι α : Type*) where
  seen : List ι
  current : Option ι
  acc : α

/-- `while current is not None and current in rows and current not in seen`. -/
def climbBody (find : ι → Option ρ) (parent : ρ → Option ι) (add : α → ρ → α) (s : Climb ι α) :
    Climb ι α ⊕ α :=
  match s.current with
  | none => .inr s.acc
  | some a =>
    match find a with
    | none => .inr s.acc
    | some row => if a ∈ s.seen then .inr s.acc else .inl ⟨a :: s.seen, parent row, add s.acc row⟩

variable {find : ι → Option ρ} {parent : ρ → Option ι} {add : α → ρ → α}

theorem climbBody_marks : Marks (climbBody find parent add) Climb.current Climb.seen := by
  intro s s' h
  rw [climbBody] at h
  split at h
  · cases h
  · rename_i a ha
    split at h
    · cases h
    · split_ifs at h
      obtain rfl := Sum.inl.inj h
      refine ⟨fun b hb => ?_, List.subset_cons_self a _⟩
      rw [ha] at hb
      obtain rfl := Option.some.inj hb
      exact List.mem_cons_self

/-- The loop ends on every finite set of rows, having added the rows of the climb. -/
theorem runs_climbBody {ids : List ι} (hids : ∀ a row, find a = some row → a ∈ ids) {fuel : ℕ}
    (s : Climb ι α) (hnodup : s.seen.Nodup) (hseen : s.seen ⊆ ids)
    (hfuel : ids.length + 1 ≤ fuel + s.seen.length) :
    ∃ ss, Runs (climbBody find parent add) s ss
      (((climb (fun a => (find a).bind parent) fuel s.current s.seen).filterMap find).foldl add
        s.acc) := by
  obtain ⟨seen, current, acc⟩ := s
  dsimp only at hnodup hseen hfuel ⊢
  induction fuel generalizing seen current acc with
  | zero =>
    have := (List.subperm_of_subset hnodup hseen).length_le
    omega
  | succ fuel ih =>
    cases current with
    | none => exact ⟨_, .stop rfl⟩
    | some a =>
      rw [climb]
      split_ifs with ha
      · refine ⟨_, .stop ?_⟩
        rw [climbBody]
        cases hrow : find a with
        | none => simp [hrow]
        | some row => simp [hrow, ha]
      · cases hrow : find a with
        | none =>
          refine ⟨_, .stop ?_⟩
          simp [climbBody, hrow, climb_none]
        | some row =>
          obtain ⟨ss, hss⟩ := ih (a :: seen) (parent row) (add acc row)
            (List.nodup_cons.mpr ⟨ha, hnodup⟩) (List.cons_subset.mpr ⟨hids a row hrow, hseen⟩)
            (by rw [List.length_cons]; omega)
          rw [List.filterMap_cons, hrow, Option.bind_some, List.foldl_cons]
          refine ⟨_, .next ?_ hss⟩
          simp [climbBody, hrow, ha]

/-! ### Descending -/

/-- The variables of a descent. -/
structure Descent (ε ι α : Type*) where
  pending : List ε
  seen : List ι
  acc : α

/-- The entry that is popped next. -/
def Descent.here (key : ε → ι) (s : Descent ε ι α) : Option ι := s.pending.head?.map key

/-- `while pending`, with what an entry pushes and what a first visit adds. -/
def descendBody (key : ε → ι) (expand : ε → List ε) (add : α → ε → α) (s : Descent ε ι α) :
    Descent ε ι α ⊕ α :=
  match s.pending with
  | [] => .inr s.acc
  | e :: pending =>
    if key e ∈ s.seen then .inl { s with pending := pending }
    else .inl ⟨(expand e).reverse ++ pending, key e :: s.seen, add s.acc e⟩

variable {key : ε → ι} {expand : ε → List ε} {put : α → ε → α}

theorem descendBody_marks :
    Marks (descendBody key expand put) (Descent.here key) Descent.seen := by
  intro s s' h
  rw [descendBody] at h
  split at h
  · cases h
  · rename_i e pending hpending
    have hhere : ∀ a, s.here key = some a → a = key e := by
      intro a ha
      rw [Descent.here, hpending] at ha
      exact (Option.some.inj ha).symm
    split_ifs at h with hseen
    · obtain rfl := Sum.inl.inj h
      exact ⟨fun a ha => hhere a ha ▸ hseen, List.Subset.refl _⟩
    · obtain rfl := Sum.inl.inj h
      exact ⟨fun a ha => hhere a ha ▸ List.mem_cons_self, List.subset_cons_self _ _⟩

/-- The loop ends on every finite set of edges, having added the entries of the exploration;
`entry` makes an entry of an id and its height. -/
theorem runs_descendBody {children : ι → List ι} {edges : List (ι × ι)} {entry : ι × ℕ → ε}
    (hkey : ∀ p, key (entry p) = p.1)
    (hexpand : ∀ p, expand (entry p) = (children p.1).map fun c => entry (c, p.2 + 1))
    (hchildren : ∀ a, children a = (edges.filter (·.1 = a)).map Prod.snd) {fuel : ℕ}
    (pending : List (ι × ℕ)) (seen : List ι) (acc : α)
    (hfuel : exploreCost edges pending seen ≤ fuel) :
    ∃ ss, Runs (descendBody key expand put) ⟨pending.map entry, seen, acc⟩ ss
      (((explore children fuel pending seen).map entry).foldl put acc) := by
  induction fuel generalizing pending seen acc with
  | zero =>
    cases pending with
    | nil => exact ⟨_, .stop rfl⟩
    | cons e es => simp [exploreCost] at hfuel
  | succ fuel ih =>
    cases pending with
    | nil => exact ⟨_, .stop rfl⟩
    | cons e pending =>
      obtain ⟨a, height⟩ := e
      rw [explore, List.map_cons]
      by_cases ha : a ∈ seen
      · rw [if_pos ha]
        obtain ⟨ss, hss⟩ := ih pending seen acc (by simp [exploreCost] at hfuel ⊢; omega)
        refine ⟨_, .next ?_ hss⟩
        simp [descendBody, hkey, ha]
      · rw [if_neg ha]
        have hcost := exploreCost_visit hchildren height pending ha
        obtain ⟨ss, hss⟩ := ih ((children a).reverse.map (fun c => (c, height + 1)) ++ pending)
          (a :: seen) (put acc (entry (a, height))) (by omega)
        refine ⟨_, .next ?_ hss⟩
        simp [descendBody, hkey, ha, hexpand, Function.comp_def]

end Foundation
