import Mathlib.Data.List.Basic
import Mathlib.Order.Basic
import Mathlib.Tactic.Tauto

/-! Runs of a system. A step function has one run for every list of actions.
`Always` asks a property of every state a run visits, `Guarded` a condition of
every step it takes, and `always_iff_guarded` trades one for the other when a
single step does. -/

namespace Foundation

/-! ### Runs of a step function -/

section Run

variable {σ α : Type*} (step : σ → α → σ)

/-- The state after the actions, taken in order. -/
def run (s : σ) (as : List α) : σ := as.foldl step s

@[simp] theorem run_nil (s : σ) : run step s [] = s := rfl

@[simp] theorem run_cons (s : σ) (a : α) (as : List α) :
    run step s (a :: as) = run step (step s a) as := rfl

theorem run_append (s : σ) (as bs : List α) :
    run step s (as ++ bs) = run step (run step s as) bs :=
  List.foldl_append

theorem run_replicate_of_eq {s : σ} {a : α} (h : step s a = s) (n : ℕ) :
    run step s (List.replicate n a) = s := by
  induction n with
  | zero => rfl
  | succ n ih => rw [List.replicate_succ, run_cons, h, ih]

/-- `P` holds at the start and after every step. -/
def Always (P : σ → Prop) : σ → List α → Prop
  | s, [] => P s
  | s, a :: as => P s ∧ Always P (step s a) as

/-- `C` holds of every step, in the state it is taken from. -/
def Guarded (C : σ → α → Prop) : σ → List α → Prop
  | _, [] => True
  | s, a :: as => C s a ∧ Guarded C (step s a) as

instance decidableAlways (P : σ → Prop) [DecidablePred P] :
    (s : σ) → (as : List α) → Decidable (Always step P s as)
  | s, [] => inferInstanceAs (Decidable (P s))
  | s, a :: as => @instDecidableAnd _ _ _ (decidableAlways P (step s a) as)

instance decidableGuarded (C : σ → α → Prop) [∀ s a, Decidable (C s a)] :
    (s : σ) → (as : List α) → Decidable (Guarded step C s as)
  | _, [] => inferInstanceAs (Decidable True)
  | s, a :: as => @instDecidableAnd _ _ _ (decidableGuarded C (step s a) as)

variable {step}

theorem Always.head {P : σ → Prop} {s : σ} {as : List α} (h : Always step P s as) : P s := by
  cases as with
  | nil => exact h
  | cons a as => exact h.1

/-- `Always` speaks of every initial part of the run. -/
theorem always_iff_run {P : σ → Prop} {s : σ} {as : List α} :
    Always step P s as ↔ ∀ bs cs, as = bs ++ cs → P (run step s bs) := by
  induction as generalizing s with
  | nil =>
    constructor
    · intro h bs cs hbc
      rw [(List.append_eq_nil_iff.mp hbc.symm).1]
      exact h
    · exact fun h => h [] [] rfl
  | cons a as ih =>
    constructor
    · rintro ⟨hs, htail⟩ bs cs hbc
      cases bs with
      | nil => exact hs
      | cons b bs =>
        obtain ⟨rfl, htl⟩ := List.cons_eq_cons.mp hbc
        exact ih.mp htail bs cs htl
    · intro h
      refine ⟨h [] (a :: as) rfl, ih.mpr fun bs cs hbc => ?_⟩
      exact h (a :: bs) cs (by rw [hbc, List.cons_append])

theorem Always.last {P : σ → Prop} {s : σ} {as : List α} (h : Always step P s as) :
    P (run step s as) :=
  always_iff_run.mp h as [] (List.append_nil as).symm

theorem Always.mono {P Q : σ → Prop} (h : ∀ s, P s → Q s) {s : σ} {as : List α}
    (hP : Always step P s as) : Always step Q s as := by
  induction as generalizing s with
  | nil => exact h s hP
  | cons a as ih => exact ⟨h s hP.1, ih hP.2⟩

theorem Guarded.mono {C D : σ → α → Prop} (h : ∀ s a, C s a → D s a) {s : σ} {as : List α}
    (hC : Guarded step C s as) : Guarded step D s as := by
  induction as generalizing s with
  | nil => trivial
  | cons a as ih => exact ⟨h s a hC.1, ih hC.2⟩

/-- What a property of the states gives of every step taken from one. -/
theorem Always.guarded {P : σ → Prop} {C : σ → α → Prop} (h : ∀ s a, P s → C s a) {s : σ}
    {as : List α} (hP : Always step P s as) : Guarded step C s as := by
  induction as generalizing s with
  | nil => trivial
  | cons a as ih => exact ⟨h s a hP.1, ih hP.2⟩

/-- A condition on the actions alone holds of every step of the run. -/
theorem guarded_of_forall {C : σ → α → Prop} {as : List α} (h : ∀ a ∈ as, ∀ s, C s a) (s : σ) :
    Guarded step C s as := by
  induction as generalizing s with
  | nil => trivial
  | cons a as ih =>
    exact ⟨h a List.mem_cons_self s, ih (fun b hb => h b (List.mem_cons_of_mem a hb)) _⟩

/-- An invariant of one step, under a condition on the step, is one of the run. -/
theorem always_of_step {I : σ → Prop} {C : σ → α → Prop}
    (hstep : ∀ s a, I s → C s a → I (step s a)) {s : σ} {as : List α} (hs : I s)
    (hC : Guarded step C s as) : Always step I s as := by
  induction as generalizing s with
  | nil => exact hs
  | cons a as ih => exact ⟨hs, ih (hstep s a hs hC.1) hC.2⟩

theorem always_of_inv {I : σ → Prop} (hstep : ∀ s a, I s → I (step s a)) {s : σ} (hs : I s)
    (as : List α) : Always step I s as :=
  always_of_step (C := fun _ _ => True) (fun s a h _ => hstep s a h) hs
    (guarded_of_forall (fun _ _ _ => trivial) s)

/-- Some step of the run meets `E`, in the state it is taken from. -/
def Occurs (step : σ → α → σ) (E : σ → α → Prop) (s : σ) (as : List α) : Prop :=
  ∃ as₁ a as₂, as = as₁ ++ a :: as₂ ∧ E (run step s as₁) a

theorem not_occurs_nil {E : σ → α → Prop} {s : σ} : ¬ Occurs step E s [] := by
  rintro ⟨as₁, a, as₂, he, -⟩
  exact List.cons_ne_nil _ _ (List.append_eq_nil_iff.mp he.symm).2

theorem occurs_cons {E : σ → α → Prop} {s : σ} {a : α} {as : List α} :
    Occurs step E s (a :: as) ↔ E s a ∨ Occurs step E (step s a) as := by
  constructor
  · rintro ⟨as₁, b, as₂, he, hE⟩
    cases as₁ with
    | nil =>
      cases he
      exact .inl hE
    | cons c as₁ =>
      cases he
      exact .inr ⟨as₁, b, as₂, rfl, hE⟩
  · rintro (hE | ⟨as₁, b, as₂, rfl, hE⟩)
    · exact ⟨[], a, as, rfl, hE⟩
    · exact ⟨a :: as₁, b, as₂, rfl, hE⟩

/-- The run is in `P` up to a step that meets `E`, and in `Q` from there on. -/
def Switches (step : σ → α → σ) (P Q : σ → Prop) (E : σ → α → Prop) (s : σ) (as : List α) : Prop :=
  ∃ as₁ a as₂, as = as₁ ++ a :: as₂ ∧ Always step P s as₁ ∧ E (run step s as₁) a ∧
    Always step Q (step (run step s as₁) a) as₂

/-- Where `P` lasts until a step that meets `E` leaves `Q`, which lasts for good, a run
keeps `P` throughout or ends in `Q`. -/
theorem always_or_switches {I P Q : σ → Prop} {E : σ → α → Prop}
    (hinv : ∀ s a, I s → I (step s a))
    (hstep : ∀ s a, I s → P s → P (step s a) ∨ E s a ∧ Q (step s a))
    (hlast : ∀ s a, I s → Q s → Q (step s a)) {s : σ} (hs : I s) (hP : P s) (as : List α) :
    Always step P s as ∨ Switches step P Q E s as := by
  have hquit : ∀ (as : List α) s, I s → Q s → Always step Q s as := by
    intro as
    induction as with
    | nil => exact fun s _ hQ => hQ
    | cons a as ih => exact fun s hs hQ => ⟨hQ, ih _ (hinv s a hs) (hlast s a hs hQ)⟩
  induction as generalizing s with
  | nil => exact .inl hP
  | cons a as ih =>
    rcases hstep s a hs hP with hP' | ⟨hE, hQ⟩
    · rcases ih (hinv s a hs) hP' with h | ⟨as₁, b, as₂, rfl, h₁, hb, h₂⟩
      · exact .inl ⟨hP, h⟩
      · exact .inr ⟨a :: as₁, b, as₂, rfl, ⟨hP, h₁⟩, hb, h₂⟩
    · exact .inr ⟨[], a, as, rfl, hP, hE, hquit as _ (hinv s a hs) hQ⟩

/-- Where one admissible step keeps `P` exactly under `C`, a run of admissible
steps keeps `P` throughout exactly when each of its steps meets `C`. -/
theorem always_iff_guarded {I P : σ → Prop} {A C : σ → α → Prop}
    (hinv : ∀ s a, I s → P s → A s a → C s a → I (step s a))
    (hstep : ∀ s a, I s → P s → A s a → (P (step s a) ↔ C s a))
    {s : σ} {as : List α} (hs : I s) (hP : P s) (hA : Guarded step A s as) :
    Always step P s as ↔ Guarded step C s as := by
  induction as generalizing s with
  | nil => exact ⟨fun _ => trivial, fun _ => hP⟩
  | cons a as ih =>
    constructor
    · rintro ⟨-, htail⟩
      have hC := (hstep s a hs hP hA.1).mp htail.head
      exact ⟨hC, (ih (hinv s a hs hP hA.1 hC) htail.head hA.2).mp htail⟩
    · rintro ⟨hC, htail⟩
      have hP' := (hstep s a hs hP hA.1).mpr hC
      exact ⟨hP, (ih (hinv s a hs hP hA.1 hC) hP' hA.2).mpr htail⟩

/-- Where a step keeps `P` exactly under `C` and nothing restores `P`, a run ends
in `P` exactly when it starts there and each of its steps meets `C`. -/
theorem run_iff_guarded {I P : σ → Prop} {C : σ → α → Prop}
    (hinv : ∀ s a, I s → I (step s a)) (hstep : ∀ s a, I s → (P (step s a) ↔ P s ∧ C s a))
    {s : σ} {as : List α} (hs : I s) :
    P (run step s as) ↔ P s ∧ Guarded step C s as := by
  induction as generalizing s with
  | nil => exact ⟨fun h => ⟨h, trivial⟩, And.left⟩
  | cons a as ih =>
    rw [run_cons, ih (hinv s a hs), hstep s a hs, and_assoc]
    rfl

/-- Steps that meet `C` beside the steps of another system stay beside its run. -/
theorem run_simulates {τ β : Type*} {step' : τ → β → τ} {f : α → β} {R : σ → τ → Prop}
    {C : σ → α → Prop} (hstep : ∀ s t a, R s t → C s a → R (step s a) (step' t (f a)))
    {s : σ} {t : τ} (h : R s t) {as : List α} (hC : Guarded step C s as) :
    R (run step s as) (run step' t (as.map f)) := by
  induction as generalizing s t with
  | nil => exact h
  | cons a as ih => exact ih (hstep s t a h hC.1) hC.2

/-- What the other system's steps meet, they ask of the steps beside them. -/
theorem Guarded.simulates {τ β : Type*} {step' : τ → β → τ} {g : β → α} {R : σ → τ → Prop}
    {C : σ → α → Prop} {D : τ → β → Prop}
    (hstep : ∀ s t b, R s t → D t b → C s (g b) ∧ R (step s (g b)) (step' t b))
    {s : σ} {t : τ} (h : R s t) {bs : List β} (hD : Guarded step' D t bs) :
    Guarded step C s (bs.map g) ∧ R (run step s (bs.map g)) (run step' t bs) := by
  induction bs generalizing s t with
  | nil => exact ⟨trivial, h⟩
  | cons b bs ih =>
    obtain ⟨hC, hR⟩ := hstep s t b h hD.1
    obtain ⟨htail, hrun⟩ := ih hR hD.2
    exact ⟨⟨hC, htail⟩, hrun⟩

/-! ### Counting along a run -/

/-- How many steps of the run meet `p`, in the state they are taken from. -/
def tally (step : σ → α → σ) (p : σ → α → Bool) : σ → List α → ℕ
  | _, [] => 0
  | s, a :: as => (p s a).toNat + tally step p (step s a) as

/-- A number that grows by one with every step that meets `p`, and with no other,
grows by their count. -/
theorem eq_add_tally {p : σ → α → Bool} {I : σ → Prop} {f : σ → ℕ}
    (hinv : ∀ s a, I s → I (step s a))
    (hstep : ∀ s a, I s → f (step s a) = f s + (p s a).toNat) {s : σ} (hs : I s) (as : List α) :
    f (run step s as) = f s + tally step p s as := by
  induction as generalizing s with
  | nil => rfl
  | cons a as ih =>
    rw [run_cons, ih (hinv s a hs), hstep s a hs, tally]
    omega

/-- A number that grows with every step that meets `p` and never shrinks grows by
their count exactly if no step adds anything else. -/
theorem eq_add_tally_iff {p : σ → α → Bool} {f : σ → ℕ}
    (hle : ∀ s a, f s + (p s a).toNat ≤ f (step s a)) {s : σ} {as : List α} :
    f (run step s as) = f s + tally step p s as ↔
      Guarded step (fun s a => f (step s a) = f s + (p s a).toNat) s as := by
  have hrun : ∀ (as : List α) (s : σ), f s + tally step p s as ≤ f (run step s as) := by
    intro as
    induction as with
    | nil => exact fun s => Nat.le_refl (f s)
    | cons a as ih =>
      intro s
      have hhead := hle s a
      have htail := ih (step s a)
      rw [run_cons, tally]
      omega
  induction as generalizing s with
  | nil => exact ⟨fun _ => trivial, fun _ => rfl⟩
  | cons a as ih =>
    have hhead := hle s a
    have htail := hrun as (step s a)
    have hrest := ih (s := step s a)
    rw [run_cons, tally]
    constructor
    · intro h
      exact ⟨by omega, hrest.mp (by omega)⟩
    · rintro ⟨hstep, hguard⟩
      have := hrest.mpr hguard
      omega

theorem guarded_forall {κ : Type*} {C : κ → σ → α → Prop} {s : σ} {as : List α} :
    (∀ k, Guarded step (C k) s as) ↔ Guarded step (fun s a => ∀ k, C k s a) s as := by
  induction as generalizing s with
  | nil => exact ⟨fun _ => trivial, fun _ _ => trivial⟩
  | cons a as ih =>
    simp only [Guarded, ← ih]
    exact forall_and

theorem guarded_and {C D : σ → α → Prop} {s : σ} {as : List α} :
    (Guarded step C s as ∧ Guarded step D s as) ↔
      Guarded step (fun s a => C s a ∧ D s a) s as := by
  induction as generalizing s with
  | nil => exact ⟨fun _ => trivial, fun _ => ⟨trivial, trivial⟩⟩
  | cons a as ih =>
    simp only [Guarded, ← ih]
    tauto

theorem guarded_congr {C D : σ → α → Prop} (h : ∀ s a, C s a ↔ D s a) {s : σ} {as : List α} :
    Guarded step C s as ↔ Guarded step D s as :=
  ⟨Guarded.mono fun s a => (h s a).mp, Guarded.mono fun s a => (h s a).mpr⟩

end Run

end Foundation
