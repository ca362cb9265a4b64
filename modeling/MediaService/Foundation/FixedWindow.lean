import MediaService.Foundation.Counters

/-! Admission by a counter that expires. Whoever counts up to the limit is let in, so a
running counter lets in what it has left and the next one a full limit. A counter that
starts inside a span no longer than its window outlives the span, so there is no third. -/

namespace Foundation

namespace Counters

variable {κ : Type*} {s s' : Counters κ} {k : κ} {c : Counter} {limit : ℕ}

/-- How many more the running counter lets in. -/
def left (s : Counters κ) (k : κ) (limit : ℕ) : ℕ :=
  (s.get k).elim 0 fun c => limit - c.count

theorem left_of_none (h : s.get k = none) (limit : ℕ) : s.left k limit = 0 := by
  rw [left, h]
  rfl

theorem left_of_some (h : s.get k = some c) (limit : ℕ) : s.left k limit = limit - c.count := by
  rw [left, h]
  rfl

theorem left_congr (h : s'.get k = s.get k) (limit : ℕ) : s'.left k limit = s.left k limit := by
  rw [left, left, h]

theorem left_tick_le (s : Counters κ) (k : κ) (limit elapsed : ℕ) :
    (s.tick elapsed).left k limit ≤ s.left k limit := by
  cases h : (s.tick elapsed).get k with
  | none => rw [left_of_none h]; exact Nat.zero_le _
  | some c =>
    exact Nat.le_of_eq ((left_of_some h limit).trans (left_of_some (get_of_get_tick h) limit).symm)

/-- A counter stays until the time that is set for it. -/
theorem get_tick_of_le {elapsed : ℕ} {horizon : ℤ} (h : s.get k = some c)
    (ht : ∀ t, c.expiresAt = some t → horizon ≤ t) (hnow : (s.tick elapsed).now < horizon) :
    (s.tick elapsed).get k = some c := by
  refine Option.filter_eq_some_iff.mpr ⟨(Option.filter_eq_some_iff.mp h).1, ?_⟩
  unfold Counter.alive
  cases hc : c.expiresAt with
  | none => rfl
  | some t =>
    rw [Option.all_some, decide_eq_true_eq]
    exact lt_of_lt_of_le hnow (ht t hc)

variable [DecidableEq κ]

/-- What one more takes of what is left, where a counter is running. -/
theorem left_incr_of_some (h : s.get k = some c) (limit : ℕ) :
    (s.incr k).1.left k limit + (decide ((s.counted k).count ≤ limit)).toNat = s.left k limit := by
  rw [left_of_some (get_incr_self s k), left_of_some h, counted_of_some h]
  by_cases hle : c.count + 1 ≤ limit
  · simp only [hle, decide_true, Bool.toNat_true]
    omega
  · simp only [hle, decide_false, Bool.toNat_false]
    omega

/-- A counter that starts has all of the limit to give. -/
theorem left_incr_of_none (h : s.get k = none) (limit : ℕ) :
    (s.incr k).1.left k limit + (decide ((s.counted k).count ≤ limit)).toNat ≤ limit := by
  rw [left_of_some (get_incr_self s k), counted_of_none h]
  by_cases hle : 1 ≤ limit
  · simp only [hle, decide_true, Bool.toNat_true]
    omega
  · simp only [hle, decide_false, Bool.toNat_false]
    omega

theorem get_expire_self {duration : ℤ} (h : s.get k = some c) (hd : 0 < duration) :
    (s.expire k duration).get k = some { c with expiresAt := some (s.now + duration) } := by
  unfold expire
  rw [h]
  refine get_set_self ?_
  simp only [Counter.alive, Option.all_some, decide_eq_true_eq]
  omega

theorem left_expire_le (s : Counters κ) (k : κ) (duration : ℤ) (limit : ℕ) :
    (s.expire k duration).left k limit ≤ s.left k limit := by
  cases h : (s.expire k duration).get k with
  | none => rw [left_of_none h]; exact Nat.zero_le _
  | some c =>
    obtain ⟨-, c', hc', hcount⟩ := of_get_expire h
    exact Nat.le_of_eq ((left_of_some h limit).trans
      ((congrArg (limit - ·) hcount.symm).trans (left_of_some hc' limit).symm))

/-! ### The budget of a span -/

/-- So many were let in, and what is left lets in no more than the allowance in all: that
of the counter that ran at first, and after it that of one more, which outlives the
span. -/
inductive Budget (k : κ) (limit : ℕ) (horizon : ℤ) (allowance : ℕ) (s : Counters κ)
    (admitted : ℕ) : Prop
  | running : admitted + s.left k limit ≤ allowance → Budget k limit horizon allowance s admitted
  | renewed {c' : Counter} : admitted + s.left k limit ≤ allowance + limit → s.get k = some c' →
      (∀ t, c'.expiresAt = some t → horizon ≤ t) → Budget k limit horizon allowance s admitted

namespace Budget

variable {horizon : ℤ} {allowance n : ℕ}

omit [DecidableEq κ] in
theorem start (s : Counters κ) (k : κ) (limit : ℕ) (horizon : ℤ) :
    Budget k limit horizon (s.left k limit) s 0 :=
  .running (Nat.le_of_eq (Nat.zero_add _))

omit [DecidableEq κ] in
theorem le (h : Budget k limit horizon allowance s n) : n ≤ allowance + limit := by
  cases h with
  | running h => omega
  | renewed h => omega

omit [DecidableEq κ] in
theorem congr (h : Budget k limit horizon allowance s n) (hget : s'.get k = s.get k) :
    Budget k limit horizon allowance s' n := by
  cases h with
  | running h => exact .running (by rw [left_congr hget]; exact h)
  | renewed h hc ht => exact .renewed (by rw [left_congr hget]; exact h) (hget.trans hc) ht

omit [DecidableEq κ] in
theorem tick (h : Budget k limit horizon allowance s n) {elapsed : ℕ}
    (hnow : (s.tick elapsed).now < horizon) :
    Budget k limit horizon allowance (s.tick elapsed) n := by
  have hle := left_tick_le s k limit elapsed
  cases h with
  | running h => exact .running (by omega)
  | renewed h hc ht => exact .renewed (by omega) (get_tick_of_le hc ht hnow) ht

theorem incr (h : Budget k limit horizon allowance s n) :
    Budget k limit horizon allowance (s.incr k).1
      (n + (decide ((s.counted k).count ≤ limit)).toNat) := by
  cases hget : s.get k with
  | none =>
    have hstart := left_incr_of_none hget limit
    cases h with
    | running h =>
      refine .renewed (by omega) (get_incr_self s k) fun t ht => ?_
      rw [counted_of_none hget] at ht
      cases ht
    | renewed _ hc _ =>
      rw [hget] at hc
      cases hc
  | some c =>
    have hstep := left_incr_of_some hget limit
    cases h with
    | running h => exact .running (by omega)
    | renewed h hc ht =>
      obtain rfl := Option.some.inj (hget.symm.trans hc)
      refine .renewed (by omega) (get_incr_self s k) fun t ht' => ht t ?_
      rw [counted_of_some hget] at ht'
      exact ht'

theorem expire (h : Budget k limit horizon allowance s n) {duration : ℤ} (hd : 0 < duration)
    (hlong : horizon ≤ s.now + duration) :
    Budget k limit horizon allowance (s.expire k duration) n := by
  have hle := left_expire_le s k duration limit
  cases h with
  | running h => exact .running (by omega)
  | renewed h hc _ =>
    refine .renewed (by omega) (get_expire_self hc hd) fun t ht => ?_
    rw [← Option.some.inj ht]
    exact hlong

end Budget

end Counters

end Foundation
