import Mathlib.Data.Int.Order.Basic
import Mathlib.Logic.Function.Basic

/-! Counters that expire. A store keeps a count under a key until the time set for it,
or for good where none is set. Counting a key that is not there starts it at one, with
no time set; setting the time is a command of its own. -/

namespace Foundation

structure Counter where
  count : ℕ
  expiresAt : Option ℤ
  deriving DecidableEq

def Counter.alive (now : ℤ) (c : Counter) : Bool := c.expiresAt.all fun t => now < t

/-- What is stored under each key, and the clock of the store. -/
structure Counters (κ : Type*) where
  now : ℤ
  stored : κ → Option Counter

namespace Counters

variable {κ : Type*} {s : Counters κ} {k k' : κ} {c : Counter}

def empty (now : ℤ) : Counters κ := ⟨now, fun _ => none⟩

/-- The counter under a key, unless its time has come. -/
def get (s : Counters κ) (k : κ) : Option Counter := (s.stored k).filter (Counter.alive s.now)

def tick (s : Counters κ) (elapsed : ℕ) : Counters κ := { s with now := s.now + elapsed }

@[simp] theorem now_tick (s : Counters κ) (elapsed : ℕ) :
    (s.tick elapsed).now = s.now + elapsed := rfl

theorem alive_of_get (h : s.get k = some c) : c.alive s.now = true :=
  (Option.filter_eq_some_iff.mp h).2

/-- A key without a time is there until it gets one. -/
theorem get_tick_of_eternal (h : s.get k = some c) (hc : c.expiresAt = none) (elapsed : ℕ) :
    (s.tick elapsed).get k = some c := by
  have hstored : s.stored k = some c := (Option.filter_eq_some_iff.mp h).1
  simp [get, tick, hstored, Option.filter, Counter.alive, hc]

/-- What is there later was there before. -/
theorem get_of_get_tick {elapsed : ℕ} (h : (s.tick elapsed).get k = some c) :
    s.get k = some c := by
  obtain ⟨hstored, halive⟩ := Option.filter_eq_some_iff.mp h
  refine Option.filter_eq_some_iff.mpr ⟨hstored, ?_⟩
  unfold Counter.alive at halive ⊢
  cases hc : c.expiresAt with
  | none => rfl
  | some t =>
    rw [hc, Option.all_some, decide_eq_true_eq, now_tick] at halive
    rw [Option.all_some, decide_eq_true_eq]
    omega

/-! ### Counting -/

/-- One more under the key; the time set for it stays. -/
def counted (s : Counters κ) (k : κ) : Counter :=
  match s.get k with
  | none => ⟨1, none⟩
  | some c => { c with count := c.count + 1 }

theorem counted_of_none (h : s.get k = none) : s.counted k = ⟨1, none⟩ := by
  rw [counted, h]

theorem counted_of_some (h : s.get k = some c) :
    s.counted k = { c with count := c.count + 1 } := by
  rw [counted, h]

theorem alive_counted (s : Counters κ) (k : κ) : (s.counted k).alive s.now = true := by
  cases h : s.get k with
  | none =>
    rw [counted_of_none h]
    rfl
  | some c =>
    rw [counted_of_some h]
    exact (alive_of_get h :)

variable [DecidableEq κ]

def set (s : Counters κ) (k : κ) (c : Counter) : Counters κ :=
  { s with stored := Function.update s.stored k (some c) }

/-- `INCR`. -/
def incr (s : Counters κ) (k : κ) : Counters κ × ℕ := (s.set k (s.counted k), (s.counted k).count)

/-- `EXPIRE`, which does nothing where nothing is stored. -/
def expire (s : Counters κ) (k : κ) (duration : ℤ) : Counters κ :=
  match s.get k with
  | none => s
  | some c => s.set k { c with expiresAt := some (s.now + duration) }

theorem get_set_ne (h : k' ≠ k) (c : Counter) : (s.set k c).get k' = s.get k' := by
  simp [get, set, h]

theorem get_set_self (h : c.alive s.now = true) : (s.set k c).get k = some c := by
  simp [get, set, Option.filter, h]

@[simp] theorem now_incr (s : Counters κ) (k : κ) : (s.incr k).1.now = s.now := rfl

@[simp] theorem now_expire (s : Counters κ) (k : κ) (duration : ℤ) :
    (s.expire k duration).now = s.now := by
  unfold expire
  split <;> rfl

theorem get_incr_self (s : Counters κ) (k : κ) : (s.incr k).1.get k = some (s.counted k) :=
  get_set_self (alive_counted s k)

theorem get_incr_ne (h : k' ≠ k) : (s.incr k).1.get k' = s.get k' := get_set_ne h _

theorem get_expire_ne (h : k' ≠ k) (duration : ℤ) : (s.expire k duration).get k' = s.get k' := by
  unfold expire
  split
  · rfl
  · exact get_set_ne h _

/-- What is left under the key has the time that was set, and its count. -/
theorem of_get_expire {duration : ℤ} (h : (s.expire k duration).get k = some c) :
    c.expiresAt = some (s.now + duration) ∧ ∃ c', s.get k = some c' ∧ c'.count = c.count := by
  unfold expire at h
  cases hget : s.get k with
  | none =>
    rw [hget] at h
    rw [h] at hget
    cases hget
  | some c' =>
    rw [hget] at h
    obtain ⟨hstored, -⟩ := Option.filter_eq_some_iff.mp h
    simp only [set, Function.update_self, Option.some.injEq] at hstored
    exact ⟨by rw [← hstored], c', rfl, by rw [← hstored]⟩

/-! ### Bounds on a count -/

def AtMost (s : Counters κ) (k : κ) (n : ℕ) : Prop := ∀ c, s.get k = some c → c.count ≤ n

omit [DecidableEq κ] in
theorem atMost_of_none (h : s.get k = none) (n : ℕ) : s.AtMost k n := by
  intro c hc
  rw [h] at hc
  cases hc

omit [DecidableEq κ] in
theorem AtMost.counted_le {n : ℕ} (h : s.AtMost k n) : (s.counted k).count ≤ n + 1 := by
  cases hget : s.get k with
  | none =>
    rw [counted_of_none hget]
    exact Nat.le_add_left 1 n
  | some c =>
    rw [counted_of_some hget]
    exact Nat.succ_le_succ (h c hget)

theorem AtMost.incr {n : ℕ} (h : s.AtMost k n) (k' : κ) : (s.incr k').1.AtMost k (n + 1) := by
  intro c hc
  by_cases hk : k = k'
  · subst hk
    rw [get_incr_self, Option.some.injEq] at hc
    exact hc ▸ h.counted_le
  · rw [get_incr_ne hk] at hc
    exact Nat.le_succ_of_le (h c hc)

theorem AtMost.expire {n : ℕ} (h : s.AtMost k n) (k' : κ) (duration : ℤ) :
    (s.expire k' duration).AtMost k n := by
  intro c hc
  by_cases hk : k = k'
  · subst hk
    obtain ⟨-, c', hc', hcount⟩ := of_get_expire hc
    exact hcount ▸ h c' hc'
  · rw [get_expire_ne hk] at hc
    exact h c hc

end Counters

end Foundation
