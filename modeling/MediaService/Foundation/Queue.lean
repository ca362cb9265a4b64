import Mathlib.Data.List.Sort
import MediaService.Foundation.Table

/-! A table worked off in batches. The rows that satisfy a predicate wait in the order of a
sort; a batch takes the first of them. The sort is stable, so taking one batch and then
another is taking both at once, and rows that are first by the order leave first,
whatever else is waiting behind them. -/

namespace Foundation

section Stable

variable {α : Type*} {le : α → α → Prop} [DecidableRel le] [Std.Total le] [IsTrans α le]

omit [Std.Total le] in
theorem filter_orderedInsert (p : α → Bool) (a : α) {l : List α} (hl : l.Pairwise le) :
    (l.orderedInsert le a).filter p =
      if p a then (l.filter p).orderedInsert le a else l.filter p := by
  induction l with
  | nil => cases h : p a <;> simp [h]
  | cons b l ih =>
    obtain ⟨hb, hl'⟩ := List.pairwise_cons.mp hl
    by_cases hab : le a b
    · have hfirst : (List.filter p (b :: l)).orderedInsert le a = a :: List.filter p (b :: l) := by
        cases hf : List.filter p (b :: l) with
        | nil => rfl
        | cons c m =>
          have hc : c ∈ b :: l := (List.mem_filter.mp (hf ▸ List.mem_cons_self)).1
          rw [List.orderedInsert, if_pos]
          rcases List.mem_cons.mp hc with rfl | hc
          · exact hab
          · exact IsTrans.trans a b c hab (hb c hc)
      rw [List.orderedInsert, if_pos hab, List.filter_cons, hfirst]
    · rw [List.orderedInsert, if_neg hab, List.filter_cons, ih hl', List.filter_cons]
      by_cases hpa : p a = true
      · by_cases hpb : p b = true
        · rw [if_pos hpb, if_pos hpa, if_pos hpb, if_pos hpa, List.orderedInsert, if_neg hab]
        · rw [if_neg hpb, if_pos hpa, if_neg hpb, if_pos hpa]
      · rw [if_neg hpa, if_neg hpa]

/-- The sort is stable: what is kept of a list is sorted as it is in the whole. -/
theorem insertionSort_filter (p : α → Bool) (l : List α) :
    (l.filter p).insertionSort le = (l.insertionSort le).filter p := by
  induction l with
  | nil => rfl
  | cons a l ih =>
    rw [List.insertionSort_cons, filter_orderedInsert p a (List.pairwise_insertionSort _ _),
      List.filter_cons, ← ih]
    split
    · exact List.insertionSort_cons _ _ _
    · rfl

end Stable

/-- What is left of a list with distinct keys without those of its first rows. -/
theorem filter_not_mem_take {ρ κ : Type*} [DecidableEq κ] (key : ρ → κ) {l : List ρ}
    (hl : (l.map key).Nodup) (n : ℕ) :
    l.filter (fun r => key r ∉ (l.take n).map key) = l.drop n := by
  have hsplit : l.filter (fun r => key r ∉ (l.take n).map key) =
      (l.take n ++ l.drop n).filter fun r => key r ∉ (l.take n).map key := by
    rw [List.take_append_drop]
  rw [hsplit, List.filter_append]
  have htaken : (l.take n).filter (fun r => key r ∉ (l.take n).map key) = [] := by
    refine List.filter_eq_nil_iff.mpr fun r hr => ?_
    rw [decide_eq_true_eq, not_not]
    exact List.mem_map_of_mem hr
  have hleft : (l.drop n).filter (fun r => key r ∉ (l.take n).map key) = l.drop n := by
    refine List.filter_eq_self.mpr fun r hr => ?_
    rw [decide_eq_true_eq]
    intro hin
    rw [← List.take_append_drop n l, List.map_append, List.nodup_append] at hl
    exact hl.2.2 _ hin _ (List.mem_map_of_mem hr) rfl
  rw [htaken, hleft, List.nil_append]

/-- Where those by `q` come before all others, a batch takes them first. -/
theorem drop_filter_of_first {ρ : Type*} {l : List ρ} {q : ρ → Bool}
    (h : l.Pairwise fun r r' => q r' = true → q r = true) (n : ℕ) :
    (l.drop n).filter q = (l.filter q).drop n := by
  induction l generalizing n with
  | nil => simp
  | cons r l ih =>
    obtain ⟨hr, hl⟩ := List.pairwise_cons.mp h
    cases n with
    | zero => rfl
    | succ n =>
      rw [List.drop_succ_cons, ih hl]
      cases hq : q r with
      | true => simp [hq]
      | false =>
        have hnone : l.filter q = [] := by
          refine List.filter_eq_nil_iff.mpr fun r' hr' hq' => ?_
          rw [hr r' hr' hq'] at hq
          cases hq
        simp [hq, hnone]

namespace Table

variable {ρ κ : Type*} {key : ρ → κ} {le : ρ → ρ → Prop} [DecidableRel le]
  [Std.Total le] [IsTrans ρ le]

/-- The rows that wait, in order. -/
def waiting (t : Table key) (p : ρ → Bool) (le : ρ → ρ → Prop) [DecidableRel le] : List ρ :=
  (t.rows.filter p).insertionSort le

/-- Without the first rows that wait, the rest wait as before. -/
theorem waiting_without [DecidableEq κ] (t : Table key) (p : ρ → Bool) (n : ℕ) :
    (t.filter fun r => key r ∉ ((t.waiting p le).take n).map key).waiting p le =
      (t.waiting p le).drop n := by
  have hnodup : ((t.waiting p le).map key).Nodup := nodup_sorted
  rw [← filter_not_mem_take key hnodup n]
  unfold waiting filter
  rw [List.filter_comm, insertionSort_filter]

/-- Fewer wait for less: of those that wait by `p`, those by `q`, in the same order. -/
theorem waiting_of_imp {t : Table key} {p q : ρ → Bool} (h : ∀ r, q r = true → p r = true) :
    t.waiting q le = (t.waiting p le).filter q := by
  unfold waiting
  rw [← insertionSort_filter, List.filter_filter]
  congr 1
  refine List.filter_congr fun r _ => ?_
  cases hq : q r with
  | false => rfl
  | true => simp [h r hq]

end Table

end Foundation
