import Mathlib.Algebra.BigOperators.Group.List.Basic
import Mathlib.Algebra.Order.BigOperators.Group.List
import Mathlib.Algebra.Group.Basic
import Mathlib.Data.List.Nodup
import Mathlib.Data.List.Sort

/-! Finite tables whose rows carry their own primary key. A table is a list of
rows with distinct keys, so a second row under a stored key cannot be built:
`insert` answers `none` there, the way a database answers an integrity error.
Rows keep their order of insertion. The look-up laws say what `find` sees after
each update; the `total` laws say how a sum over selected rows moves. -/

namespace Foundation

/-- Rows with pairwise distinct keys, in order of insertion. -/
@[ext] structure Table {κ ρ : Type*} (key : ρ → κ) where
  rows : List ρ
  nodup : (rows.map key).Nodup

namespace Table

variable {κ ρ : Type*} {key : ρ → κ}

def empty : Table key := ⟨[], by simp⟩

instance : EmptyCollection (Table key) := ⟨empty⟩

instance : Membership ρ (Table key) := ⟨fun t r => r ∈ t.rows⟩

theorem mem_def {t : Table key} {r : ρ} : r ∈ t ↔ r ∈ t.rows := Iff.rfl

instance (t : Table key) (p : ρ → Prop) [DecidablePred p] : Decidable (∀ r ∈ t, p r) :=
  inferInstanceAs (Decidable (∀ r ∈ t.rows, p r))

instance (t : Table key) (p : ρ → Prop) [DecidablePred p] : Decidable (∃ r ∈ t, p r) :=
  inferInstanceAs (Decidable (∃ r ∈ t.rows, p r))

@[simp] theorem not_mem_empty (r : ρ) : r ∉ (∅ : Table key) := by
  change r ∉ ([] : List ρ)
  simp

/-- Two stored rows under one key are the same row. -/
theorem eq_of_key_eq {t : Table key} {r s : ρ} (hr : r ∈ t) (hs : s ∈ t) (h : key r = key s) :
    r = s :=
  List.inj_on_of_nodup_map t.nodup hr hs h

/-- The stored row under a key is the only one. -/
theorem filter_key_eq [DecidableEq κ] {t : Table key} {r : ρ} (hr : r ∈ t) :
    t.rows.filter (fun s => key s = key r) = [r] := by
  have hnodup : t.rows.Nodup := t.nodup.of_map
  have hmem : ∀ s, s ∈ t.rows.filter (fun s => key s = key r) ↔ s ∈ [r] := by
    intro s
    rw [List.mem_filter, decide_eq_true_eq, List.mem_singleton]
    constructor
    · exact fun h => eq_of_key_eq h.1 hr h.2
    · rintro rfl
      exact ⟨hr, rfl⟩
  exact List.perm_singleton.mp
    ((List.perm_ext_iff_of_nodup (hnodup.filter _) (List.nodup_singleton r)).mpr hmem)

/-- Rewrite every row, keeping each row's key. -/
def mapRows (t : Table key) (f : ρ → ρ) (hf : ∀ r, key (f r) = key r) : Table key where
  rows := t.rows.map f
  nodup := by
    have h : key ∘ f = key := funext hf
    rw [List.map_map, h]
    exact t.nodup

@[simp] theorem mem_mapRows {t : Table key} {f : ρ → ρ} {hf : ∀ r, key (f r) = key r} {r : ρ} :
    r ∈ t.mapRows f hf ↔ ∃ s ∈ t, f s = r := by
  simp [mem_def, mapRows]

/-- Keep the rows that satisfy `p`. -/
def filter (t : Table key) (p : ρ → Bool) : Table key where
  rows := t.rows.filter p
  nodup := t.nodup.sublist (List.filter_sublist.map _)

@[simp] theorem mem_filter {t : Table key} {p : ρ → Bool} {r : ρ} :
    r ∈ t.filter p ↔ r ∈ t ∧ p r = true := by
  simp [mem_def, filter]

/-! ### Ordered selections -/

section Sorted

variable {t : Table key} {p : ρ → Bool} {le : ρ → ρ → Prop} [DecidableRel le]

theorem mem_sorted {r : ρ} : r ∈ (t.rows.filter p).insertionSort le ↔ r ∈ t ∧ p r = true := by
  rw [(List.perm_insertionSort le _).mem_iff, List.mem_filter, mem_def]

theorem nodup_sorted : (((t.rows.filter p).insertionSort le).map key).Nodup :=
  ((List.perm_insertionSort le _).map key).nodup_iff.mpr (t.filter p).nodup

end Sorted

/-! ### Totals -/

section Total

variable {A : Type*} [AddCommMonoid A]

/-- The sum of `f` over the stored rows. -/
def total (t : Table key) (f : ρ → A) : A := (t.rows.map f).sum

@[simp] theorem total_empty (f : ρ → A) : (∅ : Table key).total f = 0 := rfl

theorem total_congr {t : Table key} {f g : ρ → A} (h : ∀ r ∈ t, f r = g r) :
    t.total f = t.total g := by
  rw [total, total, List.map_congr_left h]

theorem total_nonneg [PartialOrder A] [IsOrderedAddMonoid A] {t : Table key} {f : ρ → A}
    (h : ∀ r ∈ t, 0 ≤ f r) : 0 ≤ t.total f :=
  List.sum_nonneg fun a ha => by
    obtain ⟨r, hr, rfl⟩ := List.mem_map.mp ha
    exact h r hr

theorem total_eq_zero {t : Table key} {f : ρ → A} (h : ∀ r ∈ t, f r = 0) : t.total f = 0 :=
  List.sum_eq_zero fun a ha => by
    obtain ⟨r, hr, rfl⟩ := List.mem_map.mp ha
    exact h r hr

theorem total_mapRows (t : Table key) (g : ρ → ρ) (hg : ∀ r, key (g r) = key r) (f : ρ → A) :
    (t.mapRows g hg).total f = t.total (f ∘ g) := by
  simp [total, mapRows]

end Total

/-! ### Look-up -/

variable [DecidableEq κ]

def find (t : Table key) (k : κ) : Option ρ := t.rows.find? fun r => key r = k

@[simp] theorem find_empty (k : κ) : (∅ : Table key).find k = none := rfl

theorem key_of_find {t : Table key} {k : κ} {r : ρ} (h : t.find k = some r) : key r = k := by
  simpa using List.find?_some h

theorem mem_of_find {t : Table key} {k : κ} {r : ρ} (h : t.find k = some r) : r ∈ t :=
  List.mem_of_find?_eq_some h

theorem find_eq_none {t : Table key} {k : κ} : t.find k = none ↔ ∀ r ∈ t, key r ≠ k := by
  simp [find, mem_def]

/-- A stored row is what its own key finds. -/
theorem find_of_mem {t : Table key} {r : ρ} (h : r ∈ t) : t.find (key r) = some r := by
  cases hf : t.find (key r) with
  | none => exact absurd rfl (find_eq_none.mp hf r h)
  | some s => rw [eq_of_key_eq (mem_of_find hf) h (key_of_find hf)]

theorem find_eq_some {t : Table key} {k : κ} {r : ρ} : t.find k = some r ↔ r ∈ t ∧ key r = k := by
  constructor
  · exact fun h => ⟨mem_of_find h, key_of_find h⟩
  · rintro ⟨hr, rfl⟩
    exact find_of_mem hr

theorem find_mapRows (t : Table key) (f : ρ → ρ) (hf : ∀ r, key (f r) = key r) (k : κ) :
    (t.mapRows f hf).find k = (t.find k).map f := by
  simp only [find, mapRows, List.find?_map]
  congr 2
  funext r
  simp [hf]

/-! ### Insert -/

def insert (t : Table key) (r : ρ) : Option (Table key) :=
  if h : key r ∈ t.rows.map key then none
  else some ⟨t.rows ++ [r], by
    rw [List.map_append, List.map_singleton]
    exact List.Nodup.append t.nodup (by simp) (by simpa using h)⟩

/-- An insert succeeds exactly when the key is free. -/
theorem insert_isSome {t : Table key} {r : ρ} : (t.insert r).isSome ↔ t.find (key r) = none := by
  rw [find_eq_none]
  unfold insert
  split <;> rename_i h <;> simp [mem_def] at h ⊢
  · exact h
  · exact h

theorem insert_eq_none {t : Table key} {r : ρ} :
    t.insert r = none ↔ ∃ s, t.find (key r) = some s := by
  rw [← Option.not_isSome_iff_eq_none, insert_isSome, ← Option.ne_none_iff_exists']

theorem rows_of_insert {t t' : Table key} {r : ρ} (h : t.insert r = some t') :
    t'.rows = t.rows ++ [r] := by
  unfold insert at h
  split at h
  · cases h
  · cases h; rfl

theorem find_none_of_insert {t t' : Table key} {r : ρ} (h : t.insert r = some t') :
    t.find (key r) = none :=
  insert_isSome.mp (by rw [h]; rfl)

theorem mem_insert {t t' : Table key} {r s : ρ} (h : t.insert r = some t') :
    s ∈ t' ↔ s ∈ t ∨ s = r := by
  simp [mem_def, rows_of_insert h]

/-- What holds of every row and of the new one holds after it. -/
theorem forall_insert {t t' : Table key} {r : ρ} {P : ρ → Prop} (hP : ∀ q ∈ t, P q) (hr : P r)
    (h : t.insert r = some t') : ∀ q ∈ t', P q := by
  intro q hq
  rcases (mem_insert h).mp hq with hq | rfl
  · exact hP q hq
  · exact hr

theorem find_insert {t t' : Table key} {r : ρ} (h : t.insert r = some t') (k : κ) :
    t'.find k = if k = key r then some r else t.find k := by
  have hnone := find_none_of_insert h
  simp only [find, rows_of_insert h, List.find?_append] at hnone ⊢
  by_cases hk : k = key r
  · subst hk
    simp [hnone]
  · have hk' : key r ≠ k := fun e => hk e.symm
    simp [hk, hk']

theorem find_insert_self {t t' : Table key} {r : ρ} (h : t.insert r = some t') :
    t'.find (key r) = some r := by
  rw [find_insert h, if_pos rfl]

/-! ### Update and put -/

/-- Write `r` over the row under its key; without one, nothing changes. -/
def update (t : Table key) (r : ρ) : Table key :=
  t.mapRows (fun s => if key s = key r then r else s)
    (fun s => by split <;> rename_i h <;> simp [h])

theorem find_update (t : Table key) (r : ρ) (k : κ) :
    (t.update r).find k = if k = key r then (t.find k).map fun _ => r else t.find k := by
  rw [update, find_mapRows]
  cases h : t.find k with
  | none => simp
  | some s =>
    have := key_of_find h
    subst this
    simp only [Option.map_some]
    split <;> rfl

theorem find_update_self {t : Table key} {r s : ρ} (h : t.find (key r) = some s) :
    (t.update r).find (key r) = some r := by
  rw [find_update, if_pos rfl, h, Option.map_some]

theorem find_update_ne {t : Table key} {r : ρ} {k : κ} (h : k ≠ key r) :
    (t.update r).find k = t.find k := by
  rw [find_update, if_neg h]

/-- An update changes no key. -/
theorem find_update_isSome (t : Table key) (r : ρ) (k : κ) :
    ((t.update r).find k).isSome = (t.find k).isSome := by
  rw [find_update]
  split <;> simp

theorem mem_update {t : Table key} {r s : ρ} (h : t.find (key r) = some s) {q : ρ} :
    q ∈ t.update r ↔ q = r ∨ q ∈ t ∧ key q ≠ key r := by
  constructor
  · intro hq
    have hf := find_of_mem hq
    by_cases hk : key q = key r
    · rw [hk, find_update_self h] at hf
      exact .inl (Option.some.inj hf).symm
    · rw [find_update_ne hk] at hf
      exact .inr ⟨mem_of_find hf, hk⟩
  · rintro (rfl | ⟨hq, hk⟩)
    · exact mem_of_find (find_update_self h)
    · exact mem_of_find (by rw [find_update_ne hk]; exact find_of_mem hq)

theorem forall_update {t : Table key} {r s : ρ} {P : ρ → Prop} (hP : ∀ q ∈ t, P q) (hr : P r)
    (h : t.find (key r) = some s) : ∀ q ∈ t.update r, P q := by
  intro q hq
  rcases (mem_update h).mp hq with rfl | ⟨hq, -⟩
  · exact hr
  · exact hP q hq

/-- Writing a row over itself changes nothing. -/
theorem update_self {t : Table key} {r : ρ} (h : t.find (key r) = some r) : t.update r = t := by
  refine Table.ext ((List.map_congr_left fun s hs => ?_).trans (List.map_id _))
  split
  · rename_i hk
    exact (eq_of_key_eq hs (mem_of_find h) hk).symm
  · rfl

/-- A batch of updates leaves what it does not name. -/
theorem find_foldl_update_of_ne {rs : List ρ} {k : κ} (h : ∀ r ∈ rs, key r ≠ k) (t : Table key) :
    (rs.foldl update t).find k = t.find k := by
  induction rs generalizing t with
  | nil => rfl
  | cons r rs ih =>
    rw [List.foldl_cons, ih fun s hs => h s (List.mem_cons_of_mem r hs),
      find_update_ne (h r List.mem_cons_self).symm]

/-- A batch of updates under distinct keys writes each of them. -/
theorem find_foldl_update_of_mem {rs : List ρ} (hrs : (rs.map key).Nodup) {r : ρ} (hr : r ∈ rs)
    {t : Table key} (h : (t.find (key r)).isSome) :
    (rs.foldl update t).find (key r) = some r := by
  induction rs generalizing t with
  | nil => cases hr
  | cons s rs ih =>
    rw [List.map_cons, List.nodup_cons] at hrs
    rw [List.foldl_cons]
    rcases List.mem_cons.mp hr with rfl | hr
    · obtain ⟨q, hq⟩ := Option.isSome_iff_exists.mp h
      have hne : ∀ s ∈ rs, key s ≠ key r := fun s hs he => hrs.1 (List.mem_map.mpr ⟨s, hs, he⟩)
      rw [find_foldl_update_of_ne hne, find_update_self hq]
    · exact ih hrs.2 hr (by rw [find_update_isSome]; exact h)

/-- Change the row under `k` in place; `f` keeps the key. -/
def modify (t : Table key) (k : κ) (f : ρ → ρ) (hf : ∀ r, key (f r) = key r) : Table key :=
  t.mapRows (fun r => if key r = k then f r else r) (fun r => by split <;> simp [hf])

theorem find_modify (t : Table key) (k : κ) {f : ρ → ρ} {hf : ∀ r, key (f r) = key r} (k' : κ) :
    (t.modify k f hf).find k' = if k' = k then (t.find k').map f else t.find k' := by
  rw [modify, find_mapRows]
  cases h : t.find k' with
  | none => simp
  | some r =>
    have := key_of_find h
    subst this
    simp only [Option.map_some]
    split <;> rfl

theorem find_modify_isSome (t : Table key) (k : κ) {f : ρ → ρ} {hf : ∀ r, key (f r) = key r}
    (k' : κ) : ((t.modify k f hf).find k').isSome = (t.find k').isSome := by
  rw [find_modify]
  split <;> simp

/-- Changing a row one has read is writing the changed row over it. -/
theorem modify_eq_update {t : Table key} {k : κ} {f : ρ → ρ} {hf : ∀ r, key (f r) = key r} {r : ρ}
    (h : t.find k = some r) : t.modify k f hf = t.update (f r) := by
  have hk := key_of_find h
  refine Table.ext (List.map_congr_left fun s hs => ?_)
  rw [hf, hk]
  split
  · rename_i he
    rw [eq_of_key_eq hs (mem_of_find h) (he.trans hk.symm)]
  · rfl

/-- Write `r` under its key, whether or not a row is there. -/
def put (t : Table key) (r : ρ) : Table key :=
  match t.insert r with
  | some t' => t'
  | none => t.update r

theorem find_put (t : Table key) (r : ρ) (k : κ) :
    (t.put r).find k = if k = key r then some r else t.find k := by
  unfold put
  cases hi : t.insert r with
  | some t' => exact find_insert hi k
  | none =>
    obtain ⟨s, hs⟩ := insert_eq_none.mp hi
    by_cases hk : k = key r
    · rw [if_pos hk, hk]
      exact find_update_self hs
    · rw [if_neg hk]
      exact find_update_ne hk

/-! ### Erase -/

def erase (t : Table key) (k : κ) : Table key := t.filter fun r => key r ≠ k

theorem mem_erase {t : Table key} {k : κ} {r : ρ} : r ∈ t.erase k ↔ r ∈ t ∧ key r ≠ k := by
  simp [erase]

theorem find_erase (t : Table key) (k k' : κ) :
    (t.erase k).find k' = if k' = k then none else t.find k' := by
  split
  · rename_i h
    subst h
    rw [find_eq_none]
    intro r hr
    exact (mem_erase.mp hr).2
  · rename_i h
    cases hf : t.find k' with
    | none =>
      rw [find_eq_none] at hf ⊢
      exact fun r hr => hf r (mem_erase.mp hr).1
    | some r =>
      rw [find_eq_some] at hf ⊢
      exact ⟨mem_erase.mpr ⟨hf.1, by rw [hf.2]; exact h⟩, hf.2⟩

theorem rows_foldl_erase (rs : List ρ) (t : Table key) :
    (rs.foldl (fun t r => t.erase (key r)) t).rows =
      t.rows.filter fun r => decide (key r ∉ rs.map key) := by
  induction rs generalizing t with
  | nil => simp
  | cons s rs ih =>
    rw [List.foldl_cons, ih, erase, filter, List.filter_filter]
    refine List.filter_congr fun r _ => ?_
    simp only [List.map_cons, List.mem_cons, not_or, Bool.decide_and, Bool.and_comm, ne_eq]

/-- Erasing one by one the rows that satisfy `p` keeps the others. -/
theorem foldl_erase_filter (t : Table key) (p : ρ → Prop) [DecidablePred p] :
    (t.rows.filter p).foldl (fun t r => t.erase (key r)) t = t.filter fun r => ¬ p r := by
  refine Table.ext ((rows_foldl_erase _ t).trans (List.filter_congr fun r hr => ?_))
  rw [decide_eq_decide, not_iff_not, List.mem_map]
  constructor
  · rintro ⟨s, hs, hkey⟩
    obtain ⟨hs, hp⟩ := List.mem_filter.mp hs
    rw [← eq_of_key_eq hs hr hkey]
    exact of_decide_eq_true hp
  · exact fun hp => ⟨r, List.mem_filter.mpr ⟨hr, decide_eq_true hp⟩, rfl⟩

/-! ### Totals after an update -/

section Total

variable {A : Type*} [AddCommMonoid A]

theorem total_insert {t t' : Table key} {r : ρ} (h : t.insert r = some t') (f : ρ → A) :
    t'.total f = t.total f + f r := by
  simp [total, rows_of_insert h]

/-- The row under `k` is the only one that an erase takes out of a sum. -/
theorem total_erase {t : Table key} {k : κ} {r : ρ} (h : t.find k = some r) (f : ρ → A) :
    (t.erase k).total f + f r = t.total f := by
  obtain ⟨hr, rfl⟩ := find_eq_some.mp h
  obtain ⟨l₁, l₂, hl⟩ := List.append_of_mem (mem_def.mp hr)
  have hn := t.nodup
  rw [hl, List.map_append, List.map_cons] at hn
  have hout : ∀ s ∈ l₁ ++ l₂, key s ≠ key r := by
    intro s hs he
    have hperm := (@List.perm_middle _ (key r) (l₁.map key) (l₂.map key)).nodup hn
    rw [List.nodup_cons, ← List.map_append] at hperm
    exact hperm.1 (he ▸ List.mem_map_of_mem hs)
  have h₁ : l₁.filter (fun s => decide (key s ≠ key r)) = l₁ :=
    List.filter_eq_self.mpr fun s hs => by simpa using hout s (List.mem_append_left _ hs)
  have h₂ : l₂.filter (fun s => decide (key s ≠ key r)) = l₂ :=
    List.filter_eq_self.mpr fun s hs => by simpa using hout s (List.mem_append_right _ hs)
  simp only [total, erase, filter, hl, List.filter_append, List.filter_cons, h₁, h₂, ne_eq,
    not_true_eq_false, decide_false, List.map_append, List.map_cons, List.sum_append,
    List.sum_cons]
  simp only [Bool.false_eq_true, ↓reduceIte]
  rw [add_comm (f r), ← add_assoc]

/-- No summand of a sum of nonnegative ones is above the sum. -/
theorem le_total [PartialOrder A] [IsOrderedAddMonoid A] {t : Table key} {f : ρ → A}
    (h : ∀ r ∈ t, 0 ≤ f r) {r : ρ} (hr : r ∈ t) : f r ≤ t.total f := by
  rw [← total_erase (find_of_mem hr) f]
  exact le_add_of_nonneg_left (total_nonneg fun s hs => h s (mem_erase.mp hs).1)

/-- Without a row under the key, an erase changes no sum. -/
theorem total_erase_of_find_none {t : Table key} {k : κ} (h : t.find k = none) (f : ρ → A) :
    (t.erase k).total f = t.total f := by
  have hrows : t.rows.filter (fun r => decide (key r ≠ k)) = t.rows :=
    List.filter_eq_self.mpr fun r hr => by simpa using find_eq_none.mp h r hr
  simp only [total, erase, filter, hrows]

/-- Writing over one row exchanges its summand. -/
theorem total_update {t : Table key} {r s : ρ} (h : t.find (key r) = some s) (f : ρ → A) :
    (t.update r).total f + f s = t.total f + f r := by
  have herase : (t.update r).erase (key r) = t.erase (key r) := by
    apply Table.ext
    simp only [update, mapRows, erase, filter, List.filter_map]
    rw [show (fun q => decide (key q ≠ key r)) ∘ (fun q => if key q = key r then r else q) =
      fun q => decide (key q ≠ key r) from by
        funext q; by_cases hq : key q = key r <;> simp [hq]]
    conv_rhs => rw [← List.map_id (List.filter _ t.rows)]
    apply List.map_congr_left
    intro q hq
    simp only [ne_eq, decide_not, List.mem_filter, Bool.not_eq_true', decide_eq_false_iff_not] at hq
    simp [hq.2]
  rw [← total_erase (find_update_self h) f, ← total_erase h f, herase, add_assoc, add_assoc,
    add_comm (f r)]

/-- Writing over a row the sum does not tell apart changes nothing. -/
theorem total_update_of_eq {t : Table key} {r s : ρ} (h : t.find (key r) = some s) {f : ρ → A}
    (hf : f r = f s) : (t.update r).total f = t.total f := by
  rw [update, total_mapRows]
  apply total_congr
  intro q hq
  simp only [Function.comp]
  split
  · rename_i hk
    rw [hf, Option.some.inj (h.symm.trans (hk ▸ find_of_mem hq))]
  · rfl

end Total

end Table

end Foundation
