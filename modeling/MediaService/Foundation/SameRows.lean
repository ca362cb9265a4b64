import MediaService.Foundation.Table

/-! Writes that keep clear of some rows. Two tables agree on a property when they have
the same rows with it. A write of rows without the property, over rows without it, keeps
to that. -/

namespace Foundation

namespace Table

variable {ρ κ : Type*} {key : ρ → κ} {t t' t'' : Table key} {p q : ρ → Prop}

/-- The tables have the same rows with the property. -/
def SameRows (p : ρ → Prop) (t t' : Table key) : Prop := ∀ r, p r → (r ∈ t' ↔ r ∈ t)

theorem SameRows.refl (p : ρ → Prop) (t : Table key) : SameRows p t t := fun _ _ => Iff.rfl

theorem SameRows.of_eq (h : t' = t) : SameRows p t t' := by
  rw [h]
  exact .refl p t

theorem SameRows.trans (h : SameRows p t t') (h' : SameRows p t' t'') : SameRows p t t'' :=
  fun r hr => (h' r hr).trans (h r hr)

theorem SameRows.mono (h : SameRows p t t') (hpq : ∀ r, q r → p r) : SameRows q t t' :=
  fun r hr => h r (hpq r hr)

variable [DecidableEq κ] {r s : ρ}

theorem sameRows_insert (ht : t.insert r = some t') (hr : ¬ p r) : SameRows p t t' := by
  intro q hq
  rw [mem_insert ht]
  refine or_iff_left ?_
  rintro rfl
  exact hr hq

theorem sameRows_update (hs : t.find (key r) = some s) (hold : ¬ p s) (hnew : ¬ p r) :
    SameRows p t (t.update r) := by
  intro q hq
  rw [mem_update hs]
  constructor
  · rintro (rfl | ⟨hmem, -⟩)
    · exact absurd hq hnew
    · exact hmem
  · refine fun hmem => .inr ⟨hmem, fun hkey => hold ?_⟩
    obtain rfl := eq_of_key_eq hmem (mem_of_find hs) (hkey.trans (key_of_find hs).symm)
    exact hq

theorem sameRows_erase {k : κ} (hs : t.find k = some s) (hold : ¬ p s) :
    SameRows p t (t.erase k) := by
  intro q hq
  rw [mem_erase]
  refine and_iff_left_of_imp fun hmem hkey => hold ?_
  obtain rfl := eq_of_key_eq hmem (mem_of_find hs) (hkey.trans (key_of_find hs).symm)
  exact hq

/-- Where lookups agree on the keys of rows with the property, so do the tables. -/
theorem sameRows_of_find (h : ∀ r, p r → t'.find (key r) = t.find (key r)) :
    SameRows p t t' := by
  intro r hr
  constructor
  · exact fun hmem => mem_of_find ((h r hr).symm.trans (find_of_mem hmem))
  · exact fun hmem => mem_of_find ((h r hr).trans (find_of_mem hmem))

end Table

end Foundation
