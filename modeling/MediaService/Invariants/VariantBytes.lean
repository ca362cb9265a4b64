import MediaService.Invariants.DerivedBytes

/-! The bytes of variants. No two variants share a location, so a variant's bytes go with
no other row than its own: while its row stays where it is, they are what the worker last
wrote for it, unless a repair comes upon them. -/

namespace MediaService

open Foundation

variable {env : Env} {w : World} {id : UUID} {l : Location}

/-! ### One row for each location -/

/-- No two variants share a location. -/
def VariantsApart (db : Database) : Prop :=
  ∀ v ∈ db.variants, ∀ v' ∈ db.variants, v'.location = v.location → v' = v

theorem variantsApart_empty : VariantsApart Database.empty :=
  fun v hv => absurd hv (Table.not_mem_empty v)

theorem VariantsApart.of_subset {db db' : Database} (h : VariantsApart db)
    (hsub : ∀ v ∈ db'.variants, v ∈ db.variants) : VariantsApart db' :=
  fun v hv v' hv' hl => h v (hsub v hv) v' (hsub v' hv') hl

/-- A registration is refused where another row holds the location. -/
theorem VariantsApart.register {db db' : Database} (h : VariantsApart db) {now : Timestamp}
    {freshId objectId : UUID} {req : VariantRegisterRequest} {row : MediaVariant}
    (hregister : registerVariant db now freshId objectId req = .ok (db', row)) :
    VariantsApart db' := by
  have htaken := variantTaken_eq_false.mp (registerVariant_cases hregister).2.1
  obtain ⟨-, -, -, t, outbox, ht, rfl⟩ := registerVariant_ok hregister
  intro v hv v' hv' hl
  rcases (ht v).mp hv with hrow | ⟨hold, hne⟩
  · rcases (ht v').mp hv' with hrow' | ⟨hold', hne'⟩
    · rw [hrow, hrow']
    · rw [hrow] at hl
      exact absurd hl (htaken v' hold' hne').1
  · rcases (ht v').mp hv' with hrow' | ⟨hold', hne'⟩
    · rw [hrow'] at hl
      exact absurd hl.symm (htaken v hold hne).1
    · exact h v hold v' hold' hl

theorem VariantsApart.serve (h : VariantsApart w.backend.db) (r : Request) :
    VariantsApart (serve env w r).backend.db := by
  rw [serve_backend]
  have hframe := writesOnly_answer env w r .variants
  cases r with
  | registerVariant now freshId objectId body =>
    simp only [answer]
    split
    · cases hregister : registerVariant w.backend.db now freshId objectId body with
      | error e => exact h
      | ok res => exact h.register hregister
    · exact h
  | deleteVariant faults user objectId variantId =>
    simp only [answer]
    rcases deleteVariant_cases w.backend faults user objectId variantId with he | ⟨v, -, he⟩
    · rw [he]
      exact h
    · rw [he]
      exact h.of_subset fun v' hv' => (Table.mem_erase.mp hv').1
  | hardPurge faults now olderThan limit =>
    have hfirst := purgeCandidates_first w.backend.db (now - olderThan) limit
    have hdb := (@foldl_purgeObject w.backend faults _ _ (fun o ho => (hfirst.deleted o ho).2)
      hfirst.nodup).2
    simp only [answer, hardPurgeExpired, hdb]
    exact h.of_subset fun v' hv' => (Table.mem_filter.mp hv').1
  | _ =>
    have hsame : (answer env w _).db.variants = w.backend.db.variants :=
      hframe (by simp [Request.tables, importTables])
    exact h.of_subset fun v hv => hsame ▸ hv

/-! ### One request -/

/-- What a reachable state has for the bytes of variants. -/
structure VariantsKept (env : Env) (w : World) : Prop where
  kept : WorldInv env w
  forms : FormsOriginal env w
  apart : VariantsApart w.backend.db

theorem VariantsKept.serve (h : VariantsKept env w) (r : Request) :
    VariantsKept env (serve env w r) :=
  ⟨h.kept.serve r, h.forms.serve r, h.apart.serve r⟩

theorem variantsKept_run (env : Env) (rs : List Request) :
    VariantsKept env (run (MediaService.serve env) World.initial rs) :=
  (always_of_inv (fun _ r h => h.serve r)
    ⟨worldInv_initial env, formsOriginal_initial env, variantsApart_empty⟩ rs).last

/-- A request that leaves the row takes its bytes under a repair alone. -/
theorem content_serve_variant (h : VariantsKept env w) {r : Request} (hv : w.HasVariant id l)
    (hstays : (serve env w r).HasVariant id l) (hspared : ¬ w.Sweeps env l r) :
    (serve env w r).backend.storage.content l =
      w.writtenAt l (w.backend.storage.content l) r := by
  obtain ⟨v, hmem, hid, hl⟩ := hv
  have hderived : Derived env l := hl ▸ derived_of_variantKey (h.kept.kept.variant_key v hmem)
  refine content_serve_derived h.kept h.forms hderived ?_
  rintro (hswept | ⟨id', ⟨v', hmem', hid', hl'⟩, hgone⟩)
  · exact hspared hswept
  · have hsame : v' = v := h.apart v hmem v' hmem' (hl'.trans hl.symm)
    rw [← hid', hsame, hid] at hgone
    exact hgone hstays

/-! ### Runs -/

/-- From every state the service comes to: while a variant's row stays where it is, what is
stored there is what it was, or what the worker last wrote for it, whatever else happens
and fails, unless a repairing reconciliation comes upon it. -/
theorem variantBytes_run (env : Env) (before : List Request) {id : UUID} {l : Location}
    {rs : List Request}
    (hstays : Always (serve env) (World.HasVariant id l)
      (run (serve env) World.initial before) rs)
    (hspared : Guarded (serve env) (fun w r => ¬ w.Sweeps env l r)
      (run (serve env) World.initial before) rs) :
    let w := run (serve env) World.initial before
    (run (serve env) World.initial (before ++ rs)).backend.storage.content l =
      World.writtenAfter env l w (w.backend.storage.content l) rs := by
  intro w
  rw [run_append]
  have hkept : VariantsKept env w := variantsKept_run env before
  change Always (serve env) (World.HasVariant id l) w rs at hstays
  change Guarded (serve env) (fun w r => ¬ w.Sweeps env l r) w rs at hspared
  change (run (serve env) w rs).backend.storage.content l = _
  generalize w = w at hkept hstays hspared
  induction rs generalizing w with
  | nil => rfl
  | cons r rs ih =>
    rw [run_cons, World.writtenAfter, ih _ (hkept.serve r) hstays.2 hspared.2,
      content_serve_variant hkept hstays.1 hstays.2.head hspared.1]

/-- The thumbnail outlives a purge of stale uploads. -/
theorem variantBytes_run_thumbnail :
    ∃ v ∈ (run (serve Env.default) World.initial thumbnailed).backend.db.variants,
      (run (serve Env.default) World.initial
        (thumbnailed ++ [.purgeStale Faults.none 3])).backend.storage.content v.location =
          some [1] := by
  obtain ⟨v, hv, hbytes⟩ :
      ∃ v ∈ (run (serve Env.default) World.initial thumbnailed).backend.db.variants,
        (run (serve Env.default) World.initial thumbnailed).backend.storage.content v.location =
          some [1] := by
    decide +kernel
  have hthere : World.HasVariant v.id v.location
      (run (serve Env.default) World.initial thumbnailed) := ⟨v, hv, rfl, rfl⟩
  refine ⟨v, hv, ?_⟩
  have hsame : (serve Env.default (run (serve Env.default) World.initial thumbnailed)
      (.purgeStale Faults.none 3)).backend.db.variants =
        (run (serve Env.default) World.initial thumbnailed).backend.db.variants :=
    @sameTable_serve Env.default _ (.purgeStale Faults.none 3) .variants (by decide)
  have hstays : World.HasVariant v.id v.location
      (serve Env.default (run (serve Env.default) World.initial thumbnailed)
        (.purgeStale Faults.none 3)) := by
    refine ⟨v, ?_, rfl, rfl⟩
    rw [hsame]
    exact hv
  rw [@variantBytes_run Env.default thumbnailed v.id v.location [.purgeStale Faults.none 3]
    ⟨hthere, hstays⟩ ⟨fun hswept => hswept, trivial⟩]
  exact hbytes

end MediaService
