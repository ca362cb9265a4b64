import MediaService.Invariants.ObjectLife
import MediaService.Invariants.ServedBytes

/-! The bytes of a live object. A completion finds them stored and promotes the object over
them; a relocation copies them before its commit and removes the source only after it, and
nothing else takes or writes bytes where a live promoted object has its own. So they are
there in every state of every run, whatever fails, and they are the same bytes until the
object is deleted, but for what is posted over them. -/

namespace MediaService

open Foundation

variable {env : Env} {w : World}

/-! ### Moves -/

/-- A live promoted object has these bytes where its row says. -/
def Holdings.Stores (id : UUID) (content : Bytes) (h : Holdings) : Prop :=
  h.Promoted id ∧ ∀ o, h.objects.find id = some o → o.deletedAt = none →
    h.content o.location = some content

/-- Of all moves only a post may change the bytes of a live promoted object. -/
theorem Holdings.Stores.move {m : Move} {h h' : Holdings} {id : UUID} {content : Bytes}
    (hs : h.Stores id content) (hm : Moves env m h h')
    (hposted : ∀ l c, m = .posted l c → ∀ o, h.objects.find id = some o → o.deletedAt = none →
      o.location = l → c = content) : h'.Stores id content := by
  obtain ⟨hpromoted, hbytes⟩ := hs
  refine ⟨hm.promoted_mono hpromoted, fun o ho hlive => ?_⟩
  obtain ⟨s, hs, hcompleted⟩ := hpromoted.find
  have hinsert : ∀ {q : MediaObject} {r : UploadSession} {t}, h.sessions.find r.id = some r →
      r.status = .initiated → q.id = r.id → h.objects.insert q = some t → t.find id = some o →
      h.objects.find id = some o := by
    intro q r t hr hi hid ht hfind
    rcases (Table.mem_insert ht).mp (Table.mem_of_find hfind) with hmem | rfl
    · exact Table.key_of_find hfind ▸ Table.find_of_mem hmem
    · rw [← Table.key_of_find hfind, hid, hr] at hs
      rw [← Option.some.inj hs, hi] at hcompleted
      cases hcompleted
  have hupdate : ∀ {q q' : MediaObject}, q ∈ h.objects → q'.id = q.id →
      (h.objects.update q').find id = some o →
      o = q' ∧ h.objects.find id = some q ∨ h.objects.find id = some o := by
    intro q q' hq hid hfind
    rcases (Table.mem_update (by rw [hid, Table.find_of_mem hq])).mp (Table.mem_of_find hfind)
      with rfl | ⟨hmem, -⟩
    · refine .inl ⟨rfl, ?_⟩
      rw [← Table.key_of_find hfind, hid]
      exact Table.find_of_mem hq
    · exact .inr (Table.key_of_find hfind ▸ Table.find_of_mem hmem)
  have hmove := hm
  cases hm with
  | promoted hf hi ho' _ ht => exact hbytes o (hinsert hf hi (by rw [ho']; rfl) ht ho) hlive
  | rejected hf hi ho' ht => exact hbytes o (hinsert hf hi (by rw [ho']; rfl) ht ho) hlive
  | judged hq hor =>
    rcases hupdate hq hmove.same_of_judged.2.id_eq ho with ⟨rfl, hold⟩ | hold
    · have hold := hbytes _ hold
      rcases hor with rfl | rfl
      · exact hold hlive
      · exact hold hlive
    · exact hbytes o hold hlive
  | patched hq hqlive hq' hcontent =>
    rcases hupdate hq (by rw [hq']) ho with ⟨rfl, hold⟩ | hold
    · exact hcontent.trans (hbytes _ hold hqlive)
    · exact hbytes o hold hlive
  | softDeleted hq _ hq' =>
    rcases hupdate hq (by rw [hq']) ho with ⟨rfl, -⟩ | hold
    · rw [hq'] at hlive
      cases hlive
    · exact hbytes o hold hlive
  | purged _ =>
    have hmem := (Table.mem_erase.mp (Table.mem_of_find ho)).1
    exact hbytes o (Table.key_of_find ho ▸ Table.find_of_mem hmem) hlive
  | @posted _ l c =>
    by_cases hl : o.location = l
    · obtain rfl := hposted l c rfl o ho hlive hl
      rw [hl]
      exact Function.update_self _ _ _
    · exact (Function.update_of_ne hl _ _).trans (hbytes o ho hlive)
  | stored hfree =>
    have hne := hfree o (Table.mem_of_find ho)
    exact (Function.update_of_ne hne _ _).trans (hbytes o ho hlive)
  | discarded hfree =>
    have hid := Table.key_of_find ho
    have hne := hfree o ⟨Table.mem_of_find ho, hlive, s, Table.mem_of_find hs,
      (Table.key_of_find hs).trans hid.symm, hcompleted⟩
    exact (Function.update_of_ne hne _ _).trans (hbytes o ho hlive)
  | _ => exact hbytes o ho hlive

/-! ### Steps -/

/-- The bytes of an object after a request: what was posted where its row says, if that was
accepted, else what they were. -/
def World.bytesAfter (w : World) (id : UUID) (content : Bytes) : Request → Bytes
  | .post now form posted =>
    if w.acceptsPost now form posted = true ∧
      (w.backend.db.objects.find id).any (fun o => o.location = form.location) = true
    then posted else content
  | _ => content

theorem stores_serve (hw : WorldInv env w) (r : Request) {id : UUID} {content : Bytes}
    (hs : w.backend.holdings.Stores id content) :
    (serve env w r).backend.holdings.Stores id (w.bytesAfter id content r) := by
  by_cases hpost : ∃ now form posted, r = .post now form posted
  · obtain ⟨now, form, posted, rfl⟩ := hpost
    have hdb : (serve env w (.post now form posted)).backend.db = w.backend.db := by
      rw [serve_backend, answer_post_db]
    obtain ⟨⟨s, hs, hid, hcompleted⟩, hbytes⟩ := hs
    refine ⟨⟨s, ?_, hid, hcompleted⟩, fun o ho hlive => ?_⟩
    · change s ∈ (serve env w (.post now form posted)).backend.db.sessions
      rw [hdb]
      exact hs
    · change (serve env w (.post now form posted)).backend.db.objects.find id = some o at ho
      rw [hdb] at ho
      have hcontent := hbytes o ho hlive
      change (serve env w (.post now form posted)).backend.storage.content o.location = _
      rw [serve_backend]
      simp only [answer, World.bytesAfter]
      by_cases haccepts : w.acceptsPost now form posted = true
      · rw [if_pos haccepts, Backend.store, Storage.content_put, Function.update_apply, ho]
        by_cases hl : o.location = form.location
        · rw [if_pos hl, if_pos ⟨haccepts, decide_eq_true hl⟩]
        · rw [if_neg hl, if_neg fun h => hl (of_decide_eq_true h.2)]
          exact hcontent
      · rw [if_neg haccepts, if_neg fun h => haccepts h.1]
        exact hcontent
  · have hsame : w.bytesAfter id content r = content := by
      unfold World.bytesAfter
      split
      · exact absurd ⟨_, _, _, rfl⟩ hpost
      · rfl
    rw [hsame]
    refine (movesTo_serve hw r).preserves (I := Holdings.Stores id content)
      (fun m h h' hm hmove hI => hI.move hmove fun l c he => ?_) hs
    subst he
    obtain ⟨now, form, rfl, -⟩ := hm
    exact absurd ⟨_, _, _, rfl⟩ hpost

/-! ### Runs -/

/-- The bytes of an object after a run. -/
def World.bytesAfterRun (env : Env) (id : UUID) : World → Bytes → List Request → Bytes
  | _, content, [] => content
  | w, content, r :: rs =>
    World.bytesAfterRun env id (serve env w r) (w.bytesAfter id content r) rs

theorem stores_run (hw : WorldInv env w) {id : UUID} {content : Bytes}
    (hs : w.backend.holdings.Stores id content) (rs : List Request) :
    (run (serve env) w rs).backend.holdings.Stores id (w.bytesAfterRun env id content rs) := by
  induction rs generalizing w content with
  | nil => exact hs
  | cons r rs ih => exact ih (hw.serve r) (stores_serve hw r hs)

/-- Every promoted object that is live has bytes stored. -/
def HeldStored (h : Holdings) : Prop := ∀ id, h.Promoted id → ∃ content, h.Stores id content

theorem HeldStored.move {m : Move} {h h' : Holdings} (hs : HeldStored h) (hm : Moves env m h h') :
    HeldStored h' := by
  intro id hpromoted
  rcases hm.promoted_origin hpromoted with hold | ⟨o, rfl, rfl⟩
  · obtain ⟨content, hstores⟩ := hs id hold
    by_cases hover : ∃ l c o, m = .posted l c ∧ h.objects.find id = some o ∧ o.location = l
    · obtain ⟨l, c, o, rfl, ho, rfl⟩ := hover
      refine ⟨c, hpromoted, fun q hq _ => ?_⟩
      cases hm with
      | posted =>
        obtain rfl := Option.some.inj (ho.symm.trans hq)
        exact Function.update_self _ _ _
    · exact ⟨content, hstores.move hm fun l c he o ho _ hl =>
        absurd ⟨l, c, o, he, ho, hl⟩ hover⟩
  · cases hm with
    | @promoted _ _ _ t _ c _ _ _ _ _ hc ht =>
      refine ⟨c, hpromoted, fun q hq _ => ?_⟩
      obtain rfl := Option.some.inj ((Table.find_of_mem ((Table.mem_insert ht).mpr
        (.inr rfl))).symm.trans hq)
      exact hc

theorem heldStored_run (env : Env) (rs : List Request) :
    HeldStored (run (serve env) World.initial rs).backend.holdings := by
  have halways := always_of_inv
    (I := fun w : World => WorldInv env w ∧ HeldStored w.backend.holdings)
    (fun w r hI => ⟨hI.1.serve r, (movesTo_serve hI.1 r).preserves
      (fun _ _ _ _ hm hs => hs.move hm) hI.2⟩)
    ⟨worldInv_initial env, fun id hp => ?_⟩ rs
  · exact halways.last.2
  · obtain ⟨s, hs, -⟩ := hp
    exact absurd hs (Table.not_mem_empty s)

/-- In every state the service comes to, the bytes of every live promoted object are stored
where its row says; and through any run from there, whatever fails, they are stored where
the row then says for as long as the object is live, but for what is posted over them. -/
theorem durable_run (env : Env) (before rs : List Request) (o : MediaObject)
    (h : (run (serve env) World.initial before).backend.holdings.Holds o) :
    let w := run (serve env) World.initial before
    ∃ content, w.backend.storage.content o.location = some content ∧
      ∀ o', (run (serve env) World.initial (before ++ rs)).backend.db.objects.find o.id =
          some o' → o'.deletedAt = none →
        (run (serve env) World.initial (before ++ rs)).backend.storage.content o'.location =
          some (w.bytesAfterRun env o.id content rs) := by
  intro w
  obtain ⟨hmem, hlive, hpromoted⟩ := h
  obtain ⟨content, hstores⟩ := heldStored_run env before o.id hpromoted
  have hrun := (stores_run (worldInv_run env before) hstores rs).2
  rw [run_append]
  exact ⟨content, hstores.2 o (Table.find_of_mem hmem) hlive, hrun⟩

theorem holds_of_find {b : Backend} {id : UUID} {o : MediaObject}
    (ho : b.db.objects.find id = some o) (hlive : o.deletedAt = none)
    (hpromoted : b.holdings.isPromoted id = true) : b.holdings.Holds o := by
  obtain rfl : o.id = id := Table.key_of_find ho
  exact ⟨Table.mem_of_find ho, hlive, Holdings.isPromoted_iff.mp hpromoted⟩

/-- A clean upload is patched public, with its source's removal failing, and another deleted. -/
def publishedRequests : List Request :=
  [.update (fun op _ => op = .remove) false 2 (.ordinary 1) ⟨2⟩
    ⟨some (some .public), none, none, none⟩, .delete Faults.none false 3 (.ordinary 1) ⟨3⟩]

theorem durable_run_published : ∃ o : MediaObject, ∃ content, o.id = ⟨2⟩ ∧
    keptBackend.storage.content o.location = some content ∧
      ∀ o', (run (serve Env.default) World.initial
          (cleanUploadRequests Env.default 0 ⟨2⟩ (.ordinary 1) .private pngSignature ++
            publishedRequests)).backend.db.objects.find o.id = some o' → o'.deletedAt = none →
        (run (serve Env.default) World.initial
          (cleanUploadRequests Env.default 0 ⟨2⟩ (.ordinary 1) .private pngSignature ++
            publishedRequests)).backend.storage.content o'.location =
          some (World.bytesAfterRun Env.default o.id (run (serve Env.default) World.initial
            (cleanUploadRequests Env.default 0 ⟨2⟩ (.ordinary 1) .private pngSignature))
            content publishedRequests) := by
  have hsome : ((keptBackend.db.objects.find ⟨2⟩).map MediaObject.deletedAt) = some none ∧
    keptBackend.holdings.isPromoted ⟨2⟩ = true := by decide +kernel
  obtain ⟨hrow, hpromoted⟩ := hsome
  obtain ⟨o, ho, hlive⟩ := Option.map_eq_some_iff.mp hrow
  have hid : o.id = ⟨2⟩ := Table.key_of_find ho
  have hholds : keptBackend.holdings.Holds o := holds_of_find ho hlive hpromoted
  unfold keptBackend at hholds ⊢
  obtain ⟨content, hstored, hkept⟩ := durable_run Env.default _ publishedRequests o hholds
  exact ⟨o, content, hid, hstored, hkept⟩

end MediaService
