import VersionCatalog.Proofs.KnownIds

/-!
# Publications

Several users edit and publish copies of one version, in any order of their store calls. What was
published stays: the list of publications only grows at its end, and a user whose copy does not stand on
its end cannot publish. Such a copy is *behind* (`Shelf.Behind`), and it stays behind until its user
takes the latest publication over, or throws the copy away, or the item is deleted (`Store.Releases`).

The guard of a publication compares no more than two revision ids. It is enough because a new revision's
id is in nobody's copy.

## Main results

* `Shelf.Effect.entries_eq_or`: one call appends at most one publication, and only from a current copy.
* `Store.entries_prefix_after`: while the item exists, publications are only added after those there are.
* `Shelf.Behind.effect`: a copy that is behind stays behind.
* `Store.publish_of_behind`: a copy that is behind is not published.
* `Store.no_update_is_lost`: all of it for every history from the empty store.
-/

namespace VersionCatalog

/-! ### Publications are only added -/

namespace Shelf

variable {past : List Fresh} {s s' : Shelf} {f : Fresh} {user item version : String}
  {r : StoreRequest}

/-- What a call does to the publications of a version: nothing, or the item is deleted, or the call
publishes the caller's copy, which is current. -/
theorem Effect.entries_eq_or (h : s.Effect f user item r s') (version : String) :
    s'.entries version = s.entries version ∨
      r = .deleteItem item ∧ s'.entries version = [] ∨
      ∃ message c, r = .publish item version message ∧ s.copy? user version = some c ∧
        c.merging = false ∧ c.synced = (s.entries version).getLast?.map (·.revision.id) ∧
        s'.entries version
          = s.entries version ++ [⟨⟨f.revision, message, f.clock.publish, user⟩, c.content⟩] := by
  cases h with
  | idle halike => exact .inl (halike.entries version).symm
  | create | update | revert | pull | merge | overwrite => exact .inl (entries_putCopy ..)
  | drop => exact .inl (entries_dropCopy ..)
  | delete => exact .inr (.inl ⟨rfl, rfl⟩)
  | @publish v message s c hcopy hcurrent hedits hname =>
      rw [entries_putCopy, entries_append]
      split
      · rename_i hv
        subst hv
        obtain ⟨hmerging, hsynced⟩ := syncState_eq_upToDate.1 hcurrent
        rw [head?_eq] at hsynced
        exact .inr (.inr ⟨message, c, rfl, hcopy, hmerging, hsynced, rfl⟩)
      · exact .inl rfl

/-! ### Copies that are behind -/

/-- The calls that may end that a user's copy of a version is behind: the item is deleted, or the user
takes the latest publication over or throws the copy away. A copy without edits takes it over when it is
synchronized, as does a copy that is not there yet. -/
def Releases (s : Shelf) (caller user item version : String) (r : StoreRequest) : Prop :=
  r = .deleteItem item ∨
    caller = user ∧
      (r = .forceSync item version ∨ r = .clean item version ∨
        r = .sync item version ∧
          ∀ c, s.copy? user version = some c → c.dirty = false ∧ c.merging = false)

/-- What else a call makes of a user's copy of a version that is not new: it is edited, goes on merging and
stays made from the same revision, unless the user publishes it. -/
theorem Effect.copy?_eq_or {caller : String} (h : s.Effect f caller item r s')
    (hstays : ¬ s.Releases caller user item version r) (hversion : version ≠ f.version) :
    s'.copy? user version = s.copy? user version ∨
      ∃ c c', s.copy? user version = some c ∧ s'.copy? user version = some c' ∧
        ((c.merging = true → c'.merging = true) ∧ c'.synced = c.synced ∧ c'.dirty = true ∨
          caller = user ∧ c.syncState (s.head? version) = .upToDate) := by
  -- what is put into another place is not seen in this one
  have hput : ∀ {t : Shelf} {v : String} {c' : WorkingCopy},
      t.copy? user version = s.copy? user version →
      (user = caller → version = v → ∃ c, s.copy? user version = some c ∧
        ((c.merging = true → c'.merging = true) ∧ c'.synced = c.synced ∧ c'.dirty = true ∨
          caller = user ∧ c.syncState (s.head? version) = .upToDate)) →
      (t.putCopy caller v c').copy? user version = s.copy? user version ∨
        ∃ c d, s.copy? user version = some c ∧
          (t.putCopy caller v c').copy? user version = some d ∧
          ((c.merging = true → d.merging = true) ∧ d.synced = c.synced ∧ d.dirty = true ∨
            caller = user ∧ c.syncState (s.head? version) = .upToDate) := by
    intro t v c' ht hplace
    rw [copy?_putCopy]
    split
    · rename_i heq
      obtain ⟨c, hc, hkept⟩ := hplace heq.1 heq.2
      exact .inr ⟨c, c', hc, rfl, hkept⟩
    · exact .inl ht
  cases h with
  | idle halike => exact .inl (halike.copy? user version).symm
  | create hname => exact hput rfl fun _ hv => absurd hv hversion
  | update hcopy | revert _ hcopy =>
      refine hput rfl ?_
      rintro rfl rfl
      exact ⟨_, hcopy, .inl ⟨id, rfl, rfl⟩⟩
  | publish hcopy hcurrent hedits hname =>
      refine hput rfl ?_
      rintro rfl rfl
      exact ⟨_, hcopy, .inr ⟨rfl, hcurrent⟩⟩
  | pull hhead hclean =>
      refine hput rfl ?_
      rintro rfl rfl
      exact absurd (.inr ⟨rfl, .inr (.inr ⟨rfl, hclean⟩)⟩) hstays
  | merge hhead hcopy hdirty hbehind =>
      refine hput rfl ?_
      rintro rfl rfl
      exact ⟨_, hcopy, .inl ⟨fun _ => rfl, rfl, hdirty⟩⟩
  | overwrite hhead =>
      refine hput rfl ?_
      rintro rfl rfl
      exact absurd (.inr ⟨rfl, .inl rfl⟩) hstays
  | drop =>
      rw [copy?_dropCopy]
      split
      · rename_i hplace
        obtain ⟨rfl, rfl⟩ := hplace
        exact absurd (.inr ⟨rfl, .inr (.inl rfl)⟩) hstays
      · exact .inl rfl
  | delete => exact absurd (.inl rfl) hstays

/-- A version was published, and a user's copy of it, if there is one, merges or was not made from the
latest publication. -/
def Behind (s : Shelf) (user version : String) : Prop :=
  ∃ e, s.head? version = some e ∧
    ∀ c, s.copy? user version = some c → c.merging = true ∨ c.synced ≠ some e.revision.id

namespace Behind

theorem syncState_ne (h : s.Behind user version) {c : WorkingCopy}
    (hc : s.copy? user version = some c) : c.syncState (s.head? version) ≠ .upToDate := by
  obtain ⟨e, he, hcopies⟩ := h
  intro hsync
  obtain ⟨hmerging, hsynced⟩ := syncState_eq_upToDate.1 hsync
  rcases hcopies c hc with hc | hc
  · rw [hmerging] at hc
    exact absurd hc (by simp)
  · rw [he] at hsynced
    exact hc hsynced

/-- A publication under a new id leaves every other user behind. -/
theorem of_append (hknown : s.KnownIds past) (hnew : ∀ g ∈ past, g.Apart f) {x : Entry}
    (hid : x.revision.id = f.revision) (hentries : s'.entries version = s.entries version ++ [x])
    (hcopy : ∀ c', s'.copy? user version = some c' → c'.merging = true ∨
      ∃ c, s.copy? user version = some c ∧ c'.synced = c.synced) :
    s'.Behind user version := by
  refine ⟨x, ?_, fun c' hc' => ?_⟩
  · rw [head?_eq, hentries, List.getLast?_concat]
  · refine (hcopy c' hc').imp_right ?_
    rintro ⟨c, hc, hsynced⟩
    rw [hid, hsynced]
    exact hknown.synced_ne_of_new hnew hc

/-- **A copy that is behind stays behind**, and stays, until it is released. -/
theorem effect {caller : String} (h : s.Behind user version) (hknown : s.KnownIds past)
    (hnew : ∀ g ∈ past, g.Apart f) (heffect : s.Effect f caller item r s')
    (hstays : ¬ s.Releases caller user item version r) :
    s'.Behind user version ∧
      (s'.copy? user version).isSome = (s.copy? user version).isSome := by
  obtain ⟨e, he, hbehind⟩ := id h
  have hversion : version ≠ f.version := by
    rintro rfl
    rw [hknown.head?_of_new hnew] at he
    exact absurd he (by simp)
  -- the copy after the call, if any, merges if it did and was made from the same revision
  have hcopies : (s'.copy? user version).isSome = (s.copy? user version).isSome ∧
      ∀ c', s'.copy? user version = some c' → ∃ c, s.copy? user version = some c ∧
        (c.merging = true → c'.merging = true) ∧ c'.synced = c.synced := by
    rcases heffect.copy?_eq_or hstays hversion with hsame | ⟨c, c', hc, hc', hkept⟩
    · rw [hsame]
      exact ⟨rfl, fun c' hc' => ⟨c', hc', id, rfl⟩⟩
    · rcases hkept with hkept | ⟨-, hcurrent⟩
      · refine ⟨by rw [hc, hc', Option.isSome_some, Option.isSome_some], fun d hd => ⟨c, hc, ?_⟩⟩
        obtain rfl := Option.some.inj (hc'.symm.trans hd)
        exact ⟨hkept.1, hkept.2.1⟩
      · exact absurd hcurrent (h.syncState_ne hc)
  refine ⟨?_, hcopies.1⟩
  rcases heffect.entries_eq_or version with hsame | ⟨hdelete, -⟩ | ⟨message, c, -, -, -, -, hentries⟩
  · refine ⟨e, by rw [head?_eq, hsame, ← head?_eq, he], fun c' hc' => ?_⟩
    obtain ⟨c, hc, hmerging, hsynced⟩ := hcopies.2 c' hc'
    rw [hsynced]
    exact (hbehind c hc).imp_left hmerging
  · exact absurd (.inl hdelete) hstays
  · refine of_append hknown hnew rfl hentries fun c' hc' => .inr ?_
    obtain ⟨c, hc, -, hsynced⟩ := hcopies.2 c' hc'
    exact ⟨c, hc, hsynced⟩

end Behind

end Shelf

/-! ### Histories -/

namespace Store

variable {past : List Fresh} {s : Store} {e : Event StoreRequest} {history : List (Event StoreRequest)}
  {user tenant item version : String}

/-- The calls that may end that a user's copy of a version is behind. -/
def Releases (s : Store) (user tenant item version : String) (e : Event StoreRequest) : Prop :=
  e.session.tenant = tenant ∧
    (s.shelf tenant item).Releases e.session.user user item version e.request

/-- No call of a history may end that a user's copy of a version is behind. -/
def Unreleased (user tenant item version : String) : Store → List (Event StoreRequest) → Prop
  | _, [] => True
  | s, e :: history =>
    ¬ s.Releases user tenant item version e ∧
      Unreleased user tenant item version (s.next e) history

/-- What a call does to the publications of a version, in the store. -/
theorem entries_next_eq_or (s : Store) (e : Event StoreRequest) (tenant item version : String) :
    ((s.next e).shelf tenant item).entries version = (s.shelf tenant item).entries version ∨
      (s.next e).item? tenant item = none ∧
        ((s.next e).shelf tenant item).entries version = [] ∨
      e.session.tenant = tenant ∧ ∃ message c, e.request = .publish item version message ∧
        (s.shelf tenant item).copy? e.session.user version = some c ∧ c.merging = false ∧
        c.synced = ((s.shelf tenant item).entries version).getLast?.map (·.revision.id) ∧
        ((s.next e).shelf tenant item).entries version = (s.shelf tenant item).entries version ++
          [⟨⟨e.fresh.revision, message, e.fresh.clock.publish, e.session.user⟩, c.content⟩] := by
  by_cases ht : tenant = e.session.tenant
  · subst ht
    rcases (effect_next s e item).entries_eq_or version with hsame | ⟨hdelete, hnil⟩ | hpublish
    · exact .inl hsame
    · refine .inr (.inl ⟨?_, hnil⟩)
      rw [item?_next, hdelete]
      simp
    · exact .inr (.inr ⟨rfl, hpublish⟩)
  · exact .inl (by rw [shelf_next_of_ne ht])

/-- An item that was deleted is not there again, since no id is supplied twice. -/
theorem item?_after_of_gone {f : Fresh} (hid : f.item = item)
    (hpast : ∀ e ∈ history, f.Apart e.fresh) (h : s.item? tenant item = none) :
    (s.after history).item? tenant item = none := by
  induction history generalizing s with
  | nil => exact h
  | cons e history ih =>
      refine ih (fun d hd => hpast d (List.mem_cons_of_mem _ hd)) (item?_next_of_gone ?_ h)
      rw [← hid]
      exact (hpast e List.mem_cons_self).item

/-- **While an item exists, publications of its versions are only added after those there are.** -/
theorem entries_prefix_after (hknown : s.KnownIds past) (hfresh : FreshIds history)
    (hpast : ∀ e ∈ history, ∀ f ∈ past, f.Apart e.fresh) {x : Item}
    (hitem : (s.after history).item? tenant item = some x) :
    (s.shelf tenant item).entries version <+:
      ((s.after history).shelf tenant item).entries version := by
  induction history generalizing s past with
  | nil => exact List.prefix_refl _
  | cons e history ih =>
      obtain ⟨htail, hpast'⟩ := hfresh.tail hpast
      refine List.IsPrefix.trans ?_ (ih (hknown.next e) htail hpast' hitem)
      rcases entries_next_eq_or s e tenant item version with
        hsame | ⟨hgone, -⟩ | ⟨-, _, c, -, -, -, -, hadd⟩
      · exact hsame.symm ▸ List.prefix_refl _
      · cases hy : s.item? tenant item with
        | none =>
            rw [hknown.missing hy]
            exact List.nil_prefix
        | some y =>
            obtain ⟨f, hf, hid⟩ := hknown.item hy
            have hgone' := item?_after_of_gone hid
              (fun d hd => hpast d (List.mem_cons_of_mem _ hd) f hf) hgone
            rw [after_cons, hgone'] at hitem
            exact absurd hitem (by simp)
      · rw [hadd]
        exact List.prefix_append _ _

/-- A copy that is behind stays behind until it is released. -/
theorem behind_after (hknown : s.KnownIds past) (hfresh : FreshIds history)
    (hpast : ∀ e ∈ history, ∀ f ∈ past, f.Apart e.fresh)
    (hstays : Unreleased user tenant item version s history)
    (h : (s.shelf tenant item).Behind user version) :
    ((s.after history).shelf tenant item).Behind user version ∧
      (((s.after history).shelf tenant item).copy? user version).isSome
        = ((s.shelf tenant item).copy? user version).isSome := by
  induction history generalizing s past with
  | nil => exact ⟨h, rfl⟩
  | cons e history ih =>
      obtain ⟨htail, hpast'⟩ := hfresh.tail hpast
      obtain ⟨hstay, hstays⟩ := hstays
      have hnext : ((s.next e).shelf tenant item).Behind user version ∧
          (((s.next e).shelf tenant item).copy? user version).isSome
            = ((s.shelf tenant item).copy? user version).isSome := by
        by_cases ht : tenant = e.session.tenant
        · subst ht
          exact h.effect (hknown.shelf _ item) (hpast e List.mem_cons_self) (effect_next s e item)
            fun hrelease => hstay ⟨rfl, hrelease⟩
        · rw [shelf_next_of_ne ht]
          exact ⟨h, rfl⟩
      obtain ⟨hbehind, hsome⟩ := ih (hknown.next e) htail hpast' hstays hnext.1
      exact ⟨hbehind, hsome.trans hnext.2⟩

/-- A copy that is behind is not published: the call fails with a conflict and leaves the whole store as
it was. -/
theorem publish_of_behind (hknown : s.KnownIds past) {c : WorkingCopy}
    (hc : (s.shelf tenant item).copy? user version = some c)
    (hbehind : c.syncState ((s.shelf tenant item).head? version) ≠ .upToDate) (f : Fresh)
    (message : String) :
    ∃ error : StoreError, error.isConflict = true ∧
      s.result ⟨f, ⟨user, tenant⟩, .publish item version message⟩ = .error error s := by
  -- the copy is in a table of the store, so the item and its shelf are
  obtain ⟨x, hx⟩ := hknown.item_of_copy hc
  obtain ⟨t, ht⟩ : ∃ t, s.tenants.get? tenant = some t := by
    cases ht : s.tenants.get? tenant with
    | some t => exact ⟨t, rfl⟩
    | none =>
        rw [item?, Store.tenant, Keyed.getD_eq, ht] at hx
        exact absurd hx (by simp [Tenant.empty])
  have htenant : s.tenant tenant = t := by rw [Store.tenant, Keyed.getD_eq, ht, Option.getD_some]
  have hshelf : t.shelves.get? item = some (s.shelf tenant item) := by
    rw [shelf, htenant] at hc ⊢
    cases hget : t.shelves.get? item with
    | some shelf => rfl
    | none =>
        rw [hget] at hc
        exact absurd hc (by simp)
  obtain ⟨error, hconflict, hpublish⟩ :=
    Shelf.publish_of_syncState_ne hc hbehind item f.revision message f.clock.publish
  refine ⟨error, hconflict, ?_⟩
  have hcall : publish f.revision f.clock.publish ⟨user, tenant⟩ item version message s = .error error s := by
    rw [publish, onShelf_error hx hpublish, putShelf_eq_self ht hshelf]
  change EStateM.map _ (publish f.revision f.clock.publish ⟨user, tenant⟩ item version message) s = _
  rw [EStateM.map, hcall]

/-- A call that lengthens the list of a version's publications publishes its user's copy, which is
current. -/
theorem publishes_of_length_lt
    (h : ((s.shelf tenant item).entries version).length
      < (((s.next e).shelf tenant item).entries version).length) :
    e.session.tenant = tenant ∧ ∃ message c, e.request = .publish item version message ∧
      (s.shelf tenant item).copy? e.session.user version = some c ∧ c.merging = false ∧
      c.synced = ((s.shelf tenant item).entries version).getLast?.map (·.revision.id) ∧
      ((s.next e).shelf tenant item).entries version = (s.shelf tenant item).entries version ++
        [⟨⟨e.fresh.revision, message, e.fresh.clock.publish, e.session.user⟩, c.content⟩] := by
  rcases entries_next_eq_or s e tenant item version with hsame | ⟨-, hnil⟩ | hpublish
  · rw [hsame] at h
    exact absurd h (Nat.lt_irrefl _)
  · rw [hnil] at h
    exact absurd h (Nat.not_lt_zero _)
  · exact hpublish

/-- A call leaves the copies of other users alone, unless it deletes the item. -/
theorem copy?_next_of_ne (huser : user ≠ e.session.user)
    (hrequest : e.request ≠ .deleteItem item) :
    ((s.next e).shelf tenant item).copy? user version
      = (s.shelf tenant item).copy? user version := by
  by_cases ht : tenant = e.session.tenant
  · subst ht
    have heffect := effect_next s e item
    generalize (s.shelf e.session.tenant item) = shelf at heffect ⊢
    generalize ((s.next e).shelf e.session.tenant item) = shelf' at heffect ⊢
    have hne : ∀ v, ¬ (user = e.session.user ∧ version = v) := fun v hplace => huser hplace.1
    generalize e.request = r at heffect hrequest
    cases heffect with
    | idle halike => exact (halike.copy? user version).symm
    | create | update | revert | pull | merge | overwrite =>
        rw [Shelf.copy?_putCopy, if_neg (hne _)]
    | publish => rw [Shelf.copy?_putCopy, if_neg (hne _), Shelf.copy?_append]
    | drop => rw [Shelf.copy?_dropCopy, if_neg (hne _)]
    | delete => exact absurd rfl hrequest
  · rw [shelf_next_of_ne ht]

/-- A copy that merges goes on merging, unless its user overwrites it or throws it away, or the item is
deleted. -/
theorem merging_next (hknown : s.KnownIds past) (hnew : ∀ f ∈ past, f.Apart e.fresh)
    {c : WorkingCopy} (hc : (s.shelf tenant item).copy? user version = some c)
    (hmerging : c.merging = true) :
    (∃ c', ((s.next e).shelf tenant item).copy? user version = some c' ∧ c'.merging = true) ∨
      e.session.tenant = tenant ∧
        (e.request = .deleteItem item ∨
          e.session.user = user ∧
            (e.request = .forceSync item version ∨ e.request = .clean item version)) := by
  by_cases ht : tenant = e.session.tenant
  · subst ht
    by_cases hrelease :
        (s.shelf e.session.tenant item).Releases e.session.user user item version e.request
    · rcases hrelease with hdelete | ⟨huser, hforce | hclean | ⟨-, hidle⟩⟩
      · exact .inr ⟨rfl, .inl hdelete⟩
      · exact .inr ⟨rfl, .inr ⟨huser, .inl hforce⟩⟩
      · exact .inr ⟨rfl, .inr ⟨huser, .inr hclean⟩⟩
      · rw [(hidle c hc).2] at hmerging
        exact absurd hmerging (by simp)
    · refine .inl ?_
      have hversion := (hknown.shelf _ item).version_ne_of_new hnew hc
      rcases (effect_next s e item).copy?_eq_or hrelease hversion with
        hsame | ⟨d, c', hd, hc', hkept | ⟨-, hcurrent⟩⟩
      · exact ⟨c, hsame.trans hc, hmerging⟩
      · obtain rfl := Option.some.inj (hc.symm.trans hd)
        exact ⟨c', hc', hkept.1 hmerging⟩
      · obtain rfl := Option.some.inj (hc.symm.trans hd)
        rw [(Shelf.syncState_eq_upToDate.1 hcurrent).1] at hmerging
        exact absurd hmerging (by simp)
  · rw [shelf_next_of_ne ht]
    exact .inl ⟨c, hc, hmerging⟩

/-- **No update is lost**, whatever the users call in whatever order. Take any call of any history, the
stores before it, after it, and at the end, and any version of any item.

* The call adds at most one publication, at the end, and while the item exists later calls only add to
  them too.
* Only a publication adds one, from the copy of its user, which does not merge and was made from the last
  publication, or from none if there is none.
* When it added one, every other user's copy that is not released is not up to date at the end, and each
  attempt to publish it is answered with a conflict and leaves the store exactly as it was. No copy comes
  or goes without a release.
* A copy that merges goes on merging, unless its user overwrites it by the latest publication or throws it
  away, or the item is deleted. -/
theorem no_update_is_lost {earlier later : List (Event StoreRequest)}
    (hfresh : FreshIds (earlier ++ e :: later)) (tenant item version : String) :
    let before := Store.empty.after earlier
    let now := before.next e
    let last := now.after later
    let published (s : Store) : List Entry := (s.shelf tenant item).entries version
    let copy? (s : Store) (user : String) := (s.shelf tenant item).copy? user version
    ((now.item? tenant item).isSome →
        ∃ added, published now = published before ++ added ∧ added.length ≤ 1) ∧
    ((last.item? tenant item).isSome → published now <+: published last) ∧
    ((published before).length < (published now).length →
        e.session.tenant = tenant ∧ ∃ message c, e.request = .publish item version message ∧
          copy? before e.session.user = some c ∧ c.merging = false ∧
          c.synced = (published before).getLast?.map (·.revision.id) ∧
          published now = published before ++
            [⟨⟨e.fresh.revision, message, e.fresh.clock.publish, e.session.user⟩, c.content⟩]) ∧
    ((published before).length < (published now).length →
        ∀ user, user ≠ e.session.user → now.Unreleased user tenant item version later →
          (copy? last user).isSome = (copy? before user).isSome ∧
          ∀ c, copy? last user = some c →
            c.syncState ((last.shelf tenant item).head? version) ≠ .upToDate ∧
            ∀ f message, ∃ error : StoreError, error.isConflict = true ∧
              last.result ⟨f, ⟨user, tenant⟩, .publish item version message⟩ = .error error last) ∧
    (∀ user c, copy? before user = some c → c.merging = true →
        (∃ c', copy? now user = some c' ∧ c'.merging = true) ∨
          e.session.tenant = tenant ∧
            (e.request = .deleteItem item ∨
              e.session.user = user ∧
                (e.request = .forceSync item version ∨ e.request = .clean item version))) := by
  intro before now last published copy?
  have hknown : before.KnownIds (earlier.map (·.fresh)) := by
    simpa using (KnownIds.empty : Store.empty.KnownIds []).after earlier
  have hpast : ∀ d ∈ e :: later, ∀ f ∈ earlier.map (·.fresh), f.Apart d.fresh :=
    fun d hd f hf => hfresh.apart hd hf
  have hnew := hpast e List.mem_cons_self
  have hknown' := hknown.next e
  obtain ⟨hlater, hpast'⟩ := hfresh.right.tail hpast
  refine ⟨fun hitem => ?_, fun hitem => ?_, publishes_of_length_lt,
    fun hlonger user huser hstays => ?_, fun user c hc hmerging => merging_next hknown hnew hc hmerging⟩
  · rcases entries_next_eq_or before e tenant item version with
      hsame | ⟨hgone, -⟩ | ⟨-, _, c, -, -, -, -, hadd⟩
    · exact ⟨[], hsame.trans (List.append_nil _).symm, Nat.zero_le _⟩
    · exact absurd hitem (by simp [now, hgone])
    · exact ⟨_, hadd, Nat.le_refl _⟩
  · obtain ⟨x, hx⟩ := Option.isSome_iff_exists.1 hitem
    exact entries_prefix_after hknown' hlater hpast' hx
  · obtain ⟨-, message, c, hrequest, -, -, -, hadd⟩ := publishes_of_length_lt hlonger
    have hother : copy? now user = copy? before user :=
      copy?_next_of_ne huser (by simp [hrequest])
    have hbehind : (now.shelf tenant item).Behind user version :=
      .of_append (hknown.shelf tenant item) hnew rfl hadd
        fun c' hc' => .inr ⟨c', hother.symm.trans hc', rfl⟩
    obtain ⟨hbehind, hsome⟩ := behind_after hknown' hlater hpast' hstays hbehind
    refine ⟨hsome.trans (congrArg Option.isSome hother), fun c hc => ?_⟩
    have hstate := hbehind.syncState_ne hc
    exact ⟨hstate, publish_of_behind (hknown'.after later) hc hstate⟩

/-! Two users edit one version. -/

/-- A version is published and pulled by another user, and edited by the first one. -/
def twoUsers : List (Event StoreRequest) :=
  [⟨⟨"i1", "v1", "r1", noon⟩, ⟨"alice", "acme"⟩, .createItem Item.blank⟩,
    ⟨⟨"i2", "v2", "r2", noon⟩, ⟨"alice", "acme"⟩, .createVersion "i1" Version.blank⟩,
    ⟨⟨"i3", "v3", "r3", noon⟩, ⟨"alice", "acme"⟩, .publish "i1" "v2" "first"⟩,
    ⟨⟨"i4", "v4", "r4", noon⟩, ⟨"bob", "acme"⟩, .sync "i1" "v2"⟩,
    ⟨⟨"i5", "v5", "r5", noon⟩, ⟨"alice", "acme"⟩,
      .updateVersion "i1" { Version.blank with id := "v2" }⟩]

/-- The first user publishes the edit. -/
def secondPublication : Event StoreRequest :=
  ⟨⟨"i6", "v6", "r6", noon⟩, ⟨"alice", "acme"⟩, .publish "i1" "v2" "second"⟩

/-- The other user edits the version as well, and synchronizes. -/
def lateEdit : List (Event StoreRequest) :=
  [⟨⟨"i7", "v7", "r7", noon⟩, ⟨"bob", "acme"⟩,
      .updateVersion "i1" { Version.blank with id := "v2" }⟩,
    ⟨⟨"i8", "v8", "r8", noon⟩, ⟨"bob", "acme"⟩, .sync "i1" "v2"⟩]

/-- The late edit is not released, merges, and is never published. -/
theorem late_edit_not_published :
    let now := (Store.empty.after twoUsers).next secondPublication
    let last := now.after lateEdit
    FreshIds (twoUsers ++ secondPublication :: lateEdit) ∧
      now.Unreleased "bob" "acme" "i1" "v2" lateEdit ∧
      (∃ c, (last.shelf "acme" "i1").copy? "bob" "v2" = some c ∧ c.merging = true) ∧
      ∀ f message, ∃ error : StoreError, error.isConflict = true ∧
        last.result ⟨f, ⟨"bob", "acme"⟩, .publish "i1" "v2" message⟩ = .error error last := by
  intro now last
  have hfresh : FreshIds (twoUsers ++ secondPublication :: lateEdit) := by decide
  have hstays : now.Unreleased "bob" "acme" "i1" "v2" lateEdit := by
    refine ⟨?_, ?_, trivial⟩
    · rintro ⟨-, hrelease⟩
      simp [Shelf.Releases] at hrelease
    · rintro ⟨-, hrelease⟩
      -- the copy has edits, so it does not take the second publication over
      obtain ⟨c, hc, hdirty⟩ : ∃ c, (((now.after (lateEdit.take 1)).shelf "acme" "i1").copy?
          "bob" "v2") = some c ∧ c.dirty = true := ⟨_, rfl, rfl⟩
      simp only [Shelf.Releases, reduceCtorEq, false_or, true_and] at hrelease
      rw [(hrelease c hc).1] at hdirty
      exact absurd hdirty (by simp)
  have hall := no_update_is_lost hfresh "acme" "i1" "v2"
  obtain ⟨-, hcopies⟩ := hall.2.2.2.1 (by decide) "bob" (by decide) hstays
  obtain ⟨c, hc, hmerging⟩ : ∃ c, (last.shelf "acme" "i1").copy? "bob" "v2" = some c ∧
      c.merging = true := ⟨_, rfl, rfl⟩
  exact ⟨hfresh, hstays, ⟨c, hc, hmerging⟩, (hcopies c hc).2⟩

end Store

end VersionCatalog
