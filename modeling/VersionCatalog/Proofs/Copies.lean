import Mathlib.Data.List.Nodup
import VersionCatalog.Proofs.Publication

/-!
# Copies and what they were made from

How a user's copy of a version stands to what was published of it (`WorkingCopy.Stands`). A copy without
edits has the content of the revision that it remembers; so two users whose copies are up to date and
without edits have the same content, which is the one that is listed.

No clause can be shown without the others. That a pulled copy may forget nothing needs that what was
never published is held by one user only; that a clean copy's revision tells its content needs that no two
revisions have one id; and a copy that merges stays behind because a new revision's id is in nobody's copy.

## Main results

* `Shelf.Consistent.effect`: a call keeps the copies of an item's versions consistent.
* `Store.RevisionsDiffer.next`: no two revisions in the store have one id.
* `Store.Consistent.after`: the whole invariant, for every history.
* `Store.clean_copies_agree`: who is up to date and has no edits sees what is listed.
-/

namespace VersionCatalog

/-! ### One copy -/

namespace WorkingCopy

/-- How a copy of a version stands to what was published of the version. -/
structure Stands (c : WorkingCopy) (version : String) (published : List Entry) : Prop where
  id : c.content.id = version
  /-- A copy that was made from no revision has edits and does not merge. -/
  unsynced : c.synced = none → c.dirty = true ∧ c.merging = false
  synced : ∀ {r : String}, c.synced = some r → ∃ e ∈ published, e.revision.id = r
  /-- A copy that merges has edits and is behind. -/
  merging : c.merging = true →
    c.dirty = true ∧ c.synced ≠ published.getLast?.map (·.revision.id)
  /-- A copy without edits has the content of the revision that it was made from. -/
  clean : c.dirty = false →
    ∃ e ∈ published, c.synced = some e.revision.id ∧ c.content = e.content

namespace Stands

variable {c : WorkingCopy} {version : String} {published : List Entry} {e : Entry}

theorem new {content : Content} (hid : content.id = version) :
    Stands ⟨content, none, true, false⟩ version published where
  id := hid
  unsynced _ := ⟨rfl, rfl⟩
  synced h := absurd h (by simp)
  merging h := absurd h (by simp)
  clean h := absurd h (by simp)

theorem ofEntry (he : e ∈ published) (hid : e.content.id = version) :
    (WorkingCopy.ofEntry e).Stands version published where
  id := hid
  unsynced h := absurd h (by simp [WorkingCopy.ofEntry])
  synced h := ⟨e, he, Option.some.inj h⟩
  merging h := absurd h (by simp [WorkingCopy.ofEntry])
  clean _ := ⟨e, he, rfl, rfl⟩

theorem edited (h : c.Stands version published) {content : Content} (hid : content.id = version) :
    Stands { c with content := content, dirty := true } version published where
  id := hid
  unsynced hnone := ⟨rfl, (h.unsynced hnone).2⟩
  synced hr := h.synced hr
  merging hmerging := ⟨rfl, (h.merging hmerging).2⟩
  clean hdirty := absurd hdirty (by simp)

theorem marked (h : c.Stands version published) (hdirty : c.dirty = true) (hsynced : c.synced ≠ none)
    (hbehind : c.synced ≠ published.getLast?.map (·.revision.id)) :
    Stands { c with merging := true } version published where
  id := h.id
  unsynced hnone := absurd hnone hsynced
  synced hr := h.synced hr
  merging _ := ⟨hdirty, hbehind⟩
  clean hclean := h.clean hclean

/-- A publication under an id that the copy does not remember. -/
theorem append (h : c.Stands version published) (hnew : c.synced ≠ some e.revision.id) :
    c.Stands version (published ++ [e]) where
  id := h.id
  unsynced := h.unsynced
  synced hr :=
    let ⟨d, hd, hid⟩ := h.synced hr
    ⟨d, List.mem_append_left _ hd, hid⟩
  merging hmerging := by
    rw [List.getLast?_concat]
    exact ⟨(h.merging hmerging).1, hnew⟩
  clean hclean :=
    let ⟨d, hd, hsynced, hcontent⟩ := h.clean hclean
    ⟨d, List.mem_append_left _ hd, hsynced, hcontent⟩

/-- The copy that is published. -/
theorem publish (h : c.Stands version published) (hmerging : c.merging = false) (r : Revision) :
    Stands { c with synced := some r.id, dirty := false } version (published ++ [⟨r, c.content⟩]) where
  id := h.id
  unsynced hnone := absurd hnone (by simp)
  synced hr := ⟨⟨r, c.content⟩, by simp, Option.some.inj hr⟩
  merging h' := absurd (hmerging.symm.trans h') (by simp)
  clean _ := ⟨⟨r, c.content⟩, by simp, rfl, rfl⟩

end Stands

end WorkingCopy

/-! ### The versions of one item -/

namespace Shelf

variable {past : List Fresh} {s s' : Shelf} {f : Fresh} {user item version : String}
  {r : StoreRequest} {c : WorkingCopy}

/-- What holds of the versions of an item. -/
structure Consistent (s : Shelf) : Prop where
  /-- A shared version was published. -/
  published : ∀ {v : String} {shared : SharedCopy},
    s.shared.get? v = some shared → shared.entries ≠ []
  id_of_entry : ∀ {v : String} {e : Entry}, e ∈ s.entries v → e.content.id = v
  stands : ∀ {u v : String} {c : WorkingCopy}, s.copy? u v = some c → c.Stands v (s.entries v)
  /-- A version of which a copy was made from no revision is not shared, and nobody else has a copy. -/
  unshared : ∀ {u v : String} {c : WorkingCopy}, s.copy? u v = some c → c.synced = none →
    s.shared.get? v = none
  alone : ∀ {u v w : String} {c d : WorkingCopy}, s.copy? u v = some c → c.synced = none →
    s.copy? w v = some d → w = u

namespace Consistent

theorem empty : Shelf.empty.Consistent where
  published h := absurd h (by simp [Shelf.empty])
  id_of_entry h := by simp at h
  stands h := by simp at h
  unshared h := by simp at h
  alone h := by simp at h

theorem alike (h : s.Consistent) (halike : s.Alike s') : s'.Consistent where
  published hv := h.published (halike.shared ▸ hv)
  id_of_entry he := h.id_of_entry (by rwa [halike.entries])
  stands hc := halike.entries _ ▸ h.stands (by rwa [halike.copy?])
  unshared hc hnone := halike.shared ▸ h.unshared (by rwa [halike.copy?]) hnone
  alone hc hnone hd := h.alone (by rwa [halike.copy?]) hnone (by rwa [halike.copy?])

theorem synced_of_head (h : s.Consistent) {e : Entry} (he : s.head? version = some e)
    (hc : s.copy? user version = some c) : c.synced ≠ none := by
  intro hnone
  rw [head?, h.unshared hc hnone] at he
  exact absurd he (by simp)

/-- Nothing was published of a version only if it is not shared. -/
theorem get?_shared_of_head? (h : s.Consistent) (hhead : s.head? version = none) :
    s.shared.get? version = none := by
  cases hshared : s.shared.get? version with
  | none => rfl
  | some shared =>
      rw [head?, hshared, Option.bind_some, SharedCopy.head?, List.getLast?_eq_none_iff] at hhead
      exact absurd hhead (h.published hshared)

/-- A copy is put into its place. If it, or a copy of another user, was made from no revision, then
there is no copy of another user. -/
theorem putCopy (h : s.Consistent) (hc : c.Stands version (s.entries version))
    (hunshared : c.synced = none → s.shared.get? version = none)
    (halone : ∀ {u d}, s.copy? u version = some d → c.synced = none ∨ d.synced = none → u = user) :
    (s.putCopy user version c).Consistent where
  published hv := h.published hv
  id_of_entry he := h.id_of_entry he
  stands {u v d} hd := by
    rw [copy?_putCopy] at hd
    split at hd
    · rename_i hplace
      rw [← Option.some.inj hd, hplace.2]
      exact hc
    · exact h.stands hd
  unshared {u v d} hd hnone := by
    rw [copy?_putCopy] at hd
    split at hd
    · rename_i hplace
      rw [← Option.some.inj hd] at hnone
      rw [hplace.2]
      exact hunshared hnone
    · exact h.unshared hd hnone
  alone {u v w d d'} hd hnone hd' := by
    rw [copy?_putCopy] at hd hd'
    split at hd <;> split at hd'
    · rename_i hplace hplace'
      rw [hplace.1, hplace'.1]
    · rename_i hplace _
      obtain ⟨rfl, rfl⟩ := hplace
      rw [← Option.some.inj hd] at hnone
      exact halone hd' (.inl hnone)
    · rename_i _ hplace'
      obtain ⟨rfl, rfl⟩ := hplace'
      exact (halone hd (.inr hnone)).symm
    · exact h.alone hd hnone hd'

/-- A copy is put in place of one that was made from the same revision. -/
theorem putCopy_of_synced (h : s.Consistent) {d : WorkingCopy} (hd : s.copy? user version = some d)
    (hc : c.Stands version (s.entries version)) (hsynced : c.synced = d.synced) :
    (s.putCopy user version c).Consistent := by
  refine h.putCopy hc (fun hnone => h.unshared hd (hsynced ▸ hnone)) fun {u d'} hd' hnone => ?_
  rcases hnone with hnone | hnone
  · exact h.alone hd (hsynced ▸ hnone) hd'
  · exact (h.alone hd' hnone hd).symm

/-- The head is taken over. -/
theorem putCopy_head (h : s.Consistent) {e : Entry} (he : s.head? version = some e) :
    (s.putCopy user version (.ofEntry e)).Consistent := by
  have hmem := mem_entries_of_head? he
  refine h.putCopy (.ofEntry hmem (h.id_of_entry hmem)) (fun hnone => ?_) fun hd hnone => ?_
  · exact absurd hnone (by simp [WorkingCopy.ofEntry])
  · rcases hnone with hnone | hnone
    · exact absurd hnone (by simp [WorkingCopy.ofEntry])
    · exact absurd hnone (h.synced_of_head he hd)

/-- A version is made under an id that is in use nowhere. -/
theorem create (h : s.Consistent) {content : Content} (hid : content.id = version)
    (hhead : s.head? version = none) (hcopies : ∀ u, s.copy? u version = none) :
    (s.putCopy user version ⟨content, none, true, false⟩).Consistent := by
  refine h.putCopy (.new hid) (fun _ => h.get?_shared_of_head? hhead) fun {u d} hd _ => ?_
  exact absurd ((hcopies u).symm.trans hd) (by simp)

/-- An up-to-date copy is published under a revision id that nobody's copy remembers. -/
theorem publish (h : s.Consistent) {x : Revision} (hc : s.copy? user version = some c)
    (hmerging : c.merging = false)
    (hnew : ∀ u v d, s.copy? u v = some d → d.synced ≠ some x.id) :
    ((s.append version ⟨x, c.content⟩).putCopy user version
      { c with synced := some x.id, dirty := false }).Consistent where
  published {v shared} hv := by
    rw [Shelf.putCopy, append, Keyed.get?_insert] at hv
    split at hv
    · rw [← Option.some.inj hv]
      simp
    · exact h.published hv
  id_of_entry {v e} he := by
    rw [entries_putCopy, entries_append] at he
    split at he
    · rename_i hv
      rcases List.mem_append.1 he with he | he
      · exact h.id_of_entry he
      · rw [List.mem_singleton.1 he, hv]
        exact (h.stands hc).id
    · exact h.id_of_entry he
  stands {u v d} hd := by
    rw [entries_putCopy, entries_append]
    rw [copy?_putCopy, copy?_append] at hd
    split at hd
    · rename_i hplace
      rw [if_pos hplace.2, ← Option.some.inj hd, hplace.2]
      exact (h.stands hc).publish hmerging x
    · split
      · exact (h.stands hd).append (hnew u v d hd)
      · exact h.stands hd
  unshared {u v d} hd hnone := by
    rw [copy?_putCopy, copy?_append] at hd
    split at hd
    · rw [← Option.some.inj hd] at hnone
      exact absurd hnone (by simp)
    · rename_i hplace
      have hv : v ≠ version := by
        rintro rfl
        exact hplace ⟨(h.alone hd hnone hc).symm, rfl⟩
      rw [Shelf.putCopy, append, Keyed.get?_insert_of_ne hv]
      exact h.unshared hd hnone
  alone {u v w d d'} hd hnone hd' := by
    rw [copy?_putCopy, copy?_append] at hd hd'
    split at hd
    · rw [← Option.some.inj hd] at hnone
      exact absurd hnone (by simp)
    · split at hd'
      · rename_i hplace
        rw [hplace.1]
        exact h.alone hd hnone (hplace.2 ▸ hc)
      · exact h.alone hd hnone hd'

theorem dropCopy (h : s.Consistent) : (s.dropCopy user version).Consistent := by
  have hkept : ∀ {u v d}, (s.dropCopy user version).copy? u v = some d → s.copy? u v = some d := by
    intro u v d hd
    rw [copy?_dropCopy] at hd
    split at hd
    · exact absurd hd (by simp)
    · exact hd
  exact
    { published := fun hv => h.published (shared_dropCopy s user version ▸ hv)
      id_of_entry := fun he => h.id_of_entry (by rwa [entries_dropCopy] at he)
      stands := fun hd => entries_dropCopy s user version _ ▸ h.stands (hkept hd)
      unshared := fun hd hnone => shared_dropCopy s user version ▸ h.unshared (hkept hd) hnone
      alone := fun hd hnone hd' => h.alone (hkept hd) hnone (hkept hd') }

/-- **A call keeps the versions of an item consistent**, if its ids are new. -/
theorem effect (h : s.Consistent) (hknown : s.KnownIds past) (hnew : ∀ g ∈ past, g.Apart f)
    (heffect : s.Effect f user item r s') : s'.Consistent := by
  cases heffect with
  | idle halike => exact h.alike halike
  | create hname =>
      exact h.create rfl (hknown.head?_of_new hnew) fun _ => hknown.copy?_of_new hnew
  | update hcopy =>
      exact h.putCopy_of_synced hcopy ((h.stands hcopy).edited (h.stands hcopy).id) rfl
  | revert hentry hcopy =>
      have hid := h.id_of_entry (mem_entries_of_restored? hentry)
      exact h.putCopy_of_synced hcopy ((h.stands hcopy).edited hid) rfl
  | publish hcopy hcurrent hedits hname =>
      have hmerging := (syncState_eq_upToDate.1 hcurrent).1
      exact h.publish (x := ⟨f.revision, _, f.clock.publish, user⟩) hcopy hmerging
        fun _ _ _ hd => hknown.synced_ne_of_new hnew hd
  | pull hhead hclean => exact h.putCopy_head hhead
  | merge hhead hcopy hdirty hbehind =>
      refine h.putCopy_of_synced hcopy ?_ rfl
      refine (h.stands hcopy).marked hdirty (h.synced_of_head hhead hcopy) ?_
      rw [← head?_eq, hhead]
      exact hbehind
  | overwrite hhead => exact h.putCopy_head hhead
  | drop => exact h.dropCopy
  | delete => exact empty

/-- A copy that is up to date and has no edits has the content of the head. -/
theorem content_of_clean (h : s.Consistent) (hids : ((s.entries version).map (·.revision.id)).Nodup)
    (hc : s.copy? user version = some c) (hclean : c.dirty = false)
    (hcurrent : c.syncState (s.head? version) = .upToDate) :
    ∃ e, s.head? version = some e ∧ c.content = e.content := by
  obtain ⟨d, hd, hsynced, hcontent⟩ := (h.stands hc).clean hclean
  have hhead := (syncState_eq_upToDate.1 hcurrent).2
  rw [hsynced, eq_comm, Option.map_eq_some_iff] at hhead
  obtain ⟨e, he, hid⟩ := hhead
  obtain rfl := List.inj_on_of_nodup_map hids (mem_entries_of_head? he) hd hid
  exact ⟨e, he, hcontent⟩

end Consistent

end Shelf

/-! ### The store -/

namespace Store

variable {past : List Fresh} {s : Store} {e : Event StoreRequest} {tenant item version : String}

/-! No revision id is in the store twice. -/

/-- Revisions with one id are the same one: the same publication of the same version of the same item. -/
structure RevisionsDiffer (s : Store) : Prop where
  once : ∀ tenant item version : String,
    (((s.shelf tenant item).entries version).map (·.revision.id)).Nodup
  place : ∀ {t t' i i' v v' : String} {x x' : Entry},
    x ∈ (s.shelf t i).entries v → x' ∈ (s.shelf t' i').entries v' →
    x.revision.id = x'.revision.id → t = t' ∧ i = i' ∧ v = v'

namespace RevisionsDiffer

theorem empty : Store.empty.RevisionsDiffer where
  once _ _ _ := .nil
  place h := absurd h List.not_mem_nil

/-- A publication that is there after a call was there before, or the call is its publication. -/
theorem mem_entries_of_next {x : Entry} (h : x ∈ ((s.next e).shelf tenant item).entries version) :
    x ∈ (s.shelf tenant item).entries version ∨
      x.revision.id = e.fresh.revision ∧ tenant = e.session.tenant ∧
        ∃ message, e.request = .publish item version message := by
  rcases entries_next_eq_or s e tenant item version with
    hsame | ⟨-, hnil⟩ | ⟨ht, message, c, hrequest, -, -, -, hadd⟩
  · exact .inl (hsame ▸ h)
  · exact absurd h (by simp [hnil])
  · rw [hadd] at h
    rcases List.mem_append.1 h with h | h
    · exact .inl h
    · rw [List.mem_singleton.1 h]
      exact .inr ⟨rfl, ht.symm, message, hrequest⟩

/-- **No two revisions get one id**, if the ids of a call are new. -/
theorem next (h : s.RevisionsDiffer) (hknown : s.KnownIds past)
    (hnew : ∀ g ∈ past, g.Apart e.fresh) : (s.next e).RevisionsDiffer := by
  have hfresh : ∀ {t i v x}, x ∈ (s.shelf t i).entries v → x.revision.id ≠ e.fresh.revision := by
    intro t i v x hx hid
    obtain ⟨g, hg, hgid⟩ := (hknown.shelf t i).revision_of_entry hx
    exact (hnew g hg).revision (hgid.trans hid)
  constructor
  case once =>
    intro t i v
    rcases entries_next_eq_or s e t i v with hsame | ⟨-, hnil⟩ | ⟨-, message, c, -, -, -, -, hadd⟩
    · rw [hsame]
      exact h.once t i v
    · rw [hnil]
      exact .nil
    · rw [hadd, List.map_append, List.nodup_append]
      refine ⟨h.once t i v, List.nodup_singleton _, fun r hr r' hr' => ?_⟩
      obtain ⟨x, hx, rfl⟩ := List.mem_map.1 hr
      rw [List.map_singleton, List.mem_singleton] at hr'
      exact hr' ▸ hfresh hx
  case place =>
    intro t t' i i' v v' x x' hx hx' hid
    rcases mem_entries_of_next hx with hx | ⟨hxid, ht, m, hm⟩ <;>
      rcases mem_entries_of_next hx' with hx' | ⟨hxid', ht', m', hm'⟩
    · exact h.place hx hx' hid
    · exact absurd (hid.trans hxid') (hfresh hx)
    · exact absurd (hid.symm.trans hxid) (hfresh hx')
    · rw [hm] at hm'
      simp only [StoreRequest.publish.injEq] at hm'
      exact ⟨ht.trans ht'.symm, hm'.1, hm'.2.1⟩

end RevisionsDiffer

/-! There are versions of existing items only. -/

/-- Only for items that are there is anything kept of versions. -/
def Housed (s : Store) : Prop :=
  ∀ ⦃tenant item : String⦄ ⦃shelf : Shelf⦄, (s.tenant tenant).shelves.get? item = some shelf →
    ∃ x, s.item? tenant item = some x

namespace Housed

theorem touch (h : s.Housed) (name : String) : (s.touch name).Housed := by
  intro t i shelf hshelf
  rw [item?_touch]
  rw [Store.touch, tenant_putTenant] at hshelf
  split at hshelf
  · rename_i ht
    exact h (ht ▸ hshelf)
  · exact h hshelf

theorem putItem (h : s.Housed) (name : String) (x : Item) : (s.putItem name x).Housed := by
  intro t i shelf hshelf
  rw [item?_putItem]
  split
  · exact ⟨x, rfl⟩
  · rw [Store.putItem, tenant_putTenant] at hshelf
    split at hshelf
    · rename_i ht
      exact h (ht ▸ hshelf)
    · exact h hshelf

theorem putShelf (h : s.Housed) (name : String) {x : Item} (hx : s.item? name item = some x)
    (shelf : Shelf) : (s.putShelf name item shelf).Housed := by
  intro t i shelf' hshelf
  rw [item?_putShelf]
  rw [Store.putShelf, tenant_putTenant] at hshelf
  split at hshelf
  · rename_i ht
    subst ht
    rw [Keyed.get?_insert] at hshelf
    split at hshelf
    · rename_i hi
      exact ⟨x, hi ▸ hx⟩
    · exact h hshelf
  · exact h hshelf

theorem dropItem (h : s.Housed) (name : String) : (s.dropItem name item).Housed := by
  intro t i shelf hshelf
  rw [item?_dropItem]
  rw [Store.dropItem, tenant_putTenant] at hshelf
  split at hshelf
  · rename_i ht
    subst ht
    rw [Keyed.get?_erase] at hshelf
    split at hshelf
    · exact absurd hshelf (by simp)
    · rename_i hi
      rw [if_neg fun hplace => hi hplace.2]
      exact h hshelf
  · rename_i ht
    rw [if_neg fun hplace => ht hplace.1]
    exact h hshelf

theorem onShelf {α : Type} (h : s.Housed) (session : Session)
    (change : EStateM StoreError Shelf α) : (stateOf (onShelf session item change s)).Housed := by
  rw [onShelf_eq]
  cases hx : s.item? session.tenant item with
  | none => exact h.touch _
  | some x => cases change (s.shelf session.tenant item) <;> exact h.putShelf _ hx _

theorem next (h : s.Housed) (e : Event StoreRequest) : (s.next e).Housed := by
  obtain ⟨f, session, r⟩ := e
  cases r with
  | listItems | getItem | listVersions | getVersion | deleteVersion | listRevisions => exact h
  | createItem x =>
      simp only [Store.next, result, StoreRequest.run, Memory.backend, Keeper.backend,
        Memory.keeper, stateOf_map, createItem_eq, stateOf_ok]
      exact h.putItem _ _
  | updateItem x =>
      simp only [Store.next, result, StoreRequest.run, Memory.backend, Keeper.backend,
        Memory.keeper, stateOf_map, updateItem_eq]
      cases s.item? session.tenant x.id with
      | none => exact h.touch _
      | some stored => exact h.putItem _ _
  | deleteItem d =>
      simp only [Store.next, result, StoreRequest.run, Memory.backend, Keeper.backend,
        Memory.keeper, stateOf_map, deleteItem_eq]
      cases s.item? session.tenant d with
      | none => exact h.touch _
      | some x => exact h.dropItem _
  | createVersion | updateVersion | publish | sync | forceSync | clean | revert =>
      simp only [Store.next, result, StoreRequest.run, Memory.backend, Keeper.backend,
        Memory.keeper, stateOf_map, createVersion, updateVersion, publish, sync, forceSync, clean,
        revert]
      exact h.onShelf _ _

end Housed

/-! The whole invariant. -/

/-- What holds of everything that is stored. -/
structure Consistent (s : Store) : Prop where
  id_of_item : ∀ {tenant id : String} {x : Item}, s.item? tenant id = some x → x.id = id
  housed : s.Housed
  shelf : ∀ tenant item : String, (s.shelf tenant item).Consistent
  revisions : s.RevisionsDiffer

namespace Consistent

theorem empty : Store.empty.Consistent where
  id_of_item h := by simp at h
  housed _ _ _ h := absurd h (by simp [Store.tenant, Store.empty, Keyed.getD_eq, Tenant.empty])
  shelf _ _ := .empty
  revisions := .empty

/-- An item that is missing has no versions. -/
theorem missing (h : s.Consistent) (hx : s.item? tenant item = none) :
    s.shelf tenant item = Shelf.empty := by
  rw [Store.shelf]
  cases hshelf : (s.tenant tenant).shelves.get? item with
  | none => rfl
  | some shelf =>
      obtain ⟨x, hx'⟩ := h.housed hshelf
      rw [hx] at hx'
      exact absurd hx' (by simp)

/-- The item of a shared version is there. -/
theorem item_of_head (h : s.Consistent) {x : Entry}
    (he : (s.shelf tenant item).head? version = some x) : ∃ y, s.item? tenant item = some y := by
  cases hy : s.item? tenant item with
  | some y => exact ⟨y, rfl⟩
  | none =>
      rw [h.missing hy] at he
      exact absurd he (by simp)

/-- A call keeps the store consistent, if its ids are new. -/
theorem next (h : s.Consistent) (hknown : s.KnownIds past) (hnew : ∀ g ∈ past, g.Apart e.fresh) :
    (s.next e).Consistent where
  id_of_item hx := (hknown.next e).id_of_item hx
  housed := h.housed.next e
  shelf t i := by
    by_cases ht : t = e.session.tenant
    · rw [ht]
      exact (h.shelf _ i).effect (hknown.shelf _ i) hnew (effect_next s e i)
    · rw [shelf_next_of_ne ht]
      exact h.shelf t i
  revisions := h.revisions.next hknown hnew

/-- A consistent store is so after every history of calls with new ids. -/
theorem after (h : s.Consistent) (hknown : s.KnownIds past) {history : List (Event StoreRequest)}
    (hfresh : FreshIds history) (hpast : ∀ e ∈ history, ∀ f ∈ past, f.Apart e.fresh) :
    (s.after history).Consistent := by
  induction history generalizing s past with
  | nil => exact h
  | cons e history ih =>
      obtain ⟨htail, hpast'⟩ := hfresh.tail hpast
      exact ih (h.next hknown (hpast e List.mem_cons_self)) (hknown.next e) htail hpast'

/-- What a user gets who is up to date and has no edits: the content of the head. -/
theorem getVersion_of_clean (h : s.Consistent) {session : Session} {x : Version}
    (hx : s.getVersion session item version = some x) (hstate : x.state = some ⟨.upToDate, false⟩) :
    ∃ e, (s.shelf session.tenant item).head? version = some e ∧
      x = ⟨e.content, some ⟨.upToDate, false⟩⟩ := by
  rw [getVersion, Shelf.get?, Option.map_eq_some_iff] at hx
  obtain ⟨c, hc, rfl⟩ := hx
  simp only [Option.some.injEq, CopyState.mk.injEq] at hstate
  obtain ⟨hcurrent, hclean⟩ := hstate
  obtain ⟨e, he, hcontent⟩ :=
    (h.shelf session.tenant item).content_of_clean (h.revisions.once ..) hc hclean hcurrent
  refine ⟨e, he, ?_⟩
  simp only [hcurrent, hclean, if_true, hcontent]

/-- The version that is listed under an id is the head's content. -/
theorem mem_listVersions_iff (h : s.Consistent) (session : Session) {e : Entry}
    (he : (s.shelf session.tenant item).head? version = some e) (z : Version) :
    z ∈ s.listVersions session item ∧ z.id = version ↔ z = ⟨e.content, none⟩ := by
  have hid := fun {v d} (hd : (s.shelf session.tenant item).head? v = some d) =>
    (h.shelf session.tenant item).id_of_entry (Shelf.mem_entries_of_head? hd)
  rw [listVersions, Shelf.mem_list]
  constructor
  · rintro ⟨⟨v, d, hd, rfl⟩, rfl⟩
    rw [hid hd, hd] at he
    rw [Option.some.inj he]
  · rintro rfl
    exact ⟨⟨version, e, he, rfl⟩, hid he⟩

end Consistent

/-- **Who is up to date and has no edits sees what is listed.** After every history of store calls of any
users the store is consistent. So what two users of a tenant get of a version, when both are told that
they are up to date and have no edits, is the same in every field, and the version is listed just so. -/
theorem clean_copies_agree {history : List (Event StoreRequest)} (hfresh : FreshIds history) :
    let s := Store.empty.after history
    s.Consistent ∧
      ∀ {tenant user user' item version : String} {x y : Version},
        s.getVersion ⟨user, tenant⟩ item version = some x → x.state = some ⟨.upToDate, false⟩ →
        s.getVersion ⟨user', tenant⟩ item version = some y → y.state = some ⟨.upToDate, false⟩ →
        x = y ∧ ∀ (reader : String) (z : Version),
          z ∈ s.listVersions ⟨reader, tenant⟩ item ∧ z.id = version ↔ z = { x with state := none } := by
  intro s
  have hknown : Store.empty.KnownIds [] := .empty
  have h : s.Consistent := Consistent.empty.after hknown hfresh (by simp)
  refine ⟨h, fun hx hxstate hy hystate => ?_⟩
  obtain ⟨e, he, rfl⟩ := h.getVersion_of_clean hx hxstate
  obtain ⟨e', he', rfl⟩ := h.getVersion_of_clean hy hystate
  obtain rfl := Option.some.inj (he.symm.trans he')
  exact ⟨rfl, fun reader => h.mem_listVersions_iff ⟨reader, _⟩ he⟩

/-- A version that was published and pulled by another user is got by both as it is listed. -/
theorem pulled_copy_agrees :
    let s := Store.empty.after (twoUsers.take 4)
    FreshIds (twoUsers.take 4) ∧
      ∃ x, s.getVersion ⟨"alice", "acme"⟩ "i1" "v2" = some x ∧
        s.getVersion ⟨"bob", "acme"⟩ "i1" "v2" = some x ∧
        ∀ z, z ∈ s.listVersions ⟨"carol", "acme"⟩ "i1" ∧ z.id = "v2" ↔ z = { x with state := none } := by
  intro s
  have hfresh : FreshIds (twoUsers.take 4) := by decide
  obtain ⟨x, hx, hxstate⟩ : ∃ x, s.getVersion ⟨"alice", "acme"⟩ "i1" "v2" = some x ∧
      x.state = some ⟨.upToDate, false⟩ := ⟨_, rfl, rfl⟩
  obtain ⟨y, hy, hystate⟩ : ∃ y, s.getVersion ⟨"bob", "acme"⟩ "i1" "v2" = some y ∧
      y.state = some ⟨.upToDate, false⟩ := ⟨_, rfl, rfl⟩
  obtain ⟨rfl, hlisted⟩ := (clean_copies_agree hfresh).2 hx hxstate hy hystate
  exact ⟨hfresh, x, hx, hy, hlisted "carol"⟩

end Store

end VersionCatalog
