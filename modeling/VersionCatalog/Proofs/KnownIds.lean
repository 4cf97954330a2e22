import VersionCatalog.Proofs.Agreement
import VersionCatalog.Proofs.Effects

/-!
# Known ids

Every id in the store was supplied to an earlier call: items and versions are kept under such ids, and
revisions carry them. So an id that is supplied for the first time is in use nowhere, which is all that
is ever needed of ids. An item that is missing has no versions.
-/

namespace VersionCatalog

/-- Whether a call may put an id into the store that it is supplied. -/
def StoreRequest.takesId : StoreRequest → Bool
  | .createItem _ | .createVersion _ _ | .publish _ _ _ => true
  | _ => false

/-! ### Versions of one item -/

/-- All ids on a shelf are ids of `past`. -/
structure Shelf.KnownIds (past : List Fresh) (s : Shelf) : Prop where
  version_of_entry : ∀ {version : String} {e : Entry}, e ∈ s.entries version →
    ∃ f ∈ past, f.version = version
  revision_of_entry : ∀ {version : String} {e : Entry}, e ∈ s.entries version →
    ∃ f ∈ past, f.revision = e.revision.id
  version_of_copy : ∀ {user version : String} {c : WorkingCopy}, s.copy? user version = some c →
    ∃ f ∈ past, f.version = version
  revision_of_copy : ∀ {user version : String} {c : WorkingCopy} {r : String},
    s.copy? user version = some c → c.synced = some r → ∃ f ∈ past, f.revision = r

namespace Shelf.KnownIds

variable {past : List Fresh} {s s' : Shelf} {f : Fresh} {user version : String}

theorem empty : Shelf.empty.KnownIds past where
  version_of_entry h := by simp at h
  revision_of_entry h := by simp at h
  version_of_copy h := by simp at h
  revision_of_copy h := by simp at h

theorem mono {past' : List Fresh} (h : s.KnownIds past) (hsub : past ⊆ past') :
    s.KnownIds past' where
  version_of_entry he :=
    let ⟨f, hf, hid⟩ := h.version_of_entry he
    ⟨f, hsub hf, hid⟩
  revision_of_entry he :=
    let ⟨f, hf, hid⟩ := h.revision_of_entry he
    ⟨f, hsub hf, hid⟩
  version_of_copy hc :=
    let ⟨f, hf, hid⟩ := h.version_of_copy hc
    ⟨f, hsub hf, hid⟩
  revision_of_copy hc hr :=
    let ⟨f, hf, hid⟩ := h.revision_of_copy hc hr
    ⟨f, hsub hf, hid⟩

theorem alike (h : s.KnownIds past) (halike : s.Alike s') : s'.KnownIds past where
  version_of_entry he := h.version_of_entry (by rwa [halike.entries])
  revision_of_entry he := h.revision_of_entry (by rwa [halike.entries])
  version_of_copy hc := h.version_of_copy (by rwa [halike.copy?])
  revision_of_copy hc hr := h.revision_of_copy (by rwa [halike.copy?]) hr

theorem putCopy (h : s.KnownIds past) {c : WorkingCopy} (hversion : ∃ f ∈ past, f.version = version)
    (hrevision : ∀ r, c.synced = some r → ∃ f ∈ past, f.revision = r) :
    (s.putCopy user version c).KnownIds past where
  version_of_entry he := h.version_of_entry he
  revision_of_entry he := h.revision_of_entry he
  version_of_copy {u v d} hd := by
    rw [copy?_putCopy] at hd
    split at hd
    · rename_i hplace
      rw [hplace.2]
      exact hversion
    · exact h.version_of_copy hd
  revision_of_copy {u v d r} hd hr := by
    rw [copy?_putCopy] at hd
    split at hd
    · obtain rfl := Option.some.inj hd
      exact hrevision r hr
    · exact h.revision_of_copy hd hr

theorem append (h : s.KnownIds past) {e : Entry} (hversion : ∃ f ∈ past, f.version = version)
    (hrevision : ∃ f ∈ past, f.revision = e.revision.id) :
    (s.append version e).KnownIds past where
  version_of_entry {v d} hd := by
    rw [entries_append] at hd
    split at hd
    · rename_i hv
      rw [hv]
      exact hversion
    · exact h.version_of_entry hd
  revision_of_entry {v d} hd := by
    rw [entries_append] at hd
    split at hd
    · rcases List.mem_append.1 hd with hd | hd
      · exact h.revision_of_entry hd
      · rw [List.mem_singleton.1 hd]
        exact hrevision
    · exact h.revision_of_entry hd
  version_of_copy hc := h.version_of_copy hc
  revision_of_copy hc hr := h.revision_of_copy hc hr

theorem dropCopy (h : s.KnownIds past) : (s.dropCopy user version).KnownIds past where
  version_of_entry he := h.version_of_entry (by rwa [entries_dropCopy] at he)
  revision_of_entry he := h.revision_of_entry (by rwa [entries_dropCopy] at he)
  version_of_copy hc := by
    rw [copy?_dropCopy] at hc
    split at hc
    · exact absurd hc (by simp)
    · exact h.version_of_copy hc
  revision_of_copy hc hr := by
    rw [copy?_dropCopy] at hc
    split at hc
    · exact absurd hc (by simp)
    · exact h.revision_of_copy hc hr

theorem version_of_head (h : s.KnownIds past) {e : Entry} (he : s.head? version = some e) :
    ∃ f ∈ past, f.version = version :=
  h.version_of_entry (mem_entries_of_head? he)

/-- The unedited copy of a head. -/
theorem putCopy_head (h : s.KnownIds past) {e : Entry} (he : s.head? version = some e) :
    (s.putCopy user version (.ofEntry e)).KnownIds past := by
  refine h.putCopy (h.version_of_head he) fun r hr => ?_
  obtain rfl := Option.some.inj hr
  exact h.revision_of_entry (mem_entries_of_head? he)

/-- A call keeps all ids known, if those that it may put into the store are. -/
theorem effect {item : String} {r : StoreRequest} (h : s.KnownIds past)
    (hused : r.takesId = true → f ∈ past) (heffect : s.Effect f user item r s') :
    s'.KnownIds past := by
  cases heffect with
  | idle halike => exact h.alike halike
  | create hname => exact h.putCopy ⟨f, hused rfl, rfl⟩ (by simp)
  | update hcopy => exact h.putCopy (h.version_of_copy hcopy) fun r hr => h.revision_of_copy hcopy hr
  | revert hentry hcopy =>
      exact h.putCopy (h.version_of_copy hcopy) fun r hr => h.revision_of_copy hcopy hr
  | publish hcopy hcurrent hedits hname =>
      have hversion := h.version_of_copy hcopy
      refine (h.append hversion ⟨f, hused rfl, rfl⟩).putCopy hversion fun r hr => ?_
      exact ⟨f, hused rfl, Option.some.inj hr⟩
  | pull hhead hclean => exact h.putCopy_head hhead
  | merge hhead hcopy hdirty hbehind =>
      exact h.putCopy (h.version_of_copy hcopy) fun r hr => h.revision_of_copy hcopy hr
  | overwrite hhead => exact h.putCopy_head hhead
  | drop => exact h.dropCopy
  | delete => exact .empty

/-! New ids are in use nowhere. -/

theorem head?_of_new (h : s.KnownIds past) (hnew : ∀ g ∈ past, g.Apart f) :
    s.head? f.version = none := by
  cases he : s.head? f.version with
  | none => rfl
  | some e =>
      obtain ⟨g, hg, hid⟩ := h.version_of_head he
      exact absurd hid (hnew g hg).version

theorem copy?_of_new (h : s.KnownIds past) (hnew : ∀ g ∈ past, g.Apart f) :
    s.copy? user f.version = none := by
  cases hc : s.copy? user f.version with
  | none => rfl
  | some c =>
      obtain ⟨g, hg, hid⟩ := h.version_of_copy hc
      exact absurd hid (hnew g hg).version

theorem synced_ne_of_new (h : s.KnownIds past) (hnew : ∀ g ∈ past, g.Apart f) {c : WorkingCopy}
    (hc : s.copy? user version = some c) : c.synced ≠ some f.revision := by
  intro hsynced
  obtain ⟨g, hg, hid⟩ := h.revision_of_copy hc hsynced
  exact (hnew g hg).revision hid

theorem version_ne_of_new (h : s.KnownIds past) (hnew : ∀ g ∈ past, g.Apart f) {c : WorkingCopy}
    (hc : s.copy? user version = some c) : version ≠ f.version := by
  rintro rfl
  rw [h.copy?_of_new hnew] at hc
  exact absurd hc (by simp)

end Shelf.KnownIds

/-! ### The store -/

namespace Store

variable {s : Store} {e : Event StoreRequest} {tenant item : String}

/-- An item that is there after a call was there before, or has the call's new id. -/
theorem item?_of_next {x : Item} (h : (s.next e).item? tenant item = some x) :
    (∃ y, s.item? tenant item = some y) ∨
      e.request.takesId = true ∧ item = e.fresh.item := by
  rw [item?_next] at h
  cases hr : e.request with
  | createItem y =>
      simp only [hr] at h
      split at h
      · rename_i hplace
        exact .inr ⟨rfl, hplace.2⟩
      · exact .inl ⟨x, h⟩
  | updateItem y =>
      simp only [hr] at h
      split at h
      · obtain ⟨stored, hstored, -⟩ := Option.map_eq_some_iff.1 h
        exact .inl ⟨stored, hstored⟩
      · exact .inl ⟨x, h⟩
  | deleteItem d =>
      simp only [hr] at h
      split at h
      · exact absurd h (by simp)
      · exact .inl ⟨x, h⟩
  | _ =>
      simp only [hr] at h
      exact .inl ⟨x, h⟩

/-- A call makes no item but the one with its new id. -/
theorem item?_next_of_gone (hne : item ≠ e.fresh.item) (h : s.item? tenant item = none) :
    (s.next e).item? tenant item = none := by
  cases hx : (s.next e).item? tenant item with
  | none => rfl
  | some x =>
      rcases item?_of_next hx with ⟨y, hy⟩ | ⟨-, hid⟩
      · exact absurd (h.symm.trans hy) (by simp)
      · exact absurd hid hne

/-- What is kept of the versions of an item that is not there after a call: nothing, or what was kept of
them when the item was not there before either. -/
theorem shelf_next_of_missing (h : (s.next e).item? tenant item = none) :
    (s.next e).shelf tenant item = Shelf.empty ∨
      s.item? tenant item = none ∧ (s.next e).shelf tenant item = s.shelf tenant item := by
  by_cases ht : tenant = e.session.tenant
  · subst ht
    have hitem := item?_next s e e.session.tenant item
    rw [h] at hitem
    obtain ⟨f, session, r⟩ := e
    cases r with
    | listItems | getItem | listVersions | getVersion | deleteVersion | listRevisions =>
        exact .inr ⟨hitem.symm, rfl⟩
    | createItem x =>
        dsimp only at hitem
        split at hitem
        · exact absurd hitem (by simp)
        · refine .inr ⟨hitem.symm, ?_⟩
          simp only [next, result, StoreRequest.run, Memory.backend, Keeper.backend, Memory.keeper,
            stateOf_map, createItem_eq, stateOf_ok, shelf_putItem]
    | updateItem x =>
        have hshelf : (s.next ⟨f, session, .updateItem x⟩).shelf session.tenant item
            = s.shelf session.tenant item := by
          simp only [next, result, StoreRequest.run, Memory.backend, Keeper.backend, Memory.keeper,
            stateOf_map, updateItem_eq]
          cases s.item? session.tenant x.id <;> simp
        refine .inr ⟨?_, hshelf⟩
        dsimp only at hitem
        split at hitem
        · simpa using hitem.symm
        · exact hitem.symm
    | deleteItem d =>
        simp only [next, result, StoreRequest.run, Memory.backend, Keeper.backend, Memory.keeper,
          stateOf_map, deleteItem_eq]
        cases hd : s.item? session.tenant d with
        | none =>
            refine .inr ⟨?_, by simp⟩
            dsimp only at hitem
            split at hitem
            · rename_i hplace
              rw [hplace.2, hd]
            · exact hitem.symm
        | some x =>
            simp only [stateOf_ok, shelf_dropItem]
            split
            · exact .inl rfl
            · rename_i hplace
              simp only [true_and] at hplace hitem
              rw [if_neg hplace] at hitem
              exact .inr ⟨hitem.symm, rfl⟩
    | createVersion | updateVersion | publish | sync | forceSync | clean | revert =>
        dsimp only at hitem
        refine .inr ⟨hitem.symm, ?_⟩
        simp only [next, result, StoreRequest.run, Memory.backend, Keeper.backend, Memory.keeper,
          stateOf_map, createVersion, updateVersion, publish, sync, forceSync, clean, revert]
        rw [shelf_onShelf, if_neg]
        rintro ⟨rfl, hsome⟩
        rw [← hitem] at hsome
        exact absurd hsome (by simp)
  · refine .inr ⟨?_, shelf_next_of_ne ht item⟩
    rw [item?_next] at h
    simp only [ht, false_and, if_false] at h
    split at h <;> exact h

/-- All ids in the store are ids of `past`. Items are kept under their own ids, and one that is missing has
no versions. -/
structure KnownIds (past : List Fresh) (s : Store) : Prop where
  item : ∀ {tenant id : String} {x : Item}, s.item? tenant id = some x →
    ∃ f ∈ past, f.item = id
  id_of_item : ∀ {tenant id : String} {x : Item}, s.item? tenant id = some x → x.id = id
  missing : ∀ {tenant id : String}, s.item? tenant id = none → s.shelf tenant id = Shelf.empty
  shelf : ∀ tenant item : String, (s.shelf tenant item).KnownIds past

namespace KnownIds

variable {past : List Fresh}

theorem empty : Store.empty.KnownIds past where
  item h := by simp at h
  id_of_item h := by simp at h
  missing _ := rfl
  shelf _ _ := .empty

/-- An item of which there is a copy of a version is there. -/
theorem item_of_copy (h : s.KnownIds past) {user version : String} {c : WorkingCopy}
    (hc : (s.shelf tenant item).copy? user version = some c) :
    ∃ x, s.item? tenant item = some x := by
  cases hx : s.item? tenant item with
  | some x => exact ⟨x, rfl⟩
  | none =>
      rw [h.missing hx] at hc
      exact absurd hc (by simp)

/-- An item of which a version is shared is there. -/
theorem item_of_head (h : s.KnownIds past) {version : String} {e : Entry}
    (he : (s.shelf tenant item).head? version = some e) : ∃ x, s.item? tenant item = some x := by
  cases hx : s.item? tenant item with
  | some x => exact ⟨x, rfl⟩
  | none =>
      rw [h.missing hx] at he
      exact absurd he (by simp)

theorem mono {past' : List Fresh} (h : s.KnownIds past) (hsub : past ⊆ past') :
    s.KnownIds past' where
  item hx :=
    let ⟨f, hf, hid⟩ := h.item hx
    ⟨f, hsub hf, hid⟩
  id_of_item := h.id_of_item
  missing := h.missing
  shelf t i := (h.shelf t i).mono hsub

/-- A call keeps all ids known, if those that it may put into the store are. -/
theorem next_of_mem (h : s.KnownIds past) (hused : e.request.takesId = true → e.fresh ∈ past) :
    (s.next e).KnownIds past where
  item {t id x} hx := by
    rcases item?_of_next hx with ⟨y, hy⟩ | ⟨hr, hid⟩
    · exact h.item hy
    · exact ⟨e.fresh, hused hr, hid.symm⟩
  id_of_item {t id x} hx := by
    rw [item?_next] at hx
    split at hx
    · split at hx
      · rename_i hplace
        rw [← Option.some.inj hx, hplace.2]
      · exact h.id_of_item hx
    · split at hx
      · rename_i hplace
        obtain ⟨stored, -, rfl⟩ := Option.map_eq_some_iff.1 hx
        exact hplace.2.symm
      · exact h.id_of_item hx
    · split at hx
      · exact absurd hx (by simp)
      · exact h.id_of_item hx
    · exact h.id_of_item hx
  missing hmissing := by
    rcases shelf_next_of_missing hmissing with hempty | ⟨hbefore, hsame⟩
    · exact hempty
    · rw [hsame, h.missing hbefore]
  shelf t i := by
    by_cases ht : t = e.session.tenant
    · rw [ht]
      exact (h.shelf _ i).effect hused (effect_next s e i)
    · rw [shelf_next_of_ne ht]
      exact h.shelf t i

theorem next (h : s.KnownIds past) (e : Event StoreRequest) :
    (s.next e).KnownIds (past ++ [e.fresh]) :=
  (h.mono (List.subset_append_left _ _)).next_of_mem
    fun _ => List.mem_append_right _ List.mem_cons_self

/-- After a history the ids in the store are those that it was supplied. -/
theorem after (h : s.KnownIds past) (history : List (Event StoreRequest)) :
    (s.after history).KnownIds (past ++ history.map (·.fresh)) := by
  induction history generalizing s past with
  | nil => simpa using h
  | cons e history ih => simpa using ih (h.next e)

/-- The engine only calls the store. -/
theorem serve (h : s.KnownIds past) (naming : Calculator) (e : Event Request) :
    (s.serve naming e).KnownIds (past ++ [e.fresh]) := by
  refine serve_keeps (fun s session r hs => ?_) naming e.session e.request
    (h.mono (List.subset_append_left _ _))
  exact hs.next_of_mem fun _ => List.mem_append_right _ List.mem_cons_self

end KnownIds

end Store

end VersionCatalog
