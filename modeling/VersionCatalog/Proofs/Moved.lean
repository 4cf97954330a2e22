import VersionCatalog.Proofs.Moves

/-!
# Moves in the store

The engine's moves on an item, lifted to the store: a store is *orderly* when all ids in it are known and
the versions of all items are sound (`Store.Orderly`), and another store follows from it by moves when each
item does (`Store.Moved`).

A call of the store that is about the caller's copy as it is makes a move by itself; so do an edit of it
followed by its publication, and the making of a version followed by its publication.

## Main results

* `Holding.Move.of_effect`, `Store.Orderly.next`: a plain call is a move.
* `Shelf.Sound.publish_edited`, `Shelf.publish_created`: a publication that cannot fail.
* `Store.Orderly.moved`: moves keep a store orderly.
-/

namespace VersionCatalog

open Relation (ReflTransGen)

/-! ### Single calls -/

/-- Whether a call is about the caller's copy of a version, as it is, or only looks. -/
def StoreRequest.isPlain : StoreRequest → Bool
  | .createItem _ | .updateItem _ | .deleteItem _ | .createVersion _ _ | .updateVersion _ _ => false
  | _ => true

/-- What a revert takes over into a copy that was made from the head has a status that `P` allows. -/
def Shelf.RestoresAllowed (P : VersionStatus → VersionStatus → Prop) (s : Shelf)
    (user version revision : String) : Prop :=
  ∀ {c e head}, s.copy? user version = some c → s.restored? version revision = some e →
    s.head? version = some head → c.syncState (some head) = .upToDate →
      P head.content.status e.content.status

namespace Holding.Move

variable {P : VersionStatus → VersionStatus → Prop} {f : Fresh} {user item : String}

/-- **A plain call is a move.** -/
theorem of_effect {r : StoreRequest} {s s' : Shelf} (heffect : s.Effect f user item r s')
    (hr : r.isPlain = true) (hsound : s.Sound P)
    (hnew : ∀ {u v d}, s.copy? u v = some d → d.synced ≠ some f.revision)
    (hrevert : ∀ version revision, r = .revert item version revision →
      s.RestoresAllowed P user version revision) (x : Option Item) :
    Move P f user ⟨x, s⟩ ⟨x, s'⟩ := by
  cases heffect with
  | idle halike => exact .idle halike
  | create | update | delete => exact absurd hr (by simp [StoreRequest.isPlain])
  | @revert version revision _ c e hentry hcopy =>
      obtain ⟨head, hhead⟩ := hsound.head_of_copy hcopy
      have horigin := hsound.origin_restored f.clock.revert hcopy hhead
        (Shelf.mem_entries_of_restored? hentry)
      refine .edit hcopy horigin fun hhead' hsync => ?_
      exact hrevert version revision rfl hcopy hentry hhead' hsync
  | @publish version message _ c hcopy hcurrent hedits hname =>
      obtain ⟨e, he⟩ := hsound.head_of_copy hcopy
      rw [he] at hcurrent
      have hpublished : ({ c with synced := some f.revision, dirty := false } : WorkingCopy)
          = ⟨c.content, some f.revision, false, false⟩ := by
        rw [(Shelf.syncState_eq_upToDate.1 hcurrent).1]
      rw [hpublished]
      exact .publish hcopy he hcurrent hnew
  | pull hhead hclean => exact .take hhead
  | merge hhead hcopy hdirty hbehind => exact .merge hcopy
  | overwrite hhead => exact .take hhead
  | drop => exact .drop

end Holding.Move

namespace Shelf

variable {P : VersionStatus → VersionStatus → Prop} {s : Shelf} {f : Fresh}
  {user item version message : String} {c : WorkingCopy} {e : Entry} {content : Content}

/-- A copy that was made from the head is published as soon as it is edited; no other version has its
name. -/
theorem Sound.publish_edited (h : s.Sound P) (hcopy : s.copy? user version = some c)
    (hhead : s.head? version = some e) (horigin : content.SameOrigin c.content)
    (hcurrent : c.syncState (some e) = .upToDate) :
    publish item f.revision f.clock.publish user version message
        (s.putCopy user version { c with content := content, dirty := true })
      = .ok () (s.published f user version message content) := by
  obtain ⟨hmerging, hsynced⟩ := syncState_eq_upToDate.1 hcurrent
  have hsync : WorkingCopy.syncState { c with content := content, dirty := true }
      ((s.putCopy user version { c with content := content, dirty := true }).head? version)
        = .upToDate := by
    rw [head?_putCopy, hhead]
    exact syncState_eq_upToDate.2 ⟨hmerging, hsynced⟩
  have hname : (s.putCopy user version { c with content := content, dirty := true }).sharesName
      version content.name = false := by
    rw [Bool.eq_false_iff]
    intro hshares
    obtain ⟨w, d, hne, hd, hsame⟩ := sharesName_iff.1 hshares
    have horigin := horigin.trans (h.origin_of_copy hcopy hhead)
    exact hne (h.eq_of_name hd hhead (hsame.trans horigin.name))
  rw [publish, copy?_putCopy_self]
  simp only [hsync, hname, Bool.not_true, Bool.false_and, Bool.false_eq_true, if_false]
  rw [putCopy_append_putCopy, hmerging]
  rfl

/-- A new version is published at once: nobody knows its id, and no version has its name. -/
theorem publish_created (hname : s.usesName content.name = false)
    (hhead : s.head? version = none) :
    publish item f.revision f.clock.publish user version message
        (s.putCopy user version ⟨content, none, true, false⟩)
      = .ok () (s.published f user version message content) := by
  have hsync : WorkingCopy.syncState ⟨content, none, true, false⟩
      ((s.putCopy user version ⟨content, none, true, false⟩).head? version) = .upToDate := by
    rw [head?_putCopy, hhead]
    rfl
  have hname : (s.putCopy user version ⟨content, none, true, false⟩).sharesName version
      content.name = false := by
    rw [Bool.eq_false_iff]
    intro hshares
    obtain ⟨w, d, -, hd, hsame⟩ := sharesName_iff.1 hshares
    have hused : s.usesName content.name = true := usesName_iff.2 (.inl ⟨w, d, hd, hsame⟩)
    rw [hname] at hused
    exact absurd hused (by simp)
  rw [publish, copy?_putCopy_self]
  simp only [hsync, hname, Bool.not_true, Bool.false_and, Bool.false_eq_true, if_false]
  rw [putCopy_append_putCopy]
  rfl

end Shelf

/-! ### Moves in the store -/

namespace Store

/-- An item of a tenant, and its versions. -/
def holding (s : Store) (tenant item : String) : Holding :=
  ⟨s.item? tenant item, s.shelf tenant item⟩

/-- Every item is left as the user's moves make it. -/
def Moved (P : VersionStatus → VersionStatus → Prop) (f : Fresh) (user : String) (s s' : Store) :
    Prop :=
  ∀ tenant item, ReflTransGen (Holding.Move P f user) (s.holding tenant item)
    (s'.holding tenant item)

/-- All ids are known, and all versions are sound. -/
structure Orderly (P : VersionStatus → VersionStatus → Prop) (past : List Fresh) (s : Store) :
    Prop where
  known : s.KnownIds past
  sound : ∀ tenant item, (s.shelf tenant item).Sound P

variable {P : VersionStatus → VersionStatus → Prop} {f : Fresh} {past past' : List Fresh}
  {user tenant item : String} {s s' s'' : Store}

namespace Moved

theorem refl (s : Store) : Moved P f user s s :=
  fun _ _ => .refl

theorem trans (h : Moved P f user s s') (h' : Moved P f user s' s'') : Moved P f user s s'' :=
  fun tenant item => (h tenant item).trans (h' tenant item)

/-- Calls made one after the other move what they find. -/
theorem bind {α β : Type} {x : Call Store α} {g : α → Call Store β}
    (hx : Moved P f user s (stateOf (x s)))
    (hg : ∀ a s₁, x s = .ok a s₁ → Moved P f user s₁ (stateOf (g a s₁))) :
    Moved P f user s (stateOf ((x >>= g) s)) :=
  related_bind (R := Moved P f user) trans hx hg

/-- A call that only looks does not count. -/
theorem bind_read {α β : Type} {x : Call Store α} {g : α → Call Store β}
    (hx : stateOf (x s) = s) (hg : ∀ a, x s = .ok a s → Moved P f user s (stateOf (g a s))) :
    Moved P f user s (stateOf ((x >>= g) s)) :=
  related_bind_read (R := Moved P f user) refl trans hx hg

theorem alike (h : s.Alike s') : Moved P f user s s' := by
  intro t i
  rw [holding, holding, ← h.item?]
  exact .single (.idle (h.shelves t i))

/-- A move on an item's versions, and on the item, in their places. -/
theorem putShelf {x : Shelf}
    (h : Holding.Move P f user (s.holding tenant item) ⟨s.item? tenant item, x⟩) :
    Moved P f user s (s.putShelf tenant item x) := by
  intro t i
  rw [holding, holding, item?_putShelf, shelf_putShelf]
  split
  · rename_i hplace
    obtain ⟨rfl, rfl⟩ := hplace
    exact .single h
  · exact .refl

theorem putItem {y : Item}
    (h : Holding.Move P f user (s.holding tenant y.id) ⟨some y, s.shelf tenant y.id⟩) :
    Moved P f user s (s.putItem tenant y) := by
  intro t i
  rw [holding, holding, item?_putItem, shelf_putItem]
  split
  · rename_i hplace
    obtain ⟨rfl, rfl⟩ := hplace
    exact .single h
  · exact .refl

theorem putShelf_putItem {x : Shelf} {y : Item}
    (h : Holding.Move P f user (s.holding tenant y.id) ⟨some y, x⟩) :
    Moved P f user s ((s.putShelf tenant y.id x).putItem tenant y) := by
  intro t i
  rw [holding, holding, item?_putItem, shelf_putItem, item?_putShelf, shelf_putShelf]
  split
  · rename_i hplace
    obtain ⟨rfl, rfl⟩ := hplace
    exact .single h
  · exact .refl

end Moved

namespace Orderly

theorem empty : Store.empty.Orderly P past :=
  ⟨.empty, fun _ _ => .empty⟩

/-- Moves keep a store orderly. -/
theorem moved (h : s.Orderly P past) (hP : ∀ status, P status status) (hmoved : Moved P f user s s')
    (hknown : s'.KnownIds past') : s'.Orderly P past' where
  known := hknown
  sound tenant item :=
    Shelf.Sound.moves (h := s.holding tenant item) (h.sound tenant item) hP (hmoved tenant item)

theorem synced_ne (h : s.Orderly P past) (hnew : ∀ g ∈ past, g.Apart f) {u v : String}
    {d : WorkingCopy} (hd : (s.shelf tenant item).copy? u v = some d) :
    d.synced ≠ some f.revision :=
  (h.known.shelf tenant item).synced_ne_of_new hnew hd

/-- A plain call of the store makes at most one move on an item. -/
theorem next (h : s.Orderly P past) {e : Event StoreRequest} (hplain : e.request.isPlain = true)
    (hnew : ∀ g ∈ past, g.Apart e.fresh)
    (hrevert : ∀ item version revision, e.request = .revert item version revision →
      (s.shelf e.session.tenant item).RestoresAllowed P e.session.user version revision) :
    Moved P e.fresh e.session.user s (s.next e) := by
  intro t i
  have hitem : (s.next e).item? t i = s.item? t i := by
    rw [item?_next]
    cases hr : e.request <;> rw [hr] at hplain <;>
      first | rfl | exact absurd hplain (by simp [StoreRequest.isPlain])
  rw [holding, holding, hitem]
  by_cases ht : t = e.session.tenant
  · subst ht
    exact .single (.of_effect (effect_next s e i) hplain (h.sound _ i) (h.synced_ne hnew)
      (fun version revision hr => hrevert i version revision hr) _)
  · rw [shelf_next_of_ne ht]

end Orderly

end Store

end VersionCatalog
