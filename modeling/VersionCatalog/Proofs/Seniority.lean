import VersionCatalog.Proofs.Chronology
import VersionCatalog.Proofs.Listings

/-!
# The order of listings

Items and versions are listed by the time of their creation, which stands in the record of an item and in every
content of a version. An item keeps it whatever is written over its record. The contents of a version go from a
copy into a publication, and from there into other copies or back into an earlier state, and all of them have
the time of the operation that made the version (`Store.Dated`). So while the clock grows the entries of a
listing stand in the order of the operations that made them, and nothing that is done later changes that.

## Main results

* `ByAge.mergeSort_eq`: a list of different ages has one order by age.
* `Shelf.Dated.effect`, `Store.Dated.next`: the times of creation stay through every call.
* `Platform.items_inOrder`, `Platform.versions_inOrder`: what is listed is in the order of the operations.
* `Platform.listed_in_order_of_creation`: all of it.
-/

namespace VersionCatalog

/-! ### Sorting by age -/

theorem Instant.compareOptional_eq (t u : Option Instant) :
    compareOptional t u = compare (t.map rank) (u.map rank) := by
  cases t <;> cases u <;> rfl

section

variable {α : Type} {created : α → Option Instant} {name : α → String} {le : α → α → Bool} {a b c : α}
  {l sorted : List α}

/-- What is older comes first, and what is of one age is in the order of the names. -/
def ByAge (created : α → Option Instant) (name : α → String) (le : α → α → Bool) : Prop :=
  ∀ a b, le a b
    = ((Instant.compareOptional (created a) (created b)).then (compare (name a) (name b))).isLE

theorem Item.listedBefore_byAge : ByAge Item.created Item.name listedBefore := fun _ _ => rfl

theorem Content.listedBefore_byAge : ByAge Content.created Content.name listedBefore := fun _ _ => rfl

/-- All in a list have times of their creation, and these ascend. -/
def Rising (created : α → Option Instant) (l : List α) : Prop :=
  l.Pairwise fun a b => ∃ t u, created a = some t ∧ created b = some u ∧ t < u

theorem Rising.nodup_map (h : Rising created l) : (l.map created).Nodup := by
  refine List.pairwise_map.2 (h.imp fun {a b} hab heq => ?_)
  obtain ⟨t, u, ha, hb, hlt⟩ := hab
  obtain rfl : t = u := Option.some.inj (ha.symm.trans (heq.trans hb))
  exact Int.lt_irrefl _ hlt

namespace ByAge

variable (h : ByAge created name le)

include h

theorem eq_isLE (a b : α) : le a b
    = (compareLex (compareOn fun x => (created x).map Instant.rank) (compareOn name) a b).isLE := by
  rw [h, Instant.compareOptional_eq]
  rfl

theorem trans (a b c : α) (hab : le a b = true) (hbc : le b c = true) : le a c = true := by
  rw [h.eq_isLE] at *
  exact Std.TransCmp.isLE_trans hab hbc

theorem total (a b : α) : (le a b || le b a) = true := by
  let cmp := compareLex (compareOn fun x => (created x).map Instant.rank) (compareOn name)
  have hswap : cmp b a = (cmp a b).swap := Std.OrientedCmp.eq_swap
  have hboth : (le a b || le b a) = ((cmp a b).isLE || (cmp b a).isLE) := by
    rw [h.eq_isLE, h.eq_isLE]
  rw [hboth, hswap]
  cases cmp a b <;> rfl

/-- Only what is of one age can stand in either order. -/
theorem created_eq (hab : le a b = true) (hba : le b a = true) : created a = created b := by
  rw [h.eq_isLE] at hab hba
  have hboth : compareLex (compareOn fun x => (created x).map Instant.rank) (compareOn name) a b = .eq :=
    Std.OrientedCmp.isLE_antisymm hab hba
  have hranks := Std.LawfulEqOrd.eq_of_compare (Ordering.then_eq_eq.1 hboth).1
  exact Option.map_injective (fun _ _ => Instant.rank_injective) hranks

theorem le_of_lt {t u : Instant} (ha : created a = some t) (hb : created b = some u) (htu : t < u) :
    le a b = true := by
  have hlt : compare t.rank u.rank = .lt := Std.compare_eq_lt.2 htu
  rw [h, ha, hb, Instant.compareOptional, hlt]
  rfl

/-- **A list of different ages has one order by age.** -/
theorem mergeSort_eq (hperm : l.Perm sorted) (hrising : Rising created sorted) :
    l.mergeSort le = sorted := by
  have hmerged : (l.mergeSort le).Perm sorted := (List.mergeSort_perm l le).trans hperm
  refine hmerged.eq_of_pairwise (fun a b ha hb hab hba => ?_) (List.pairwise_mergeSort h.trans h.total l)
    (hrising.imp fun {a b} hab => ?_)
  · exact List.inj_on_of_nodup_map hrising.nodup_map (hmerged.subset ha) hb (h.created_eq hab hba)
  · obtain ⟨t, u, ha, hb, htu⟩ := hab
    exact h.le_of_lt ha hb htu

end ByAge

end

/-! ### The operations that make something -/

/-- When something is made that takes the new id of a kind. -/
def Fresh.madeAt (f : Fresh) : IdKind → Instant
  | .item => f.clock.createItem
  | .version => f.clock.createVersion
  | .revision => f.clock.publish

theorem Fresh.madeAt_lt {f g : Fresh} (h : f.clock.Before g.clock) (kind : IdKind) :
    f.madeAt kind < g.madeAt kind := by
  cases kind with
  | item => exact h.createItem
  | version => exact h.createVersion
  | revision => exact h.publish

namespace Platform

/-- The operations of a tenant that take a new id of a kind: those that are asked to make an item, or a
version. -/
def makers (kind : IdKind) (tenant : String) (history : List (Event Operation)) : List (Event Operation) :=
  history.filter fun e => e.session.tenant = tenant ∧ kind ∈ e.request.takes

/-- One of the operations was supplied with the id and made something at that time. -/
def Born (made : List (Event Operation)) (kind : IdKind) (id : String) (created : Option Instant) : Prop :=
  ∃ e ∈ made, e.fresh.id kind = id ∧ created = some (e.fresh.madeAt kind)

variable {α : Type} {created : α → Option Instant} {key : α → String} {name : α → String} {le : α → α → Bool}
  {lookup : String → Option α} {made : List (Event Operation)} {kind : IdKind} {tenant : String}
  {history : List (Event Operation)}

theorem Born.mono {made' : List (Event Operation)} {id : String} {t : Option Instant}
    (h : Born made kind id t) (hsub : made ⊆ made') : Born made' kind id t :=
  let ⟨e, he, hborn⟩ := h
  ⟨e, hsub he, hborn⟩

/-- An id belongs to one operation, whose time it is. -/
theorem Born.eq_of_mem {e : Event Operation} {t : Option Instant} (h : Born made kind (e.fresh.id kind) t)
    (hids : (made.map (·.fresh.id kind)).Nodup) (he : e ∈ made) : t = some (e.fresh.madeAt kind) := by
  obtain ⟨d, hd, hid, rfl⟩ := h
  rw [List.inj_on_of_nodup_map hids hd he hid]

theorem makers_append (kind : IdKind) (tenant : String) (history more : List (Event Operation)) :
    makers kind tenant (history ++ more) = makers kind tenant history ++ makers kind tenant more :=
  List.filter_append ..

theorem nodup_makers (hfresh : FreshIds history) (kind : IdKind) (tenant : String) :
    ((makers kind tenant history).map (·.fresh.id kind)).Nodup := by
  have hmade : FreshIds (makers kind tenant history) := hfresh.sublist List.filter_sublist
  exact List.pairwise_map.2 (hmade.imp fun hapart => Fresh.apart_iff.1 hapart kind)

/-- What the operations have made, as far as it is there, ascends in time. -/
theorem rising_filterMap (hclock : ClockGrows made) (hids : (made.map (·.fresh.id kind)).Nodup)
    (hborn : ∀ {id x}, lookup id = some x → Born made kind id (created x)) :
    Rising created (made.filterMap fun e => lookup (e.fresh.id kind)) := by
  refine List.pairwise_filterMap.2 (hclock.imp_of_mem fun {d e} hd he hbefore x hx y hy => ?_)
  exact ⟨_, _, (hborn hx).eq_of_mem hids hd, (hborn hy).eq_of_mem hids he,
    Fresh.madeAt_lt hbefore kind⟩

/-- **What is sorted by age is in the order of the operations that made it.** -/
theorem mergeSort_eq_filterMap (hage : ByAge created name le) {values : List α} (hnodup : values.Nodup)
    (hvalues : ∀ x, x ∈ values ↔ ∃ id, lookup id = some x) (hclock : ClockGrows made)
    (hids : (made.map (·.fresh.id kind)).Nodup)
    (hborn : ∀ {id x}, lookup id = some x → Born made kind id (created x)) :
    values.mergeSort le = made.filterMap fun e => lookup (e.fresh.id kind) := by
  have hrising := rising_filterMap hclock hids hborn
  refine hage.mergeSort_eq ?_ hrising
  refine (List.perm_ext_iff_of_nodup hnodup hrising.nodup_map.of_map).2 fun x => ?_
  rw [hvalues, List.mem_filterMap]
  constructor
  · rintro ⟨id, hx⟩
    obtain ⟨e, he, rfl, -⟩ := hborn hx
    exact ⟨e, he, hx⟩
  · rintro ⟨e, -, hx⟩
    exact ⟨_, hx⟩

/-- The ids of what is there are some of those that the operations were supplied with, in their order. -/
theorem keys_sublist (hkey : ∀ {id x}, lookup id = some x → key x = id) (made : List (Event Operation)) :
    ((made.filterMap fun e => lookup (e.fresh.id kind)).map key).Sublist
      (made.map (·.fresh.id kind)) := by
  induction made with
  | nil => exact .slnil
  | cons e made ih =>
      rw [List.filterMap_cons, List.map_cons]
      cases hx : lookup (e.fresh.id kind) with
      | none => exact ih.cons _
      | some x =>
          rw [List.map_cons, hkey hx]
          exact ih.cons_cons _

/-- What it is to list, of the things that a look-up finds, all that the operations made, in their order: each
of them once, and at ascending times, which are those of the operations. -/
structure InOrder (made : List (Event Operation)) (kind : IdKind) (key : α → String)
    (created : α → Option Instant) (lookup : String → Option α) (listed : List α) : Prop where
  eq_filterMap : listed = made.filterMap fun e => lookup (e.fresh.id kind)
  mem_iff : ∀ id x, lookup id = some x ↔ x ∈ listed ∧ key x = id
  nodup : (listed.map key).Nodup
  rising : Rising created listed
  born : ∀ x ∈ listed, Born made kind (key x) (created x)
  keys : (listed.map key).Sublist (made.map (·.fresh.id kind))

theorem InOrder.of_eq {listed : List α} (heq : listed = made.filterMap fun e => lookup (e.fresh.id kind))
    (hclock : ClockGrows made) (hids : (made.map (·.fresh.id kind)).Nodup)
    (hkey : ∀ {id x}, lookup id = some x → key x = id)
    (hborn : ∀ {id x}, lookup id = some x → Born made kind id (created x)) :
    InOrder made kind key created lookup listed := by
  have hkeys : (listed.map key).Sublist (made.map (·.fresh.id kind)) := by
    rw [heq]
    exact keys_sublist hkey made
  have hfound : ∀ x ∈ listed, lookup (key x) = some x := by
    rw [heq]
    intro x hx
    obtain ⟨e, -, hx⟩ := List.mem_filterMap.1 hx
    rwa [hkey hx]
  refine ⟨heq, fun id x => ⟨fun hx => ⟨?_, hkey hx⟩, ?_⟩, hids.sublist hkeys, ?_,
    fun x hx => hborn (hfound x hx), hkeys⟩
  · obtain ⟨e, he, hid, -⟩ := hborn hx
    rw [heq]
    exact List.mem_filterMap.2 ⟨e, he, hid.symm ▸ hx⟩
  · rintro ⟨hx, rfl⟩
    exact hfound x hx
  · rw [heq]
    exact rising_filterMap hclock hids hborn

/-- What stands in both lists stands in the same order there. -/
def SameOrder (l m : List String) : Prop :=
  l.filter (· ∈ m) = m.filter (· ∈ l)

theorem SameOrder.of_sublist {l m ids : List String} (hids : ids.Nodup) (hl : l.Sublist ids)
    (hm : m.Sublist ids) : SameOrder l m := by
  have hl' : (l.filter (· ∈ m)).Sublist ids := List.filter_sublist.trans hl
  have hm' : (m.filter (· ∈ l)).Sublist ids := List.filter_sublist.trans hm
  have hperm : (l.filter (· ∈ m)).Perm (m.filter (· ∈ l)) := by
    refine (List.perm_ext_iff_of_nodup (hids.sublist hl') (hids.sublist hm')).2 fun id => ?_
    simp only [List.mem_filter, decide_eq_true_eq, and_comm]
  exact (hids.perm_iff_eq_of_sublist hl' hm').1 hperm

/-- What the operations have made is in the same order after more of them. -/
theorem InOrder.sameOrder {more : List (Event Operation)} {lookup' : String → Option α}
    {listed listed' : List α} (h : InOrder made kind key created lookup listed)
    (h' : InOrder (made ++ more) kind key created lookup' listed')
    (hids : ((made ++ more).map (·.fresh.id kind)).Nodup) :
    SameOrder (listed.map key) (listed'.map key) := by
  have hearlier : (listed.map key).Sublist ((made ++ more).map (·.fresh.id kind)) := by
    rw [List.map_append]
    exact h.keys.trans (List.sublist_append_left _ _)
  exact .of_sublist hids hearlier h'.keys

end Platform

/-! ### Times of creation -/

open Platform (Born makers)

/-- Everything that is stored of a version has the time of the operation that made the version. -/
def Shelf.Dated (made : List (Event Operation)) (s : Shelf) : Prop :=
  ∀ ⦃version c⦄, s.Stores version c → Born made .version version c.created

namespace Shelf

variable {s s' : Shelf} {f : Fresh} {user item version v : String} {r : StoreRequest} {c : WorkingCopy}
  {content : Content} {e : Entry} {made : List (Event Operation)}

theorem Stores.of_alike (h : s'.Stores v content) (halike : s.Alike s') : s.Stores v content := by
  cases h with
  | entry he => exact .entry (halike.entries v ▸ he)
  | copy hc => exact .copy ((halike.copy? ..).trans hc)

/-- What is stored after a copy is put was stored before, or is what the copy holds. -/
theorem Stores.of_putCopy (h : (s.putCopy user version c).Stores v content) :
    s.Stores v content ∨ v = version ∧ content = c.content := by
  cases h with
  | entry he => exact .inl (.entry he)
  | copy hc =>
      rw [copy?_putCopy] at hc
      split at hc
      · rename_i hplace
        exact .inr ⟨hplace.2, congrArg WorkingCopy.content (Option.some.inj hc).symm⟩
      · exact .inl (.copy hc)

/-- What is stored after a publication was stored before, or is what was published. -/
theorem Stores.of_append (h : (s.append version e).Stores v content) :
    s.Stores v content ∨ v = version ∧ content = e.content := by
  cases h with
  | entry hd =>
      rw [entries_append] at hd
      split at hd
      · rename_i hv
        rcases List.mem_append.1 hd with hd | hd
        · exact .inl (.entry hd)
        · exact .inr ⟨hv, congrArg Entry.content (List.mem_singleton.1 hd)⟩
      · exact .inl (.entry hd)
  | copy hc => exact .inl (.copy hc)

theorem Stores.of_dropCopy (h : (s.dropCopy user version).Stores v content) : s.Stores v content := by
  cases h with
  | entry he => exact .entry (entries_dropCopy s user version v ▸ he)
  | copy hc =>
      rw [copy?_dropCopy] at hc
      split at hc
      · cases hc
      · exact .copy hc

namespace Dated

theorem empty : Shelf.empty.Dated made := by
  rintro v content (⟨he⟩ | ⟨hc⟩)
  · simp at he
  · simp at hc

theorem mono {made' : List (Event Operation)} (h : s.Dated made) (hsub : made ⊆ made') : s.Dated made' :=
  fun _ _ hstores => (h hstores).mono hsub

/-- A copy is put whose content has the time that it should. -/
theorem putCopy (h : s.Dated made) (hc : Born made .version version c.content.created) :
    (s.putCopy user version c).Dated made := by
  intro v content hstores
  rcases hstores.of_putCopy with hold | ⟨rfl, rfl⟩
  · exact h hold
  · exact hc

theorem append (h : s.Dated made) (he : Born made .version version e.content.created) :
    (s.append version e).Dated made := by
  intro v content hstores
  rcases hstores.of_append with hold | ⟨rfl, rfl⟩
  · exact h hold
  · exact he

theorem of_head (h : s.Dated made) (he : s.head? version = some e) :
    Born made .version version e.content.created :=
  h (.entry (mem_entries_of_head? he))

/-- **The times of creation stay through every call**: what an edit, a publication, a synchronization or a
reversion takes over has the time already. -/
theorem effect (h : s.Dated made)
    (hmade : r.takes? = some .version → Born made .version f.version (some f.clock.createVersion))
    (heffect : s.Effect f user item r s') : s'.Dated made := by
  cases heffect with
  | idle halike => exact fun v content hstores => h (hstores.of_alike halike)
  | create hname => exact h.putCopy (hmade rfl)
  | update hcopy =>
      have hcontent := h (.copy hcopy)
      exact h.putCopy hcontent
  | revert hentry hcopy =>
      have hcontent := h (.entry (mem_entries_of_restored? hentry))
      exact h.putCopy hcontent
  | publish hcopy hcurrent hedits hname =>
      have hcontent := h (.copy hcopy)
      exact (h.append hcontent).putCopy hcontent
  | pull hhead hclean => exact h.putCopy (h.of_head hhead)
  | merge hhead hcopy hdirty hbehind =>
      have hcontent := h (.copy hcopy)
      exact h.putCopy hcontent
  | overwrite hhead => exact h.putCopy (h.of_head hhead)
  | drop => exact fun v content hstores => h hstores.of_dropCopy
  | delete => exact .empty

end Dated

/-- What is listed of a version. -/
def listed? (s : Shelf) (version : String) : Option Version :=
  (s.head? version).map fun e => ⟨e.content, none⟩

end Shelf

namespace Store

variable {s : Store} {tenant item : String} {items versions : List (Event Operation)}

/-- The items of a tenant have the times of the operations that made them, and so has everything that is stored
of their versions. -/
structure Dated (tenant : String) (items versions : List (Event Operation)) (s : Store) : Prop where
  item : ∀ {id x}, s.item? tenant id = some x → Born items .item id x.created
  shelf : ∀ item, (s.shelf tenant item).Dated versions

namespace Dated

theorem empty : Store.empty.Dated tenant items versions where
  item hx := by simp at hx
  shelf _ := .empty

theorem mono {items' versions' : List (Event Operation)} (h : s.Dated tenant items versions)
    (hitems : items ⊆ items') (hversions : versions ⊆ versions') : s.Dated tenant items' versions' where
  item hx := (h.item hx).mono hitems
  shelf item := (h.shelf item).mono hversions

/-- **A store call keeps the times of creation.** Its own time is that of what it makes. -/
theorem next (h : s.Dated tenant items versions) (e : Event StoreRequest)
    (hitem : e.session.tenant = tenant → e.request.takes? = some .item →
      Born items .item e.fresh.item (some e.fresh.clock.createItem))
    (hversion : e.session.tenant = tenant → e.request.takes? = some .version →
      Born versions .version e.fresh.version (some e.fresh.clock.createVersion)) :
    (s.next e).Dated tenant items versions where
  item {id x} hx := by
    rw [item?_next] at hx
    split at hx
    · rename_i y hr
      split at hx
      · rename_i hplace
        rw [← Option.some.inj hx, hplace.2]
        exact hitem hplace.1.symm (congrArg StoreRequest.takes? hr)
      · exact h.item hx
    · split at hx
      · obtain ⟨stored, hstored, rfl⟩ := Option.map_eq_some_iff.1 hx
        have hborn := h.item hstored
        exact hborn
      · exact h.item hx
    · split at hx
      · cases hx
      · exact h.item hx
    · exact h.item hx
  shelf i := by
    by_cases ht : tenant = e.session.tenant
    · subst ht
      exact (h.shelf i).effect (hversion rfl) (effect_next s e i)
    · rw [shelf_next_of_ne ht]
      exact h.shelf i

end Dated

end Store

/-! ### What is listed -/

namespace Platform

variable {s : Store} {tenant : String} {e : Event Operation} {history : List (Event Operation)}

/-- An operation keeps the times of creation. -/
theorem dated_perform {items versions : List (Event Operation)} (h : s.Dated tenant items versions)
    (e : Event Operation) : (memory.perform s e).2.Dated tenant (items ++ makers .item tenant [e])
      (versions ++ makers .version tenant [e]) := by
  have hmade : ∀ {kind made}, e.session.tenant = tenant → kind ∈ e.request.takes →
      Born (made ++ makers kind tenant [e]) kind (e.fresh.id kind) (some (e.fresh.madeAt kind)) := by
    intro kind made ht hkind
    refine ⟨e, List.mem_append_right _ (List.mem_filter.2 ⟨List.mem_cons_self, ?_⟩), rfl, rfl⟩
    exact decide_eq_true ⟨ht, hkind⟩
  refine (made_takes s e).keeps_of_takes (fun r htakes hs => ?_)
    (h.mono (List.subset_append_left _ _) (List.subset_append_left _ _))
  exact hs.next _ (fun ht hr => hmade ht (htakes _ hr)) fun ht hr => hmade ht (htakes _ hr)

theorem dated_operations {items versions : List (Event Operation)} (h : s.Dated tenant items versions)
    (history : List (Event Operation)) :
    (memory.after s history).Dated tenant (items ++ makers .item tenant history)
      (versions ++ makers .version tenant history) := by
  induction history generalizing s items versions with
  | nil => exact h.mono (List.subset_append_left _ _) (List.subset_append_left _ _)
  | cons e history ih =>
      have hrest := ih (dated_perform h e)
      rw [List.append_assoc, List.append_assoc, ← makers_append, ← makers_append] at hrest
      exact hrest

/-- After every history everything that is stored has the time of the operation that made it. -/
theorem dated_after (history : List (Event Operation)) (tenant : String) :
    (memory.after .empty history).Dated tenant (makers .item tenant history)
      (makers .version tenant history) := by
  have hempty : Store.empty.Dated tenant [] [] := .empty
  exact dated_operations hempty history

/-- **The items of a tenant are listed in the order of the operations that made them.** -/
theorem items_inOrder (hfresh : FreshIds history) (hclock : ClockGrows history) (session : Session) :
    let last := memory.after .empty history
    InOrder (makers .item session.tenant history) .item Item.id Item.created (last.item? session.tenant)
      (last.listItems session) := by
  intro last
  have hid : ∀ {id x}, last.item? session.tenant id = some x → x.id = id :=
    (consistent_after hfresh).id_of_item
  have hids := nodup_makers hfresh .item session.tenant
  have hmade : ClockGrows (makers .item session.tenant history) := hclock.sublist List.filter_sublist
  have hborn : ∀ {id x}, last.item? session.tenant id = some x →
      Born (makers .item session.tenant history) .item id x.created :=
    (dated_after history session.tenant).item
  have hnodup : (last.tenant session.tenant).items.values.Nodup :=
    Keyed.nodup_values fun hx hy => (hid hx).symm.trans (hid hy)
  have hsorted := mergeSort_eq_filterMap Item.listedBefore_byAge hnodup (fun _ => Keyed.mem_values) hmade
    hids hborn
  exact .of_eq hsorted hmade hids hid hborn

/-- **The versions of an item are listed in the order of the operations that made them.** -/
theorem versions_inOrder (hfresh : FreshIds history) (hclock : ClockGrows history) (session : Session)
    (item : String) :
    let last := memory.after .empty history
    InOrder (makers .version session.tenant history) .version (·.id) (·.created)
      (last.shelf session.tenant item).listed? (last.listVersions session item) := by
  intro last
  let shelf := last.shelf session.tenant item
  let content? (version : String) : Option Content := (shelf.head? version).map (·.content)
  have hid : ∀ {version e}, shelf.head? version = some e → e.content.id = version := fun he =>
    ((consistent_after hfresh).shelf session.tenant item).id_of_entry (Shelf.mem_entries_of_head? he)
  have hids := nodup_makers hfresh .version session.tenant
  have hmade : ClockGrows (makers .version session.tenant history) := hclock.sublist List.filter_sublist
  have hborn : ∀ {version e}, shelf.head? version = some e →
      Born (makers .version session.tenant history) .version version e.content.created :=
    fun he => ((dated_after history session.tenant).shelf item).of_head he
  have hnodup : (shelf.heads.map (·.content)).Nodup :=
    Shelf.nodup_map_heads fun hd he hsame => (hid hd).symm.trans (hsame ▸ hid he)
  have hvalues : ∀ c, c ∈ shelf.heads.map (·.content) ↔ ∃ version, content? version = some c := by
    simp only [List.mem_map, Shelf.mem_heads, content?, Option.map_eq_some_iff]
    exact fun c => ⟨fun ⟨e, ⟨v, he⟩, hc⟩ => ⟨v, e, he, hc⟩, fun ⟨v, e, he, hc⟩ => ⟨e, ⟨v, he⟩, hc⟩⟩
  have hsorted := mergeSort_eq_filterMap Content.listedBefore_byAge hnodup hvalues hmade hids
    fun hc => by
      obtain ⟨e, he, rfl⟩ := Option.map_eq_some_iff.1 hc
      exact hborn he
  refine .of_eq ?_ hmade hids (fun hx => ?_) fun hx => ?_
  · change (List.mergeSort (shelf.heads.map (·.content)) Content.listedBefore).map _ = _
    rw [hsorted, List.map_filterMap]
    refine List.filterMap_congr fun e _ => ?_
    rw [Option.map_map]
    rfl
  · obtain ⟨e, he, rfl⟩ := Option.map_eq_some_iff.1 hx
    exact hid he
  · obtain ⟨e, he, rfl⟩ := Option.map_eq_some_iff.1 hx
    exact hborn he

/-- There is no major step from a certified version: no major number is left after its name, or what it is
called is no version's name. -/
def EndsAt (x : Version) : Prop :=
  x.IsLast ∨ x.status = .certified ∧ ∀ n : VersionName, x.name ≠ n.toText

theorem endsAt_of_calculate {naming : Calculator} {x : Version} {error : EngineError}
    (hstatus : x.status = .certified) (h : naming.calculate (some x.name) .major = .error error) :
    EndsAt x := by
  by_cases hname : ∃ n : VersionName, x.name = n.toText
  · obtain ⟨n, hn⟩ := hname
    refine .inl ⟨hstatus, n, hn, Option.eq_none_iff_forall_ne_some.2 fun m hm => ?_⟩
    rw [hn, Calculator.calculate_of_next? hm] at h
    cases h
  · exact .inr ⟨hstatus, fun n hn => hname ⟨n, hn⟩⟩

/-- The engine lists the versions that the store lists, with notes, unless there is no major step from one of
them. -/
theorem engine_listVersions (s : Store) (f : Fresh) (session : Session) (naming : Calculator)
    (item : String) :
    let versions := s.listVersions session item
    let listing := memory.perform s ⟨f, session, .engine naming (.listVersions item)⟩
    listing.2 = s ∧
      ((∃ vs, listing.1 = .engine (.ok (.versions vs)) ∧ vs.map (·.id) = versions.map (·.id)) ∨
        ∃ x ∈ versions, ∃ error, EndsAt x ∧
          naming.calculate (some x.name) .major = .error error ∧ listing.1 = .engine (.error error)) := by
  intro versions listing
  let names := (s.shelf session.tenant item).names
  have hreply : listing.1 = .engine ((versions.mapM (naming.annotate names)).map .versions) :=
    congrArg Reply.engine (Store.reply_listVersions naming s f session item)
  refine ⟨Store.serve_listVersions naming s f session item, ?_⟩
  rw [hreply]
  cases hresult : versions.mapM (naming.annotate names) with
  | ok vs => exact .inl ⟨vs, rfl, map_eq_of_mapM hresult fun x _ y => Calculator.annotate_id⟩
  | error error =>
      obtain ⟨x, hx, herror⟩ := error_of_mapM hresult
      obtain ⟨hstatus, hname⟩ := Calculator.annotate_error herror
      exact .inr ⟨x, hx, error, endsAt_of_calculate hstatus hname, hname, rfl⟩

/-- **Listings are in the order of creation for ever.** Take any history of operations of any users of any
tenants, with new ids and a clock that grows, and any item.

* The items of a tenant that are there are listed in the order of the operations that made them, once each, and
  so are the versions of the item of which something was published.
* Whatever is done afterwards, two items that are listed before and after it are listed in the same order, and
  so are two versions.
* These are the listings of the store. The engine lists the items that the caller asks for, and leaves the
  others out. It lists the versions in their order, too, unless one of them is certified under a name after which
  no major number is left, or under what is no version's name. Listing changes nothing. -/
theorem listed_in_order_of_creation (hfresh : FreshIds history) (hclock : ClockGrows history)
    (session : Session) (item : String) :
    let tenant := session.tenant
    let last := memory.after .empty history
    let items := last.listItems session
    let versions := last.listVersions session item
    InOrder (makers .item tenant history) .item Item.id Item.created (last.item? tenant) items ∧
      InOrder (makers .version tenant history) .version (·.id) (·.created) (last.shelf tenant item).listed?
        versions ∧
      (∀ later, FreshIds (history ++ later) → ClockGrows (history ++ later) →
        let still := memory.after last later
        SameOrder (items.map (·.id)) ((still.listItems session).map (·.id)) ∧
          SameOrder (versions.map (·.id)) ((still.listVersions session item).map (·.id))) ∧
      ∀ f naming,
        memory.perform last ⟨f, session, .store .listItems⟩ = (.store (.ok (.items items)), last) ∧
        memory.perform last ⟨f, session, .store (.listVersions item)⟩
          = (.store (.ok (.versions versions)), last) ∧
        (∀ keep, memory.perform last ⟨f, session, .engine naming (.listItems keep)⟩
          = (.engine (.ok (.items (items.filter keep))), last)) ∧
        let listing := memory.perform last ⟨f, session, .engine naming (.listVersions item)⟩
        listing.2 = last ∧
          ((∃ vs, listing.1 = .engine (.ok (.versions vs)) ∧ vs.map (·.id) = versions.map (·.id)) ∨
            ∃ x ∈ versions, ∃ error, EndsAt x ∧
              naming.calculate (some x.name) .major = .error error ∧ listing.1 = .engine (.error error)) := by
  intro tenant last items versions
  refine ⟨items_inOrder hfresh hclock session, versions_inOrder hfresh hclock session item,
    fun later hfresh' hclock' => ?_,
    fun f naming => ⟨rfl, rfl, fun _ => rfl, engine_listVersions last f session naming item⟩⟩
  have hafter : memory.after last later = memory.after .empty (history ++ later) :=
    (List.foldl_append ..).symm
  have hitems := items_inOrder hfresh' hclock' session
  have hversions := versions_inOrder hfresh' hclock' session item
  have hitemIds := nodup_makers hfresh' .item tenant
  have hversionIds := nodup_makers hfresh' .version tenant
  rw [makers_append] at hitems hversions hitemIds hversionIds
  rw [hafter]
  exact ⟨(items_inOrder hfresh hclock session).sameOrder hitems hitemIds,
    (versions_inOrder hfresh hclock session item).sameOrder hversions hversionIds⟩

/-- Two items are made, and two versions of the first one, so that neither their ids nor their names are in the
order of their creation. The version that was made first is published last. -/
def backwards : List (Event Operation) :=
  [⟨⟨"i9", "v1", "r1", Store.afterNoon 11⟩, ⟨"alice", "acme"⟩,
      .engine .standard (.createItem { Item.blank with name := "pump" })⟩,
    ⟨⟨"i2", "v2", "r2", Store.afterNoon 12⟩, ⟨"bob", "acme"⟩,
      .store (.createItem { Item.blank with name := "fan" })⟩,
    ⟨⟨"i3", "v9", "r3", Store.afterNoon 13⟩, ⟨"bob", "acme"⟩,
      .store (.createVersion "i9" { Version.blank with name := "7.0" })⟩,
    ⟨⟨"i4", "v4", "r4", Store.afterNoon 14⟩, ⟨"alice", "acme"⟩,
      .engine .standard (.createVersion "i9" none Version.blank .major)⟩,
    ⟨⟨"i5", "v5", "r5", Store.afterNoon 15⟩, ⟨"bob", "acme"⟩, .store (.publish "i9" "v9" "late")⟩]

/-- The second version is renamed and published again, and another item is made. -/
def rearrangement : List (Event Operation) :=
  [⟨⟨"i6", "v6", "r6", Store.afterNoon 16⟩, ⟨"alice", "acme"⟩,
      .store (.updateVersion "i9" { Version.blank with id := "v4", name := "0.1" })⟩,
    ⟨⟨"i7", "v7", "r7", Store.afterNoon 17⟩, ⟨"alice", "acme"⟩, .store (.publish "i9" "v4" "renamed")⟩,
    ⟨⟨"i1", "v8", "r8", Store.afterNoon 18⟩, ⟨"bob", "acme"⟩, .engine .standard (.createItem Item.blank)⟩]

/-- What was made first is listed first, also after the rearrangement. -/
theorem backwards_listed_in_order :
    let session : Session := ⟨"carol", "acme"⟩
    let last := memory.after .empty backwards
    let still := memory.after last rearrangement
    FreshIds (backwards ++ rearrangement) ∧ ClockGrows (backwards ++ rearrangement) ∧
      (last.listItems session).map (·.id) = ["i9", "i2"] ∧
      (last.listVersions session "i9").map (·.id) = ["v9", "v4"] ∧
      SameOrder ["i9", "i2"] ((still.listItems session).map (·.id)) ∧
      SameOrder ["v9", "v4"] ((still.listVersions session "i9").map (·.id)) ∧
      ∀ f, (memory.perform last ⟨f, session, .engine .standard (.listItems fun x => x.name = "fan")⟩).1
        = .engine (.ok (.items ((last.listItems session).filter fun x => x.name = "fan"))) := by
  intro session last still
  have hfresh : FreshIds (backwards ++ rearrangement) := by decide
  have hclock : ClockGrows (backwards ++ rearrangement) := by decide
  obtain ⟨hitems, hversions, hstill, hreplies⟩ :=
    listed_in_order_of_creation hfresh.left (List.pairwise_append.1 hclock).1 session "i9"
  have hitemIds : (last.listItems session).map (·.id) = ["i9", "i2"] := by
    rw [hitems.eq_filterMap]
    decide +kernel
  have hversionIds : (last.listVersions session "i9").map (·.id) = ["v9", "v4"] := by
    rw [hversions.eq_filterMap]
    decide +kernel
  obtain ⟨hstillItems, hstillVersions⟩ := hstill rearrangement hfresh hclock
  rw [hitemIds] at hstillItems
  rw [hversionIds] at hstillVersions
  exact ⟨hfresh, hclock, hitemIds, hversionIds, hstillItems, hstillVersions,
    fun f => congrArg Prod.fst ((hreplies f .standard).2.2.1 _)⟩

end Platform

end VersionCatalog
