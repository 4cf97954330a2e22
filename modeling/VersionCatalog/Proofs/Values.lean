import VersionCatalog.Proofs.Agreement
import VersionCatalog.Proofs.Documents

/-!
# Values in a store

A call puts properties where they are taken from a request, or from another place of the store. So what is
true of all property values in a store stays true, as long as it is of the values of the requests
(`Store.Within`). Properties of items and properties of versions never mix, and may be asked for different
things.

## Main results

* `Store.Within.next`, `Store.Within.serve`: the calls of the store and of the engine keep it so.
* `Store.Fits.next`, `Store.Fits.serve`: a store stays one whose values a document can keep.
-/

namespace VersionCatalog

variable {p q : Json → Prop}

/-- The properties of an item's versions have certain values. -/
structure Shelf.Within (q : Json → Prop) (s : Shelf) : Prop where
  entries : ∀ version, ∀ e ∈ s.entries version, e.content.properties.All q
  copies : ∀ user version c, s.copy? user version = some c → c.content.properties.All q

/-- The properties of items have certain values, and those of versions too. -/
structure Store.Within (p q : Json → Prop) (s : Store) : Prop where
  items : ∀ tenant id i, s.item? tenant id = some i → i.properties.All p
  shelves : ∀ tenant item, (s.shelf tenant item).Within q

namespace Shelf

variable {s s' : Shelf}

theorem within_empty : empty.Within q where
  entries _ _ he := by simp at he
  copies _ _ _ hc := by simp at hc

theorem within_isValue : s.Within Json.IsValue ↔ s.Fits :=
  ⟨fun h => ⟨h.entries, h.copies⟩, fun h => ⟨h.entries, h.copies⟩⟩

theorem Alike.within (h : s.Alike s') (hs : s.Within q) : s'.Within q where
  entries version e he := hs.entries version e (h.entries version ▸ he)
  copies user version c hc := hs.copies user version c ((h.copy? user version).trans hc)

namespace Within

theorem of_head? (h : s.Within q) {version : String} {e : Entry} (he : s.head? version = some e) :
    e.content.properties.All q :=
  h.entries version e (mem_entries_of_head? he)

theorem putCopy (h : s.Within q) {c : WorkingCopy} (hc : c.content.properties.All q)
    (user version : String) : (s.putCopy user version c).Within q where
  entries := h.entries
  copies u v d hd := by
    rw [copy?_putCopy] at hd
    split at hd
    · obtain rfl := Option.some.inj hd
      exact hc
    · exact h.copies u v d hd

theorem append (h : s.Within q) {e : Entry} (he : e.content.properties.All q) (version : String) :
    (s.append version e).Within q where
  entries v d hd := by
    rw [entries_append] at hd
    split at hd
    · rcases List.mem_append.1 hd with hd | hd
      · exact h.entries v d hd
      · rwa [List.mem_singleton.1 hd]
    · exact h.entries v d hd
  copies := h.copies

theorem dropCopy (h : s.Within q) (user version : String) : (s.dropCopy user version).Within q where
  entries v e he := h.entries v e (by rwa [entries_dropCopy] at he)
  copies u v c hc := by
    rw [copy?_dropCopy] at hc
    split at hc
    · cases hc
    · exact h.copies u v c hc

end Within

/-- No call brings anything into the versions of an item but what it is given. -/
theorem Effect.within {f : Fresh} {user item : String} {r : StoreRequest}
    (h : Effect f user item r s s') (hs : s.Within q) (hr : r.Brings p q) : s'.Within q := by
  cases h with
  | idle halike => exact halike.within hs
  | create hname =>
      refine hs.putCopy ?_ _ _
      exact hr
  | update hcopy =>
      refine hs.putCopy ?_ _ _
      exact hr
  | revert hentry hcopy =>
      refine hs.putCopy ?_ _ _
      exact hs.entries _ _ (mem_entries_of_restored? hentry)
  | publish hcopy hcurrent hedits hname =>
      have hcontent := hs.copies _ _ _ hcopy
      refine Within.putCopy (hs.append ?_ _) ?_ _ _
      · exact hcontent
      · exact hcontent
  | pull hhead hclean =>
      refine hs.putCopy ?_ _ _
      exact hs.of_head? hhead
  | merge hhead hcopy hdirty hbehind =>
      have hcontent := hs.copies _ _ _ hcopy
      refine hs.putCopy ?_ _ _
      exact hcontent
  | overwrite hhead =>
      refine hs.putCopy ?_ _ _
      exact hs.of_head? hhead
  | drop => exact hs.dropCopy _ _
  | delete => exact within_empty

end Shelf

namespace Store

theorem within_empty : empty.Within p q where
  items _ _ _ hi := by simp at hi
  shelves _ _ := Shelf.within_empty

theorem within_isValue {s : Store} : s.Within Json.IsValue Json.IsValue ↔ s.Fits :=
  ⟨fun h => ⟨h.items, fun t item => Shelf.within_isValue.1 (h.shelves t item)⟩,
    fun h => ⟨h.items, fun t item => Shelf.within_isValue.2 (h.shelves t item)⟩⟩

theorem Within.shows {s : Store} (h : s.Within p q) : s.Shows p q where
  items hi := h.items _ _ _ hi
  copies hc := (h.shelves _ _).copies _ _ _ hc

theorem Within.mono {p' q' : Json → Prop} {s : Store} (h : s.Within p q) (hp : ∀ v, p v → p' v)
    (hq : ∀ v, q v → q' v) : s.Within p' q' where
  items t id i hi k v hv := hp v (h.items t id i hi k v hv)
  shelves t item :=
    ⟨fun version e he k v hv => hq v ((h.shelves t item).entries version e he k v hv),
      fun user version c hc k v hv => hq v ((h.shelves t item).copies user version c hc k v hv)⟩

/-- **What is true of all property values in a store stays true**, if it is of those of the call. -/
theorem Within.next {s : Store} (h : s.Within p q) {e : Event StoreRequest}
    (hr : e.request.Brings p q) : (s.next e).Within p q where
  items t id i hi := by
    rw [item?_next] at hi
    split at hi
    · rename_i x hx
      rw [hx] at hr
      split at hi
      · obtain rfl := Option.some.inj hi
        exact hr
      · exact h.items t id i hi
    · rename_i x hx
      rw [hx] at hr
      split at hi
      · obtain ⟨stored, -, rfl⟩ := Option.map_eq_some_iff.1 hi
        exact hr
      · exact h.items t id i hi
    · split at hi
      · cases hi
      · exact h.items t id i hi
    · exact h.items t id i hi
  shelves t item := by
    by_cases ht : t = e.session.tenant
    · subst ht
      exact (effect_next s e item).within (h.shelves _ item) hr
    · rw [shelf_next_of_ne ht]
      exact h.shelves t item

/-- The engine brings nothing into a store but values of its requests. -/
theorem Within.serve {s : Store} (h : s.Within p q) (naming : Calculator) {e : Event Request}
    (hr : e.request.Brings p q) : (s.serve naming e).Within p q :=
  serve_keeps_values Within.shows (fun _ _ _ hr hs => hs.next hr) naming e.session hr h

/-- **A call whose values a document can keep leaves a store whose values a document can keep.** -/
theorem Fits.next {s : Store} (h : s.Fits) {e : Event StoreRequest}
    (hr : e.request.properties.All Json.IsValue) : (s.next e).Fits :=
  within_isValue.1 ((within_isValue.2 h).next (StoreRequest.brings_iff.2 hr))

/-- **The engine brings nothing into a store but values of its requests.** -/
theorem Fits.serve {s : Store} (h : s.Fits) (naming : Calculator) {e : Event Request}
    (hr : e.request.properties.All Json.IsValue) : (s.serve naming e).Fits :=
  within_isValue.1 ((within_isValue.2 h).serve naming (Request.brings_iff.2 hr))

end Store

end VersionCatalog
