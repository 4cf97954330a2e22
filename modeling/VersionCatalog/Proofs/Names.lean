import VersionCatalog.Proofs.Effects

/-!
# Names of shared versions

No two versions of an item are shared under one name. A name gets into the heads by a publication only,
whatever way it came into the copy that is published (a new version, an edit, or the content of an earlier
revision that is restored), and a publication looks at all heads but the version's own. What is looked at
when a version is made, and that copies of different users may have one name, does not matter.

## Main results

* `Shelf.NamesDiffer.effect`: a call keeps the names of the heads different.
* `Shelf.NamesDiffer.nodup_names`: then no name is in the list of the heads twice.
* `Store.shared_names_nodup`: so it is after every history from the empty store.
-/

namespace VersionCatalog

namespace Shelf

variable {s s' : Shelf} {f : Fresh} {user item version : String} {r : StoreRequest}

/-- The heads are listed by version, so what tells versions apart is in the list once each. -/
theorem nodup_map_heads {α : Type} {g : Entry → α}
    (h : ∀ {v w d e}, s.head? v = some d → s.head? w = some e → g d = g e → v = w) :
    (s.heads.map g).Nodup := by
  rw [List.Nodup, List.pairwise_map, heads, List.pairwise_filterMap, Keyed.values, List.pairwise_map]
  refine s.shared.increasing.imp_of_mem fun {a b} ha hb hlt d hd e he hsame => ?_
  have head?_of_mem : ∀ {c : String × SharedCopy} {x : Entry}, c ∈ s.shared.entries →
      c.2.head? = some x → s.head? c.1 = some x := by
    intro c x hc hx
    rw [head?, Keyed.get?_eq_some_iff.2 hc, Option.bind_some, hx]
  exact String.ne_of_lt hlt (h (head?_of_mem ha hd) (head?_of_mem hb he) hsame)

/-- Versions that are shared under one name are the same version. -/
def NamesDiffer (s : Shelf) : Prop :=
  ∀ ⦃v w : String⦄ ⦃d e : Entry⦄, s.head? v = some d → s.head? w = some e →
    d.content.name = e.content.name → v = w

namespace NamesDiffer

theorem empty : Shelf.empty.NamesDiffer :=
  fun _ _ _ _ h => absurd h (by simp)

theorem of_head? (h : s.NamesDiffer) (hheads : ∀ v, s'.head? v = s.head? v) : s'.NamesDiffer :=
  fun _ _ _ _ hd he hname => h (hheads _ ▸ hd) (hheads _ ▸ he) hname

/-- A version is published under a name that no other head has. -/
theorem append (h : s.NamesDiffer) {x : Entry} (hname : s.sharesName version x.content.name = false) :
    (s.append version x).NamesDiffer := by
  have hfree : ∀ {w e}, s.head? w = some e → e.content.name = x.content.name → w = version := by
    intro w e he hsame
    refine Decidable.byContradiction fun hne => ?_
    exact absurd (sharesName_iff.2 ⟨w, e, hne, he, hsame⟩) (by simp [hname])
  intro v w d e hd he hsame
  rw [head?_append] at hd he
  by_cases hv : v = version <;> by_cases hw : w = version
  · rw [hv, hw]
  · rw [if_pos hv, Option.some.injEq] at hd
    rw [if_neg hw] at he
    exact absurd (hfree he (hd ▸ hsame.symm)) hw
  · rw [if_neg hv] at hd
    rw [if_pos hw, Option.some.injEq] at he
    exact absurd (hfree hd (he ▸ hsame)) hv
  · rw [if_neg hv] at hd
    rw [if_neg hw] at he
    exact h hd he hsame

/-- **A call keeps the names of the heads different.** -/
theorem effect (h : s.NamesDiffer) (heffect : s.Effect f user item r s') : s'.NamesDiffer := by
  cases heffect with
  | idle halike => exact h.of_head? fun v => (halike.head? v).symm
  | create | update | revert | pull | merge | overwrite => exact h.of_head? fun _ => head?_putCopy ..
  | publish hcopy hcurrent hedits hname =>
      exact (h.append (x := ⟨_, _⟩) hname).of_head? fun _ => head?_putCopy ..
  | drop => exact h.of_head? fun _ => head?_dropCopy ..
  | delete => exact empty

/-- No name is in the list of the heads twice. -/
theorem nodup_names (h : s.NamesDiffer) : (s.heads.map (·.content.name)).Nodup :=
  nodup_map_heads fun hd he hname => h hd he hname

end NamesDiffer

/-- The list has the contents of the heads, in another order. -/
theorem list_perm (s : Shelf) {α : Type} (g : Content → α) :
    (s.list.map fun x => g x.toContent).Perm (s.heads.map fun e => g e.content) := by
  have hperm := (List.mergeSort_perm (s.heads.map (·.content)) Content.listedBefore).map g
  rw [List.map_map] at hperm
  rw [list, List.map_map]
  exact hperm

/-- The list has the names of the heads, in another order. -/
theorem names_list_perm (s : Shelf) :
    (s.list.map (·.name)).Perm (s.heads.map (·.content.name)) :=
  s.list_perm (·.name)

end Shelf

namespace Store

/-- A store in which the names of each item's heads are different is so after any history. -/
theorem namesDiffer_after {s : Store} (h : ∀ tenant item, (s.shelf tenant item).NamesDiffer)
    (history : List (Event StoreRequest)) (tenant item : String) :
    ((s.after history).shelf tenant item).NamesDiffer := by
  induction history generalizing s with
  | nil => exact h tenant item
  | cons e history ih =>
      refine ih fun t i => ?_
      by_cases ht : t = e.session.tenant
      · rw [ht]
        exact (h _ i).effect (effect_next s e i)
      · rw [shelf_next_of_ne ht]
        exact h t i

/-- **The shared versions of an item have different names**, after every history of store calls of any
users: among the heads, and in what is listed. Nothing is asked of the ids. -/
theorem shared_names_nodup (history : List (Event StoreRequest)) (session : Session) (item : String) :
    (((empty.after history).shelf session.tenant item).heads.map (·.content.name)).Nodup ∧
      (((empty.after history).listVersions session item).map (·.name)).Nodup := by
  have hempty : ∀ tenant item, (empty.shelf tenant item).NamesDiffer := fun _ _ => .empty
  have hheads := (namesDiffer_after hempty history session.tenant item).nodup_names
  exact ⟨hheads, ((Shelf.names_list_perm _).nodup_iff).2 hheads⟩

end Store

end VersionCatalog
