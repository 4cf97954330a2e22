import VersionCatalog.Proofs.Naming
import VersionCatalog.Proofs.Serving

/-!
# How versions come about

Whatever the users of the engine do, an item's versions change in few ways, as far as it matters where a
version comes from (`Shelf.Growth`). A content is copied, edited, restored or published only within its
version; a version is made with a content that the shelf offers (`Shelf.Offers`), and it is published as it
is made; and with its item all versions are deleted. Statuses do not matter here, so unlike the engine's
moves this covers every revert.

## Main results

* `Shelf.Sound.growth`: growth keeps an item's versions sound.
* `Store.Orderly.grown_serve`: what a request does to any item's versions is growth.
* `Store.Orderly.keeps_afterServing`: what growth keeps, every history keeps.
* `Store.orderly_afterServing`: every history keeps the store orderly, if statuses do not matter.
-/

namespace VersionCatalog

open Relation (ReflTransGen)

/-- Any status is allowed beside any other one. -/
def anyStatus : VersionStatus → VersionStatus → Prop := fun _ _ => True

theorem anyStatus_self (status : VersionStatus) : anyStatus status status := trivial

/-! ### The versions of one item -/

namespace Shelf

variable {naming : Calculator} {f : Fresh} {user item version : String} {s s' : Shelf}
  {content : Content}

/-- A content that a version may be made with: it is named one step after its base, which is shared, or
after the seed. -/
inductive Offers (naming : Calculator) (s : Shelf) (content : Content) : Prop
  | root {step : Step} (hbase : content.base = none)
      (hname : naming.calculate none step = .ok content.name)
  | branch {base : String} {e : Entry} {step : Step} (hbase : content.base = some base)
      (hhead : s.head? base = some e)
      (hname : naming.calculate (some e.content.name) step = .ok content.name)

/-- What the engine can make of an item's versions in one step, for a user and with what `f` supplies. -/
inductive Growth (naming : Calculator) (f : Fresh) (user : String) : Shelf → Shelf → Prop
  /-- Nothing that is ever looked at changes. -/
  | idle {s s' : Shelf} (halike : s.Alike s') : Growth naming f user s s'
  /-- The user's copy becomes one of the version's origin. -/
  | put {s : Shelf} {version : String} {c : WorkingCopy} {e : Entry}
      (hhead : s.head? version = some e) (horigin : c.content.SameOrigin e.content) :
      Growth naming f user s (s.putCopy user version c)
  /-- The user's copy is thrown away. -/
  | drop {s : Shelf} {version : String} : Growth naming f user s (s.dropCopy user version)
  /-- A content of the origin of the user's copy is published. -/
  | publish {s : Shelf} {version message : String} {c : WorkingCopy} {e : Entry} {content : Content}
      (hcopy : s.copy? user version = some c) (hhead : s.head? version = some e)
      (hnew : ∀ {u d}, s.copy? u version = some d → d.synced ≠ some f.revision)
      (horigin : content.SameOrigin c.content) :
      Growth naming f user s (s.published f user version message content)
  /-- A version is made now under a new id and a name that is not used, and published. -/
  | create {s : Shelf} {message : String} {content : Content} (hid : content.id = f.version)
      (hcreated : content.created = some f.clock.createVersion) (hoffers : s.Offers naming content)
      (hname : s.usesName content.name = false) (hhead : s.head? f.version = none)
      (hcopy : ∀ u, s.copy? u f.version = none) :
      Growth naming f user s (s.published f user f.version message content)
  /-- All versions are deleted with their item. -/
  | delete {s : Shelf} : Growth naming f user s empty

/-- A move that is not about the item is growth. -/
theorem Growth.of_move {P : VersionStatus → VersionStatus → Prop} (hsound : s.Sound P)
    (hmove : Holding.Move P f user ⟨none, s⟩ ⟨none, s'⟩) : Growth naming f user s s' := by
  cases hmove with
  | idle halike => exact .idle halike
  | take hhead => exact .put hhead (.refl _)
  | @merge _ _ _ c hcopy =>
      obtain ⟨e, he⟩ := hsound.head_of_copy hcopy
      have horigin : c.content.SameOrigin e.content := hsound.origin_of_copy hcopy he
      exact .put he horigin
  | edit hcopy horigin hstatus =>
      obtain ⟨e, he⟩ := hsound.head_of_copy hcopy
      exact .put he (horigin.trans (hsound.origin_of_copy hcopy he))
  | drop => exact .drop
  | publish hcopy hhead hcurrent hnew => exact .publish hcopy hhead hnew (.refl _)

/-- **Growth keeps an item's versions sound.** -/
theorem Sound.growth (h : s.Sound anyStatus) (hgrowth : Growth naming f user s s') :
    s'.Sound anyStatus := by
  cases hgrowth with
  | idle halike => exact h.alike halike
  | put hhead horigin => exact h.putCopy hhead horigin fun _ => trivial
  | drop => exact h.dropCopy
  | publish hcopy hhead hnew horigin =>
      exact h.published_of_copy anyStatus_self hcopy hhead hnew horigin
  | create hid hcreated hoffers hname hhead hcopy =>
      exact h.published_new anyStatus_self hid hname hhead hcopy
  | delete => exact .empty

end Shelf

/-! ### The store -/

namespace Store

variable {naming : Calculator} {past : List Fresh} {f : Fresh} {user tenant item version : String}
  {session : Session} {s s' s'' : Store}

/-- The versions of every item are what growth makes of them. -/
def Grown (naming : Calculator) (f : Fresh) (user : String) (s s' : Store) : Prop :=
  ∀ tenant item, ReflTransGen (Shelf.Growth naming f user) (s.shelf tenant item)
    (s'.shelf tenant item)

namespace Grown

theorem refl (s : Store) : Grown naming f user s s :=
  fun _ _ => .refl

theorem trans (h : Grown naming f user s s') (h' : Grown naming f user s' s'') :
    Grown naming f user s s'' :=
  fun tenant item => (h tenant item).trans (h' tenant item)

/-- Calls made one after the other. -/
theorem bind {α β : Type} {x : Call Store α} {g : α → Call Store β}
    (hx : Grown naming f user s (stateOf (x s)))
    (hg : ∀ a s₁, x s = .ok a s₁ → Grown naming f user s₁ (stateOf (g a s₁))) :
    Grown naming f user s (stateOf ((x >>= g) s)) :=
  related_bind (R := Grown naming f user) trans hx hg

/-- A call that only looks does not count. -/
theorem bind_read {α β : Type} {x : Call Store α} {g : α → Call Store β}
    (hx : stateOf (x s) = s)
    (hg : ∀ a, x s = .ok a s → Grown naming f user s (stateOf (g a s))) :
    Grown naming f user s (stateOf ((x >>= g) s)) :=
  related_bind_read (R := Grown naming f user) refl trans hx hg

theorem of_shelf (h : ∀ tenant item, (s.shelf tenant item).Alike (s'.shelf tenant item)) :
    Grown naming f user s s' :=
  fun tenant item => .single (.idle (h tenant item))

theorem putShelf {x : Shelf} (h : (s.shelf tenant item).Growth naming f user x) :
    Grown naming f user s (s.putShelf tenant item x) := by
  intro t i
  rw [shelf_putShelf]
  split
  · rename_i hplace
    obtain ⟨rfl, rfl⟩ := hplace
    exact .single h
  · exact .refl

theorem putItem (y : Item) : Grown naming f user s (s.putItem tenant y) :=
  of_shelf fun _ _ => by rw [shelf_putItem]; exact .refl _

/-- What becomes of an item itself does not touch its versions. -/
theorem updateItem (now : Instant) (session : Session) (y : Item) :
    Grown naming f user s (stateOf (Store.updateItem now session y s)) := by
  rw [updateItem_eq]
  cases s.item? session.tenant y.id with
  | none => exact of_shelf fun _ _ => by rw [stateOf_error, shelf_touch]; exact .refl _
  | some stored => exact putItem _

end Grown

namespace Orderly

variable {v : Version}

/-- Growth keeps a store orderly. -/
theorem grown {past' : List Fresh} (h : s.Orderly anyStatus past) (hgrown : Grown naming f user s s')
    (hknown : s'.KnownIds past') : s'.Orderly anyStatus past' where
  known := hknown
  sound tenant item := by
    have hsteps := hgrown tenant item
    generalize s'.shelf tenant item = shelf' at hsteps
    induction hsteps with
    | refl => exact h.sound tenant item
    | tail _ hgrowth ih => exact ih.growth hgrowth

/-- A plain call is growth. -/
theorem grown_next (h : s.Orderly anyStatus past) {e : Event StoreRequest}
    (hplain : e.request.isPlain = true) (hnew : ∀ g ∈ past, g.Apart e.fresh) :
    Grown naming e.fresh e.session.user s (s.next e) := by
  intro t i
  by_cases ht : t = e.session.tenant
  · subst ht
    have hmove := Holding.Move.of_effect (effect_next s e i) hplain (h.sound _ i) (h.synced_ne hnew)
      (fun _ _ _ _ _ _ _ _ _ _ => trivial) none
    exact .single (.of_move (h.sound _ i) hmove)
  · rw [shelf_next_of_ne ht]

/-- Reading a version is growth. -/
theorem grown_get (h : s.Orderly anyStatus past) (hnew : ∀ g ∈ past, g.Apart f) (session : Session)
    (item version : String) :
    Grown naming f session.user s
      (stateOf (Versions.get (Memory.backend f) session item version s)) := by
  rcases Versions.stateOf_get f session item version s with hsame | ⟨r, hplain, -, -, hnext⟩
  · rw [hsame]
    exact .refl s
  · rw [hnext]
    exact h.grown_next (e := ⟨f, session, r⟩) hplain hnew

/-- An edit that keeps the name is growth. -/
theorem grown_edit (h : s.Orderly anyStatus past)
    (hget : (s.shelf session.tenant item).get? session.user version = some v) {request : Version}
    (hid : request.id = v.id) (hname : request.name = v.name) :
    Grown naming f session.user s
      (stateOf (Store.updateVersion f.clock.updateVersion session item request s)) := by
  have hsound := h.sound session.tenant item
  obtain ⟨c, e, hc, he, hversion, hvname, -⟩ := hsound.of_get? hget
  obtain ⟨x, hx⟩ := h.known.item_of_copy hc
  rw [updateVersion_eq hx hc (hid.trans hversion)]
  have horigin := Content.SameOrigin.edited c.content (hname.trans hvname) f.clock.updateVersion
  exact .putShelf (.put he (horigin.trans (hsound.origin_of_copy hc he)))

theorem grown_update (h : s.Orderly anyStatus past) (hnew : ∀ g ∈ past, g.Apart f)
    (session : Session) (item version : String) (request : Version) :
    Grown naming f session.user s
      (stateOf (Versions.update (Memory.backend f) session item version request s)) := by
  have hread := (h.get anyStatus_self hnew session item version).2
  refine (h.grown_get hnew session item version).bind fun v s₁ hget => ?_
  rw [hget] at hread
  rw [Versions.stateOf_bind_refetch]
  exact grown_edit hread (Versions.get?_of_get hget) rfl rfl

theorem grown_updateStatus (h : s.Orderly anyStatus past) (hnew : ∀ g ∈ past, g.Apart f)
    (session : Session) (item version : String) (status : VersionStatus) (message : String) :
    Grown naming f session.user s (stateOf
      (Versions.updateStatus (Memory.backend f) session item version status message s)) := by
  have hread := (h.get anyStatus_self hnew session item version).2
  rw [Versions.updateStatus_eq]
  refine (h.grown_get hnew session item version).bind fun v s₁ hget => ?_
  rw [hget] at hread
  change s₁.Orderly anyStatus past at hread
  split
  · exact .refl s₁
  · split
    · exact .refl s₁
    · have hv := Versions.get?_of_get hget
      have hsound := hread.sound session.tenant item
      obtain ⟨c, e, hc, he, -, hname, -⟩ := hsound.of_get? hv
      obtain ⟨x, hx⟩ := hread.known.item_of_copy hc
      have horigin := Content.SameOrigin.edited (v := { v with status := status }) c.content hname f.clock.updateVersion
      rcases hread.certify_result (f := f) hv hx hc he status message with
        ⟨-, hresult⟩ | ⟨-, error, -, hresult⟩
      · rw [hresult]
        exact .trans (.putShelf (.publish hc he (hread.synced_ne hnew) horigin)) (.putItem _)
      · rw [hresult]
        exact .putShelf (.put he (horigin.trans (hsound.origin_of_copy hc he)))

/-- The base that the engine reads is shared, under the name that the engine reads. -/
theorem head?_of_certifiedBase (h : s.Orderly anyStatus past) (hnew : ∀ g ∈ past, g.Apart f)
    {base : String} (hbase : Versions.certifiedBase (Memory.backend f) session item base s = .ok v s') :
    ∃ e, (s'.shelf session.tenant item).head? v.id = some e ∧ e.content.name = v.name := by
  have hread := (h.get anyStatus_self hnew session item base).2
  obtain ⟨hget, -⟩ := Versions.certifiedBase_eq_ok.1 hbase
  rw [hget] at hread
  have hsound := hread.sound session.tenant item
  obtain ⟨c, e, hc, he, hid, hname, -⟩ := hsound.of_get? (Versions.get?_of_get hget)
  exact ⟨e, hid ▸ he, (hsound.origin_of_copy hc he).name.symm.trans hname.symm⟩

/-- Making a version is growth: it is offered by the versions that are there. -/
theorem grown_create (h : s.Orderly anyStatus past) (hnew : ∀ g ∈ past, g.Apart f)
    (session : Session) (item : String) (base : Option String) (request : Version) (step : Step) :
    Grown naming f session.user s (stateOf
      (Versions.create (Memory.backend f) naming session item base request step s)) := by
  rw [Versions.create_eq]
  -- the base is read, or there is none
  have hbase : ∀ x : Call Store (Option Version),
      x = base.elim (pure none) (fun id =>
        some <$> Versions.certifiedBase (Memory.backend f) session item id) →
      Grown naming f session.user s (stateOf (x s)) ∧ (stateOf (x s)).Orderly anyStatus past ∧
        ∀ b s₁, x s = .ok b s₁ → ∀ v ∈ b,
          ∃ e, (s₁.shelf session.tenant item).head? v.id = some e ∧ e.content.name = v.name := by
    rintro x rfl
    cases base with
    | none =>
        refine ⟨.refl s, h, fun b s₁ hs₁ v hv => ?_⟩
        cases hs₁
        exact absurd hv (by simp)
    | some id =>
        rw [Option.elim_some, stateOf_map, Versions.stateOf_certifiedBase]
        refine ⟨h.grown_get hnew session item id, (h.get anyStatus_self hnew session item id).2, ?_⟩
        rintro b s₁ hs₁ v hv
        obtain ⟨w, hw, rfl⟩ := map_eq_ok.1 hs₁
        exact h.head?_of_certifiedBase hnew (Option.some.inj hv ▸ hw)
  obtain ⟨hgrown, hread, hheads⟩ := hbase _ rfl
  refine hgrown.bind fun base s₁ hs₁ => ?_
  rw [hs₁] at hread
  change s₁.Orderly anyStatus past at hread
  refine .bind_read (Call.stateOf_ofExcept _ _) fun name hname => ?_
  refine .bind_read rfl fun existing _ => ?_
  split
  · exact .refl s₁
  · rcases hread.create_result hnew session item
      { Version.blank.overlay request with base := base.map (·.id), name := name } with
      ⟨error, s', hresult, halike⟩ | ⟨x, hx, hunused, hresult⟩
    · rw [hresult]
      exact .of_shelf halike.shelves
    · rw [hresult, stateOf_ok]
      have hcalculated : naming.calculate (base.map (·.name)) step = .ok name := by
        cases hcalc : naming.calculate (base.map (·.name)) step with
        | ok n =>
            rw [hcalc] at hname
            cases hname
            rfl
        | error e =>
            rw [hcalc] at hname
            cases hname
      have hknown := hread.known.shelf session.tenant item
      refine .trans (.putItem _) (.putShelf ?_)
      rw [shelf_putItem]
      refine .create rfl rfl ?_ hunused (hknown.head?_of_new hnew) fun _ => hknown.copy?_of_new hnew
      cases base with
      | none => exact .root rfl hcalculated
      | some b =>
          obtain ⟨e, he, hename⟩ := hheads _ _ hs₁ b rfl
          have hnamed : naming.calculate (some e.content.name) step = .ok name := by
            rw [hename]
            exact hcalculated
          exact .branch rfl he hnamed

theorem grown_items_update (session : Session) (item : String) (request : Item) :
    Grown naming f session.user s
      (stateOf (Items.update (Memory.backend f) session item request s)) := by
  refine .bind_read (Items.stateOf_get s) fun x _ => ?_
  refine .bind (by rw [Call.stateOf_ofStore]; exact .updateItem f.clock.updateItem session _) fun _ s₁ _ => ?_
  rw [Items.stateOf_get]
  exact .refl s₁

theorem grown_items_updateStatus (session : Session) (item : String) (status : ItemStatus) :
    Grown naming f session.user s
      (stateOf (Items.updateStatus (Memory.backend f) session item status s)) := by
  refine .bind_read (Items.stateOf_get s) fun x _ => ?_
  dsimp only
  split
  · exact .refl s
  · exact .bind (by rw [Call.stateOf_ofStore]; exact .updateItem f.clock.updateItem session _)
      fun _ s₁ _ => .refl s₁

theorem grown_delete (session : Session) (item : String) :
    Grown naming f session.user s
      (stateOf (Items.delete (Memory.backend f) session item s)) := by
  intro t i
  rcases holding_delete (f := f) (s := s) session item t i with hsame | hgone
  · have hshelf := congrArg Holding.shelf hsame
    change Store.shelf _ t i = s.shelf t i at hshelf
    rw [hshelf]
  · have hshelf := congrArg Holding.shelf hgone
    change Store.shelf _ t i = Shelf.empty at hshelf
    rw [hshelf]
    exact .single .delete

/-- **What a request does to the versions of any item is growth.** -/
theorem grown_serve {e : Event Request} (h : s.Orderly anyStatus past)
    (hnew : ∀ g ∈ past, g.Apart e.fresh) (naming : Calculator) :
    Grown naming e.fresh e.session.user s (s.serve naming e) := by
  obtain ⟨f, session, r⟩ := e
  have hgrown : ∀ {s'}, Grown naming f session.user s s' →
      s.serve naming ⟨f, session, r⟩ = s' →
      Grown naming f session.user s (s.serve naming ⟨f, session, r⟩) := by
    rintro s' hgrown rfl
    exact hgrown
  have hplain : ∀ r' : StoreRequest, r'.isPlain = true →
      Grown naming f session.user s (s.next ⟨f, session, r'⟩) :=
    fun r' hplain => h.grown_next (e := ⟨f, session, r'⟩) hplain hnew
  cases r with
  | listItems | listRevisions => exact hgrown (.refl s) rfl
  | getItem i =>
      refine hgrown (.refl s) ?_
      rw [Store.serve, served, Request.run, stateOf_map, Items.stateOf_get]
  | createItem request =>
      have hserve : s.serve naming ⟨f, session, .createItem request⟩ = s.putItem session.tenant
          { Item.blank.overlay request with
            id := f.item, created := some f.clock.createItem, modified := some f.clock.createItem } := stateOf_map _ _ _
      exact hgrown (.putItem _) hserve
  | updateItem i request => exact hgrown (grown_items_update session i request) (stateOf_map _ _ _)
  | deleteItem i => exact hgrown (grown_delete session i) (stateOf_map _ _ _)
  | setItemStatus i status =>
      exact hgrown (grown_items_updateStatus session i status) (stateOf_map _ _ _)
  | listVersions i =>
      refine hgrown (.refl s) ?_
      rw [Store.serve, served, Request.run, stateOf_map]
      exact Call.stateOf_ofExcept _ _
  | getVersion i v => exact hgrown (h.grown_get hnew session i v) (stateOf_map _ _ _)
  | createVersion i base request step =>
      exact hgrown (h.grown_create hnew session i base request step) (stateOf_map _ _ _)
  | updateVersion i v request =>
      exact hgrown (h.grown_update hnew session i v request) (stateOf_map _ _ _)
  | setVersionStatus i v status message =>
      exact hgrown (h.grown_updateStatus hnew session i v status message) (stateOf_map _ _ _)
  | publish i v message => exact hgrown (hplain (.publish i v message) rfl) (serve_eq_next rfl rfl)
  | sync i v => exact hgrown (hplain (.sync i v) rfl) (serve_eq_next rfl rfl)
  | forceSync i v => exact hgrown (hplain (.forceSync i v) rfl) (serve_eq_next rfl rfl)
  | clean i v => exact hgrown (hplain (.clean i v) rfl) (serve_eq_next rfl rfl)
  | revert i v revision => exact hgrown (hplain (.revert i v revision) rfl) (serve_eq_next rfl rfl)
  | deleteVersion i v => exact hgrown (.refl s) (stateOf_map _ _ _)

/-- **What growth keeps of an item's versions, every history of requests keeps**, and the store stays
orderly, if the ids are new. -/
theorem keeps_afterServing {I : Shelf → Prop} (naming : Calculator)
    (hI : ∀ {f user s s'}, Shelf.Sound anyStatus s → Shelf.Growth naming f user s s' → I s → I s')
    (h : s.Orderly anyStatus past) (hs : ∀ tenant item, I (s.shelf tenant item))
    {history : List (Event Request)} (hfresh : FreshIds history)
    (hpast : ∀ e ∈ history, ∀ g ∈ past, g.Apart e.fresh) :
    (s.afterServing naming history).Orderly anyStatus (past ++ history.map (·.fresh)) ∧
      ∀ tenant item, I ((s.afterServing naming history).shelf tenant item) := by
  induction history generalizing s past with
  | nil => simpa using And.intro h hs
  | cons e history ih =>
      obtain ⟨htail, hpast'⟩ := hfresh.tail hpast
      have hgrown := h.grown_serve (hpast e List.mem_cons_self) naming
      have horderly := h.grown hgrown (h.known.serve naming e)
      have hkept : ∀ tenant item, I ((s.serve naming e).shelf tenant item) := by
        intro tenant item
        have hsteps := hgrown tenant item
        generalize (s.serve naming e).shelf tenant item = shelf' at hsteps
        suffices shelf'.Sound anyStatus ∧ I shelf' from this.2
        induction hsteps with
        | refl => exact ⟨h.sound tenant item, hs tenant item⟩
        | tail _ hgrowth ih => exact ⟨ih.1.growth hgrowth, hI ih.1 hgrowth ih.2⟩
      simpa using ih horderly hkept htail hpast'

end Orderly

/-- The store is orderly after every history of requests, if any status is allowed in a copy. -/
theorem orderly_afterServing (naming : Calculator) {history : List (Event Request)}
    (hfresh : FreshIds history) :
    (empty.afterServing naming history).Orderly anyStatus (history.map (·.fresh)) := by
  have horderly : empty.Orderly anyStatus [] := .empty
  refine horderly.afterServing_of_allowed anyStatus_self hfresh (by simp) ?_
  exact throughout_of_forall (fun _ _ _ _ _ _ _ _ _ _ _ _ _ => trivial) _ _

end Store

end VersionCatalog
