import VersionCatalog.Proofs.Synchronizing
import VersionCatalog.Proofs.Traces

/-!
# Deleted items

A deleted item is gone with all that was kept of its versions, and nothing brings either half back
(`Store.Without`). An item is only made under a new id. Its versions are only changed while the item is there:
users who still know the ids of a deleted item are told that it is not found, whatever they try, and what they
look at is empty.

## Main results

* `Store.Without.next`, `Platform.without_after`: what was deleted stays deleted.
* `Store.Without.answer_store`, `Store.Without.answer_engine`: what is answered to whoever asks for it.
* `Platform.deletion_is_final`: all of it, for every history and every continuation.
-/

namespace VersionCatalog

/-! ### What a call is about -/

/-- The item that a store call is about. No store deletes versions, whatever the item. -/
def StoreRequest.about? : StoreRequest → Option String
  | .getItem item | .deleteItem item | .listVersions item | .getVersion item _ | .createVersion item _
  | .updateVersion item _ | .publish item _ _ | .sync item _ | .forceSync item _ | .clean item _
  | .revert item _ _ | .listRevisions item _ => some item
  | .updateItem i => some i.id
  | .listItems | .createItem _ | .deleteVersion _ _ => none

/-- The item that a request is about. The engine does not delete versions, whatever the item. -/
def Request.about? : Request → Option String
  | .getItem item | .updateItem item _ | .deleteItem item | .setItemStatus item _ | .listVersions item
  | .getVersion item _ | .createVersion item _ _ _ | .updateVersion item _ _
  | .setVersionStatus item _ _ _ | .publish item _ _ | .sync item _ | .forceSync item _
  | .clean item _ | .revert item _ _ | .listRevisions item _ => some item
  | .listItems _ | .createItem _ | .deleteVersion _ _ => none

/-- What a store answers about an item that is not there: looking finds nothing, and changes fail. -/
def StoreRequest.answerWithout (item : String) : StoreRequest → Except StoreError Answer
  | .getItem _ => .ok (.item? none)
  | .listVersions _ => .ok (.versions [])
  | .getVersion _ _ => .ok (.version? none)
  | .listRevisions _ _ => .ok (.revisions [])
  | _ => .error (.noItem item)

/-- What the engine answers about an item that is not there. A version without a base is named first, which
may fail. -/
def Request.answerWithout (naming : Calculator) (item : String) : Request → Except EngineError Answer
  | .listVersions _ => .ok (.versions [])
  | .listRevisions _ _ => .ok (.revisions [])
  | .createVersion _ none _ step =>
    (naming.calculate none step).bind fun _ => .error (.notFound s!"item {item}")
  | _ => .error (.notFound s!"item {item}")

namespace Operation

/-- The item that an operation is about. -/
def about? : Operation → Option String
  | store r => r.about?
  | engine _ r => r.about?
  | checkHealth => none

/-- What a storage replies about an item that is not there. -/
def replyWithout (item : String) : Operation → Reply
  | store r => .store (r.answerWithout item)
  | engine naming r => .engine (r.answerWithout naming item)
  | checkHealth => .health Memory.health

/-- The item that an operation deletes. -/
def deletes? : Operation → Option String
  | store (.deleteItem item) | engine _ (.deleteItem item) => some item
  | _ => none

end Operation

/-- Whether a reply tells of a success. -/
def Reply.isOk : Reply → Bool
  | store (.ok _) | engine (.ok _) => true
  | _ => false

/-- A call that a storage replies to with a success is one that succeeds. -/
theorem Reply.ok_of_store {α : Type} {x : Change α} {g : α → Answer} {s : Store}
    (h : (Reply.store (answerOf ((g <$> x) s))).isOk = true) : ∃ a, x s = .ok a (stateOf (x s)) := by
  rw [answerOf_map] at h
  cases hx : x s with
  | ok a s' => exact ⟨a, rfl⟩
  | error e s' =>
      rw [hx] at h
      cases h

theorem Reply.ok_of_engine {α : Type} {x : Call Store α} {g : α → Answer} {s : Store}
    (h : (Reply.engine (answerOf ((g <$> x) s))).isOk = true) : ∃ a, x s = .ok a (stateOf (x s)) := by
  rw [answerOf_map] at h
  cases hx : x s with
  | ok a s' => exact ⟨a, rfl⟩
  | error e s' =>
      rw [hx] at h
      cases h

/-! ### Stores without an item -/

@[simp] theorem Shelf.list_empty : Shelf.empty.list = [] := by
  have hheads : Shelf.empty.heads = [] := rfl
  rw [list, hheads]
  simp

namespace Store

variable {s s' : Store} {e : Event StoreRequest} {f : Fresh} {session : Session} {tenant item : String}

/-- What every store call of a session keeps that takes ids of the given kinds only is kept by all that an
operation makes of the store. -/
theorem Made.keeps_of_takes {kinds : List IdKind} {p : Store → Prop} (h : Made f session kinds s s')
    (hp : ∀ {s : Store} (r : StoreRequest), (∀ kind, r.takes? = some kind → kind ∈ kinds) → p s →
      p (s.next ⟨f, session, r⟩)) (hs : p s) : p s' := by
  obtain ⟨calls, hkinds, rfl⟩ := h
  replace hkinds : ∀ r ∈ calls, ∀ kind, r.takes? = some kind → kind ∈ kinds :=
    fun r hr kind htakes => hkinds.subset (List.mem_filterMap.2 ⟨r, hr, htakes⟩)
  induction calls generalizing s with
  | nil => exact hs
  | cons r calls ih =>
      obtain ⟨hr, hcalls⟩ := List.forall_mem_cons.1 hkinds
      exact ih (hp r hr hs) hcalls

/-- What every store call of a session keeps is kept by all that an operation makes of the store. -/
theorem Made.keeps {kinds : List IdKind} {p : Store → Prop} (h : Made f session kinds s s')
    (hp : ∀ {s : Store} (r : StoreRequest), p s → p (s.next ⟨f, session, r⟩)) (hs : p s) : p s' :=
  h.keeps_of_takes (fun r _ => hp r) hs

/-- There is no entry for an item, neither among the items nor among the versions. -/
structure Without (tenant item : String) (s : Store) : Prop where
  noItem : s.item? tenant item = none
  noShelf : s.shelf? tenant item = none

namespace Without

/-- **A call brings back neither half of an item**, unless it is supplied with the item's id. -/
theorem next (h : s.Without tenant item) (hid : item ≠ e.fresh.item) :
    (s.next e).Without tenant item where
  noItem := item?_next_of_gone hid h.noItem
  noShelf := by
    rcases shelf?_next (e := e) fun _ _ => h.noItem with hsame | ⟨-, hnone⟩
    · rw [hsame, h.noShelf]
    · exact hnone

/-- A deletion that finds the item leaves nothing of it. -/
theorem of_delete {x : Item} (hx : s.item? session.tenant item = some x) (f : Fresh) :
    (s.next ⟨f, session, .deleteItem item⟩).Without session.tenant item := by
  have hdrop : s.next ⟨f, session, .deleteItem item⟩ = s.dropItem session.tenant item := by
    simp only [Store.next, result, StoreRequest.run, Memory.backend, Keeper.backend, Memory.keeper,
      stateOf_map, deleteItem_eq, hx, stateOf_ok]
  rw [hdrop]
  exact ⟨by rw [item?_dropItem, if_pos ⟨rfl, rfl⟩], by rw [shelf?_dropItem, if_pos ⟨rfl, rfl⟩]⟩

/-- The item's versions read as those of an item without any. -/
theorem shelf_eq (h : s.Without tenant item) : s.shelf tenant item = Shelf.empty := by
  rw [Store.shelf_eq, h.noShelf, Option.getD_none]

/-! ### What is answered -/

variable (h : s.Without session.tenant item)

include h

/-- **What a store answers** to a call about an item that is not there. -/
theorem answer_store {r : StoreRequest} (hr : r.about? = some item) :
    answerOf (r.run (Memory.backend f) session s) = r.answerWithout item := by
  cases hchanges : r.changes? with
  | some i =>
      obtain ⟨α, change, answer, hrun⟩ := run_eq_onShelf hchanges f session
      have hi : i = item := by
        cases r <;> cases hchanges <;> exact Option.some.inj hr
      subst hi
      rw [hrun, answerOf_map, onShelf_noItem h.noItem]
      cases r <;> first | rfl | exact absurd hchanges (by simp [StoreRequest.changes?])
  | none =>
      cases r with
      | listItems | createItem | deleteVersion => exact absurd hr (by simp [StoreRequest.about?])
      | createVersion | updateVersion | publish | sync | forceSync | clean | revert =>
          exact absurd hchanges (by simp [StoreRequest.changes?])
      | getItem i =>
          obtain rfl := Option.some.inj hr
          exact congrArg (fun x => Except.ok (Answer.item? x)) h.noItem
      | updateItem x =>
          obtain rfl := Option.some.inj hr
          simp only [StoreRequest.run, Memory.backend, Keeper.backend, Memory.keeper, answerOf_map,
            updateItem_eq, h.noItem]
          rfl
      | deleteItem i =>
          obtain rfl := Option.some.inj hr
          simp only [StoreRequest.run, Memory.backend, Keeper.backend, Memory.keeper, answerOf_map,
            deleteItem_eq, h.noItem]
          rfl
      | listVersions i =>
          obtain rfl := Option.some.inj hr
          change Except.ok (Answer.versions (s.shelf session.tenant i).list) = .ok (.versions [])
          rw [h.shelf_eq, Shelf.list_empty]
      | getVersion i v =>
          obtain rfl := Option.some.inj hr
          exact congrArg (fun shelf => Except.ok (Answer.version? (shelf.get? session.user v)))
            h.shelf_eq
      | listRevisions i v =>
          obtain rfl := Option.some.inj hr
          exact congrArg (fun shelf => Except.ok (Answer.revisions (shelf.revisions v))) h.shelf_eq

/-- A change of versions, as the engine makes it. -/
theorem ofStore_onShelf {α : Type} (change : EStateM StoreError Shelf α) :
    Call.ofStore (onShelf session item change) s
      = .error (.notFound s!"item {item}") (s.touch session.tenant) :=
  Call.ofStore_error (onShelf_noItem h.noItem)

/-- The engine is given no versions. -/
theorem list_versions : Call.ofStore ((Memory.backend f).listVersions session item) s = .ok [] s := by
  refine Call.ofStore_ok ?_
  change EStateM.Result.ok (s.shelf session.tenant item).list s = _
  rw [h.shelf_eq, Shelf.list_empty]

/-- The engine gets no version. -/
theorem get_version (version : String) : ∃ s', Versions.get (Memory.backend f) session item version s
    = .error (.notFound s!"item {item}") s' := by
  refine ⟨s.touch session.tenant, ?_⟩
  rw [Versions.get_eq, h.shelf_eq]
  exact bind_error (h.ofStore_onShelf _)

/-- The engine makes no version. -/
theorem create_version (naming : Calculator) (base : Option String) (v : Version) (step : Step) :
    answerOf (Versions.create (Memory.backend f) naming session item base v step s) =
      match base with
      | some _ => .error (.notFound s!"item {item}")
      | none => (naming.calculate none step).bind fun _ => .error (.notFound s!"item {item}") := by
  rw [Versions.create_eq]
  cases base with
  | some id =>
      obtain ⟨s', hget⟩ := h.get_version (f := f) id
      have hbase : ((some id).elim (pure none) fun id =>
          some <$> Versions.certifiedBase (Memory.backend f) session item id) s
            = .error (.notFound s!"item {item}") s' := map_error (bind_error hget)
      rw [bind_error hbase]
      rfl
  | none =>
      have hbase : ((none : Option String).elim (pure none) fun id =>
          some <$> Versions.certifiedBase (Memory.backend f) session item id) s = .ok none s := rfl
      rw [bind_ok hbase]
      cases hname : naming.calculate none step with
      | error e =>
          have hfails : Call.ofExcept (naming.calculate ((none : Option Version).map (·.name)) step) s
              = .error e s := by
            rw [Option.map_none, hname]
            rfl
          rw [bind_error hfails]
          rfl
      | ok name =>
          have hnamed : Call.ofExcept (naming.calculate ((none : Option Version).map (·.name)) step) s
              = .ok name s := by
            rw [Option.map_none, hname]
            rfl
          rw [bind_ok hnamed, bind_ok h.list_versions, if_neg (by simp)]
          exact congrArg answerOf (bind_error (h.ofStore_onShelf _))

/-- The engine gets no item. -/
theorem get_item : Items.get (Memory.backend f) session item s = .error (.notFound s!"item {item}") s := by
  rw [Items.get_eq, h.noItem]

/-- **What the engine answers** to a request about an item that is not there. -/
theorem answer_engine (naming : Calculator) {r : Request} (hr : r.about? = some item) :
    answerOf (r.run (Memory.backend f) naming session s) = r.answerWithout naming item := by
  -- a request that gets the item or the version first, or goes to the store alone, ends there
  have hends : ∀ {α : Type} {x : Call Store α} {s' : Store} (g : α → Answer),
      x s = .error (.notFound s!"item {item}") s' →
        answerOf ((g <$> x) s) = .error (.notFound s!"item {item}") := by
    intro α x s' g hx
    rw [map_error hx]
    rfl
  cases r with
  | listItems | createItem | deleteVersion => exact absurd hr (by simp [Request.about?])
  | getItem i =>
      obtain rfl := Option.some.inj hr
      exact hends _ h.get_item
  | updateItem i | deleteItem i | setItemStatus i =>
      obtain rfl := Option.some.inj hr
      exact hends _ (bind_error h.get_item)
  | listVersions i =>
      obtain rfl := Option.some.inj hr
      rw [Request.run, answerOf_map, Versions.list, bind_ok h.list_versions]
      rfl
  | getVersion i version =>
      obtain rfl := Option.some.inj hr
      exact hends _ (h.get_version version).choose_spec
  | createVersion i base v step =>
      obtain rfl := Option.some.inj hr
      rw [Request.run, answerOf_map, h.create_version]
      cases base with
      | some id => rfl
      | none =>
          cases hname : naming.calculate none step <;>
            simp [Request.answerWithout, hname, Except.bind, Except.map]
  | updateVersion i version =>
      obtain rfl := Option.some.inj hr
      exact hends _ (bind_error (h.get_version version).choose_spec)
  | setVersionStatus i version =>
      obtain rfl := Option.some.inj hr
      rw [Request.run, Versions.updateStatus_eq]
      exact hends _ (bind_error (h.get_version version).choose_spec)
  | publish i | sync i | forceSync i | clean i | revert i =>
      obtain rfl := Option.some.inj hr
      exact hends _ (h.ofStore_onShelf _)
  | listRevisions i version =>
      obtain rfl := Option.some.inj hr
      have hlist : Call.ofStore ((Memory.backend f).listRevisions session i version) s = .ok [] s := by
        refine Call.ofStore_ok ?_
        change EStateM.Result.ok ((s.shelf session.tenant i).revisions version) s = _
        rw [h.shelf_eq]
        rfl
      rw [Request.run, answerOf_map, Versions.listRevisions, bind_ok hlist]
      change Except.ok (Answer.revisions (Revision.latestFirst [])) = .ok (.revisions [])
      rw [Revision.latestFirst, List.mergeSort_nil]

end Without

end Store

/-! ### Histories -/

namespace Platform

open Store (Without)

variable {s : Store} {e : Event Operation} {tenant item : String} {history : List (Event Operation)}

/-- What is replied to an operation about an item that is not there. -/
theorem reply_without (h : s.Without e.session.tenant item) (he : e.request.about? = some item) :
    (memory.perform s e).1 = e.request.replyWithout item := by
  obtain ⟨f, session, request⟩ := e
  cases request with
  | store r => exact congrArg Reply.store (h.answer_store he)
  | engine naming r => exact congrArg Reply.engine (h.answer_engine naming he)
  | checkHealth => rfl

theorem without_perform (h : s.Without tenant item) (hid : item ≠ e.fresh.item) :
    (memory.perform s e).2.Without tenant item := by
  obtain ⟨kinds, -, hmade⟩ := made_perform s e
  exact hmade.keeps (fun r hs => hs.next hid) h

/-- **What was deleted stays deleted**, as long as its id is not supplied again. -/
theorem without_after (h : s.Without tenant item) (hid : ∀ e ∈ history, item ≠ e.fresh.item) :
    (memory.after s history).Without tenant item := by
  induction history generalizing s with
  | nil => exact h
  | cons e history ih =>
      obtain ⟨hid_e, hid⟩ := List.forall_mem_cons.1 hid
      exact ih (without_perform h hid_e) hid

/-- The ids that an operation puts into the store are those that it is supplied. -/
theorem knownIds_perform {past : List Fresh} (h : s.KnownIds past) (e : Event Operation) :
    (memory.perform s e).2.KnownIds (past ++ [e.fresh]) := by
  obtain ⟨kinds, -, hmade⟩ := made_perform s e
  refine hmade.keeps (fun r hs => hs.next_of_mem fun _ => ?_) (h.mono (List.subset_append_left _ _))
  exact List.mem_append_right _ List.mem_cons_self

theorem knownIds_operations {past : List Fresh} (h : s.KnownIds past) (history : List (Event Operation)) :
    (memory.after s history).KnownIds (past ++ history.map (·.fresh)) := by
  induction history generalizing s past with
  | nil =>
      rw [List.map_nil, List.append_nil]
      exact h
  | cons e history ih =>
      have hrest := ih (knownIds_perform h e)
      rw [List.append_assoc] at hrest
      exact hrest

theorem knownIds_after (history : List (Event Operation)) :
    (memory.after .empty history).KnownIds (history.map (·.fresh)) := by
  have hknown : (memory.after .empty history).KnownIds ([] ++ history.map (·.fresh)) :=
    knownIds_operations .empty history
  rwa [List.nil_append] at hknown

/-- A deletion that succeeds has found the item, and is one of the store. -/
theorem perform_delete (he : e.request.deletes? = some item)
    (hok : (memory.perform s e).1.isOk = true) :
    (∃ x, s.item? e.session.tenant item = some x) ∧
      (memory.perform s e).2 = s.next ⟨e.fresh, e.session, .deleteItem item⟩ := by
  obtain ⟨f, session, request⟩ := e
  cases request with
  | checkHealth => cases he
  | store r =>
      cases r <;> cases he
      obtain ⟨u, hdelete⟩ := Reply.ok_of_store (x := Store.deleteItem session item) hok
      rw [Store.deleteItem_eq] at hdelete
      cases hx : s.item? session.tenant item with
      | some x => exact ⟨⟨x, rfl⟩, rfl⟩
      | none =>
          rw [hx] at hdelete
          cases hdelete
  | engine naming r =>
      cases r <;> cases he
      obtain ⟨u, hdelete⟩ := Reply.ok_of_engine (x := Items.delete (Memory.backend f) session item) hok
      have hget : Items.get (Memory.backend f) session item s = _ := Items.get_eq s
      cases hx : s.item? session.tenant item with
      | none =>
          rw [hx] at hget
          rw [Items.delete, bind_error hget] at hdelete
          cases hdelete
      | some x =>
          rw [hx] at hget
          refine ⟨⟨x, rfl⟩, ?_⟩
          change stateOf (((fun () => Answer.done) <$> Items.delete (Memory.backend f) session item) s) = _
          rw [stateOf_map, Items.delete, bind_ok hget, Call.stateOf_ofStore]
          exact (stateOf_map _ _ s).symm

/-- The items that a tenant's listings have. -/
theorem replies_to_listings (s : Store) (f : Fresh) (session : Session) :
    (memory.perform s ⟨f, session, .store .listItems⟩).1 = .store (.ok (.items (s.listItems session))) ∧
      ∀ naming keep, (memory.perform s ⟨f, session, .engine naming (.listItems keep)⟩).1
        = .engine (.ok (.items ((s.listItems session).filter keep))) :=
  ⟨rfl, fun _ _ => rfl⟩

/-- **A deletion is final and complete.** Take any history of operations of any users of any tenants, an
operation in it that deletes an item and succeeds, and whatever follows.

* Neither the tenant's items nor its versions have an entry for the item.
* Every operation of any user of the tenant about the item is answered as one about an item that is not there:
  it finds no item, no versions and no revisions, and whatever would change anything of it does not find it.
* No listing of the tenant's items has it. -/
theorem deletion_is_final {earlier later : List (Event Operation)} {d : Event Operation} {item : String}
    (hfresh : FreshIds (earlier ++ d :: later)) (hdelete : d.request.deletes? = some item)
    (hok : (memory.perform (memory.after .empty earlier) d).1.isOk = true) :
    let tenant := d.session.tenant
    let last := memory.after .empty (earlier ++ d :: later)
    (last.item? tenant item = none ∧ last.shelf? tenant item = none) ∧
    (∀ e : Event Operation, e.session.tenant = tenant → e.request.about? = some item →
      (memory.perform last e).1 = e.request.replyWithout item) ∧
    ∀ (f : Fresh) (session : Session), session.tenant = tenant →
      ∃ items : List Item, (∀ x ∈ items, x.id ≠ item) ∧
        (memory.perform last ⟨f, session, .store .listItems⟩).1 = .store (.ok (.items items)) ∧
        ∀ naming keep, (memory.perform last ⟨f, session, .engine naming (.listItems keep)⟩).1
          = .engine (.ok (.items (items.filter keep))) := by
  intro tenant last
  let before := memory.after .empty earlier
  have hknown : before.KnownIds (earlier.map (·.fresh)) := knownIds_after earlier
  obtain ⟨⟨x, hx⟩, hnext⟩ := perform_delete hdelete hok
  have hgone : (memory.perform before d).2.Without tenant item := by
    rw [hnext]
    exact .of_delete hx d.fresh
  -- the item's id was supplied to an earlier operation, so to none that follows
  obtain ⟨g, hg, hid⟩ := hknown.item hx
  have hnew : ∀ e ∈ later, item ≠ e.fresh.item := by
    intro e he
    rw [← hid]
    exact (hfresh.apart (List.mem_cons_of_mem _ he) hg).item
  have hlast : last = memory.after (memory.perform before d).2 later := List.foldl_append
  have hwithout : last.Without tenant item := hlast ▸ without_after hgone hnew
  refine ⟨⟨hwithout.noItem, hwithout.noShelf⟩, fun e he => ?_, fun f session hsession => ?_⟩
  · rw [← he] at hwithout
    exact reply_without hwithout
  · obtain ⟨hstore, hengine⟩ := replies_to_listings last f session
    refine ⟨_, fun y hy hid => ?_, hstore, hengine⟩
    obtain ⟨id, hitem⟩ := Store.item?_of_mem_listItems hy
    have hlastKnown := knownIds_after (earlier ++ d :: later)
    rw [← hlastKnown.id_of_item hitem, hid, hsession] at hitem
    exact absurd (hwithout.noItem.symm.trans hitem) (by simp)

/-- Two users have copies of a version, one of them with edits. -/
def sharedEdit : List (Event Operation) :=
  Store.twoUsers.map fun e => ⟨e.fresh, e.session, .store e.request⟩

/-- The other one deletes the item. -/
def deletion : Event Operation :=
  ⟨⟨"i6", "v6", "r6", Store.noon⟩, ⟨"bob", "acme"⟩, .engine .standard (.deleteItem "i1")⟩

/-- The first one goes on with the copy, and makes another version. -/
def lateOperations : List (Event Operation) :=
  [⟨⟨"i7", "v7", "r7", Store.noon⟩, ⟨"alice", "acme"⟩, .store (.publish "i1" "v2" "second")⟩,
    ⟨⟨"i8", "v8", "r8", Store.noon⟩, ⟨"alice", "acme"⟩, .store (.sync "i1" "v2")⟩,
    ⟨⟨"i9", "v9", "r9", Store.noon⟩, ⟨"alice", "acme"⟩,
      .engine .standard (.createVersion "i1" none Version.blank .major)⟩]

/-- Whoever goes on with a deleted item does not find it. -/
theorem late_operations_refused :
    let last := memory.after .empty (sharedEdit ++ deletion :: lateOperations)
    FreshIds (sharedEdit ++ deletion :: lateOperations) ∧
      deletion.request.deletes? = some "i1" ∧
      (memory.perform (memory.after .empty sharedEdit) deletion).1.isOk = true ∧
      last.shelf? "acme" "i1" = none ∧
      ∀ f, (memory.perform last ⟨f, ⟨"alice", "acme"⟩, .store (.forceSync "i1" "v2")⟩).1
          = .store (.error (.noItem "i1")) ∧
        (memory.perform last ⟨f, ⟨"alice", "acme"⟩, .engine .standard (.getVersion "i1" "v2")⟩).1
          = .engine (.error (.notFound "item i1")) := by
  intro last
  have hfresh : FreshIds (sharedEdit ++ deletion :: lateOperations) := by decide
  have hok : (memory.perform (memory.after .empty sharedEdit) deletion).1.isOk = true := by
    decide +kernel
  obtain ⟨⟨-, hshelf⟩, hreplies, -⟩ := deletion_is_final hfresh rfl hok
  exact ⟨hfresh, rfl, hok, hshelf, fun f =>
    ⟨hreplies ⟨f, ⟨"alice", "acme"⟩, .store (.forceSync "i1" "v2")⟩ rfl rfl,
      hreplies ⟨f, ⟨"alice", "acme"⟩, .engine .standard (.getVersion "i1" "v2")⟩ rfl rfl⟩⟩

end Platform

end VersionCatalog
