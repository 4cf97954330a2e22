import VersionCatalog.Proofs.Backends
import VersionCatalog.Proofs.Lifecycle

/-!
# Tenants

What is done for one tenant depends on nothing that is stored for others, and changes nothing of it: a call
reads and changes the entry of its session's tenant only (`Store.Isolated`). Every call that the engine makes
is one of the session that it is given, so to a request a backend that serves this session alone is as good
as one that serves them all (`Backend.within`), and the request is isolated because the calls are.

The operations of all other tenants can therefore be left out of a history, and nobody in the tenant can tell
(`Platform.repliesTo_eq`). It does not matter if the ids that others name are ids of the tenant's items.

## Main results

* `Request.isolated`, `StoreRequest.isolated`: a request depends on its tenant's entry and changes no other.
* `Platform.repliesTo_eq`: a tenant's replies are the replies to the tenant's operations alone.
* `Platform.tenants_do_not_interfere`: any two histories with the same operations of a tenant.
-/

namespace VersionCatalog

/-! ### Calls that keep to one tenant -/

namespace Store

/-- Two stores hold the same for a tenant. As long as `exact` is so, they also both have an entry for the
tenant or both have none. -/
structure SameFor (tenant : String) (exact : Prop) (s s' : Store) : Prop where
  data : s.tenant tenant = s'.tenant tenant
  entry : exact → s.tenants.get? tenant = s'.tenants.get? tenant

/-- Two stores hold the same for all tenants but one. -/
def SameBut (tenant : String) (s s' : Store) : Prop :=
  ∀ other, other ≠ tenant → s'.tenants.get? other = s.tenants.get? other

variable {ε α : Type} {tenant : String} {exact : Prop} {s s' : Store}

theorem SameFor.refl (s : Store) : SameFor tenant exact s s :=
  ⟨rfl, fun _ => rfl⟩

theorem SameFor.shelf (h : SameFor tenant exact s s') (item : String) :
    s.shelf tenant item = s'.shelf tenant item := by
  rw [Store.shelf, Store.shelf, h.data]

theorem sameFor_of_entry (h : s.tenants.get? tenant = s'.tenants.get? tenant) :
    SameFor tenant exact s s' := by
  refine ⟨?_, fun _ => h⟩
  rw [Store.tenant, Store.tenant, Keyed.getD_eq, Keyed.getD_eq, h]

/-- What is put in place for a tenant is the same for it, and nothing else is touched. -/
theorem sameFor_putTenant (t : Tenant) :
    SameFor tenant exact (s.putTenant tenant t) (s'.putTenant tenant t) :=
  sameFor_of_entry ((Keyed.get?_insert_self ..).trans (Keyed.get?_insert_self ..).symm)

theorem sameBut_putTenant (s : Store) (tenant : String) (t : Tenant) :
    SameBut tenant s (s.putTenant tenant t) :=
  fun _ hother => Keyed.get?_insert_of_ne hother ..

/-- A call depends on nothing but what is stored for a tenant, and changes nothing that is stored for
others. -/
structure Isolated (tenant : String) (x : EStateM ε Store α) : Prop where
  same : ∀ {exact : Prop} {s s' : Store}, SameFor tenant exact s s' →
    answerOf (x s) = answerOf (x s') ∧ SameFor tenant exact (stateOf (x s)) (stateOf (x s'))
  others : ∀ s, SameBut tenant s (stateOf (x s))

theorem Isolated.reading {f : Store → α} (hf : ∀ s s', SameFor tenant False s s' → f s = f s') :
    Isolated tenant (Memory.reading f) where
  same h := ⟨congrArg Except.ok (hf _ _ ⟨h.data, False.elim⟩), h⟩
  others _ _ _ := rfl

theorem Isolated.onTenant (session : Session) (change : EStateM StoreError Tenant α) :
    Isolated session.tenant (Store.onTenant session change) where
  same {exact s s'} h := by
    rw [Store.onTenant, Store.onTenant, h.data]
    cases change (s'.tenant session.tenant) with
    | ok a t => exact ⟨rfl, sameFor_putTenant t⟩
    | error e t => exact ⟨rfl, sameFor_putTenant t⟩
  others s := by
    rw [Store.onTenant]
    cases change (s.tenant session.tenant) with
    | ok a t => exact sameBut_putTenant s _ t
    | error e t => exact sameBut_putTenant s _ t

theorem Isolated.onShelf (session : Session) (item : String) (change : EStateM StoreError Shelf α) :
    Isolated session.tenant (Store.onShelf session item change) :=
  .onTenant session _

end Store

/-! ### Requests -/

/-- The backend as it serves one session, whoever calls. -/
def Backend.within {σ : Type} (b : Backend σ) (session : Session) : Backend σ where
  listItems _ := b.listItems session
  getItem _ := b.getItem session
  createItem _ := b.createItem session
  updateItem _ := b.updateItem session
  deleteItem _ := b.deleteItem session
  listVersions _ := b.listVersions session
  createVersion _ := b.createVersion session
  updateVersion _ := b.updateVersion session
  getVersion _ := b.getVersion session
  deleteVersion _ := b.deleteVersion session
  publish _ := b.publish session
  sync _ := b.sync session
  forceSync _ := b.forceSync session
  clean _ := b.clean session
  revert _ := b.revert session
  listRevisions _ := b.listRevisions session

/-- The engine makes all its calls in the session that it is given. -/
theorem Request.run_within {σ : Type} (b : Backend σ) (naming : Calculator) (session : Session)
    (r : Request) : r.run (b.within session) naming session = r.run b naming session := by
  cases r <;> rfl

theorem StoreRequest.run_within {σ : Type} (b : Backend σ) (session : Session) (r : StoreRequest) :
    r.run (b.within session) session = r.run b session := by
  cases r <;> rfl

/-- Two stores compared for one tenant, of which the first has come from `s₀` by that tenant's calls. -/
def Comparison.forTenant (tenant : String) (exact : Prop) (s₀ : Store) : Comparison Store Store where
  related s s' := s.SameFor tenant exact s' ∧ s₀.SameBut tenant s
  lost _ := False
  excused _ := False
  fair _ := True
  itemValue _ := True
  versionValue _ := True

namespace Store

variable {ε α : Type} {tenant : String} {exact : Prop} {s₀ : Store}

theorem Isolated.agrees {x : Change α} {good : α → Prop} (h : Isolated tenant x)
    (hgood : ∀ a, good a) : (Comparison.forTenant tenant exact s₀).Agrees good x x where
  good_of_ok _ _ := hgood _
  fair_of_error _ _ := .inr trivial
  lost_of_lost hlost := hlost
  of_related := by
    rintro s s' ⟨hsame, hbut⟩
    obtain ⟨hanswer, hafter⟩ := h.same hsame
    exact .inr (.inr ⟨hanswer, hafter, fun other hother =>
      (h.others s other hother).trans (hbut other hother)⟩)

/-- A call is isolated if it keeps two stores the same for the tenant while the first comes from another one
by the tenant's calls. -/
theorem Isolated.of_related {x : EStateM ε Store α}
    (h : ∀ {exact : Prop} {s s' : Store}, SameFor tenant exact s s' →
      answerOf (x s) = answerOf (x s') ∧
        (Comparison.forTenant tenant exact s).related (stateOf (x s)) (stateOf (x s'))) :
    Isolated tenant x where
  same hsame := ⟨(h hsame).1, (h hsame).2.1⟩
  others s := by
    have hsame : SameFor tenant True s s := .refl s
    exact (h hsame).2.2

end Store

open Store (Isolated)

/-- Each call of the memory backend keeps to its session's tenant. -/
theorem Memory.backend_isolated (f : Fresh) (session : Session) (exact : Prop) (s₀ : Store) :
    ((backend f).within session).Agree (.forTenant session.tenant exact s₀)
      ((backend f).within session) := by
  have all : ∀ t : Keyed Json, t.All fun _ => True := fun _ _ _ _ => trivial
  have hcreate (i : Item) : Isolated session.tenant (Store.createItem f.item f.clock.createItem session i) :=
    .onTenant session _
  have hupdate (i : Item) : Isolated session.tenant (Store.updateItem f.clock.updateItem session i) :=
    .onTenant session _
  have hdelete (item : String) : Isolated session.tenant (Store.deleteItem session item) :=
    .onTenant session _
  exact
    { listItems := fun _ => (Isolated.reading fun s s' h => by
        rw [Store.listItems, Store.listItems, h.data]).agrees fun _ (i : Item) _ => all i.properties
      getItem := fun _ item => (Isolated.reading fun s s' h => by
        rw [Store.getItem, Store.getItem, h.data]).agrees fun _ (i : Item) _ => all i.properties
      createItem := fun _ i _ => (hcreate i).agrees fun created => all created.properties
      updateItem := fun _ i _ => (hupdate i).agrees fun _ => trivial
      deleteItem := fun _ item => (hdelete item).agrees fun _ => trivial
      listVersions := fun _ item => (Isolated.reading fun s s' h => by
        rw [Store.listVersions, Store.listVersions, h.shelf]).agrees fun _ => trivial
      createVersion := fun _ item _ _ => (Isolated.onShelf session item _).agrees fun _ => trivial
      updateVersion := fun _ item _ _ => (Isolated.onShelf session item _).agrees fun _ => trivial
      getVersion := fun _ item version => (Isolated.reading fun s s' h => by
        rw [Store.getVersion, Store.getVersion, h.shelf]).agrees fun _ (v : Version) _ => all v.properties
      publish := fun _ item _ _ => (Isolated.onShelf session item _).agrees fun _ => trivial
      sync := fun _ item _ => (Isolated.onShelf session item _).agrees fun _ => trivial
      forceSync := fun _ item _ => (Isolated.onShelf session item _).agrees fun _ => trivial
      clean := fun _ item _ => (Isolated.onShelf session item _).agrees fun _ => trivial
      revert := fun _ item _ _ => (Isolated.onShelf session item _).agrees fun _ => trivial
      listRevisions := fun _ item version => (Isolated.reading fun s s' h => by
        rw [Store.listRevisions, Store.listRevisions, h.shelf]).agrees fun _ => trivial }

/-- **A request depends on nothing but what is stored for its tenant**, and changes nothing else. -/
theorem Request.isolated (f : Fresh) (naming : Calculator) (session : Session) (r : Request) :
    Isolated session.tenant (r.run (Memory.backend f) naming session) := by
  have hbrings : r.Brings (fun _ => True) (fun _ => True) :=
    Request.brings_iff.2 fun _ _ _ => trivial
  rw [← r.run_within]
  refine .of_related fun {exact s s'} hsame => ?_
  have hagree := r.run_agree (Memory.backend_isolated f session exact s) naming session hbrings
  rcases hagree.of_related ⟨hsame, fun _ _ => rfl⟩ with hlost | ⟨e, -, -, e', hexcused, -⟩ | hafter
  · exact hlost.elim
  · exact hexcused.elim
  · exact hafter

theorem StoreRequest.isolated (f : Fresh) (session : Session) (r : StoreRequest) :
    Isolated session.tenant (r.run (Memory.backend f) session) := by
  by_cases hdelete : ∃ item version, r = .deleteVersion item version
  · obtain ⟨item, version, rfl⟩ := hdelete
    exact ⟨fun h => ⟨rfl, h⟩, fun _ _ _ => rfl⟩
  · have hcall : ∀ item version, r ≠ .deleteVersion item version :=
      fun item version hr => hdelete ⟨item, version, hr⟩
    have hbrings : r.Brings (fun _ => True) (fun _ => True) :=
      StoreRequest.brings_iff.2 fun _ _ _ => trivial
    rw [← r.run_within]
    refine .of_related fun {exact s s'} hsame => ?_
    have hagree := r.run_agree (Memory.backend_isolated f session exact s) session hbrings hcall
    rcases hagree.of_related ⟨hsame, fun _ _ => rfl⟩ with hlost | ⟨e, -, -, hexcused⟩ | hafter
    · exact hlost.elim
    · exact hexcused.elim
    · exact hafter

/-! ### Histories -/

namespace Platform

variable {σ : Type} {tenant : String} {exact : Prop} {s s' : Store} {e : Event Operation}
  {history history' : List (Event Operation)}

/-- The replies to one tenant's operations in a history. -/
def repliesTo (p : Platform σ) (tenant : String) : σ → List (Event Operation) → List Reply
  | _, [] => []
  | x, e :: history =>
    let rest := p.repliesTo tenant (p.perform x e).2 history
    if e.session.tenant = tenant then (p.perform x e).1 :: rest else rest

/-- The operations of one tenant in a history. -/
def operationsOf (tenant : String) (history : List (Event Operation)) : List (Event Operation) :=
  history.filter fun e => e.session.tenant = tenant

/-- **What one operation does**, from two stores that hold the same for its tenant. -/
theorem perform_sameFor (h : s.SameFor e.session.tenant exact s') :
    (memory.perform s e).1 = (memory.perform s' e).1 ∧
      (memory.perform s e).2.SameFor e.session.tenant exact (memory.perform s' e).2 := by
  obtain ⟨f, session, request⟩ := e
  cases request with
  | store r =>
      obtain ⟨hanswer, hafter⟩ := (r.isolated f session).same h
      exact ⟨congrArg Reply.store hanswer, hafter⟩
  | engine naming r =>
      obtain ⟨hanswer, hafter⟩ := (r.isolated f naming session).same h
      exact ⟨congrArg Reply.engine hanswer, hafter⟩
  | checkHealth => exact ⟨rfl, h⟩

/-- An operation changes nothing of what is stored for other tenants. -/
theorem perform_others (s : Store) (e : Event Operation) :
    s.SameBut e.session.tenant (memory.perform s e).2 := by
  obtain ⟨f, session, request⟩ := e
  cases request with
  | store r => exact (r.isolated f session).others s
  | engine naming r => exact (r.isolated f naming session).others s
  | checkHealth => exact fun _ _ => rfl

/-- **A tenant's replies are the replies to the tenant's operations alone**, and what is stored for the tenant
is what these leave. -/
theorem repliesTo_eq (h : s.SameFor tenant exact s') (history : List (Event Operation)) :
    memory.repliesTo tenant s history = memory.replies s' (operationsOf tenant history) ∧
      (memory.after s history).SameFor tenant exact (memory.after s' (operationsOf tenant history)) := by
  induction history generalizing s s' with
  | nil => exact ⟨rfl, h⟩
  | cons e history ih =>
      by_cases he : e.session.tenant = tenant
      · subst he
        obtain ⟨hreply, hafter⟩ := perform_sameFor h
        obtain ⟨hreplies, hend⟩ := ih hafter
        rw [operationsOf, List.filter_cons_of_pos (by simp)]
        refine ⟨?_, hend⟩
        rw [repliesTo, if_pos rfl, replies, hreply, hreplies]
        rfl
      · have hstays : (memory.perform s e).2.SameFor tenant exact s' := by
          have hentry := perform_others s e tenant (Ne.symm he)
          have hsame : (memory.perform s e).2.SameFor tenant exact s := Store.sameFor_of_entry hentry
          exact ⟨hsame.data.trans h.data, fun hexact => hentry.trans (h.entry hexact)⟩
        obtain ⟨hreplies, hend⟩ := ih hstays
        rw [operationsOf, List.filter_cons_of_neg (by simpa using he)]
        refine ⟨?_, hend⟩
        rw [repliesTo, if_neg he, hreplies]
        rfl

/-- **Tenants do not interfere.** Let two stores hold the same for a tenant, and let the tenant's operations
be the same in two histories, with the same ids and times supplied; the operations of others may differ and
stand anywhere. Then each operation of the tenant has the same reply in both, and at the end the same is
stored for the tenant. An operation changes nothing of what is stored for any tenant but its own. -/
theorem tenants_do_not_interfere (hsame : s.tenant tenant = s'.tenant tenant)
    (hoperations : operationsOf tenant history = operationsOf tenant history') :
    memory.repliesTo tenant s history = memory.repliesTo tenant s' history' ∧
      (memory.after s history).tenant tenant = (memory.after s' history').tenant tenant ∧
      (s.tenants.get? tenant = s'.tenants.get? tenant →
        (memory.after s history).tenants.get? tenant
          = (memory.after s' history').tenants.get? tenant) ∧
      ∀ (now : Store) (e : Event Operation) (other : String), other ≠ e.session.tenant →
        (memory.perform now e).2.tenants.get? other = now.tenants.get? other := by
  have hfirst : s.SameFor tenant (s.tenants.get? tenant = s'.tenants.get? tenant) s' := ⟨hsame, id⟩
  have hsecond : s'.SameFor tenant True s' := .refl s'
  obtain ⟨hreplies, hend⟩ := repliesTo_eq hfirst history
  obtain ⟨hreplies', hend'⟩ := repliesTo_eq hsecond history'
  rw [hoperations] at hreplies hend
  exact ⟨hreplies.trans hreplies'.symm, hend.data.trans hend'.data.symm,
    fun hentry => (hend.entry hentry).trans (hend'.entry trivial).symm,
    fun now e => perform_others now e⟩

/-- A version is made and certified in one tenant. -/
def ownOperations : List (Event Operation) :=
  Store.certification.map fun e => ⟨e.fresh, e.session, .engine .standard e.request⟩

/-- What somebody else tries with the item's id in another tenant. -/
def foreignOperations : List (Event Operation) :=
  [⟨⟨"i1", "v1", "r1", Store.noon⟩, ⟨"eve", "rival"⟩, .engine .standard (.deleteItem "i1")⟩,
    ⟨⟨"i1", "v1", "r1", Store.noon⟩, ⟨"eve", "rival"⟩, .store (.sync "i1" "v2")⟩,
    ⟨⟨"i1", "v1", "r1", Store.noon⟩, ⟨"eve", "rival"⟩, .engine .standard (.createItem Item.blank)⟩]

/-- Others name the tenant's item before each of its operations, from a store where they have an item of the
same id. Nothing of it shows. -/
theorem own_among_foreign :
    let crowded := memory.after .empty foreignOperations
    let mixed := ownOperations.flatMap fun e => foreignOperations ++ [e]
    crowded.tenants.get? "rival" ≠ none ∧
      memory.repliesTo "acme" .empty ownOperations = memory.repliesTo "acme" crowded mixed ∧
      (memory.after .empty ownOperations).tenants.get? "acme"
        = (memory.after crowded mixed).tenants.get? "acme" := by
  intro crowded mixed
  have hsame : Store.empty.tenant "acme" = crowded.tenant "acme" := by decide +kernel
  have hentry : Store.empty.tenants.get? "acme" = crowded.tenants.get? "acme" := by decide +kernel
  have hoperations : operationsOf "acme" ownOperations = operationsOf "acme" mixed := rfl
  obtain ⟨hreplies, -, hend, -⟩ := tenants_do_not_interfere hsame hoperations
  exact ⟨by decide +kernel, hreplies, hend hentry⟩

end Platform

end VersionCatalog
