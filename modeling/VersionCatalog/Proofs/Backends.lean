import Mathlib.Data.List.Forall2
import VersionCatalog.Proofs.Files
import VersionCatalog.Proofs.Pruning

/-!
# The two backends

A storage is asked by direct calls of its store and by an engine over it; it may also be asked for its
health (`Operation`). The memory backend and the file backend give the same replies to every history of
operations, if they start from the same store, and at the end the memory and the file hold the same but for
empty tables. The replies differ only where a backend tells its own name (`Reply.SameButName`).

The disk must not fail, nobody else may keep the lock, no document may be too deep to be read, and all values
must be read back as they were written: the file rounds numbers of double precision that the memory keeps. A
check of the health writes a file `.health_check` and removes it, so a store that is kept in a file of that
name does not outlive the check; a history without checks asks for nothing of the kind.

## Main results

* `Platform.call_agree`: what one call does in backends that agree.
* `Platform.perform_agree`: what one operation does in the memory and in the file.
* `Platform.replies_agree`: what a history does, from any corresponding states.
* `backends_agree`: what a history does, from a store that can be reached.
-/

namespace VersionCatalog

open Json (maxDepth)

/-- What a storage is asked. -/
inductive Operation where
  /-- A direct call of the store. -/
  | store (request : StoreRequest)
  /-- A call of an engine, which names versions in its own way. -/
  | engine (naming : Calculator) (request : Request)
  /-- A check of the health. -/
  | checkHealth

/-- The properties that an operation brings along. -/
def Operation.properties : Operation → Keyed Json
  | store r => r.properties
  | engine _ r => r.properties
  | checkHealth => ∅

/-- The values that an operation brings along are such as items or versions may have. -/
def Operation.Brings (item version : Json → Prop) : Operation → Prop
  | store r => r.Brings item version
  | engine _ r => r.Brings item version
  | checkHealth => True

theorem Operation.brings_iff {value : Json → Prop} {o : Operation} :
    o.Brings value value ↔ o.properties.All value := by
  cases o with
  | store r => exact r.brings_iff
  | engine naming r => exact r.brings_iff
  | checkHealth => exact iff_of_true trivial .empty

namespace Operation

/-- A call that backends may agree on. No backend deletes a version, and each says so under its own name. -/
def IsCall : Operation → Prop
  | store r => ∀ item version, r ≠ .deleteVersion item version
  | engine _ _ => True
  | checkHealth => False

theorem isCall_or (o : Operation) :
    o.IsCall ∨ (∃ item version, o = store (.deleteVersion item version)) ∨ o = checkHealth := by
  cases o with
  | store r =>
      by_cases h : ∃ item version, r = .deleteVersion item version
      · obtain ⟨item, version, rfl⟩ := h
        exact .inr (.inl ⟨item, version, rfl⟩)
      · exact .inl fun item version hr => h ⟨item, version, hr⟩
  | engine naming r => exact .inl trivial
  | checkHealth => exact .inr (.inr rfl)

end Operation

/-- What a storage replies. -/
inductive Reply where
  | store (answer : Except StoreError Answer)
  | engine (answer : Except EngineError Answer)
  | health (report : Health)

namespace Reply

/-- The replies of the memory backend and of the file backend are the same, but for their names, and for the
time that a check of the health takes. -/
inductive SameButName : Reply → Reply → Prop
  | same (r : Reply) : SameButName r r
  | deleteVersion : SameButName
      (store (.error ⟨.unsupported, "memory backend does not delete versions"⟩))
      (store (.error ⟨.unsupported, "file backend does not delete versions"⟩))
  | health (h : Health) (latency : Nat) :
      SameButName (health h) (health { h with backend := "file", latency := latency })

/-- A reply that tells of a call on the disk that failed. -/
def FailsOnDisk : Reply → Prop
  | store (.error e) => e.fault = .io
  | engine (.error (.store e)) => e.fault = .io
  | health h => ∃ e : DiskError, e.message ∈ h.errors ∨ (StoreError.ofDisk e).message ∈ h.errors
  | _ => False

/-- A reply that passes an error of the store on. -/
def Passes (P : StoreError → Prop) : Reply → Prop
  | store (.error e) => P e
  | engine (.error e) => ∃ e', P e' ∧ e = .ofStore e'
  | _ => False

/-- The engine passes failures of the disk on. -/
theorem failsOnDisk_engine {e : StoreError} (h : e.fault = .io) :
    FailsOnDisk (engine (.error (.ofStore e))) := by
  rw [EngineError.ofStore, h]
  exact h

/-- If nothing is excused, no error is passed on. -/
theorem not_passes {P : StoreError → Prop} (h : ∀ e, ¬ P e) {r : Reply} : ¬ r.Passes P := by
  rcases r with ⟨answer⟩ | ⟨answer⟩ | report
  · cases answer with
    | ok a => exact id
    | error e => exact h e
  · cases answer with
    | ok a => exact id
    | error e => exact fun ⟨e', he', _⟩ => h e' he'
  · exact id

theorem failsOnDisk_of_passes {r : Reply} (h : r.Passes (·.fault = .io)) : r.FailsOnDisk := by
  cases r with
  | store answer =>
      cases answer with
      | ok a => exact h.elim
      | error e => exact h
  | engine answer =>
      cases answer with
      | ok a => exact h.elim
      | error e =>
          obtain ⟨e', he', rfl⟩ := h
          exact failsOnDisk_engine he'
  | health report => exact h.elim

end Reply

/-- A storage over states `σ`: its backend, and how it checks its health, which takes a time. -/
structure Platform (σ : Type) where
  backend : Fresh → Backend σ
  checkHealth : (latency : Nat) → σ → Health × σ

namespace Platform

variable {σ : Type}

/-- The store in memory. -/
def memory : Platform Store where
  backend := Memory.backend
  checkHealth _ s := (Memory.health, s)

/-- The store in a file, whose lock is free. -/
def file (f : FileSettings) : Platform Disk where
  backend := File.backend f false
  checkHealth := File.checkHealth f false

/-- What an operation replies, and the state that it leaves behind. -/
def perform (p : Platform σ) (x : σ) (e : Event Operation) : Reply × σ :=
  match e.request with
  | .store r =>
    let result := r.run (p.backend e.fresh) e.session x
    (.store (answerOf result), stateOf result)
  | .engine naming r =>
    let result := r.run (p.backend e.fresh) naming e.session x
    (.engine (answerOf result), stateOf result)
  | .checkHealth =>
    let (report, x) := p.checkHealth e.fresh.clock.latency x
    (.health report, x)

theorem perform_store (p : Platform σ) (x : σ) (fresh : Fresh) (session : Session)
    (r : StoreRequest) :
    (p.perform x ⟨fresh, session, .store r⟩).1
      = .store (answerOf (r.run (p.backend fresh) session x)) := rfl

theorem perform_engine (p : Platform σ) (x : σ) (fresh : Fresh) (session : Session)
    (naming : Calculator) (r : Request) :
    (p.perform x ⟨fresh, session, .engine naming r⟩).1
      = .engine (answerOf (r.run (p.backend fresh) naming session x)) := rfl

theorem perform_checkHealth (p : Platform σ) (x : σ) (fresh : Fresh) (session : Session) :
    (p.perform x ⟨fresh, session, .checkHealth⟩).1
      = .health (p.checkHealth fresh.clock.latency x).1 := rfl

/-- The state after a history. -/
def after (p : Platform σ) (x : σ) (history : List (Event Operation)) : σ :=
  history.foldl (fun x e => (p.perform x e).2) x

/-- The replies to a history. -/
def replies (p : Platform σ) : σ → List (Event Operation) → List Reply
  | _, [] => []
  | x, e :: history => (p.perform x e).1 :: p.replies (p.perform x e).2 history

/-- The memory holds nothing but values of the requests. -/
theorem within_perform {value : Json → Prop} {s : Store} (h : s.Within value value)
    {e : Event Operation} (he : e.request.properties.All value) :
    (memory.perform s e).2.Within value value := by
  obtain ⟨fresh, session, request⟩ := e
  cases request with
  | store r => exact h.next (e := ⟨fresh, session, r⟩) (StoreRequest.brings_iff.2 he)
  | engine naming r => exact h.serve naming (e := ⟨fresh, session, r⟩) (Request.brings_iff.2 he)
  | checkHealth => exact h

theorem within_after {value : Json → Prop} {history : List (Event Operation)}
    (hvalues : ∀ e ∈ history, e.request.properties.All value) {s : Store}
    (h : s.Within value value) : (memory.after s history).Within value value := by
  induction history generalizing s with
  | nil => exact h
  | cons e history ih =>
      obtain ⟨he, hrest⟩ := List.forall_mem_cons.1 hvalues
      exact ih hrest (within_perform h he)

theorem fits_after {history : List (Event Operation)}
    (hvalues : ∀ e ∈ history, e.request.properties.All Json.IsValue) {s : Store} (h : s.Fits) :
    (memory.after s history).Fits :=
  Store.within_isValue.1 (within_after hvalues (Store.within_isValue.2 h))

end Platform

/-! ### One operation -/

namespace Platform

section

variable {σ τ : Type} {C : Comparison σ τ} {p : Platform σ} {q : Platform τ} {x : σ} {y : τ}
  {e : Event Operation}

/-- No call gets a state back that is lost. -/
theorem lost_call (hagree : ∀ fresh, (p.backend fresh).Agree C (q.backend fresh)) (hlost : C.lost y)
    (he : e.request.Brings C.itemValue C.versionValue) (hcall : e.request.IsCall) :
    C.lost (q.perform y e).2 := by
  obtain ⟨fresh, session, request⟩ := e
  cases request with
  | store r => exact (r.run_agree (hagree fresh) session he hcall).lost_of_lost hlost
  | engine naming r => exact (r.run_agree (hagree fresh) naming session he).lost_of_lost hlost
  | checkHealth => exact hcall.elim

/-- **What one call does in backends that agree.** -/
theorem call_agree (hagree : ∀ fresh, (p.backend fresh).Agree C (q.backend fresh))
    (hrelated : C.related x y) (he : e.request.Brings C.itemValue C.versionValue)
    (hcall : e.request.IsCall) :
    C.lost (q.perform y e).2 ∨ (q.perform y e).1.Passes C.excused ∨
      (p.perform x e).1 = (q.perform y e).1 ∧ C.related (p.perform x e).2 (q.perform y e).2 := by
  obtain ⟨fresh, session, request⟩ := e
  cases request with
  | store r =>
      refine ((r.run_agree (hagree fresh) session he hcall).of_related hrelated).imp_right fun h => ?_
      rcases h with ⟨error, y', herror, hexcused⟩ | ⟨hanswer, hrelated'⟩
      · refine .inl ?_
        rw [perform_store, herror]
        exact hexcused
      · exact .inr ⟨congrArg Reply.store hanswer, hrelated'⟩
  | engine naming r =>
      refine ((r.run_agree (hagree fresh) naming session he).of_related hrelated).imp_right fun h => ?_
      rcases h with ⟨error, y', herror, hexcused⟩ | ⟨hanswer, hrelated'⟩
      · refine .inl ?_
        rw [perform_engine, herror]
        exact hexcused
      · exact .inr ⟨congrArg Reply.engine hanswer, hrelated'⟩
  | checkHealth => exact hcall.elim

end

section

variable {f : FileSettings} {d₀ d : Disk} {m : Store} {e : Event Operation}

theorem file_agree (f : FileSettings) (d₀ : Disk) (fresh : Fresh) :
    (memory.backend fresh).Agree (File.comparison f d₀) ((file f).backend fresh) :=
  File.backend_agree f d₀ fresh

/-- The disk after a check of the health. -/
theorem perform_file_checkHealth (f : FileSettings) (d : Disk) (fresh : Fresh) (session : Session) :
    ((file f).perform d ⟨fresh, session, .checkHealth⟩).2 = File.probed f d := by
  change (File.checkHealth f false fresh.clock.latency d).2 = _
  rw [File.checkHealth_eq]

/-- A document that is too deep stays in the file. -/
theorem lost_perform (hlost : (File.comparison f d₀).lost d)
    (he : e.request.properties.All Json.IsSteady)
    (hprobe : e.request = .checkHealth → File.Apart f d₀) :
    (File.comparison f d₀).lost ((file f).perform d e).2 := by
  rcases e.request.isCall_or with hcall | ⟨item, version, hdelete⟩ | hcheck
  · exact lost_call (file_agree f d₀) hlost (Operation.brings_iff.2 he) hcall
  · obtain ⟨fresh, session, request⟩ := e
    obtain rfl : request = .store (.deleteVersion item version) := hdelete
    exact hlost
  · obtain ⟨fresh, session, request⟩ := e
    obtain rfl : request = .checkHealth := hcheck
    obtain ⟨hsame, s, hs, hdeep⟩ := hlost
    obtain ⟨hholds, hprobed⟩ := hs.probed ((hprobe rfl).of_sameFolders hsame hs)
    rw [perform_file_checkHealth]
    exact ⟨hsame.trans hprobed, s, hholds, hdeep⟩

/-- What a check of the health does in the memory and in the file. -/
theorem checkHealth_agree (hrelated : (File.comparison f d₀).related m d) (hprobe : File.Apart f d₀)
    (fresh : Fresh) (session : Session) :
    let e : Event Operation := ⟨fresh, session, .checkHealth⟩
    ((file f).perform d e).1.FailsOnDisk ∨
      Reply.SameButName (memory.perform m e).1 ((file f).perform d e).1 ∧
        (File.comparison f d₀).related (memory.perform m e).2 ((file f).perform d e).2 := by
  intro e
  obtain ⟨hsame, s, hs, halike⟩ := hrelated
  have hapart := hprobe.of_sameFolders hsame hs.holds
  obtain ⟨hholds, hprobed⟩ := hs.holds.probed hapart
  have hafter : (File.comparison f d₀).related m ((file f).perform d e).2 := by
    rw [perform_file_checkHealth]
    exact ⟨hsame.trans hprobed, s, ⟨hholds.text, hs.steady, hs.depth_le⟩, halike⟩
  have hreport : ((file f).checkHealth fresh.clock.latency d).1
        = .ofErrors "file" fresh.clock.latency [] ∨
      ∃ e : DiskError, ((file f).checkHealth fresh.clock.latency d).1
        = .ofErrors "file" fresh.clock.latency [e.message] :=
    hs.holds.checkHealth hapart hs.depth_le fresh.clock.latency
  rcases hreport with hreport | ⟨error, hreport⟩
  · refine .inr ⟨?_, hafter⟩
    rw [perform_checkHealth, perform_checkHealth, hreport]
    exact .health Memory.health fresh.clock.latency
  · refine .inl ?_
    rw [perform_checkHealth, hreport]
    exact ⟨error, .inl (List.mem_singleton_self _)⟩

/-- **What one operation does in the memory and in the file.** -/
theorem perform_agree (hrelated : (File.comparison f d₀).related m d)
    (he : e.request.properties.All Json.IsSteady)
    (hprobe : e.request = .checkHealth → File.Apart f d₀) :
    (File.comparison f d₀).lost ((file f).perform d e).2 ∨
      ((file f).perform d e).1.FailsOnDisk ∨
        Reply.SameButName (memory.perform m e).1 ((file f).perform d e).1 ∧
          (File.comparison f d₀).related (memory.perform m e).2 ((file f).perform d e).2 := by
  rcases e.request.isCall_or with hcall | ⟨item, version, hdelete⟩ | hcheck
  · rcases call_agree (file_agree f d₀) hrelated (Operation.brings_iff.2 he) hcall with
      hlost | hfails | ⟨hreply, hafter⟩
    · exact .inl hlost
    · exact .inr (.inl (Reply.failsOnDisk_of_passes hfails))
    · exact .inr (.inr ⟨hreply ▸ .same _, hafter⟩)
  · obtain ⟨fresh, session, request⟩ := e
    obtain rfl : request = .store (.deleteVersion item version) := hdelete
    exact .inr (.inr ⟨.deleteVersion, hrelated⟩)
  · obtain ⟨fresh, session, request⟩ := e
    obtain rfl : request = .checkHealth := hcheck
    exact .inr (checkHealth_agree hrelated (hprobe rfl) fresh session)

end

end Platform

/-! ### Histories -/

section

variable {f : FileSettings} {d₀ d : Disk} {m : Store} {history : List (Event Operation)}

namespace Platform

theorem lost_after (hlost : (File.comparison f d₀).lost d)
    (hvalues : ∀ e ∈ history, e.request.properties.All Json.IsSteady)
    (hprobe : ∀ e ∈ history, e.request = .checkHealth → File.Apart f d₀) :
    (File.comparison f d₀).lost ((file f).after d history) := by
  induction history generalizing d with
  | nil => exact hlost
  | cons e history ih =>
      obtain ⟨he, hvalues⟩ := List.forall_mem_cons.1 hvalues
      obtain ⟨hprobe_e, hprobe⟩ := List.forall_mem_cons.1 hprobe
      exact ih (lost_perform hlost he hprobe_e) hvalues hprobe

/-- From corresponding states, unless the document in the file is too deep at the end or the disk fails, all
replies are the same and the states correspond at the end. -/
theorem replies_agree (hrelated : (File.comparison f d₀).related m d)
    (hvalues : ∀ e ∈ history, e.request.properties.All Json.IsSteady)
    (hprobe : ∀ e ∈ history, e.request = .checkHealth → File.Apart f d₀)
    (hdisk : ∀ r ∈ (file f).replies d history, ¬ r.FailsOnDisk)
    (hshallow : ¬ (File.comparison f d₀).lost ((file f).after d history)) :
    List.Forall₂ Reply.SameButName (memory.replies m history) ((file f).replies d history) ∧
      (File.comparison f d₀).related (memory.after m history) ((file f).after d history) := by
  induction history generalizing m d with
  | nil => exact ⟨.nil, hrelated⟩
  | cons e history ih =>
      obtain ⟨he, hvalues⟩ := List.forall_mem_cons.1 hvalues
      obtain ⟨hprobe_e, hprobe⟩ := List.forall_mem_cons.1 hprobe
      obtain ⟨hdisk_e, hdisk⟩ := List.forall_mem_cons.1 hdisk
      rcases perform_agree hrelated he hprobe_e with hlost | hfails | ⟨hreply, hrelated'⟩
      · exact absurd (lost_after hlost hvalues hprobe) hshallow
      · exact absurd hfails hdisk_e
      · obtain ⟨hreplies, hafter⟩ := ih hrelated' hvalues hprobe hdisk hshallow
        exact ⟨.cons hreply hreplies, hafter⟩

end Platform

end

/-- **The two backends agree.** Take a store that can be reached from the empty one, as the seed of the
memory backend and as the content of the file. If no operation of a history fails on the disk, and the
document in the file is not too deep to be read at the end, the two give the same replies to the history, and
at the end the file holds the store that is in memory, but for empty tables. All values that are brought along
must be read back as they were written. And where the history checks the health, the store must be kept in
another file than the one that is written then. -/
theorem backends_agree {f : FileSettings} {d : Disk} {s m : Store}
    {past history : List (Event Operation)}
    (hpast : ∀ e ∈ past, e.request.properties.All Json.IsSteady)
    (hreached : s = Platform.memory.after .empty past)
    (hseed : Store.parse? s.toText = some m) (hfile : d.read f.storePath = .ok s.toText)
    (hvalues : ∀ e ∈ history, e.request.properties.All Json.IsSteady)
    (hprobe : ∀ e ∈ history, e.request = .checkHealth → File.Apart f d)
    (hdisk : ∀ r ∈ (Platform.file f).replies d history, ¬ r.FailsOnDisk)
    (hdepth : ∀ t : Store, File.Holds f ((Platform.file f).after d history) t →
      t.toJson.depth ≤ maxDepth) :
    List.Forall₂ Reply.SameButName (Platform.memory.replies m history)
        ((Platform.file f).replies d history) ∧
      ∃ t : Store, ((Platform.file f).after d history).read f.storePath = .ok t.toText ∧
        (Platform.memory.after m history).pruned = t.pruned := by
  have hsteady : s.Within Json.IsSteady Json.IsSteady :=
    hreached ▸ Platform.within_after hpast Store.within_empty
  have hrelated : (File.comparison f d).related m d := by
    rcases File.keeps_or_deep hfile hsteady with hs | ⟨hs, hdeep⟩
    · rw [Store.parse?_toText hs.holds.fits, upTo_of_le hs.depth_le,
        hsteady.rounded_eq_self] at hseed
      obtain rfl := Option.some.inj hseed
      exact ⟨.refl d, s, hs, .refl s⟩
    · rw [Store.parse?_toText hs.fits, upTo_of_lt hdeep] at hseed
      cases hseed
  have hshallow : ¬ (File.comparison f d).lost ((Platform.file f).after d history) := by
    rintro ⟨-, t, ht, hdeep⟩
    exact Nat.not_le_of_lt hdeep (hdepth t ht)
  obtain ⟨hreplies, -, t, ht, halike⟩ :=
    Platform.replies_agree hrelated hvalues hprobe hdisk hshallow
  exact ⟨hreplies, t, ht.text, Store.alike_iff_pruned_eq.1 halike⟩

/-! ### A history with a call that fails -/

section

variable {α : Type} {f : FileSettings} {d d' : Disk} {s s' : Store} {fresh : Fresh}
  {session : Session} {r : StoreRequest} (change : Change α) (g : α → Answer)

/-- A direct call that fails leaves the file as it is. -/
theorem Platform.perform_file_error (hload : File.load f d = .ok s)
    (hrun : r.run (File.backend f false fresh) session = g <$> File.changing f false change)
    {e : StoreError} (hchange : change s = .error e s') :
    (file f).perform d ⟨fresh, session, .store r⟩ = (.store (.error e), d) := by
  have hcall := File.changing_of_load hload change
  rw [hchange] at hcall
  change (Reply.store (answerOf (r.run (File.backend f false fresh) session d)),
    stateOf (r.run (File.backend f false fresh) session d)) = _
  rw [hrun, answerOf_map, stateOf_map, hcall]
  rfl

/-- A direct call that succeeds and is saved. -/
theorem Platform.perform_file_ok (hload : File.load f d = .ok s)
    (hrun : r.run (File.backend f false fresh) session = g <$> File.changing f false change)
    {a : α} (hchange : change s = .ok a s') (hsave : File.save f s' d = .ok () d') :
    (file f).perform d ⟨fresh, session, .store r⟩ = (.store (.ok (g a)), d') := by
  have hcall := File.changing_of_load hload change
  simp only [hchange, hsave] at hcall
  change (Reply.store (answerOf (r.run (File.backend f false fresh) session d)),
    stateOf (r.run (File.backend f false fresh) session d)) = _
  rw [hrun, answerOf_map, stateOf_map, hcall]
  rfl

end

/-- A store's file in a folder. -/
def catalogFile : FileSettings := ⟨"store", "catalog.json", Span.ofSeconds 5 (by decide)⟩

/-- The disk with a store in that file. -/
def catalogDisk (s : Store) : Disk :=
  ⟨[(["store", "catalog.json"], .file s.toText), (["store"], .folder)]⟩

/-- A store is saved into the file in place of another one. -/
theorem save_catalogDisk (s t : Store) :
    File.save catalogFile t (catalogDisk s) = .ok () (catalogDisk t) := rfl

/-- An item is made under an id. -/
def newItem (id : String) : Event Operation :=
  ⟨⟨id, "", "", Store.noon⟩, ⟨"alice", "acme"⟩, .store (.createItem Item.blank)⟩

/-- Another tenant pulls a version of an item that it does not have. -/
def strangeSync : Event Operation :=
  ⟨⟨"", "", "", Store.noon⟩, ⟨"bob", "other"⟩, .store (.sync "i1" "v1")⟩

/-- The health is checked, in no time. -/
def checkUp : Event Operation :=
  ⟨⟨"", "", "", Store.noon⟩, ⟨"alice", "acme"⟩, .checkHealth⟩

theorem apart_catalogDisk (s : Store) : File.Apart catalogFile (catalogDisk s) := by
  have hprobe : (catalogDisk s).locate catalogFile.probePath = .ok (.named ["store"] ".health_check") :=
    rfl
  have hstore : (catalogDisk s).locate catalogFile.storePath = .ok (.named ["store"] "catalog.json") :=
    rfl
  rw [File.Apart, hprobe, hstore]
  simp

theorem perform_checkUp {s : Store} (hs : File.Keeps catalogFile (catalogDisk s) s) :
    (Platform.file catalogFile).perform (catalogDisk s) checkUp
      = (.health (.ofErrors "file" 0 []), catalogDisk s) := by
  have hprobed : File.probed catalogFile (catalogDisk s) = catalogDisk s := rfl
  have hload : File.loadLocked catalogFile false (catalogDisk s) = .ok s := hs.load
  have hcheck := File.checkHealth_eq catalogFile 0 (catalogDisk s)
  rw [hprobed, hload] at hcheck
  exact congrArg (fun checked : Health × Disk => (Reply.health checked.1, checked.2)) hcheck

/-- The pull fails, the health is checked, and an item is made after it: the memory remembers the other tenant,
the file does not, and all replies are the same. -/
theorem backends_agree_on_strangeSync :
    let s := Platform.memory.after .empty [newItem "i1"]
    let history := [strangeSync, checkUp, newItem "i2"]
    let now := Platform.memory.after s history
    let last := (Platform.file catalogFile).after (catalogDisk s) history
    (now.tenants.contains "other" = true ∧ last = catalogDisk (Platform.memory.after s [newItem "i2"])) ∧
      List.Forall₂ Reply.SameButName (Platform.memory.replies s history)
        ((Platform.file catalogFile).replies (catalogDisk s) history) ∧
      ∃ t : Store, last.read catalogFile.storePath = .ok t.toText ∧ now.pruned = t.pruned := by
  intro s history now last
  have hvalues : ∀ id, (newItem id).request.properties.All Json.IsSteady := fun id => .empty
  have hpast : ∀ e ∈ [newItem "i1"], e.request.properties.All Json.IsSteady := by
    simpa using hvalues "i1"
  have hhistory : ∀ e ∈ history, e.request.properties.All Json.IsSteady := by
    intro e he
    simp only [history, List.mem_cons, List.not_mem_nil, or_false] at he
    rcases he with rfl | rfl | rfl
    · exact .empty
    · exact .empty
    · exact hvalues "i2"
  have hs : File.Keeps catalogFile (catalogDisk s) s :=
    ⟨rfl, Platform.within_after hpast Store.within_empty, by decide +kernel⟩
  have hseed : Store.parse? s.toText = some s := by
    rw [Store.parse?_toText hs.holds.fits, upTo_of_le hs.depth_le, hs.steady.rounded_eq_self]
  have hsync : (Platform.file catalogFile).perform (catalogDisk s) strangeSync
      = (.store (.error (.noItem "i1")), catalogDisk s) :=
    Platform.perform_file_error (Store.sync ⟨"bob", "other"⟩ "i1" "v1") (fun () => .done) hs.load
      rfl rfl
  have hitem : ∃ i, (Platform.file catalogFile).perform (catalogDisk s) (newItem "i2")
      = (.store (.ok (.item i)), catalogDisk (Platform.memory.after s [newItem "i2"])) :=
    ⟨_, Platform.perform_file_ok
      (Store.createItem "i2" Store.noon ⟨"alice", "acme"⟩ Item.blank) .item hs.load rfl rfl
      (save_catalogDisk _ _)⟩
  obtain ⟨i, hitem⟩ := hitem
  have hlast : last = catalogDisk (Platform.memory.after s [newItem "i2"]) := by
    simp only [last, history, Platform.after, List.foldl_cons, List.foldl_nil, hsync,
      perform_checkUp hs, hitem]
  have hdisk : ∀ r ∈ (Platform.file catalogFile).replies (catalogDisk s) history,
      ¬ r.FailsOnDisk := by
    simp [history, Platform.replies, hsync, perform_checkUp hs, hitem, Reply.FailsOnDisk,
      StoreError.noItem, Health.ofErrors]
  have hlastDepth : ∀ t : Store, File.Holds catalogFile last t → t.toJson.depth ≤ maxDepth := by
    intro t ht
    have hnow : File.Keeps catalogFile last (Platform.memory.after s [newItem "i2"]) := by
      rw [hlast]
      exact ⟨rfl, Platform.within_after (by simpa using hvalues "i2") hs.steady, by decide +kernel⟩
    exact hnow.holds.depth_le hnow.depth_le ht
  refine ⟨⟨by decide +kernel, hlast⟩, ?_⟩
  exact backends_agree hpast rfl hseed rfl hhistory (fun _ _ _ => apart_catalogDisk s) hdisk hlastDepth

end VersionCatalog
