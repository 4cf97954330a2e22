import VersionCatalog.Proofs.Backends
import VersionCatalog.Proofs.Loading

/-!
# Files that can be loaded

A file is written without regard to how deep its document is, and not loaded if it is too deep. So calls can
make a store that cannot be loaded any more, and nothing gets it back: each later call loads it first and
fails. This is the only way in which it happens (`legible_unless_too_deep`), as long as the disk does
not fail. It does not happen while the values of items' properties are at most 121 deep and those of
versions' properties at most 116. A user's copy may have values one level deeper than what was published, so
it is a publication that can be one level too much.

## Main results

* `Platform.legible_after`: what a history of calls leaves in the file, and what it never replies.
* `legible_unless_too_deep`: a file stays one that can be loaded, or its values are too deep.
-/

namespace VersionCatalog

/-! ### Stores that can be loaded again -/

namespace Store

theorem shallow_empty : empty.Shallow :=
  depth_toJson_le_iff.1 (by decide)

/-- The values of a store that is not too deep are below the bounds, if those of users' copies are no deeper
than published ones may be. -/
theorem Shallow.within {s : Store} (h : s.Shallow) (hfits : s.Fits)
    (hcopies : ∀ tenant item user version c, (s.shelf tenant item).copy? user version = some c →
      c.content.properties.All fun v => v.depth ≤ 116) :
    s.Within (Json.IsValueTo 121) (Json.IsValueTo 116) where
  items t id i hi k v hv := ⟨hfits.items t id i hi k v hv, h.items t id i hi k v hv⟩
  shelves t item :=
    { entries := fun version e he k v hv =>
        ⟨(hfits.shelves t item).entries version e he k v hv, h.entries t item version e he k v hv⟩
      copies := fun user version c hc k v hv =>
        ⟨(hfits.shelves t item).copies user version c hc k v hv,
          hcopies t item user version c hc k v hv⟩ }

/-- Values that are below the bounds leave room for a publication. -/
theorem Within.fits_and_shallow {s : Store}
    (h : s.Within (Json.IsValueTo 121) (Json.IsValueTo 116)) : s.Fits ∧ s.Shallow := by
  have hdepths : s.Within (fun v => v.depth ≤ 121) fun v => v.depth ≤ 116 :=
    h.mono (fun _ hv => hv.2) fun _ hv => hv.2
  refine ⟨within_isValue.1 (h.mono (fun _ hv => hv.1) fun _ hv => hv.1), ?_⟩
  exact
    { items := hdepths.items
      entries := fun t item => (hdepths.shelves t item).entries
      copies := fun t item user version c hc k v hv =>
        Nat.le_succ_of_le ((hdepths.shelves t item).copies user version c hc k v hv) }

end Store

namespace File

variable {f : FileSettings} {d : Disk} {s : Store}

/-- A store that is loaded from a file could be saved and loaded again. -/
theorem fits_and_shallow_of_load (h : load f d = .ok s) : s.Fits ∧ s.Shallow := by
  unfold load at h
  cases hread : d.read f.storePath with
  | ok text =>
      cases hparse : Store.parse? text with
      | some t =>
          simp only [hread, hparse] at h
          cases h
          exact Store.fits_and_shallow_of_parse? hparse
      | none => simp [hread, hparse] at h
  | error e =>
      cases e with
      | missing =>
          simp only [hread] at h
          cases h
          exact ⟨Store.fits_empty, Store.shallow_empty⟩
      | _ => simp [hread] at h

/-- A store that is not too deep is loaded from the file that holds it. -/
theorem Holds.load_shallow (h : Holds f d s) (hs : s.Shallow) : File.load f d = .ok s.rounded :=
  h.load (Store.depth_toJson_le_iff.2 hs)

/-- A store that is too deep is not. -/
theorem Holds.load_not_shallow (h : Holds f d s) (hs : ¬ s.Shallow) :
    File.load f d = .error .unreadable :=
  h.load_deep (Nat.lt_of_not_le fun hle => hs (Store.depth_toJson_le_iff.1 hle))

/-- The file cannot be loaded, and every direct call fails for that; the deletion of a version fails
anyway. -/
structure Illegible (f : FileSettings) (d : Disk) : Prop where
  load : load f d = .error .unreadable
  reply : ∀ fresh session r, (∀ item version, r ≠ .deleteVersion item version) →
    ((Platform.file f).perform d ⟨fresh, session, .store r⟩).1 = .store (.error .unreadable)

theorem illegible_of_load (h : load f d = .error .unreadable) : Illegible f d where
  load := h
  reply fresh session r hdelete := by
    refine congrArg Reply.store (?_ : answerOf (r.run (backend f false fresh) session d) = _)
    rcases r.reading_or_changing (keeper f false) fresh session hdelete with
      ⟨α, g, answer, hrun⟩ | ⟨α, change, answer, hrun⟩
    · have hfails : (keeper f false).reading g d = .error .unreadable d := reading_of_load_error h g
      rw [backend, hrun, answerOf_map, hfails]
      rfl
    · have hfails : (keeper f false).changing change d = .error .unreadable d :=
        changing_of_load_error h change
      rw [backend, hrun, answerOf_map, hfails]
      rfl

/-! ### What is kept in a file -/

/-- Values that a document can keep, and that are still of their kind when they are read back. -/
structure Lasting (p : Json → Prop) : Prop where
  isValue : ∀ v, p v → v.IsValue
  rounded : ∀ v, p v → p v.rounded

theorem lasting_isValue : Lasting Json.IsValue :=
  ⟨fun _ => id, fun _ => .rounded⟩

theorem lasting_isValueTo (n : Nat) : Lasting (Json.IsValueTo n) :=
  ⟨fun _ hv => hv.1, fun v hv => ⟨hv.1.rounded, by rw [Json.depth_rounded]; exact hv.2⟩⟩

section

variable {α : Type} {p q : Json → Prop}

/-- The file can be loaded, and its values are of certain kinds. -/
def Legible (p q : Json → Prop) (f : FileSettings) (d : Disk) : Prop :=
  ∃ s, load f d = .ok s ∧ s.Within p q

/-- The file holds values of certain kinds, some of them too deep. -/
def TooDeep (p q : Json → Prop) (f : FileSettings) (d : Disk) : Prop :=
  ∃ s, Holds f d s ∧ s.Within p q ∧ ¬ s.Shallow

theorem TooDeep.load (h : TooDeep p q f d) : load f d = .error .unreadable := by
  obtain ⟨s, hs, -, hdeep⟩ := h
  exact hs.load_not_shallow hdeep

/-- What is saved can be loaded, or it is too deep. -/
theorem legible_or_tooDeep (hp : Lasting p) (hq : Lasting q)
    (h : d.read f.storePath = .ok s.toText) (hs : s.Within p q) :
    Legible p q f d ∨ TooDeep p q f d := by
  have hholds : Holds f d s := ⟨h, Store.within_isValue.1 (hs.mono hp.isValue hq.isValue)⟩
  by_cases hshallow : s.Shallow
  · exact .inl ⟨_, hholds.load_shallow hshallow, hs.rounded hp.rounded hq.rounded⟩
  · exact .inr ⟨s, hholds, hs, hshallow⟩

/-- The file, as long as it can be loaded. -/
def legibility (p q : Json → Prop) (f : FileSettings) : Comparison Disk Disk :=
  .keeping (Legible p q f) (TooDeep p q f) (·.fault = .io) (·.fault ≠ .serialization) p q

theorem reading_legible {good : α → Prop} {g : Store → α}
    (hgood : ∀ {s : Store}, s.Within p q → good (g s)) :
    (legibility p q f).Agrees good (reading f false g) (reading f false g) := by
  apply Comparison.keeping_agrees
  case hkept =>
    rintro d ⟨s, hload, hs⟩
    rw [reading_of_load hload]
    exact .inr (.inr ⟨s, hload, hs⟩)
  case hlost =>
    intro d hdeep
    rw [reading_of_load_error hdeep.load]
    exact hdeep
  case hgood =>
    rintro d d' a (hdeep | ⟨s, hload, hs⟩) h
    · rw [reading_of_load_error hdeep.load] at h
      cases h
    · rw [reading_of_load hload] at h
      cases h
      exact hgood hs
  case hfair =>
    rintro d d' e ⟨s, hload, -⟩ h
    rw [reading_of_load hload] at h
    cases h

theorem changing_legible (hp : Lasting p) (hq : Lasting q) {good : α → Prop} {change : Change α}
    (hchange : Discreet Store.Alike change)
    (hwithin : ∀ {s : Store}, s.Within p q → (stateOf (change s)).Within p q)
    (hgood : ∀ {s s' : Store} {a : α}, change s = .ok a s' → good a) :
    (legibility p q f).Agrees good (changing f false change) (changing f false change) := by
  apply Comparison.keeping_agrees
  case hkept =>
    rintro d ⟨s, hload, hs⟩
    have hs' := hwithin hs
    rw [changing_of_load hload]
    cases hresult : change s with
    | error e s' => exact .inr (.inr ⟨s, hload, hs⟩)
    | ok a s' =>
        rw [hresult] at hs'
        dsimp only
        cases hsave : save f s' d with
        | error e d' => exact .inr (.inl ⟨e, d', rfl, save_error hsave⟩)
        | ok u d' => exact (legible_or_tooDeep hp hq (read_save hsave).1 hs').symm.imp_right .inr
  case hlost =>
    intro d hdeep
    rw [changing_of_load_error hdeep.load]
    exact hdeep
  case hgood =>
    rintro d d' a (hdeep | ⟨s, hload, -⟩) h
    · rw [changing_of_load_error hdeep.load] at h
      cases h
    · obtain ⟨s', hok, -⟩ := changing_eq_ok hload h
      exact hgood hok
  case hfair =>
    rintro d d' e ⟨s, hload, -⟩ h
    rcases changing_eq_error hload h with ⟨s', herror⟩ | ⟨a, s', -, hsave⟩
    · exact .inr (hchange.failed herror).2.fault_ne
    · refine .inr ?_
      rw [save_error hsave]
      simp

/-- **The file backend keeps the file one that can be loaded**, unless a document is too deep. -/
theorem backend_legible (hp : Lasting p) (hq : Lasting q) (f : FileSettings) (fresh : Fresh) :
    (backend f false fresh).Agree (legibility p q f) (backend f false fresh) :=
  Keeper.agree fresh (fun _ hgood => reading_legible fun hs => hgood hs.shows)
    fun _ _ _ hr hrun hdiscreet hgood =>
      changing_legible hp hq hdiscreet (fun hs => within_of_request hr hrun hs) hgood

end

end File

/-! ### Histories of calls -/

/-- A reply that tells of a store that could not be read. -/
def Reply.FailsToRead : Reply → Prop
  | store (.error e) => e.fault = .serialization
  | engine (.error (.store e)) => e.fault = .serialization
  | _ => False

namespace Platform

variable {p q : Json → Prop} {f : FileSettings} {d : Disk} {e : Event Operation}
  {history : List (Event Operation)}

theorem file_legible (hp : File.Lasting p) (hq : File.Lasting q) (f : FileSettings) (fresh : Fresh) :
    ((file f).backend fresh).Agree (File.legibility p q f) ((file f).backend fresh) :=
  File.backend_legible hp hq f fresh

/-- No call gets a document back that is too deep. -/
theorem tooDeep_perform (hp : File.Lasting p) (hq : File.Lasting q) (hdeep : File.TooDeep p q f d)
    (he : e.request.Brings p q) (hcall : e.request ≠ .checkHealth) :
    File.TooDeep p q f ((file f).perform d e).2 := by
  rcases e.request.isCall_or with hcall | ⟨item, version, hdelete⟩ | hcheck
  · exact lost_call (file_legible hp hq f) hdeep he hcall
  · obtain ⟨fresh, session, request⟩ := e
    obtain rfl : request = .store (.deleteVersion item version) := hdelete
    exact hdeep
  · exact absurd hcheck hcall

theorem tooDeep_after (hp : File.Lasting p) (hq : File.Lasting q) (hdeep : File.TooDeep p q f d)
    (hvalues : ∀ e ∈ history, e.request.Brings p q)
    (hcalls : ∀ e ∈ history, e.request ≠ .checkHealth) :
    File.TooDeep p q f ((file f).after d history) := by
  induction history generalizing d with
  | nil => exact hdeep
  | cons e history ih =>
      obtain ⟨he, hvalues⟩ := List.forall_mem_cons.1 hvalues
      obtain ⟨hcall, hcalls⟩ := List.forall_mem_cons.1 hcalls
      exact ih (tooDeep_perform hp hq hdeep he hcall) hvalues hcalls

/-- While the file can be loaded no call fails to read it. -/
theorem call_reads (hp : File.Lasting p) (hq : File.Lasting q) (hlegible : File.Legible p q f d)
    (he : e.request.Brings p q) (hcall : e.request.IsCall) :
    File.TooDeep p q f ((file f).perform d e).2 ∨ ¬ ((file f).perform d e).1.FailsToRead := by
  obtain ⟨fresh, session, request⟩ := e
  have hagree := file_legible hp hq f fresh
  cases request with
  | store r =>
      cases hrun : r.run ((file f).backend fresh) session d with
      | ok answer d' =>
          refine .inr ?_
          rw [perform_store, hrun]
          exact id
      | error error d' =>
          have hfair := (r.run_agree hagree session he hcall).fair_of_error ⟨rfl, hlegible⟩ hrun
          refine hfair.imp (fun hdeep => ?_) fun hfair => ?_
          · change File.TooDeep p q f (stateOf (r.run ((file f).backend fresh) session d))
            rw [hrun]
            exact hdeep
          · rw [perform_store, hrun]
            exact hfair
  | engine naming r =>
      cases hrun : r.run ((file f).backend fresh) naming session d with
      | ok answer d' =>
          refine .inr ?_
          rw [perform_engine, hrun]
          exact id
      | error error d' =>
          have hfair := (r.run_agree hagree naming session he).fair_of_error ⟨rfl, hlegible⟩ hrun
          refine hfair.imp (fun hdeep => ?_) fun hfair => ?_
          · change File.TooDeep p q f (stateOf (r.run ((file f).backend fresh) naming session d))
            rw [hrun]
            exact hdeep
          · rw [perform_engine, hrun]
            cases error with
            | store error => exact hfair error rfl
            | _ => exact id
  | checkHealth => exact hcall.elim

/-- **What one call leaves of a file that can be loaded.** -/
theorem legible_perform (hp : File.Lasting p) (hq : File.Lasting q)
    (hlegible : File.Legible p q f d) (he : e.request.Brings p q)
    (hcall : e.request ≠ .checkHealth) :
    File.TooDeep p q f ((file f).perform d e).2 ∨ ((file f).perform d e).1.FailsOnDisk ∨
      File.Legible p q f ((file f).perform d e).2 ∧ ¬ ((file f).perform d e).1.FailsToRead := by
  rcases e.request.isCall_or with hcall | ⟨item, version, hdelete⟩ | hcheck
  · rcases call_agree (file_legible hp hq f) ⟨rfl, hlegible⟩ he hcall with
      hdeep | hfails | ⟨-, -, hlegible'⟩
    · exact .inl hdeep
    · exact .inr (.inl (Reply.failsOnDisk_of_passes hfails))
    · exact (call_reads hp hq hlegible he hcall).imp_right fun hreads => .inr ⟨hlegible', hreads⟩
  · obtain ⟨fresh, session, request⟩ := e
    obtain rfl : request = .store (.deleteVersion item version) := hdelete
    exact .inr (.inr ⟨hlegible, by rintro ⟨⟩⟩)
  · exact absurd hcheck hcall

/-- **What a history of calls leaves in the file**: unless a document is written that is too deep, or the disk
fails, the file can be loaded at the end, and no call fails to read it. -/
theorem legible_after (hp : File.Lasting p) (hq : File.Lasting q) (hlegible : File.Legible p q f d)
    (hvalues : ∀ e ∈ history, e.request.Brings p q)
    (hcalls : ∀ e ∈ history, e.request ≠ .checkHealth)
    (hdisk : ∀ r ∈ (file f).replies d history, ¬ r.FailsOnDisk) :
    File.TooDeep p q f ((file f).after d history) ∨
      File.Legible p q f ((file f).after d history) ∧
        ∀ r ∈ (file f).replies d history, ¬ r.FailsToRead := by
  induction history generalizing d with
  | nil => exact .inr ⟨hlegible, by rintro r ⟨⟩⟩
  | cons e history ih =>
      obtain ⟨he, hvalues⟩ := List.forall_mem_cons.1 hvalues
      obtain ⟨hcall, hcalls⟩ := List.forall_mem_cons.1 hcalls
      obtain ⟨hdisk_e, hdisk⟩ := List.forall_mem_cons.1 hdisk
      rcases legible_perform hp hq hlegible he hcall with hdeep | hfails | ⟨hlegible', hreads⟩
      · have hafter := tooDeep_after hp hq hdeep hvalues hcalls
        exact .inl hafter
      · exact absurd hfails hdisk_e
      · refine (ih hlegible' hvalues hcalls hdisk).imp_right fun ⟨hkept, hreplies⟩ => ⟨hkept, ?_⟩
        exact List.forall_mem_cons.2 ⟨hreads, hreplies⟩

end Platform

/-- **A file stays one that can be loaded, unless its values are too deep.** Take a file that can be loaded or
is missing, and a history of calls with any values that can be read (`Json.yields_value`), in which the disk
never fails. While the values that the calls bring along
stay below the bounds, and so do those that users had in their copies, the file can be loaded at the end, and
no call fails to read it. For any values, either this is so, or the file holds a store that has a value too
deep for its place; then no calls after it get the store back, and every direct one fails. -/
theorem legible_unless_too_deep {f : FileSettings} {d : Disk} {s : Store}
    {history : List (Event Operation)} (hload : File.load f d = .ok s)
    (hcalls : ∀ e ∈ history, e.request ≠ .checkHealth)
    (hvalues : ∀ e ∈ history, e.request.properties.All Json.IsValue)
    (hdisk : ∀ r ∈ (Platform.file f).replies d history, ¬ r.FailsOnDisk) :
    let last := (Platform.file f).after d history
    let legible := (∃ t, File.load f last = .ok t) ∧
      ∀ r ∈ (Platform.file f).replies d history, ¬ r.FailsToRead
    ((∀ e ∈ history, e.request.Brings (Json.IsValueTo 121) (Json.IsValueTo 116)) →
        (∀ tenant item user version c, (s.shelf tenant item).copy? user version = some c →
          c.content.properties.All fun v => v.depth ≤ 116) → legible) ∧
      (legible ∨ (∃ t, File.Holds f last t ∧ ¬ t.Shallow) ∧
        ∀ more : List (Event Operation), (∀ e ∈ more, e.request ≠ .checkHealth) →
          (∀ e ∈ more, e.request.properties.All Json.IsValue) →
            File.Illegible f ((Platform.file f).after last more)) := by
  intro last legible
  obtain ⟨hfits, hshallow⟩ := File.fits_and_shallow_of_load hload
  refine ⟨fun hbrings hcopies => ?_, ?_⟩
  · have hlegible : File.Legible (Json.IsValueTo 121) (Json.IsValueTo 116) f d :=
      ⟨s, hload, hshallow.within hfits hcopies⟩
    rcases Platform.legible_after (File.lasting_isValueTo 121) (File.lasting_isValueTo 116) hlegible
        hbrings hcalls hdisk with ⟨t, -, ht, hdeep⟩ | ⟨⟨t, ht, -⟩, hreplies⟩
    · exact absurd ht.fits_and_shallow.2 hdeep
    · exact ⟨⟨t, ht⟩, hreplies⟩
  · have hbrings : ∀ {h : List (Event Operation)},
        (∀ e ∈ h, e.request.properties.All Json.IsValue) →
          ∀ e ∈ h, e.request.Brings Json.IsValue Json.IsValue :=
      fun h e he => Operation.brings_iff.2 (h e he)
    have hlegible : File.Legible Json.IsValue Json.IsValue f d :=
      ⟨s, hload, Store.within_isValue.2 hfits⟩
    rcases Platform.legible_after File.lasting_isValue File.lasting_isValue hlegible
        (hbrings hvalues) hcalls hdisk with hdeep | ⟨⟨t, ht, -⟩, hreplies⟩
    · obtain ⟨t, ht, -, htdeep⟩ := id hdeep
      refine .inr ⟨⟨t, ht, htdeep⟩, fun more hmore hmoreValues => ?_⟩
      exact File.illegible_of_load (Platform.tooDeep_after File.lasting_isValue File.lasting_isValue
        hdeep (hbrings hmoreValues) hmore).load
    · exact .inl ⟨⟨t, ht⟩, hreplies⟩

/-! ### A publication that cannot be loaded -/

/-- Lists in one another. -/
def Json.nested : Nat → Json
  | 0 => .list []
  | n + 1 => .list [nested n]

theorem Json.isValue_nested (n : Nat) : (nested n).IsValue := by
  induction n with
  | zero => exact .list fun x hx => (List.not_mem_nil hx).elim
  | succ n ih =>
      refine .list fun x hx => ?_
      obtain rfl := List.mem_singleton.1 hx
      exact ih

theorem Json.isSteady_nested (n : Nat) : (nested n).IsSteady where
  toIsValue := isValue_nested n
  steady := by
    induction n with
    | zero => rfl
    | succ n ih => rw [nested, rounded_list, List.map_singleton, ih]

/-- A version with a property whose value is 117 deep. -/
def deepDraft : Version :=
  Version.blank.setProperty "p" (Json.nested 116)

/-- The version is made. -/
def deepVersion : Event Operation :=
  ⟨⟨"", "v1", "", Store.noon⟩, ⟨"alice", "acme"⟩, .store (.createVersion "i1" deepDraft)⟩

/-- The version is published. -/
def deepPublication : Event Operation :=
  ⟨⟨"", "", "r1", Store.noon⟩, ⟨"alice", "acme"⟩, .store (.publish "i1" "v1" "")⟩

/-- An item is made, a deep version of it, and its publication. -/
def deepHistory : List (Event Operation) :=
  [newItem "i1", deepVersion, deepPublication]

theorem isSteady_deepHistory : ∀ e ∈ deepHistory, e.request.properties.All Json.IsSteady := by
  have hversion : deepVersion.request.properties.All Json.IsSteady :=
    .insert .empty (Json.isSteady_nested 116)
  intro e he
  simp only [deepHistory, List.mem_cons, List.not_mem_nil, or_false] at he
  rcases he with rfl | rfl | rfl
  · exact .empty
  · exact hversion
  · exact .empty

theorem isValue_deepHistory : ∀ e ∈ deepHistory, e.request.properties.All Json.IsValue :=
  fun e he k v hv => (isSteady_deepHistory e he k v hv).toIsValue

/-- The store after the first calls of the history. -/
def deepStore (n : Nat) : Store :=
  Platform.memory.after .empty (deepHistory.take n)

theorem steady_deepStore (n : Nat) : (deepStore n).Within Json.IsSteady Json.IsSteady :=
  Platform.within_after (fun e he => isSteady_deepHistory e (List.mem_of_mem_take he))
    Store.within_empty

theorem load_deepStore {n : Nat} (h : (deepStore n).toJson.depth ≤ Json.maxDepth) :
    File.load catalogFile (catalogDisk (deepStore n)) = .ok (deepStore n) :=
  File.Keeps.load ⟨rfl, steady_deepStore n, h⟩

/-- Each call of the history is a success and is saved. -/
theorem deepHistory_saved :
    (∃ answer, (Platform.file catalogFile).perform (catalogDisk (deepStore 0)) (newItem "i1")
        = (.store (.ok answer), catalogDisk (deepStore 1))) ∧
      (∃ answer, (Platform.file catalogFile).perform (catalogDisk (deepStore 1)) deepVersion
        = (.store (.ok answer), catalogDisk (deepStore 2))) ∧
      ∃ answer, (Platform.file catalogFile).perform (catalogDisk (deepStore 2)) deepPublication
        = (.store (.ok answer), catalogDisk (deepStore 3)) := by
  refine ⟨?_, ?_, ?_⟩
  · exact ⟨_, Platform.perform_file_ok
      (Store.createItem "i1" Store.noon ⟨"alice", "acme"⟩ Item.blank) .item
      (load_deepStore (by decide +kernel)) rfl rfl (save_catalogDisk _ _)⟩
  · exact ⟨_, Platform.perform_file_ok
      (Store.createVersion "v1" Store.noon ⟨"alice", "acme"⟩ "i1" deepDraft) .version
      (load_deepStore (by decide +kernel)) rfl rfl (save_catalogDisk _ _)⟩
  · exact ⟨_, Platform.perform_file_ok
      (Store.publish "r1" Store.noon ⟨"alice", "acme"⟩ "i1" "v1" "") (fun () => .done)
      (load_deepStore (by decide +kernel)) rfl rfl (save_catalogDisk _ _)⟩

/-- While there is only the item, the file can be loaded. A version is made and published, all replies are
successes, and no calls after that get the store back. -/
theorem legible_until_deepPublication :
    let file := Platform.file catalogFile
    let last := file.after (catalogDisk .empty) deepHistory
    ((∃ t, File.load catalogFile (file.after (catalogDisk .empty) [newItem "i1"]) = .ok t) ∧
        ∀ r ∈ file.replies (catalogDisk .empty) deepHistory, ∃ answer, r = .store (.ok answer)) ∧
      ∀ more : List (Event Operation), (∀ e ∈ more, e.request ≠ .checkHealth) →
        (∀ e ∈ more, e.request.properties.All Json.IsValue) →
          File.Illegible catalogFile (file.after last more) := by
  intro file last
  obtain ⟨⟨answer₁, hitem⟩, ⟨answer₂, hversion⟩, ⟨answer₃, hpublication⟩⟩ := deepHistory_saved
  have hload : File.load catalogFile (catalogDisk .empty) = .ok .empty :=
    load_deepStore (n := 0) (by decide +kernel)
  have hreplies : file.replies (catalogDisk .empty) deepHistory
      = [.store (.ok answer₁), .store (.ok answer₂), .store (.ok answer₃)] := by
    change file.replies (catalogDisk (deepStore 0)) deepHistory = _
    simp only [file, deepHistory, Platform.replies, hitem, hversion, hpublication]
  have hlast : last = catalogDisk (deepStore 3) := by
    change file.after (catalogDisk (deepStore 0)) deepHistory = _
    simp only [file, deepHistory, Platform.after, List.foldl_cons, List.foldl_nil, hitem, hversion,
      hpublication]
  have hdisk : ∀ r ∈ file.replies (catalogDisk .empty) deepHistory, ¬ r.FailsOnDisk := by
    rw [hreplies]
    simp [Reply.FailsOnDisk]
  have hcalls : ∀ e ∈ deepHistory, e.request ≠ .checkHealth := by
    simp [deepHistory, newItem, deepVersion, deepPublication]
  have hdeep : Json.maxDepth < (deepStore 3).toJson.depth := by decide +kernel
  have hholds : File.Holds catalogFile (catalogDisk (deepStore 3)) (deepStore 3) :=
    ⟨rfl, Platform.fits_after isValue_deepHistory Store.fits_empty⟩
  refine ⟨⟨?_, ?_⟩, ?_⟩
  · have hfirst : ∀ e ∈ [newItem "i1"], e ∈ deepHistory := by simp [deepHistory]
    have hdiskFirst : ∀ r ∈ file.replies (catalogDisk .empty) [newItem "i1"], ¬ r.FailsOnDisk := by
      change ∀ r ∈ [(file.perform (catalogDisk (deepStore 0)) (newItem "i1")).1], ¬ r.FailsOnDisk
      simp [file, hitem, Reply.FailsOnDisk]
    have hlegible := legible_unless_too_deep hload (fun e he => hcalls e (hfirst e he))
      (fun e he => isValue_deepHistory e (hfirst e he)) hdiskFirst
    refine (hlegible.1 ?_ ?_).1
    · intro e he
      obtain rfl := List.mem_singleton.1 he
      exact Keyed.All.empty
    · intro tenant item user version c hc
      cases hc
  · rw [hreplies]
    simp
  · have hspoilt := legible_unless_too_deep hload hcalls isValue_deepHistory hdisk
    rcases hspoilt.2 with ⟨⟨t, ht⟩, -⟩ | ⟨-, hillegible⟩
    · change File.load catalogFile last = .ok t at ht
      rw [hlast, hholds.load_deep hdeep] at ht
      cases ht
    · exact hillegible

end VersionCatalog
