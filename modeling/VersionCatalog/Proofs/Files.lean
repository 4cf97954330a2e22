import VersionCatalog.Backend.File
import VersionCatalog.Proofs.Disks
import VersionCatalog.Proofs.Rounded

/-!
# The file against the memory

The file backend reads the store from its file before every call, and writes it back after a change that
succeeds. The memory backend keeps its store, with what failing calls left in it. As long as all values are
steady and the file has the text of a store that is alike to the one in memory, the two backends agree on
every call.

The comparison ends where the disk fails, and where a document is written that is too deep to be read
again: from then on the file backend fails in every call.

## Main results

* `File.read_save`: the file has the text of the store that was saved into it.
* `File.backend_agree`: the file backend and the memory backend agree.
* `File.Holds.checkHealth`: a check of the health leaves the store alone.
-/

namespace VersionCatalog.File

open Json (maxDepth)

variable {α : Type} {f : FileSettings} {d d' : Disk} {m s : Store}

/-! ### Loading and saving -/

/-- The file holds a store, whose properties have values that a document can keep. -/
structure Holds (f : FileSettings) (d : Disk) (s : Store) : Prop where
  text : d.read f.storePath = .ok s.toText
  fits : s.Fits

/-- What the file holds is loaded with its numbers rounded. -/
theorem Holds.load (h : Holds f d s) (hdepth : s.toJson.depth ≤ maxDepth) :
    load f d = .ok s.rounded := by
  rw [File.load, h.text]
  simp only [Store.parse?_toText h.fits, upTo_of_le hdepth]

/-- A document that is too deep is not read again. -/
theorem Holds.load_deep (h : Holds f d s) (hdepth : maxDepth < s.toJson.depth) :
    File.load f d = .error .unreadable := by
  rw [File.load, h.text]
  simp only [Store.parse?_toText h.fits, upTo_of_lt hdepth]

/-- A call that has the lock reads what is loaded. -/
theorem reading_of_load (h : load f d = .ok s) (g : Store → α) : reading f false g d = .ok (g s) d := by
  have hload : loadLocked f false d = .ok s := h
  simp only [reading, hload]

/-- A change of the store that is loaded. -/
theorem changing_of_load (h : load f d = .ok s) (change : Change α) :
    changing f false change d =
      match change s with
      | .error e _ => .error e d
      | .ok a s' =>
        match save f s' d with
        | .ok () d' => .ok a d'
        | .error e d' => .error e d' := by
  have hload : loadLocked f false d = .ok s := h
  cases hchange : change s with
  | error e s' => simp only [changing, hload, hchange]
  | ok a s' => cases hsave : save f s' d <;> simp only [changing, hload, hchange, hsave]

/-- Where nothing is loaded every call fails. -/
theorem reading_of_load_error {e : StoreError} (h : load f d = .error e) (g : Store → α) :
    reading f false g d = .error e d := by
  have hload : loadLocked f false d = .error e := h
  simp only [reading, hload]

theorem changing_of_load_error {e : StoreError} (h : load f d = .error e) (change : Change α) :
    changing f false change d = .error e d := by
  have hload : loadLocked f false d = .error e := h
  simp only [changing, hload]

/-- A call that changes the store and succeeds has changed the store that is loaded, and saved it. -/
theorem changing_eq_ok {change : Change α} {a : α} (hload : load f d = .ok s)
    (h : changing f false change d = .ok a d') :
    ∃ s', change s = .ok a s' ∧ save f s' d = .ok () d' := by
  rw [changing_of_load hload] at h
  cases hresult : change s with
  | error e s' => simp [hresult] at h
  | ok b s' =>
      simp only [hresult] at h
      cases hsave : save f s' d with
      | error e d₁ => simp [hsave] at h
      | ok u d₁ =>
          simp only [hsave] at h
          cases h
          exact ⟨s', rfl, hsave⟩

/-- If it fails, the change has failed, or what it made was not saved. -/
theorem changing_eq_error {change : Change α} {e : StoreError} (hload : load f d = .ok s)
    (h : changing f false change d = .error e d') :
    (∃ s', change s = .error e s') ∨ ∃ a s', change s = .ok a s' ∧ save f s' d = .error e d' := by
  rw [changing_of_load hload] at h
  cases hresult : change s with
  | error e₁ s' =>
      simp only [hresult] at h
      cases h
      exact .inl ⟨s', rfl⟩
  | ok a s' =>
      simp only [hresult] at h
      cases hsave : save f s' d with
      | ok u d₁ => simp [hsave] at h
      | error e₁ d₁ =>
          simp only [hsave] at h
          cases h
          exact .inr ⟨a, s', rfl, hsave⟩

/-- What the file holds is not too deep if its text is that of a store that is not. -/
theorem Holds.depth_le {t : Store} (h : Holds f d s) (hdepth : s.toJson.depth ≤ maxDepth)
    (ht : Holds f d t) : t.toJson.depth ≤ maxDepth := by
  have htext : t.toText = s.toText := by
    have hsame := ht.text.symm.trans h.text
    injection hsame
  have hread := Store.parse?_toText ht.fits
  rw [htext, Store.parse?_toText h.fits, upTo_of_le hdepth] at hread
  by_cases hle : t.toJson.depth ≤ maxDepth
  · exact hle
  · rw [upTo_of_lt (by omega)] at hread
    cases hread

/-- **The file has the text of the store that was saved into it.** -/
theorem read_save (h : save f s d = .ok () d') :
    d'.read f.storePath = .ok s.toText ∧ d.SameFolders d' := by
  unfold save at h
  cases hwrite : d.write f.draftPath s.toText with
  | error e => simp [hwrite] at h
  | ok written =>
      simp only [hwrite] at h
      cases hrename : written.rename f.draftPath f.storePath with
      | error e => simp [hrename] at h
      | ok renamed =>
          simp only [hrename] at h
          cases h
          exact ⟨Disk.read_rename hrename (Disk.read_write hwrite),
            (Disk.sameFolders_write hwrite).trans (Disk.sameFolders_rename hrename)⟩

/-- Saving fails only where the disk does. -/
theorem save_error {e : StoreError} (h : save f s d = .error e d') : e.fault = .io := by
  unfold save at h
  cases hwrite : d.write f.draftPath s.toText with
  | error e =>
      simp only [hwrite] at h
      cases h
      rfl
  | ok written =>
      simp only [hwrite] at h
      cases hrename : written.rename f.draftPath f.storePath with
      | error e =>
          simp only [hrename] at h
          cases h
          rfl
      | ok renamed => simp [hrename] at h

/-! ### The comparison -/

/-- The file holds a store of steady values, which can be loaded as it is. -/
structure Keeps (f : FileSettings) (d : Disk) (s : Store) : Prop where
  text : d.read f.storePath = .ok s.toText
  steady : s.Within Json.IsSteady Json.IsSteady
  depth_le : s.toJson.depth ≤ maxDepth

theorem Keeps.holds (h : Keeps f d s) : Holds f d s :=
  ⟨h.text, Store.within_isValue.1 (h.steady.mono (fun _ hv => hv.toIsValue) fun _ hv => hv.toIsValue)⟩

theorem Keeps.load (h : Keeps f d s) : load f d = .ok s := by
  rw [h.holds.load h.depth_le, h.steady.rounded_eq_self]

/-- What is saved is kept, unless it is too deep. -/
theorem keeps_or_deep (h : d.read f.storePath = .ok s.toText)
    (hs : s.Within Json.IsSteady Json.IsSteady) :
    Keeps f d s ∨ Holds f d s ∧ maxDepth < s.toJson.depth := by
  by_cases hdepth : s.toJson.depth ≤ maxDepth
  · exact .inl ⟨h, hs, hdepth⟩
  · have hfits := Store.within_isValue.1
      (hs.mono (fun _ hv => hv.toIsValue) fun _ hv => hv.toIsValue)
    exact .inr ⟨⟨h, hfits⟩, by omega⟩

/-- A store in memory and a file correspond if the file keeps an alike store. The folders are those of the
disk `d₀`. -/
def comparison (f : FileSettings) (d₀ : Disk) : Comparison Store Disk where
  related m d := d₀.SameFolders d ∧ ∃ s, Keeps f d s ∧ m.Alike s
  lost d := d₀.SameFolders d ∧ ∃ s, Holds f d s ∧ maxDepth < s.toJson.depth
  excused e := e.fault = .io
  fair _ := True
  itemValue := Json.IsSteady
  versionValue := Json.IsSteady

section

variable {d₀ : Disk} {good : α → Prop}

theorem load_of_lost (hd : (comparison f d₀).lost d) : load f d = .error .unreadable := by
  obtain ⟨-, s, hs, hdeep⟩ := hd
  exact hs.load_deep hdeep

/-- Readings that alike stores agree on. -/
theorem reading_agrees {g : Store → α} (hg : ∀ {m s : Store}, m.Alike s → g m = g s)
    (hgood : ∀ {s : Store}, s.Within Json.IsSteady Json.IsSteady → good (g s)) :
    (comparison f d₀).Agrees good (Memory.reading g) (reading f false g) where
  good_of_ok {d d' a} hd h := by
    rcases hd with hlost | ⟨m, -, s, hs, -⟩
    · rw [reading_of_load_error (load_of_lost hlost)] at h
      cases h
    · rw [reading_of_load hs.load] at h
      cases h
      exact hgood hs.steady
  fair_of_error _ _ := .inr trivial
  lost_of_lost {d} hd := by
    rw [reading_of_load_error (load_of_lost hd)]
    exact hd
  of_related {m d} hd := by
    obtain ⟨-, s, hs, halike⟩ := id hd
    rw [reading_of_load hs.load]
    exact .inr (.inr ⟨congrArg Except.ok (hg halike), hd⟩)

/-- Changes that cannot tell alike stores apart. -/
theorem changing_agrees {change : Change α} (hchange : Discreet Store.Alike change)
    (hwithin : ∀ {s : Store}, s.Within Json.IsSteady Json.IsSteady →
      (stateOf (change s)).Within Json.IsSteady Json.IsSteady)
    (hgood : ∀ {s s' : Store} {a : α}, change s = .ok a s' → good a) :
    (comparison f d₀).Agrees good change (changing f false change) where
  good_of_ok {d d' a} hd h := by
    rcases hd with hlost | ⟨m, -, s, hs, -⟩
    · rw [changing_of_load_error (load_of_lost hlost)] at h
      cases h
    · obtain ⟨s', hok, -⟩ := changing_eq_ok hs.load h
      exact hgood hok
  fair_of_error _ _ := .inr trivial
  lost_of_lost {d} hd := by
    rw [changing_of_load_error (load_of_lost hd)]
    exact hd
  of_related {m d} hd := by
    obtain ⟨hsame, s, hs, halike⟩ := hd
    obtain ⟨hanswer, hstate⟩ := hchange.same halike
    have hs' := hwithin hs.steady
    rw [changing_of_load hs.load]
    cases hresult : change s with
    | error e s' =>
        -- the memory keeps what the call did, which is nothing but empty tables
        rw [hresult] at hanswer hstate
        refine .inr (.inr ⟨hanswer, hsame, s, hs, ?_⟩)
        exact hstate.trans (hchange.failed hresult).1.symm
    | ok a s' =>
        rw [hresult] at hanswer hstate hs'
        dsimp only
        cases hsave : save f s' d with
        | error e d₁ => exact .inr (.inl ⟨e, d₁, rfl, save_error hsave⟩)
        | ok u d₁ =>
            obtain ⟨hread, hsame'⟩ := read_save hsave
            rcases keeps_or_deep hread hs' with hkeeps | hdeep
            · exact .inr (.inr ⟨hanswer, hsame.trans hsame', s', hkeeps, hstate⟩)
            · exact .inl ⟨hsame.trans hsame', s', hdeep⟩

end

/-- What a call of the store keeps, the change that it makes keeps. -/
theorem within_of_request {p q : Json → Prop} {fresh : Fresh} {session : Session} {r : StoreRequest}
    {change : Change α} {answer : α → Answer} (hr : r.Brings p q)
    (hrun : r.run (Memory.backend fresh) session = answer <$> change) (hs : s.Within p q) :
    (stateOf (change s)).Within p q := by
  have hnext := hs.next (e := ⟨fresh, session, r⟩) hr
  rwa [Store.next, Store.result, hrun, stateOf_map] at hnext

/-- **The file backend agrees with the memory backend** on every call. -/
theorem backend_agree (f : FileSettings) (d₀ : Disk) (fresh : Fresh) :
    (Memory.backend fresh).Agree (comparison f d₀) (backend f false fresh) :=
  Keeper.agree fresh (fun hg hgood => reading_agrees hg fun hs => hgood hs.shows)
    fun _ _ _ hr hrun hdiscreet hgood =>
      changing_agrees hdiscreet (fun hs => within_of_request hr hrun hs) hgood

/-! ### Checks of the health -/

/-- The store is not kept in the file that a check of the health writes and removes. -/
def Apart (f : FileSettings) (d : Disk) : Prop :=
  d.locate f.probePath ≠ d.locate f.storePath

/-- A store's file stays apart while the folders stay. -/
theorem Apart.of_sameFolders (h : Apart f d) (hsame : d.SameFolders d') (hs : Holds f d' s) :
    Apart f d' := by
  obtain ⟨folder, name, hplace, -, -⟩ := Disk.read_eq_ok.1 hs.text
  intro heq
  refine h ?_
  rw [Disk.locate_of_sameFolders hsame.symm hplace,
    Disk.locate_of_sameFolders hsame.symm (heq.trans hplace)]

theorem Holds.write_of_ne {path text : String} (hs : Holds f d s)
    (hne : d.locate path ≠ d.locate f.storePath) (h : d.write path text = .ok d') : Holds f d' s :=
  ⟨Disk.read_write_of_ne h hne hs.text, hs.fits⟩

theorem Holds.remove_of_ne {path : String} (hs : Holds f d s)
    (hne : d.locate path ≠ d.locate f.storePath) (h : d.remove path = .ok d') : Holds f d' s :=
  ⟨Disk.read_remove_of_ne h hne hs.text, hs.fits⟩

/-- The disk after a check of the health: the probe is written and removed, as far as this can be done. -/
def probed (f : FileSettings) (d : Disk) : Disk :=
  let written := match d.write f.probePath "health_check" with
    | .ok d => d
    | .error _ => d
  match written.remove f.probePath with
  | .ok d => d
  | .error _ => written

theorem checkHealth_eq (f : FileSettings) (latency : Nat) (d : Disk) :
    checkHealth f false latency d =
      (.ofErrors "file" latency
        ((match d.write f.probePath "health_check" with
          | .ok _ => []
          | .error e => [e.message]) ++
        (match loadLocked f false (probed f d) with
          | .ok _ => []
          | .error e => [e.message])), probed f d) := by
  rw [checkHealth, probed]
  cases d.write f.probePath "health_check" <;> rfl

/-- **A check of the health leaves the store alone**, if it is kept in another file. -/
theorem Holds.probed (hs : Holds f d s) (h : Apart f d) :
    Holds f (probed f d) s ∧ d.SameFolders (probed f d) := by
  have hremove : ∀ {d₁ : Disk}, Holds f d₁ s → d.SameFolders d₁ →
      Holds f (match d₁.remove f.probePath with
        | .ok d => d
        | .error _ => d₁) s ∧ d.SameFolders (match d₁.remove f.probePath with
        | .ok d => d
        | .error _ => d₁) := by
    intro d₁ hs₁ hsame
    cases hremove : d₁.remove f.probePath with
    | error e => exact ⟨hs₁, hsame⟩
    | ok d₂ =>
        exact ⟨hs₁.remove_of_ne (h.of_sameFolders hsame hs₁) hremove,
          hsame.trans (Disk.sameFolders_remove hremove)⟩
  rw [File.probed]
  cases hwrite : d.write f.probePath "health_check" with
  | error e => exact hremove hs (.refl d)
  | ok d₁ => exact hremove (hs.write_of_ne h hwrite) (Disk.sameFolders_write hwrite)

/-- Where the probe can be written, a file whose store can be read is reported healthy. -/
theorem Holds.checkHealth (hs : Holds f d s) (h : Apart f d) (hdepth : s.toJson.depth ≤ maxDepth)
    (latency : Nat) :
    (checkHealth f false latency d).1 = .ofErrors "file" latency [] ∨
      ∃ e : DiskError,
        (File.checkHealth f false latency d).1 = .ofErrors "file" latency [e.message] := by
  have hload : loadLocked f false (File.probed f d) = .ok s.rounded := (hs.probed h).1.load hdepth
  rw [checkHealth_eq, hload]
  cases d.write f.probePath "health_check" with
  | ok d₁ => exact .inl rfl
  | error e => exact .inr ⟨e, rfl⟩

end VersionCatalog.File
