import VersionCatalog.Config.Storage
import VersionCatalog.Proofs.Backends
import VersionCatalog.Proofs.Ways

/-!
# Checks of the health

A check of the health writes a file `.health_check` into the store's folder and removes it. If there is such a
file already, it is gone afterwards; the disk is otherwise what it was (`File.probed_cases`). The store does
not see it, unless its path leads to that file or through it (`File.Endangered`): then the file is missing, and
with it the store.

A store's name is only asked not to be blank, so a store may well be kept in the file that a check removes. Among
the names without a slash this is the only one.

Two disks that differ in the probe's file alone are told apart by no call (`File.Unseen`): no call makes folders,
the draft of a document has another name, and a later check removes the difference.

## Main results

* `File.Unseen.of_probed`: a check of the health is not seen, unless the store is endangered.
* `Platform.perform_unseen`: what is done on two disks that differ in nothing that is seen.
* `File.health_check_unseen_unless_endangered`: what a check of the health leaves, in every case.
-/

namespace VersionCatalog

namespace FileSettings

variable (f : FileSettings)

theorem names_probePath : Path.names f.probePath = Path.names f.folder ++ [".health_check"] :=
  Path.names_join (by decide)

theorem way_probePath : Path.way f.probePath = Path.names f.folder := by
  rw [Path.way, names_probePath, List.getLast?_concat, if_neg (by decide), List.dropLast_concat]

theorem namesFolder_probePath : Path.namesFolder f.probePath = false :=
  Path.namesFolder_join (by decide) (by decide) (by decide)

/-- A draft's name ends as no other name does that is looked at. -/
theorem draftName_ne (stem : String) {other : String} (h : other.toList.getLast? ≠ some 'p') :
    stem ++ "." ++ "json.tmp" ≠ other := by
  rintro rfl
  simp at h

/-- The draft is looked for beside the store. -/
theorem way_draftPath : Path.way f.draftPath = Path.way f.storePath :=
  Path.way_withExtension _ (by decide) (by decide) fun stem => draftName_ne stem (by decide)

/-- The draft is not the probe, unless it is the store itself. -/
theorem draftPath_cases {folder : List String} {name : String}
    (h : Path.names f.draftPath = folder ++ [name]) :
    f.draftPath = f.storePath ∨ name ≠ ".health_check" := by
  refine (Path.withExtension_cases f.storePath (by decide) (by decide)).imp_right ?_
  rintro ⟨front, last, stem, -, -, hdraft⟩
  obtain ⟨-, hname⟩ := List.append_inj' (h.symm.trans hdraft) rfl
  rw [List.singleton_inj.1 hname]
  exact draftName_ne stem (by decide)

end FileSettings

namespace File

variable {α : Type} {f : FileSettings} {d d' : Disk} {folder place : List String} {name : String}
  {differ : List String → Prop}

/-! ### What a check does to the disk -/

/-- The place where the probe is written. -/
def ProbedAt (f : FileSettings) (d : Disk) (place : List String) : Prop :=
  ∃ folder, d.locate f.probePath = .ok (.named folder ".health_check") ∧
    place = folder ++ [".health_check"]

theorem name_of_locate_probe (h : d.locate f.probePath = .ok (.named folder name)) :
    name = ".health_check" := by
  have hnames := (Disk.locate_eq_named h).2
  rw [f.names_probePath, f.way_probePath] at hnames
  exact (List.singleton_inj.1 (List.append_inj' hnames rfl).2).symm

theorem ProbedAt.of_sameFolders (h : ProbedAt f d place) (hsame : d.SameFolders d') :
    ProbedAt f d' place := by
  obtain ⟨folder, hlocate, hplace⟩ := h
  exact ⟨folder, Disk.locate_of_sameFolders hsame hlocate, hplace⟩

/-- The folder of the probe can be entered. -/
theorem ProbedAt.exists_enter (h : ProbedAt f d place) :
    ∃ folder, d.enter [] (Path.names f.folder) = .ok folder ∧ place = folder ++ [".health_check"] := by
  obtain ⟨folder, hlocate, hplace⟩ := h
  have henter := (Disk.locate_eq_named hlocate).1
  rw [f.way_probePath] at henter
  exact ⟨folder, henter, hplace⟩

/-- **A check of the health leaves the disk as it was, or without the probe.** -/
theorem probed_cases (f : FileSettings) (d : Disk) :
    probed f d = d ∧ (∀ place, ProbedAt f d place → d.node? place = some .folder) ∨
      ∃ folder, d.locate f.probePath = .ok (.named folder ".health_check") ∧
        d.node? (folder ++ [".health_check"]) ≠ some .folder ∧
        probed f d = (d.put (folder ++ [".health_check"]) (.file "health_check")).drop
          (folder ++ [".health_check"]) := by
  have hnames := f.namesFolder_probePath
  rw [probed]
  cases hwrite : d.write f.probePath "health_check" with
  | ok written =>
      have hsame := Disk.sameFolders_write hwrite
      obtain ⟨folder, name, hlocate, -, hnode, rfl⟩ := Disk.write_eq_ok hwrite
      obtain rfl := name_of_locate_probe hlocate
      have hremove : (d.put (folder ++ [".health_check"]) (.file "health_check")).remove f.probePath
          = .ok ((d.put (folder ++ [".health_check"]) (.file "health_check")).drop
            (folder ++ [".health_check"])) := by
        simp only [Disk.remove, Disk.locate_of_sameFolders hsame hlocate, Disk.node?_put, if_true,
          hnames, Bool.false_eq_true, if_false, bind, Except.bind]
      exact .inr ⟨folder, hlocate, hnode, by simp only [hremove]⟩
  | error e =>
      -- where the probe could be removed it could be written
      have hfolder : ∀ place, ProbedAt f d place → d.node? place = some .folder := by
        rintro place ⟨folder, hlocate, rfl⟩
        by_cases hnode : d.node? (folder ++ [".health_check"]) = some .folder
        · exact hnode
        · simp only [Disk.write, hlocate, hnames, Bool.false_eq_true, if_false, hnode, bind,
            Except.bind] at hwrite
          cases hwrite
      refine .inl ⟨?_, hfolder⟩
      cases hremove : d.remove f.probePath with
      | error e => rfl
      | ok removed =>
          obtain ⟨folder, name, text, hlocate, hnode, -⟩ := Disk.remove_eq_ok hremove
          obtain rfl := name_of_locate_probe hlocate
          rw [hfolder _ ⟨folder, hlocate, rfl⟩] at hnode
          cases hnode

/-- After a check there is no file where the probe was written. -/
theorem node?_probed_self (h : ProbedAt f d place) (hnode : d.node? place ≠ some .folder) :
    (probed f d).node? place = none := by
  obtain ⟨folder, hlocate, rfl⟩ := h
  rcases probed_cases f d with ⟨-, hfolder⟩ | ⟨folder', hlocate', -, hprobed⟩
  · exact absurd (hfolder _ ⟨folder, hlocate, rfl⟩) hnode
  · rw [hlocate] at hlocate'
    cases hlocate'
    rw [hprobed, Disk.node?_drop, if_pos rfl]

/-- Everything else stays in its place. -/
theorem node?_probed_of_not (h : ProbedAt f d place → d.node? place = some .folder) :
    (probed f d).node? place = d.node? place := by
  rcases probed_cases f d with ⟨hprobed, -⟩ | ⟨folder, hlocate, hnode, hprobed⟩
  · rw [hprobed]
  · have hne : place ≠ folder ++ [".health_check"] := by
      rintro rfl
      exact hnode (h ⟨folder, hlocate, rfl⟩)
    rw [hprobed, Disk.node?_drop, if_neg hne, Disk.node?_put, if_neg hne]

/-! ### Disks that no call tells apart -/

/-- Two disks that differ at most in a probe, which the path of the store neither leads to nor passes. -/
structure Unseen (f : FileSettings) (differ : List String → Prop) (d d' : Disk) : Prop where
  same : d.SameOutside differ d'
  probe : ∀ place, differ place → ProbedAt f d place
  /-- A path with a zero byte is not followed. -/
  way : '\x00' ∈ f.storePath.toList ∨
    d.enter [] (Path.way f.storePath) = d'.enter [] (Path.way f.storePath)
  apart : ∀ folder name, d.locate f.storePath = .ok (.named folder name) → ¬ differ (folder ++ [name])

namespace Unseen

theorem locate_store (h : Unseen f differ d d') : d.locate f.storePath = d'.locate f.storePath := by
  rcases h.way with hzero | hway
  · rw [Disk.locate_of_zeroByte hzero, Disk.locate_of_zeroByte hzero]
  · exact Disk.locate_congr hway

theorem locate_draft (h : Unseen f differ d d') (hzero : '\x00' ∉ f.storePath.toList) :
    d.locate f.draftPath = d'.locate f.draftPath := by
  refine Disk.locate_congr ?_
  rw [f.way_draftPath]
  exact h.way.resolve_left hzero

theorem draft_apart (h : Unseen f differ d d') (folder : List String) (name : String)
    (hlocate : d.locate f.draftPath = .ok (.named folder name)) : ¬ differ (folder ++ [name]) := by
  intro hdiffer
  obtain ⟨folder', -, hplace⟩ := h.probe _ hdiffer
  have hname : name = ".health_check" := List.singleton_inj.1 (List.append_inj' hplace rfl).2
  rcases f.draftPath_cases (Disk.locate_eq_named hlocate).2 with hsame | hne
  · rw [hsame] at hlocate
    exact h.apart folder name hlocate hdiffer
  · exact hne hname

/-- The probe is looked for in the same place. -/
theorem locate_probe (h : Unseen f differ d d') : d.locate f.probePath = d'.locate f.probePath := by
  refine Disk.locate_congr ?_
  rcases h.same.enter_eq_or [] (Path.way f.probePath) with hsame | ⟨place, hplace, -⟩
  · exact hsame
  · obtain ⟨folder, hlocate, -⟩ := h.probe place hplace
    have henter := (Disk.locate_eq_named hlocate).1
    rw [henter, Disk.enter_of_sameFolders h.same.sameFolders henter]

/-- Disks with the same files and folders. -/
theorem of_node (h : ∀ place, d.node? place = d'.node? place) : Unseen f (fun _ => False) d d' := by
  have hsame : d.SameOutside (fun _ => False) d' :=
    ⟨fun place _ => h place, fun _ => False.elim, fun _ => False.elim⟩
  refine ⟨hsame, fun _ => False.elim, .inr ?_, fun _ _ _ => id⟩
  rcases hsame.enter_eq_or [] (Path.way f.storePath) with heq | ⟨place, hplace, -⟩
  · exact heq
  · exact hplace.elim

/-- What is not seen is not seen after files come and go alike, once the store's folder is there. -/
theorem step (h : Unseen f differ d d') {e e' : Disk} (hd : d.SameFolders e) (hd' : d'.SameFolders e')
    (hsame : e.SameOutside differ e') (henter : d.enter [] (Path.way f.storePath) = .ok folder) :
    Unseen f differ e e' where
  same := hsame
  probe place hplace := (h.probe place hplace).of_sameFolders hd
  way := by
    refine h.way.imp_right fun hway => ?_
    rw [Disk.enter_of_sameFolders hd henter, Disk.enter_of_sameFolders hd' (hway.symm.trans henter)]
  apart folder name hlocate := h.apart folder name (Disk.locate_of_sameFolders hd.symm hlocate)

theorem load_eq (h : Unseen f differ d d') : load f d = load f d' := by
  rw [load, load, h.same.read_eq h.locate_store h.apart]

/-! ### Calls of the store -/

/-- A document is put in place alike. -/
theorem rename (h : Unseen f differ d d') (hzero : '\x00' ∉ f.storePath.toList)
    (henter : d.enter [] (Path.way f.storePath) = .ok folder) :
    Disk.SameResult differ (d.rename f.draftPath f.storePath) (d'.rename f.draftPath f.storePath) := by
  rw [Disk.rename, Disk.rename, ← h.same.read_eq (h.locate_draft hzero) h.draft_apart,
    ← h.locate_store]
  cases d.read f.draftPath with
  | error e => exact .error e
  | ok text =>
      cases d.locate f.storePath with
      | error e => exact .error e
      | ok p =>
          cases p with
          | folder => exact .error _
          | named target name =>
              change Disk.SameResult differ (if _ then _ else if _ then _ else _)
                (if _ then _ else if _ then _ else _)
              split
              · exact .error _
              · by_cases hfolder : d.node? (target ++ [name]) = some .folder
                · rw [if_pos hfolder, if_pos ((h.same.sameFolders _).1 hfolder)]
                  exact .error _
                · rw [if_neg hfolder, if_neg (mt (h.same.sameFolders _).2 hfolder)]
                  have hremove := h.same.remove (h.locate_draft hzero) h.draft_apart
                  generalize hx : d.remove f.draftPath = x at hremove
                  generalize hy : d'.remove f.draftPath = y at hremove
                  cases hremove with
                  | error e => exact .error e
                  | ok hsame =>
                      have hrest := h.step (Disk.sameFolders_remove hx) (Disk.sameFolders_remove hy)
                        hsame henter
                      exact hrest.same.write hrest.locate_store text

theorem save (h : Unseen f differ d d') (hzero : '\x00' ∉ f.storePath.toList) (s : Store) :
    answerOf (save f s d) = answerOf (save f s d') ∧
      Unseen f differ (stateOf (save f s d)) (stateOf (save f s d')) := by
  unfold File.save
  have hwrite := h.same.write (h.locate_draft hzero) s.toText
  generalize hx : d.write f.draftPath s.toText = x at hwrite
  generalize hy : d'.write f.draftPath s.toText = y at hwrite
  cases hwrite with
  | error e => exact ⟨rfl, h⟩
  | ok hsame =>
      obtain ⟨target, name, hlocate, -⟩ := Disk.write_eq_ok hx
      have henter := (Disk.locate_eq_named hlocate).1
      rw [f.way_draftPath] at henter
      have hx := Disk.sameFolders_write hx
      have hwritten := h.step hx (Disk.sameFolders_write hy) hsame henter
      have henter := Disk.enter_of_sameFolders hx henter
      have hrename := hwritten.rename hzero henter
      dsimp only
      generalize hx : Disk.rename _ f.draftPath f.storePath = x at hrename
      generalize hy : Disk.rename _ f.draftPath f.storePath = y at hrename
      cases hrename with
      | error e => exact ⟨rfl, hwritten⟩
      | ok hsame =>
          exact ⟨rfl, hwritten.step (Disk.sameFolders_rename hx) (Disk.sameFolders_rename hy) hsame
            henter⟩

theorem reading (h : Unseen f differ d d') (g : Store → α) :
    answerOf (reading f false g d) = answerOf (File.reading f false g d') ∧
      Unseen f differ (stateOf (File.reading f false g d)) (stateOf (File.reading f false g d')) := by
  have hload : loadLocked f false d = loadLocked f false d' := h.load_eq
  unfold File.reading
  rw [hload]
  cases loadLocked f false d' with
  | error e => exact ⟨rfl, h⟩
  | ok s => exact ⟨rfl, h⟩

theorem changing (h : Unseen f differ d d') (change : Change α) :
    answerOf (changing f false change d) = answerOf (File.changing f false change d') ∧
      Unseen f differ (stateOf (File.changing f false change d))
        (stateOf (File.changing f false change d')) := by
  cases hload : load f d with
  | error e =>
      have hleft : loadLocked f false d = .error e := hload
      have hright : loadLocked f false d' = .error e := h.load_eq.symm.trans hload
      simp only [File.changing, hleft, hright]
      exact ⟨rfl, h⟩
  | ok s =>
      have hzero : '\x00' ∉ f.storePath.toList := by
        intro hmem
        rw [load, Disk.read, Disk.locate_of_zeroByte hmem] at hload
        cases hload
      rw [changing_of_load hload, changing_of_load (h.load_eq.symm.trans hload)]
      cases change s with
      | error e s' => exact ⟨rfl, h⟩
      | ok a s' =>
          obtain ⟨hanswer, hstate⟩ := h.save hzero s'
          dsimp only
          cases hleft : File.save f s' d <;> cases hright : File.save f s' d' <;>
            simp only [hleft, hright, answerOf_ok, answerOf_error, stateOf_ok, stateOf_error,
              reduceCtorEq, Except.error.injEq] at hanswer hstate ⊢
          · exact ⟨trivial, hstate⟩
          · exact ⟨hanswer, hstate⟩

end Unseen

/-- Two states of one disk, compared as long as the calls do not tell them apart. -/
def unseen (f : FileSettings) : Comparison Disk Disk where
  related d d' := ∃ differ, Unseen f differ d d'
  lost _ := False
  excused _ := False
  fair _ := True
  itemValue _ := True
  versionValue _ := True

/-- A reading that succeeds is one of some store, and a change that succeeds is. -/
theorem reading_reads {g : Store → α} {a : α} (h : reading f false g d = .ok a d') :
    ∃ s, a = g s := by
  cases hload : load f d with
  | error e =>
      rw [reading_of_load_error hload] at h
      cases h
  | ok s =>
      rw [reading_of_load hload] at h
      cases h
      exact ⟨s, rfl⟩

theorem changing_changes {change : Change α} {a : α} (h : changing f false change d = .ok a d') :
    ∃ s s', change s = .ok a s' := by
  cases hload : load f d with
  | error e =>
      rw [changing_of_load_error hload] at h
      cases h
  | ok s =>
      obtain ⟨s', hchange, -⟩ := changing_eq_ok hload h
      exact ⟨s, s', hchange⟩

theorem unseen_agrees {x : EStateM StoreError Disk α} {good : α → Prop}
    (hgood : ∀ {d d' : Disk} {a : α}, x d = .ok a d' → good a)
    (h : ∀ {differ : List String → Prop} {d d' : Disk}, Unseen f differ d d' →
      answerOf (x d) = answerOf (x d') ∧ Unseen f differ (stateOf (x d)) (stateOf (x d'))) :
    (unseen f).Agrees good x x where
  good_of_ok _ := hgood
  fair_of_error _ _ := .inr trivial
  lost_of_lost := id
  of_related := by
    rintro d d' ⟨differ, hd⟩
    obtain ⟨hanswer, hstate⟩ := h hd
    exact .inr (.inr ⟨hanswer, differ, hstate⟩)

/-- **No call of the file backend tells them apart.** -/
theorem backend_unseen (f : FileSettings) (fresh : Fresh) :
    (backend f false fresh).Agree (unseen f) (backend f false fresh) := by
  have all : ∀ t : Keyed Json, t.All fun _ => True := fun _ _ _ _ => trivial
  have hshows : ∀ s : Store, s.Shows (unseen f).itemValue (unseen f).versionValue :=
    fun _ => ⟨fun _ => all _, fun _ => all _⟩
  apply Keeper.agree fresh
  case hreading =>
    intro α g good _ hgood
    refine unseen_agrees (fun {d d' a} hok => ?_) fun h => h.reading g
    obtain ⟨s, rfl⟩ := reading_reads hok
    exact hgood (hshows s)
  case hchanging =>
    intro α change good _ _ _ _ _ _ hgood
    refine unseen_agrees (fun {d d' a} hok => ?_) fun h => h.changing change
    obtain ⟨s, s', hchange⟩ := changing_changes hok
    exact hgood hchange

/-- A check of the health on both removes the difference. -/
theorem Unseen.checkHealth (h : Unseen f differ d d') (latency : Nat) :
    (checkHealth f false latency d).1 = (File.checkHealth f false latency d').1 ∧
      Unseen f (fun _ => False) (probed f d) (probed f d') := by
  have hnode : ∀ place, (probed f d).node? place = (probed f d').node? place := by
    intro place
    by_cases hprobe : ProbedAt f d place ∧ d.node? place ≠ some .folder
    · rw [node?_probed_self hprobe.1 hprobe.2,
        node?_probed_self (hprobe.1.of_sameFolders h.same.sameFolders)
          (mt (h.same.sameFolders place).2 hprobe.2)]
    · have hfolder : ProbedAt f d place → d.node? place = some .folder :=
        fun hat => Classical.byContradiction fun hne => hprobe ⟨hat, hne⟩
      have hsame : ¬ differ place := fun hdiffer =>
        hprobe ⟨h.probe place hdiffer, h.same.left place hdiffer⟩
      rw [node?_probed_of_not hfolder, h.same.node place hsame, node?_probed_of_not]
      intro hat
      rw [← h.same.node place hsame]
      exact hfolder (hat.of_sameFolders h.same.sameFolders.symm)
  have hafter : Unseen f (fun _ => False) (probed f d) (probed f d') := .of_node hnode
  have hload : loadLocked f false (probed f d) = loadLocked f false (probed f d') := hafter.load_eq
  refine ⟨?_, hafter⟩
  rw [checkHealth_eq, checkHealth_eq, hload]
  have hwrite := h.same.write h.locate_probe "health_check"
  generalize d.write f.probePath "health_check" = x at hwrite
  generalize d'.write f.probePath "health_check" = y at hwrite
  cases hwrite <;> rfl

end File

/-! ### Histories -/

namespace Platform

variable {f : FileSettings} {d d' : Disk}

/-- **What an operation does on two disks that differ in nothing that is seen.** -/
theorem perform_unseen (h : (File.unseen f).related d d') (e : Event Operation) :
    ((file f).perform d e).1 = ((file f).perform d' e).1 ∧
      (File.unseen f).related ((file f).perform d e).2 ((file f).perform d' e).2 := by
  have hbrings : e.request.Brings (File.unseen f).itemValue (File.unseen f).versionValue :=
    Operation.brings_iff.2 fun _ _ _ => trivial
  rcases e.request.isCall_or with hcall | ⟨item, version, hdelete⟩ | hcheck
  · rcases call_agree (p := file f) (q := file f) (File.backend_unseen f) h hbrings hcall with
      hlost | hpasses | hsame
    · exact hlost.elim
    · exact absurd hpasses (Reply.not_passes fun _ => id)
    · exact hsame
  · obtain ⟨fresh, session, request⟩ := e
    obtain rfl : request = .store (.deleteVersion item version) := hdelete
    exact ⟨rfl, h⟩
  · obtain ⟨fresh, session, request⟩ := e
    obtain rfl : request = .checkHealth := hcheck
    obtain ⟨differ, hd⟩ := h
    obtain ⟨hreport, hafter⟩ := hd.checkHealth fresh.clock.latency
    refine ⟨congrArg Reply.health hreport, fun _ => False, ?_⟩
    rw [perform_file_checkHealth, perform_file_checkHealth]
    exact hafter

theorem replies_unseen (h : (File.unseen f).related d d') (history : List (Event Operation)) :
    (file f).replies d history = (file f).replies d' history := by
  induction history generalizing d d' with
  | nil => rfl
  | cons e history ih =>
      obtain ⟨hreply, hrest⟩ := perform_unseen h e
      rw [replies, replies, hreply, ih hrest]

end Platform

namespace File

variable {f : FileSettings} {d : Disk}

/-! ### What a check leaves -/

/-- A file stands where the probe is written, and the path of the store leads to it or through it. -/
def Endangered (f : FileSettings) (d : Disk) : Prop :=
  '\x00' ∉ f.storePath.toList ∧ ∃ place text, ProbedAt f d place ∧
    d.node? place = some (.file text) ∧ d.Passes [] (Path.names f.storePath) place

/-- **A check of the health is not seen**, unless the store is endangered. -/
theorem Unseen.of_probed (h : ¬ Endangered f d) :
    Unseen f (fun place => ProbedAt f d place ∧ ∃ text, d.node? place = some (.file text)) d
      (probed f d) := by
  have hsame : d.SameOutside
      (fun place => ProbedAt f d place ∧ ∃ text, d.node? place = some (.file text)) (probed f d) := by
    constructor
    case node =>
      intro place hplace
      by_cases hprobe : ProbedAt f d place ∧ d.node? place ≠ some .folder
      · rw [node?_probed_self hprobe.1 hprobe.2]
        cases hnode : d.node? place with
        | none => rfl
        | some n =>
            cases n with
            | folder => exact absurd hnode hprobe.2
            | file text => exact absurd ⟨hprobe.1, text, hnode⟩ hplace
      · exact (node?_probed_of_not fun hat =>
          Classical.byContradiction fun hne => hprobe ⟨hat, hne⟩).symm
    case left =>
      rintro place ⟨-, text, hnode⟩ hfolder
      rw [hnode] at hfolder
      cases hfolder
    case right =>
      rintro place ⟨hat, text, hnode⟩
      rw [node?_probed_self hat (by simp [hnode])]
      simp
  refine ⟨hsame, fun place hplace => hplace.1, ?_, ?_⟩
  · by_cases hzero : '\x00' ∈ f.storePath.toList
    · exact .inl hzero
    · refine .inr ((hsame.enter_eq_or [] (Path.way f.storePath)).resolve_right ?_)
      rintro ⟨place, ⟨hat, text, hnode⟩, hpasses⟩
      refine h ⟨hzero, place, text, hat, hnode, ?_⟩
      rcases Path.way_append f.storePath with ⟨rest, hnames⟩
      rw [hnames]
      exact hpasses.append rest
  · rintro folder name hlocate ⟨hat, text, hnode⟩
    obtain ⟨henter, hnames⟩ := Disk.locate_eq_named hlocate
    refine h ⟨fun hzero => ?_, _, text, hat, hnode, ?_⟩
    · rw [Disk.locate_of_zeroByte hzero] at hlocate
      cases hlocate
    · exact ⟨_, name, [], folder, hnames, henter, rfl⟩

theorem sameFolders_probed (f : FileSettings) (d : Disk) : d.SameFolders (probed f d) := by
  intro place
  by_cases hprobe : ProbedAt f d place ∧ d.node? place ≠ some .folder
  · rw [node?_probed_self hprobe.1 hprobe.2]
    exact iff_of_false hprobe.2 (by simp)
  · rw [node?_probed_of_not fun hat => Classical.byContradiction fun hne => hprobe ⟨hat, hne⟩]

/-- A store that is endangered is missing after a check, and was not before it. -/
theorem Endangered.read (h : Endangered f d) : d.read f.storePath ≠ .error .missing ∧
    (probed f d).read f.storePath = .error .missing := by
  obtain ⟨hzero, place, text, hat, hnode, hpasses⟩ := h
  have hgone := node?_probed_self hat (by simp [hnode])
  obtain ⟨folder, -, rfl⟩ := hat
  exact ⟨hpasses.read_of_file hzero (by decide) (by decide) hnode,
    (hpasses.of_sameFolders (sameFolders_probed f d)).read_of_missing hzero (by decide) (by decide)
      hgone⟩

/-- Among the names without a slash only the probe's own endangers a store. -/
theorem Endangered.fileName_eq (h : Endangered f d) (hplain : '/' ∉ f.fileName.toList) :
    f.fileName = ".health_check" := by
  obtain ⟨-, place, text, hat, hnode, front, name, rest, target, hnames, hfront, hplace⟩ := h
  obtain ⟨folder, hfolder, rfl⟩ := hat.exists_enter
  obtain ⟨rfl, hname⟩ := List.append_inj' hplace rfl
  obtain rfl := List.singleton_inj.1 hname
  have hjoin : Path.names f.storePath = Path.names f.folder ++ Path.names f.fileName :=
    Path.names_join fun hhead => hplain (List.mem_of_head? hhead)
  rw [hjoin] at hnames
  rcases List.append_eq_append_iff.1 hnames with ⟨more, hfront', hlast⟩ | ⟨more, hnames', hrest⟩
  · -- the folder is behind, so the place is on the last name
    have hone := Path.names_plain hplain
    rw [hlast] at hone
    cases more with
    | nil => exact (List.cons.inj (hone.resolve_left (by simp))).1.symm
    | cons next more => exact absurd hone (by simp)
  · cases more with
    | nil =>
        have hone := Path.names_plain hplain
        rw [List.nil_append] at hrest
        rw [← hrest] at hone
        exact (List.cons.inj (hone.resolve_left (by simp))).1.symm
    | cons next more =>
        -- a place on the way to the folder is a folder, not a file
        obtain ⟨rfl, -⟩ := List.cons.inj hrest
        rw [hnames'] at hfolder
        rw [Disk.folder_of_enter (by decide) hfront hfolder] at hnode
        cases hnode

/-- A store that is kept under the probe's name is endangered. -/
theorem endangered_of_fileName (hname : f.fileName = ".health_check") {text : String}
    (hread : d.read f.storePath = .ok text) : Endangered f d := by
  have hpath : f.storePath = f.probePath := by
    rw [FileSettings.storePath, hname, FileSettings.probePath]
  obtain ⟨folder, name, hlocate, hnode, -⟩ := Disk.read_eq_ok.1 hread
  obtain ⟨henter, hnames⟩ := Disk.locate_eq_named hlocate
  have hzero : '\x00' ∉ f.storePath.toList := by
    intro hmem
    rw [Disk.locate_of_zeroByte hmem] at hlocate
    cases hlocate
  rw [hpath] at hlocate
  obtain rfl := name_of_locate_probe hlocate
  exact ⟨hzero, _, text, ⟨folder, hlocate, rfl⟩, hnode, ⟨_, _, [], folder, hnames, henter, rfl⟩⟩

theorem disk_checkHealth (f : FileSettings) (locked : Bool) (latency : Nat) (d : Disk) :
    (checkHealth f locked latency d).2 = probed f d := by
  rw [checkHealth, probed]
  cases d.write f.probePath "health_check" <;> rfl

/-- **A check of the health changes nothing that is seen, unless the store is endangered.** If it is not, the
file of the store reads as before, and every history of operations gets the replies that it would have got
without the check. If it is, the file is missing afterwards, and the store is empty. Of all names without a
slash only the probe's own endangers a store, and it endangers every one that is kept under it. -/
theorem health_check_unseen_unless_endangered (f : FileSettings) (locked : Bool) (latency : Nat)
    (d : Disk) :
    let checked := (checkHealth f locked latency d).2
    (¬ Endangered f d → checked.read f.storePath = d.read f.storePath ∧
      ∀ history, (Platform.file f).replies checked history = (Platform.file f).replies d history) ∧
    (Endangered f d → d.read f.storePath ≠ .error .missing ∧
      checked.read f.storePath = .error .missing ∧ load f checked = .ok .empty) ∧
    ('/' ∉ f.fileName.toList → Endangered f d → f.fileName = ".health_check") ∧
    (f.fileName = ".health_check" → ∀ text, d.read f.storePath = .ok text → Endangered f d) := by
  intro checked
  have hchecked : checked = probed f d := disk_checkHealth f locked latency d
  rw [hchecked]
  refine ⟨fun hsafe => ?_, fun hdanger => ?_, fun hplain hdanger => hdanger.fileName_eq hplain,
    fun hname text hread => endangered_of_fileName hname hread⟩
  · have hunseen := Unseen.of_probed hsafe
    exact ⟨(hunseen.same.read_eq hunseen.locate_store hunseen.apart).symm,
      fun history => (Platform.replies_unseen ⟨_, hunseen⟩ history).symm⟩
  · obtain ⟨hthere, hgone⟩ := hdanger.read
    refine ⟨hthere, hgone, ?_⟩
    rw [load, hgone]

/-- A store's file with the name of the probe. -/
def probeFile : FileSettings := { catalogFile with fileName := ".health_check" }

/-- A valid configuration keeps a store with an item in the file that a check removes, and after a check the store
is empty. A store in another file is not endangered, and a check is not seen in any history. -/
theorem store_lost_by_health_check :
    let s := Platform.memory.after .empty [newItem "i1"]
    let d : Disk := ⟨[(["store", ".health_check"], .file s.toText), (["store"], .folder)]⟩
    (⟨.file, .file probeFile⟩ : StorageConfig).validate = .ok () ∧
      load probeFile d = .ok s ∧ (s.item? "acme" "i1").isSome ∧
      load probeFile (checkHealth probeFile false 0 d).2 = .ok .empty ∧
      ∀ history, (Platform.file catalogFile).replies
          (checkHealth catalogFile false 0 (catalogDisk s)).2 history
        = (Platform.file catalogFile).replies (catalogDisk s) history := by
  intro s d
  have hvalues : ∀ e ∈ [newItem "i1"], e.request.properties.All Json.IsSteady := by
    intro e he
    rw [List.mem_singleton.1 he]
    exact .empty
  have hs : Keeps probeFile d s :=
    ⟨rfl, Platform.within_after hvalues Store.within_empty, by decide +kernel⟩
  obtain ⟨-, hlost, -, hprobe⟩ := health_check_unseen_unless_endangered probeFile false 0 d
  obtain ⟨hsafe, -, hplain, -⟩ :=
    health_check_unseen_unless_endangered catalogFile false 0 (catalogDisk s)
  refine ⟨rfl, hs.load, by decide +kernel, (hlost (hprobe rfl _ hs.text)).2.2, (hsafe fun h => ?_).2⟩
  exact absurd (hplain (by decide) h) (by decide)

end File

end VersionCatalog
