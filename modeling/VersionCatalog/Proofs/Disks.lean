import VersionCatalog.Disk.Basic
import VersionCatalog.Keyed

/-!
# Files on a disk

What is written into a file is read from it, and a file that is renamed is read under its new name. Files
come and go without changing where paths lead: this depends on the folders alone (`Disk.SameFolders`), so a
file that a call does not touch stays where it is.

## Main results

* `Disk.locate_of_sameFolders`: where a path ends depends on the folders only.
* `Disk.read_write`, `Disk.read_rename`: a file has the text that was put into it.
* `Disk.read_write_of_ne`, `Disk.read_remove_of_ne`: other files keep theirs.
-/

namespace VersionCatalog.Disk

variable {d d' d₁ : Disk} {path other text t : String}

/-! ### Nodes -/

theorem node?_put (d : Disk) (folder p : List String) (name : String) (n : Node) :
    (d.put (folder ++ [name]) n).node? p = if p = folder ++ [name] then some n else d.node? p := by
  cases p with
  | nil => simp [node?]
  | cons q p =>
      rw [node?, node?, put, List.lookup_cons, Keyed.lookup_filter_ne]
      · split
        · rename_i h
          rw [if_pos (beq_iff_eq.1 h)]
        · rename_i h
          rw [if_neg (beq_eq_false_iff_ne.1 h), if_neg (beq_eq_false_iff_ne.1 h)]
      · simp
      · simp

theorem node?_drop (d : Disk) (folder p : List String) (name : String) :
    (d.drop (folder ++ [name])).node? p
      = if p = folder ++ [name] then none else d.node? p := by
  cases p with
  | nil => simp [node?]
  | cons q p =>
      rw [node?, node?, drop, Keyed.lookup_filter_ne]
      · simp
      · simp

/-- A step that succeeds after another one found what that one answered. -/
theorem bind_eq_ok {α β : Type} {x : Except DiskError α} {g : α → Except DiskError β} {b : β}
    (h : (x >>= g) = .ok b) : ∃ a, x = .ok a ∧ g a = .ok b := by
  cases x with
  | error e => cases h
  | ok a => exact ⟨a, rfl, h⟩

/-! ### Folders -/

/-- Two disks with the same folders. -/
def SameFolders (d d' : Disk) : Prop :=
  ∀ place, d.node? place = some .folder ↔ d'.node? place = some .folder

theorem SameFolders.refl (d : Disk) : d.SameFolders d := fun _ => .rfl

theorem SameFolders.symm (h : d.SameFolders d') : d'.SameFolders d := fun place => (h place).symm

theorem SameFolders.trans (h : d.SameFolders d₁) (h' : d₁.SameFolders d') : d.SameFolders d' :=
  fun place => (h place).trans (h' place)

/-- The way to a folder is found by the folders on it. -/
theorem enter_of_sameFolders (h : d.SameFolders d') {folder names target : List String}
    (henter : d.enter folder names = .ok target) : d'.enter folder names = .ok target := by
  induction names generalizing folder with
  | nil => exact henter
  | cons name rest ih =>
      rw [enter] at henter ⊢
      split
      · rename_i hup
        rw [if_pos hup] at henter
        exact ih henter
      · rename_i hup
        rw [if_neg hup] at henter
        split
        · rename_i hlong
          rw [if_pos hlong] at henter
          cases henter
        · rename_i hlong
          rw [if_neg hlong] at henter
          cases hnode : d.node? (folder ++ [name]) with
          | none =>
              simp only [hnode] at henter
              cases henter
          | some n =>
              cases n with
              | file text =>
                  simp only [hnode] at henter
                  cases henter
              | folder =>
                  simp only [hnode] at henter
                  rw [(h _).1 hnode]
                  exact ih henter

/-- What is done with a folder that names lead to can be done on the other disk. -/
theorem bind_enter_of_sameFolders {α : Type} (h : d.SameFolders d') {folder names : List String}
    {g : List String → Except DiskError α} {a : α} (hg : (d.enter folder names >>= g) = .ok a) :
    (d'.enter folder names >>= g) = .ok a := by
  obtain ⟨target, henter, hg⟩ := bind_eq_ok hg
  rw [enter_of_sameFolders h henter]
  exact hg

/-- **Where a path ends depends on the folders only.** -/
theorem locate_of_sameFolders (h : d.SameFolders d') {place : Place}
    (hplace : d.locate path = .ok place) : d'.locate path = .ok place := by
  rw [locate] at hplace ⊢
  split at hplace
  · cases hplace
  · rename_i hzero
    split at hplace
    · cases hplace
    · rename_i hempty
      rw [if_neg hzero, if_neg hempty]
      dsimp only at hplace ⊢
      split at hplace
      · exact bind_enter_of_sameFolders h hplace
      · exact bind_enter_of_sameFolders h hplace
      · exact bind_enter_of_sameFolders h hplace

/-! ### Reading and writing -/

/-- A call that refuses a path without a last name has found one if it succeeds. -/
theorem bind_locate_eq_ok {α : Type} {g : Place → Except DiskError α} {a : α}
    (h : (d.locate path >>= g) = .ok a) (hfolder : g .folder ≠ .ok a) :
    ∃ folder name, d.locate path = .ok (.named folder name) ∧ g (.named folder name) = .ok a := by
  obtain ⟨place, hplace, h⟩ := bind_eq_ok h
  cases place with
  | folder => exact absurd h hfolder
  | named folder name => exact ⟨folder, name, hplace, h⟩

/-- A path leads to a file with a text. -/
theorem read_eq_ok : d.read path = .ok text ↔
    ∃ folder name, d.locate path = .ok (.named folder name) ∧
      d.node? (folder ++ [name]) = some (.file text) ∧ Path.namesFolder path = false := by
  constructor
  · intro h
    rw [read] at h
    obtain ⟨folder, name, hplace, h⟩ := bind_locate_eq_ok h nofun
    dsimp only at h
    split at h
    · cases h
    · cases h
    · rename_i s hnode
      split at h
      · cases h
      · rename_i hnames
        cases h
        exact ⟨folder, name, hplace, hnode, by simpa using hnames⟩
  · rintro ⟨folder, name, hplace, hnode, hnames⟩
    simp [read, hplace, hnode, hnames, bind, Except.bind]

/-- A file is written where the path of a file leads, if no folder is there. -/
theorem write_eq_ok (h : d.write path text = .ok d') :
    ∃ folder name, d.locate path = .ok (.named folder name) ∧ Path.namesFolder path = false ∧
      d.node? (folder ++ [name]) ≠ some .folder ∧ d' = d.put (folder ++ [name]) (.file text) := by
  rw [write] at h
  obtain ⟨folder, name, hplace, h⟩ := bind_locate_eq_ok h nofun
  dsimp only at h
  split at h
  · cases h
  · rename_i hnames
    split at h
    · cases h
    · rename_i hnode
      cases h
      exact ⟨folder, name, hplace, by simpa using hnames, hnode, rfl⟩

/-- A file is removed where the path leads to one. -/
theorem remove_eq_ok (h : d.remove path = .ok d') :
    ∃ folder name text, d.locate path = .ok (.named folder name) ∧
      d.node? (folder ++ [name]) = some (.file text) ∧ d' = d.drop (folder ++ [name]) := by
  rw [remove] at h
  obtain ⟨folder, name, hplace, h⟩ := bind_locate_eq_ok h nofun
  dsimp only at h
  split at h
  · cases h
  · cases h
  · rename_i text hnode
    split at h
    · cases h
    · cases h
      exact ⟨folder, name, text, hplace, hnode, rfl⟩

/-- A file that is renamed is removed and written under the new name. -/
theorem rename_eq_ok (h : d.rename path other = .ok d') :
    ∃ text d₁, d.read path = .ok text ∧ d.remove path = .ok d₁ ∧ d₁.write other text = .ok d' := by
  rw [rename] at h
  obtain ⟨text, hread, h⟩ := bind_eq_ok h
  obtain ⟨folder, name, -, h⟩ := bind_locate_eq_ok h nofun
  dsimp only at h
  split at h
  · cases h
  · split at h
    · cases h
    · obtain ⟨d₁, hremove, h⟩ := bind_eq_ok h
      exact ⟨text, d₁, hread, hremove, h⟩

theorem sameFolders_write (h : d.write path text = .ok d') : d.SameFolders d' := by
  obtain ⟨folder, name, -, -, hnode, rfl⟩ := write_eq_ok h
  intro place
  rw [node?_put]
  split
  · rename_i hplace
    rw [hplace]
    simp [hnode]
  · exact .rfl

theorem sameFolders_remove (h : d.remove path = .ok d') : d.SameFolders d' := by
  obtain ⟨folder, name, text, -, hnode, rfl⟩ := remove_eq_ok h
  intro place
  rw [node?_drop]
  split
  · rename_i hplace
    rw [hplace, hnode]
    simp
  · exact .rfl

theorem sameFolders_rename (h : d.rename path other = .ok d') : d.SameFolders d' := by
  obtain ⟨text, d₁, -, hremove, hwrite⟩ := rename_eq_ok h
  exact (sameFolders_remove hremove).trans (sameFolders_write hwrite)

/-- **What is written into a file is read from it.** -/
theorem read_write (h : d.write path text = .ok d') : d'.read path = .ok text := by
  have hsame := sameFolders_write h
  obtain ⟨folder, name, hplace, hnames, -, rfl⟩ := write_eq_ok h
  refine read_eq_ok.2 ⟨folder, name, locate_of_sameFolders hsame hplace, ?_, hnames⟩
  rw [node?_put, if_pos rfl]

/-- **A renamed file keeps its text.** -/
theorem read_rename (h : d.rename path other = .ok d') (hread : d.read path = .ok text) :
    d'.read other = .ok text := by
  obtain ⟨t, d₁, ht, -, hwrite⟩ := rename_eq_ok h
  rw [hread] at ht
  cases ht
  exact read_write hwrite

theorem read_write_of_ne (h : d.write path text = .ok d') (hne : d.locate path ≠ d.locate other)
    (hread : d.read other = .ok t) : d'.read other = .ok t := by
  have hsame := sameFolders_write h
  obtain ⟨folder, name, hplace, -, -, rfl⟩ := write_eq_ok h
  obtain ⟨folder', name', hplace', hnode, hnames⟩ := read_eq_ok.1 hread
  refine read_eq_ok.2 ⟨folder', name', locate_of_sameFolders hsame hplace', ?_, hnames⟩
  rw [node?_put, if_neg, hnode]
  intro heq
  obtain ⟨rfl, hname⟩ := List.append_inj' heq rfl
  rw [hplace, hplace', (List.cons.inj hname).1] at hne
  exact hne rfl

theorem read_remove_of_ne (h : d.remove path = .ok d') (hne : d.locate path ≠ d.locate other)
    (hread : d.read other = .ok t) : d'.read other = .ok t := by
  have hsame := sameFolders_remove h
  obtain ⟨folder, name, text, hplace, -, rfl⟩ := remove_eq_ok h
  obtain ⟨folder', name', hplace', hnode, hnames⟩ := read_eq_ok.1 hread
  refine read_eq_ok.2 ⟨folder', name', locate_of_sameFolders hsame hplace', ?_, hnames⟩
  rw [node?_drop, if_neg, hnode]
  intro heq
  obtain ⟨rfl, hname⟩ := List.append_inj' heq rfl
  rw [hplace, hplace', (List.cons.inj hname).1] at hne
  exact hne rfl

end VersionCatalog.Disk
