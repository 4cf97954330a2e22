import VersionCatalog.Proofs.Disks
import VersionCatalog.Proofs.Paths

/-!
# Ways on a disk

A path is followed name by name from the root. A file on the way ends it, and so does a gap; which of the two it
is makes the only difference between two disks that differ in files alone (`Disk.SameOutside`). A path that does
not pass one of those files ends in the same way on both (`Disk.enter_eq_or`), and what is done there is the same.

## Main results

* `Disk.enter_eq_or`: the way to a folder is the same, unless it passes a place where the disks differ.
* `Disk.SameOutside.read_eq`, `write`, `remove`: calls on two disks that differ in files alone.
-/

namespace VersionCatalog.Disk

variable {d d' : Disk} {path text : String} {folder names target place : List String}

/-! ### Following names -/

theorem enter_append (d : Disk) (folder front rest : List String) :
    d.enter folder (front ++ rest) = (d.enter folder front >>= fun target => d.enter target rest) := by
  induction front generalizing folder with
  | nil => rfl
  | cons name front ih =>
      rw [List.cons_append, enter, enter]
      split
      · exact ih _
      · split
        · rfl
        · cases d.node? (folder ++ [name]) with
          | none => rfl
          | some n =>
              cases n with
              | file text => rfl
              | folder => exact ih _

/-- The next folder on a way. -/
theorem enter_cons_of_folder {name : String} (hup : name ≠ "..") (hlong : ¬ 255 < name.utf8ByteSize)
    (hnode : d.node? (folder ++ [name]) = some .folder) (rest : List String) :
    d.enter folder (name :: rest) = d.enter (folder ++ [name]) rest := by
  rw [enter, if_neg hup, if_neg hlong, hnode]

/-- A way that goes on through a place has a folder there. -/
theorem folder_of_enter {front rest : List String} {name : String} (hup : name ≠ "..")
    (hfront : d.enter folder front = .ok target)
    (h : d.enter folder (front ++ name :: rest) = .ok place) :
    d.node? (target ++ [name]) = some .folder := by
  rw [enter_append, hfront] at h
  change d.enter target (name :: rest) = .ok place at h
  rw [enter, if_neg hup] at h
  split at h
  · cases h
  · cases hnode : d.node? (target ++ [name]) with
    | none =>
        simp only [hnode] at h
        cases h
    | some n =>
        cases n with
        | folder => rfl
        | file text =>
            simp only [hnode] at h
            cases h

/-- Names lead to a place or through it. -/
def Passes (d : Disk) (folder names place : List String) : Prop :=
  ∃ front name rest target, names = front ++ name :: rest ∧
    d.enter folder front = .ok target ∧ target ++ [name] = place

theorem Passes.append (h : d.Passes folder names place) (more : List String) :
    d.Passes folder (names ++ more) place := by
  obtain ⟨front, name, rest, target, rfl, hfront, hplace⟩ := h
  exact ⟨front, name, rest ++ more, target, by rw [List.append_assoc, List.cons_append], hfront, hplace⟩

/-- A place on a way stays on it when the way begins one folder earlier. -/
theorem Passes.of_enter_cons {name : String}
    (hstep : ∀ rest, d.enter folder (name :: rest) = d.enter target rest)
    (h : d.Passes target names place) : d.Passes folder (name :: names) place := by
  obtain ⟨front, last, rest, reached, rfl, hfront, hplace⟩ := h
  exact ⟨name :: front, last, rest, reached, rfl, (hstep front).trans hfront, hplace⟩

/-! ### Where a path ends -/

/-- Where a path ends in the folder that it is looked up in. -/
def ending (path : String) (folder : List String) : Except DiskError Place :=
  match (Path.names path).getLast? with
  | none | some ".." => .ok .folder
  | some name => if 255 < name.utf8ByteSize then .error .nameTooLong else .ok (.named folder name)

/-- A path is followed to the folder that it is looked up in, and ends there. -/
theorem locate_eq (d : Disk) (path : String) :
    d.locate path =
      if path.toList.contains '\x00' then .error .zeroByte
      else if path = "" then .error .missing
      else d.enter [] (Path.way path) >>= ending path := by
  rw [locate]
  split
  · rfl
  · split
    · rfl
    · dsimp only
      rw [Path.way]
      split
      · rename_i hlast
        have hending : ending path [] = .ok .folder := by rw [ending, hlast]
        rw [hlast, if_neg (by simp), List.getLast?_eq_none_iff.1 hlast]
        exact hending.symm
      · rename_i hlast
        simp only [hlast, if_true]
        cases henter : d.enter [] (Path.names path) with
        | error e => rfl
        | ok folder => simp only [ending, hlast, Except.map, bind, Except.bind]
      · rename_i name hup hlast
        rw [hlast, if_neg fun heq => hup (Option.some.inj heq)]
        cases henter : d.enter [] (Path.names path).dropLast with
        | error e => rfl
        | ok folder => simp only [ending, hlast, bind, Except.bind]

/-- A path with a last name ends in the folder that it is looked up in. -/
theorem locate_eq_named {name : String} (h : d.locate path = .ok (.named folder name)) :
    d.enter [] (Path.way path) = .ok folder ∧ Path.names path = Path.way path ++ [name] := by
  rw [locate_eq] at h
  split at h
  · cases h
  · split at h
    · cases h
    · obtain ⟨target, henter, h⟩ := bind_eq_ok h
      rw [ending] at h
      split at h
      · cases h
      · cases h
      · rename_i last hup hlast
        split at h
        · cases h
        · cases h
          obtain ⟨front, hfront⟩ := List.getLast?_eq_some_iff.1 hlast
          rw [Path.way, hlast, if_neg fun heq => hup (Option.some.inj heq), hfront,
            List.dropLast_concat] at henter ⊢
          exact ⟨henter, rfl⟩

/-- Where a path ends depends on its text and on the folder that it is looked up in. -/
theorem locate_congr (h : d.enter [] (Path.way path) = d'.enter [] (Path.way path)) :
    d.locate path = d'.locate path := by
  rw [locate_eq, locate_eq, h]

/-- A path whose way ends early ends there. -/
theorem locate_error {e : DiskError} (hzero : '\x00' ∉ path.toList) (hempty : path ≠ "")
    (h : d.enter [] (Path.way path) = .error e) : d.locate path = .error e := by
  rw [locate_eq, if_neg (by simpa using hzero), if_neg hempty, h]
  rfl

/-- A path with a zero byte ends nowhere. -/
theorem locate_of_zeroByte (hzero : '\x00' ∈ path.toList) : d.locate path = .error .zeroByte := by
  rw [locate_eq, if_pos (by simpa using hzero)]

theorem Passes.of_sameFolders (h : d.Passes folder names place) (hsame : d.SameFolders d') :
    d'.Passes folder names place := by
  obtain ⟨front, name, rest, target, hnames, hfront, hplace⟩ := h
  exact ⟨front, name, rest, target, hnames, enter_of_sameFolders hsame hfront, hplace⟩

/-- A path that leads to a place without a folder, or through it, ends there. -/
theorem Passes.locate {name : String} (h : d.Passes [] (Path.names path) (folder ++ [name]))
    (hzero : '\x00' ∉ path.toList) (hup : name ≠ "..") (hlong : ¬ 255 < name.utf8ByteSize)
    (hnode : d.node? (folder ++ [name]) ≠ some .folder) :
    d.locate path = .ok (.named folder name) ∨
      d.locate path =
        .error (if d.node? (folder ++ [name]) = none then .missing else .notFolder) := by
  obtain ⟨front, last, rest, target, hnames, hfront, hplace⟩ := h
  obtain ⟨rfl, hlast⟩ := List.append_inj' hplace rfl
  obtain rfl := List.singleton_inj.1 hlast
  have hempty : path ≠ "" := by
    rintro rfl
    exact absurd hnames.symm (by simp [Path.names, Path.cut])
  cases rest with
  | nil =>
      have hend : (Path.names path).getLast? = some last := by rw [hnames, List.getLast?_concat]
      have hway : Path.way path = front := by
        rw [Path.way, hend, if_neg fun heq => hup (Option.some.inj heq), hnames, List.dropLast_concat]
      refine .inl ?_
      rw [locate_eq, if_neg (by simpa using hzero), if_neg hempty, hway, hfront]
      change ending path target = _
      rw [ending, hend]
      split
      · rename_i heq
        cases heq
      · rename_i heq
        exact absurd (Option.some.inj heq) hup
      · rename_i heq
        cases heq
        rw [if_neg hlong]
  | cons next rest =>
      obtain ⟨after, hway⟩ := Path.exists_way hnames (by simp)
      refine .inr (locate_error hzero hempty ?_)
      rw [hway, enter_append, hfront]
      change d.enter target (last :: after) = _
      rw [enter, if_neg hup, if_neg hlong]
      cases hnode' : d.node? (target ++ [last]) with
      | none => simp
      | some n =>
          cases n with
          | folder => exact absurd hnode' hnode
          | file text => simp

/-- Where nothing is a path reads nothing. -/
theorem Passes.read_of_missing {name : String}
    (h : d.Passes [] (Path.names path) (folder ++ [name])) (hzero : '\x00' ∉ path.toList)
    (hup : name ≠ "..") (hlong : ¬ 255 < name.utf8ByteSize)
    (hnode : d.node? (folder ++ [name]) = none) : d.read path = .error .missing := by
  rcases h.locate hzero hup hlong (by simp [hnode]) with hplace | herror
  · simp only [read, hplace, hnode, bind, Except.bind]
  · rw [read, herror, if_pos hnode]
    rfl

/-- Where a file is a path reads it, or fails for another reason than that nothing is there. -/
theorem Passes.read_of_file {name : String}
    (h : d.Passes [] (Path.names path) (folder ++ [name])) (hzero : '\x00' ∉ path.toList)
    (hup : name ≠ "..") (hlong : ¬ 255 < name.utf8ByteSize)
    (hnode : d.node? (folder ++ [name]) = some (.file text)) : d.read path ≠ .error .missing := by
  rcases h.locate hzero hup hlong (by simp [hnode]) with hplace | herror
  · simp only [read, hplace, hnode, bind, Except.bind]
    split <;> simp
  · rw [read, herror, if_neg (by simp [hnode])]
    simp [bind, Except.bind]

/-! ### Disks that differ in files -/

/-- Two disks that differ at most in whether there are files at some places, and in what the files say. -/
structure SameOutside (differ : List String → Prop) (d d' : Disk) : Prop where
  node : ∀ place, ¬ differ place → d.node? place = d'.node? place
  left : ∀ place, differ place → d.node? place ≠ some .folder
  right : ∀ place, differ place → d'.node? place ≠ some .folder

/-- The two outcomes of a call on disks that differ in files: the same failure, or disks that differ in the same
files. -/
inductive SameResult (differ : List String → Prop) : Except DiskError Disk → Except DiskError Disk → Prop
  | error (e : DiskError) : SameResult differ (.error e) (.error e)
  | ok {d d' : Disk} (h : d.SameOutside differ d') : SameResult differ (.ok d) (.ok d')

namespace SameOutside

variable {differ : List String → Prop} (h : d.SameOutside differ d')

include h

theorem sameFolders : d.SameFolders d' := by
  intro place
  by_cases hplace : differ place
  · exact iff_of_false (h.left place hplace) (h.right place hplace)
  · rw [h.node place hplace]

/-- **The way to a folder is the same**, unless it passes a place where the disks differ. -/
theorem enter_eq_or (folder names : List String) :
    d.enter folder names = d'.enter folder names ∨
      ∃ place, differ place ∧ d.Passes folder names place := by
  induction names generalizing folder with
  | nil => exact .inl rfl
  | cons name rest ih =>
      by_cases hup : name = ".."
      · have hstep : ∀ (d : Disk) rest, d.enter folder (name :: rest) = d.enter folder.dropLast rest :=
          fun d rest => by rw [enter, if_pos hup]
        rw [hstep, hstep]
        refine (ih _).imp_right ?_
        rintro ⟨place, hplace, hpasses⟩
        exact ⟨place, hplace, hpasses.of_enter_cons (hstep d)⟩
      · by_cases hplace : differ (folder ++ [name])
        · exact .inr ⟨_, hplace, [], name, rest, folder, rfl, rfl, rfl⟩
        · rw [enter, enter, if_neg hup, if_neg hup, ← h.node _ hplace]
          split
          · exact .inl rfl
          · rename_i hlong
            cases hnode : d.node? (folder ++ [name]) with
            | none => exact .inl rfl
            | some n =>
                cases n with
                | file text => exact .inl rfl
                | folder =>
                    refine (ih _).imp_right ?_
                    rintro ⟨place, hplace, hpasses⟩
                    exact ⟨place, hplace,
                      hpasses.of_enter_cons fun rest => enter_cons_of_folder hup hlong hnode rest⟩

/-- A file that is not one of those that differ is read alike. -/
theorem read_eq (hlocate : d.locate path = d'.locate path)
    (hapart : ∀ folder name, d.locate path = .ok (.named folder name) → ¬ differ (folder ++ [name])) :
    d.read path = d'.read path := by
  rw [read, read, ← hlocate]
  cases hplace : d.locate path with
  | error e => rfl
  | ok p =>
      cases p with
      | folder => rfl
      | named folder name =>
          simp only [bind, Except.bind, h.node _ (hapart folder name hplace)]

/-- A file is put on both disks alike. -/
theorem put (folder : List String) (name text : String) :
    (d.put (folder ++ [name]) (.file text)).SameOutside differ (d'.put (folder ++ [name]) (.file text)) where
  node place hplace := by
    rw [node?_put, node?_put]
    split
    · rfl
    · exact h.node place hplace
  left place hplace := by
    rw [node?_put]
    split
    · simp
    · exact h.left place hplace
  right place hplace := by
    rw [node?_put]
    split
    · simp
    · exact h.right place hplace

/-- A file is dropped from both disks alike. -/
theorem drop (folder : List String) (name : String) :
    (d.drop (folder ++ [name])).SameOutside differ (d'.drop (folder ++ [name])) where
  node place hplace := by
    rw [node?_drop, node?_drop]
    split
    · rfl
    · exact h.node place hplace
  left place hplace := by
    rw [node?_drop]
    split
    · simp
    · exact h.left place hplace
  right place hplace := by
    rw [node?_drop]
    split
    · simp
    · exact h.right place hplace

theorem write (hlocate : d.locate path = d'.locate path) (text : String) :
    SameResult differ (d.write path text) (d'.write path text) := by
  rw [Disk.write, Disk.write, ← hlocate]
  cases d.locate path with
  | error e => exact .error e
  | ok p =>
      cases p with
      | folder => exact .error _
      | named folder name =>
          change SameResult differ (if _ then _ else if _ then _ else _) (if _ then _ else if _ then _ else _)
          split
          · exact .error _
          · by_cases hfolder : d.node? (folder ++ [name]) = some .folder
            · rw [if_pos hfolder, if_pos ((h.sameFolders _).1 hfolder)]
              exact .error _
            · rw [if_neg hfolder, if_neg (mt (h.sameFolders _).2 hfolder)]
              exact .ok (h.put folder name text)

theorem remove (hlocate : d.locate path = d'.locate path)
    (hapart : ∀ folder name, d.locate path = .ok (.named folder name) → ¬ differ (folder ++ [name])) :
    SameResult differ (d.remove path) (d'.remove path) := by
  rw [Disk.remove, Disk.remove, ← hlocate]
  cases hplace : d.locate path with
  | error e => exact .error e
  | ok p =>
      cases p with
      | folder => exact .error _
      | named folder name =>
          simp only [bind, Except.bind, h.node _ (hapart folder name hplace)]
          cases d'.node? (folder ++ [name]) with
          | none => exact .error _
          | some n =>
              cases n with
              | folder => exact .error _
              | file text =>
                  dsimp only
                  split
                  · exact .error _
                  · exact .ok (h.drop folder name)

end SameOutside

end VersionCatalog.Disk
