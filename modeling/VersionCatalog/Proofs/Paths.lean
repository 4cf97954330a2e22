import VersionCatalog.Disk.Path

/-!
# Names along paths

A path is its names, whatever slashes and points stand between them: the names of a joined path are those of
its two parts (`Path.names_join`), and another extension changes the last name alone
(`Path.withExtension_cases`), so that the file beside another one is looked for in the same folder
(`Path.way`).
-/

namespace VersionCatalog.Path

/-- The names that lead to the folder which a path is looked up in. A path that ends with `..` is that of a
folder itself. -/
def way (path : String) : List String :=
  if (names path).getLast? = some ".." then names path else (names path).dropLast

/-- A path's names begin with those of the way. -/
theorem way_append (path : String) : ∃ rest, names path = way path ++ rest := by
  rw [way]
  split
  · exact ⟨[], (List.append_nil _).symm⟩
  · refine ⟨(names path).drop ((names path).length - 1), ?_⟩
    rw [List.dropLast_eq_take, List.take_append_drop]

/-- All names but the last are on the way. -/
theorem exists_way {path name : String} {front rest : List String}
    (h : names path = front ++ name :: rest) (hrest : rest ≠ []) :
    ∃ rest, way path = front ++ name :: rest := by
  rw [way, h]
  split
  · exact ⟨rest, rfl⟩
  · refine ⟨rest.dropLast, ?_⟩
    rw [List.dropLast_append_of_ne_nil (by simp), List.dropLast_cons_of_ne_nil hrest]

/-! ### Cutting -/

theorem cut_ne_nil : ∀ cs : List Char, cut cs ≠ []
  | [] => by simp [cut]
  | c :: cs => by
      rw [cut]
      split
      · simp
      · split <;> simp

/-- A path is cut at each of its slashes. -/
theorem cut_append_slash (a b : List Char) : cut (a ++ '/' :: b) = cut a ++ cut b := by
  induction a with
  | nil => simp [cut]
  | cons c a ih =>
      rw [List.cons_append, cut, cut]
      split
      · rw [ih, List.cons_append]
      · rw [ih]
        cases ha : cut a with
        | nil => exact absurd ha (cut_ne_nil a)
        | cons part parts => rfl

theorem cut_of_plain {n : List Char} (h : '/' ∉ n) : cut n = [n] := by
  induction n with
  | nil => rfl
  | cons c n ih =>
      rw [List.mem_cons, not_or] at h
      rw [cut, if_neg (Ne.symm h.1), ih h.2]

/-! ### Names -/

/-- The names before a slash and those after it. -/
theorem names_append_slash (a b : List Char) :
    names (String.ofList (a ++ '/' :: b)) = names (String.ofList a) ++ names (String.ofList b) := by
  simp only [names, String.toList_ofList, cut_append_slash, List.filter_append, List.map_append]

/-- A path without a slash is one name. -/
theorem names_of_plain {n : List Char} (h : '/' ∉ n) (hempty : n ≠ []) (hhere : n ≠ ['.']) :
    names (String.ofList n) = [String.ofList n] := by
  simp [names, cut_of_plain h, hempty, hhere]

/-- The empty path and that of the folder itself have no names. -/
theorem names_of_here {n : List Char} (h : n = [] ∨ n = ['.']) : names (String.ofList n) = [] := by
  rcases h with rfl | rfl <;> rfl

/-- A path ends with what follows its last slash. -/
theorem cut_append_last {before : List Char} (hbefore : before = [] ∨ ∃ a, before = a ++ ['/'])
    {n : List Char} (h : '/' ∉ n) : (cut (before ++ n)).getLast? = some n := by
  rcases hbefore with rfl | ⟨a, rfl⟩
  · rw [List.nil_append, cut_of_plain h, List.getLast?_singleton]
  · rw [List.append_assoc, List.singleton_append, cut_append_slash, cut_of_plain h,
      List.getLast?_concat]

theorem names_append {before : List Char} (hbefore : before = [] ∨ ∃ a, before = a ++ ['/'])
    (n : List Char) : names (String.ofList (before ++ n))
      = names (String.ofList before) ++ names (String.ofList n) := by
  rcases hbefore with rfl | ⟨a, rfl⟩
  · rw [names_of_here (.inl rfl), List.nil_append, List.nil_append]
  · rw [List.append_assoc, List.singleton_append, names_append_slash, names_append_slash,
      names_of_here (.inl rfl), List.append_nil]

/-- What stands before a joined path has the names of the folder, and ends with a slash if it is anything. -/
theorem join_eq (folder : String) {path : String} (h : path.toList.head? ≠ some '/') :
    ∃ before, (before = [] ∨ ∃ a, before = a ++ ['/']) ∧
      names (String.ofList before) = names folder ∧
      join folder path = String.ofList (before ++ path.toList) := by
  rw [join]
  split
  · rename_i hpath
    rw [hpath] at h
    exact absurd rfl h
  · rename_i hlast _
    rw [List.getLast?_eq_none_iff, String.toList_eq_nil_iff] at hlast
    exact ⟨[], .inl rfl, congrArg names hlast.symm, by rw [List.nil_append, String.ofList_toList]⟩
  · rename_i hlast _
    obtain ⟨a, ha⟩ := List.getLast?_eq_some_iff.1 hlast
    refine ⟨folder.toList, .inr ⟨a, ha⟩, by rw [String.ofList_toList], ?_⟩
    rw [String.ofList_append, String.ofList_toList, String.ofList_toList]
  · refine ⟨folder.toList ++ ['/'], .inr ⟨_, rfl⟩, ?_, ?_⟩
    · rw [names_append_slash, String.ofList_toList, names_of_here (.inl rfl), List.append_nil]
    · change folder ++ "/" ++ path = String.ofList (folder.toList ++ "/".toList ++ path.toList)
      rw [String.ofList_append, String.ofList_append, String.ofList_toList, String.ofList_toList,
        String.ofList_toList]

/-- A path without a slash is at most one name, which is the path. -/
theorem names_plain {path : String} (h : '/' ∉ path.toList) :
    names path = [] ∨ names path = [path] := by
  by_cases hhere : path.toList = [] ∨ path.toList = ['.']
  · have hnames := names_of_here hhere
    rw [String.ofList_toList] at hnames
    exact .inl hnames
  · have hnames := names_of_plain h (mt .inl hhere) (mt .inr hhere)
    rw [String.ofList_toList] at hnames
    exact .inr hnames

/-- **The names along a joined path**, where the second part does not start at the root. -/
theorem names_join {folder path : String} (h : path.toList.head? ≠ some '/') :
    names (join folder path) = names folder ++ names path := by
  obtain ⟨before, hbefore, hnames, hjoin⟩ := join_eq folder h
  rw [hjoin, names_append hbefore, hnames, String.ofList_toList]

/-- A path that is joined with a name is not that of a folder alone. -/
theorem namesFolder_join {folder name : String} (hslash : '/' ∉ name.toList)
    (hempty : name.toList ≠ []) (hhere : name.toList ≠ ['.']) :
    namesFolder (join folder name) = false := by
  have hhead : name.toList.head? ≠ some '/' := fun h => hslash (List.mem_of_head? h)
  obtain ⟨before, hbefore, -, hjoin⟩ := join_eq folder hhead
  rw [namesFolder, hjoin, String.toList_ofList, cut_append_last hbefore hslash]
  simp [hempty, hhere]

/-- What follows a path's last name has no names. -/
theorem names_trimEnd (reversed : List Char) :
    names (String.ofList (trimEnd reversed).reverse) = names (String.ofList reversed.reverse) := by
  induction reversed using trimEnd.induct with
  | case1 rest ih =>
      rw [trimEnd, ih, List.reverse_cons, names_append_slash, names_of_here (.inl rfl),
        List.append_nil]
  | case2 rest ih =>
      rw [trimEnd, ih, List.reverse_cons, List.reverse_cons, List.append_assoc]
      change _ = names (String.ofList (rest.reverse ++ '/' :: ['.']))
      rw [names_append_slash, names_of_here (.inr rfl), List.append_nil]
  | case3 other hslash hpoint => rw [trimEnd.eq_3 other hslash hpoint]

/-- A stem is a part of the name. -/
theorem mem_of_mem_stem {name : List Char} {c : Char} (h : c ∈ stem name) : c ∈ name := by
  rw [stem] at h
  split at h
  · exact h
  · exact h
  · rename_i d rest _ hrest
    have hmem : c ∈ name.reverse.dropWhile (· ≠ '.') := by
      rw [hrest]
      exact List.mem_cons_of_mem _ (List.mem_reverse.1 h)
    exact List.mem_reverse.1 ((List.dropWhile_sublist _).mem hmem)

/-- A path up to its last slash, and its last name, in whose place another extension puts another name. -/
theorem exists_last (path : String) :
    ∃ before name, names path = names (String.ofList (before ++ name)) ∧
      (before = [] ∨ ∃ a, before = a ++ ['/']) ∧ '/' ∉ name ∧
      ∀ extension, withExtension path extension =
        if name = [] ∨ name = ['.'] ∨ name = ['.', '.'] then path
        else String.ofList (before ++ stem name) ++ "." ++ extension := by
  refine ⟨((trimEnd path.toList.reverse).dropWhile (· ≠ '/')).reverse,
    ((trimEnd path.toList.reverse).takeWhile (· ≠ '/')).reverse, ?_, ?_, ?_, fun _ => rfl⟩
  · rw [← List.reverse_append, List.takeWhile_append_dropWhile, names_trimEnd, List.reverse_reverse,
      String.ofList_toList]
  · cases hrest : (trimEnd path.toList.reverse).dropWhile (· ≠ '/') with
    | nil => exact .inl rfl
    | cons c rest =>
        have hc := List.head?_dropWhile_not (fun c => decide (c ≠ '/')) (trimEnd path.toList.reverse)
        rw [hrest] at hc
        obtain rfl : c = '/' := by simpa using hc
        exact .inr ⟨rest.reverse, List.reverse_cons⟩
  · intro hmem
    have hall := List.all_eq_true.1 List.all_takeWhile _ (List.mem_reverse.1 hmem)
    exact absurd hall (by simp)

/-- **Another extension changes the last name of a path alone**, if it has one. -/
theorem withExtension_cases (path : String) {extension : String} (hslash : '/' ∉ extension.toList)
    (hempty : extension ≠ "") :
    withExtension path extension = path ∨
      ∃ front last stem, names path = front ++ [last] ∧ last ≠ ".." ∧
        names (withExtension path extension) = front ++ [stem ++ "." ++ extension] := by
  obtain ⟨before, name, hpath, hbefore, hname, hnew⟩ := exists_last path
  rw [hnew]
  by_cases hlast : name = [] ∨ name = ['.'] ∨ name = ['.', '.']
  · exact .inl (if_pos hlast)
  · rw [if_neg hlast]
    obtain ⟨hnone, hhere, hup⟩ : name ≠ [] ∧ name ≠ ['.'] ∧ name ≠ ['.', '.'] := by
      simpa only [not_or] using hlast
    refine .inr ⟨names (String.ofList before), String.ofList name, String.ofList (stem name), ?_, ?_, ?_⟩
    · rw [hpath, names_append hbefore, names_of_plain hname hnone hhere]
    · intro heq
      exact hup (by simpa using congrArg String.toList heq)
    · have hchars : String.ofList (before ++ stem name) ++ "." ++ extension
          = String.ofList (before ++ (stem name ++ '.' :: extension.toList)) := by
        rw [← String.toList_inj]
        simp
      have hstem : String.ofList (stem name) ++ "." ++ extension
          = String.ofList (stem name ++ '.' :: extension.toList) := by
        rw [← String.toList_inj]
        simp
      have hplain : '/' ∉ stem name ++ '.' :: extension.toList := by
        rw [List.mem_append, List.mem_cons, not_or, not_or]
        exact ⟨fun hmem => hname (mem_of_mem_stem hmem), by decide, hslash⟩
      have hnamed : stem name ++ '.' :: extension.toList ≠ ['.'] := by
        intro heq
        have hlength := congrArg List.length heq
        have hpos := List.length_pos_iff.2 (mt String.toList_eq_nil_iff.1 hempty)
        simp only [List.length_append, List.length_cons, List.length_nil] at hlength
        omega
      rw [hchars, hstem, names_append hbefore, names_of_plain hplain (by simp) hnamed]

/-- The file beside another one is looked for in the same folder. -/
theorem way_withExtension (path : String) {extension : String} (hslash : '/' ∉ extension.toList)
    (hempty : extension ≠ "") (hup : ∀ stem : String, stem ++ "." ++ extension ≠ "..") :
    way (withExtension path extension) = way path := by
  rcases withExtension_cases path hslash hempty with hsame | ⟨front, last, stem, hpath, hlast, hnew⟩
  · rw [hsame]
  · rw [way, way, hpath, hnew, List.getLast?_concat, List.getLast?_concat, if_neg, if_neg,
      List.dropLast_concat, List.dropLast_concat]
    · exact fun heq => hlast (Option.some.inj heq)
    · exact fun heq => hup stem (Option.some.inj heq)

end VersionCatalog.Path
