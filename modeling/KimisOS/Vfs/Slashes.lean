import KimisOS.Vfs.Uniqueness

/-!
# Slashes around the path of a new file

`vfcreate` cuts a slash at either end of its copy of the path, and decides from
the length whether there is a directory in it.  The length is taken before the
slash at the end is cut.
-/

namespace KimisOS.Vfs

open KimisOS.Fat32

/-- The files of the RAM file system and devices: these have no children. -/
structure RamFiles (tree : Tree) : Prop where
  grown : tree.Grown
  bareDevice : ∀ file, (tree.files file).fileops = .pci → (tree.files file).children = []

/-- The path of a file that can be created: directories, and a name that is not
taken in the last of them. -/
structure NewPath (tree : Tree) where
  directories : List CString
  name : CString
  dir : ℕ
  isName : ∀ part ∈ directories ++ [name], Tree.IsName part
  enters : tree.descend directories rootDir = some dir
  isDir : tree.IsDir dir
  ramfs : (tree.files dir).fileops = .ramfs
  absent : tree.searchDir name dir = none
  short : (Tree.joinPath (directories ++ [name])).length ≤ 4096

namespace NewPath

variable {tree : Tree}

/-- `c1/.../cn`. -/
def plain (path : NewPath tree) : CString := Tree.joinPath (path.directories ++ [path.name])

/-- The path with or without a slash in front and at the end. -/
def pathname (path : NewPath tree) (leading trailing : Bool) : CString :=
  (if leading then [slash] else []) ++ (path.plain ++ if trailing then [slash] else [])

end NewPath

/-- One file more, a child `name` of the directory, and nothing else. -/
structure Added (tree tree' : Tree) (dir : ℕ) (name : CString) : Prop where
  next : tree'.next = tree.next + 1
  named : (tree'.files tree.next).name = name
  bare : (tree'.files tree.next).children = []
  children : ∀ file < tree.next, ∀ child, some child ∈ (tree'.files file).children ↔
    some child ∈ (tree.files file).children ∨ (file = dir ∧ child = tree.next)
  directory : tree'.files dir =
    { tree.files dir with children := (tree'.files dir).children }
  others : ∀ file < tree.next, file ≠ dir → tree'.files file = tree.files file

/-- `fcreate` has a result, with all its writes in the buffer of the path; it has
made the file, and the plain path opens it. -/
def CreatesAndOpens (s : State) (path : NewPath s.tree) (pathname : CString) (flags : ℕ) :
    Prop :=
  ∃ s', fcreate s pathname flags = some (s', some s.tree.next) ∧
    Added s.tree s'.tree path.dir path.name ∧
    ∃ s'', fopen s' (slash :: path.plain) = some (s'', some s.tree.next)

namespace Tree

variable {tree : Tree}

/-! ## Opening names -/

theorem walk_enters {mounted : CString → ℕ → Option (Option ℕ)} {names tokens : List CString}
    {start dir : ℕ} (henters : tree.descend names start = some dir) (currentPath : CString) :
    tree.walk mounted (names ++ tokens) currentPath start =
      tree.walk mounted tokens (names.foldl advance currentPath) dir := by
  apply walk_along ?_ henters
  intro token tokens currentPath dir child hchild
  obtain ⟨hsearch, hmount⟩ := enter_eq_some.mp hchild
  rw [walk]
  simp only [hsearch, if_neg hmount]

theorem walk_descend {mounted : CString → ℕ → Option (Option ℕ)} {names : List CString}
    {start found : ℕ} (hdescend : tree.descend names start = some found)
    (currentPath : CString) :
    tree.walk mounted names currentPath start = some (some found) := by
  rw [← List.append_nil names, walk_enters hdescend, walk]

theorem Grown.descend (hgrown : tree.Grown) {names : List CString} {start found : ℕ}
    (hstart : start < tree.next) (hdescend : tree.descend names start = some found) :
    found < tree.next := by
  induction names generalizing start with
  | nil =>
      obtain rfl : start = found := Option.some.inj hdescend
      exact hstart
  | cons name names ih =>
      rw [Tree.descend] at hdescend
      cases hchild : tree.enter name start with
      | none => simp [hchild] at hdescend
      | some child =>
          simp only [hchild] at hdescend
          exact ih (hgrown.searchDir hstart (enter_eq_some.mp hchild).1).2 hdescend

/-- Every name has a character. -/
theorem length_lt_joinPath {names : List CString} {last : CString}
    (hnames : ∀ part ∈ names ++ [last], IsName part) :
    names.length < (joinPath (names ++ [last])).length := by
  induction names with
  | nil => exact List.length_pos_iff.mpr (hnames last (by simp)).1
  | cons name names ih =>
      have hrest := ih fun part hpart => hnames part (List.mem_cons_of_mem _ hpart)
      rw [joinPath_concat_cons, List.length_append, List.length_cons, List.length_cons]
      omega

/-- Opening one name is a search. -/
theorem rfopen_name (hnext : 0 < tree.next) {name : CString} {dir : ℕ} (hname : IsName name)
    (hshort : name.length < 4096) (hops : (tree.files dir).fileops = .ramfs) :
    (tree.searchDir name dir = none → tree.rfopen name dir = some none) ∧
      ∀ child, tree.enter name dir = some child → tree.rfopen name dir = some (some child) := by
  obtain ⟨fuel, hfuel⟩ := Nat.exists_eq_add_of_lt hnext
  have htokens : pathTokens name = [name] := by
    rw [pathTokens, dropSlash_of_not_mem hname.2, splitPath_of_not_mem hname.2]
    rfl
  simp only [Tree.rfopen, hops, hfuel, Nat.zero_add, resolvePath, htokens,
    if_neg (Nat.not_le.mpr hshort)]
  constructor
  · intro hnone
    rw [walk, hnone]
  · intro child hchild
    refine walk_descend ?_ _
    rw [Tree.descend, hchild]
    rfl

theorem ramfs_of_enter (hbare : ∀ file, (tree.files file).fileops = .pci →
    (tree.files file).children = []) {name : CString} {dir child : ℕ}
    (hchild : tree.enter name dir = some child) : (tree.files dir).fileops = .ramfs := by
  cases hops : (tree.files dir).fileops with
  | ramfs => rfl
  | pci =>
      have hsearch := (enter_eq_some.mp hchild).1
      rw [searchDir_bare (hbare dir hops)] at hsearch
      simp at hsearch

end Tree

/-! ## Creating behind directories -/

variable {s : State} {flags : ℕ}

/-- The first name leads into a directory, and the creation goes on there. -/
theorem vfcreateFrom_enters {fuel parent child : ℕ} {relpath name rest : CString}
    (hram : RamFiles s.tree) (hlength : relpath.length % 4096 ≠ 0)
    (hcut : cutSlash (dropSlash relpath) = name ++ slash :: rest)
    (hlonger : name.length < (dropSlash relpath).length) (hname : Tree.IsName name)
    (hshort : name.length < 4096) (hchild : s.tree.enter name parent = some child) :
    vfcreateFrom flags (fuel + 1) s parent relpath =
      (vfcreateFrom flags fuel (s.opening (some child)) child rest).map fun created =>
        (fclose created.1 child, created.2) := by
  have hops := Tree.ramfs_of_enter hram.bareDevice hchild
  have hnext : 0 < s.tree.next := lt_of_le_of_lt (Nat.zero_le _) hram.grown.root
  have hopen := (Tree.rfopen_name hnext hname hshort hops).2 child hchild
  have hdrop : (name ++ slash :: rest).drop (name.length + 1) = rest := by
    rw [List.drop_append, List.drop_eq_nil_of_le (Nat.le_succ _)]
    simp
  simp only [vfcreateFrom, if_neg hlength, hcut, Tree.firstComponent_append hname.2,
    if_neg (Nat.not_le.mpr hlonger), rfopen, hopen, hdrop]
  cases vfcreateFrom flags fuel (s.opening (some child)) child rest <;> rfl

/-- A name without slashes is created in its directory. -/
theorem vfcreateFrom_name {fuel parent : ℕ} {relpath name : CString}
    (hlength : relpath.length % 4096 ≠ 0) (hdrop : dropSlash relpath = name)
    (hname : Tree.IsName name) (hdir : s.tree.IsDir parent)
    (hops : (s.tree.files parent).fileops = .ramfs) :
    (75 < name.length → vfcreateFrom flags (fuel + 1) s parent relpath = none) ∧
      (name.length ≤ 75 → ∃ s',
        vfcreateFrom flags (fuel + 1) s parent relpath = some (s', some s.tree.next) ∧
          s'.tree = s.tree.addChild parent name flags) := by
  have hcut : cutSlash name = name := by
    have hone : ∀ part ∈ [name], Tree.IsName part := by
      intro part hpart
      rwa [List.mem_singleton.mp hpart]
    exact Tree.cutSlash_joinPath hone
  simp only [vfcreateFrom, if_neg hlength, hdrop, hcut, Tree.firstComponent_of_not_mem hname.2,
    le_refl, if_true, create, hops, ramfsCreate, if_pos hdir,
    Tree.dropSlash_of_not_mem hname.2]
  constructor
  · intro hlong
    rw [if_pos hlong]
  · intro hshort
    rw [if_neg (by omega)]
    exact ⟨_, rfl, rfl⟩

/-- What a path without slashes around it leads to. -/
theorem vfcreateFrom_names {fuel parent dir : ℕ} {names : List CString} {last : CString}
    (hram : RamFiles s.tree) (hnames : ∀ name ∈ names ++ [last], Tree.IsName name)
    (hfuel : names.length < fuel) (hshort : (Tree.joinPath (names ++ [last])).length < 4096)
    (henters : s.tree.descend names parent = some dir) (hdir : s.tree.IsDir dir)
    (hops : (s.tree.files dir).fileops = .ramfs) :
    (75 < last.length →
        vfcreateFrom flags fuel s parent (Tree.joinPath (names ++ [last])) = none) ∧
      (last.length ≤ 75 → ∃ s',
        vfcreateFrom flags fuel s parent (Tree.joinPath (names ++ [last])) =
            some (s', some s.tree.next) ∧
          s'.tree = s.tree.addChild dir last flags) := by
  have hne := List.length_pos_iff.mpr (Tree.joinPath_ne_nil (by simp) hnames)
  have hlength : (Tree.joinPath (names ++ [last])).length % 4096 ≠ 0 := by omega
  obtain ⟨fuel, rfl⟩ : ∃ more, fuel = more + 1 := ⟨fuel - 1, by omega⟩
  induction names generalizing s fuel parent with
  | nil =>
      obtain rfl : parent = dir := Option.some.inj henters
      exact vfcreateFrom_name hlength (Tree.dropSlash_joinPath hnames)
        (hnames last (by simp)) hdir hops
  | cons name names ih =>
      have hrest : ∀ other ∈ names ++ [last], Tree.IsName other := fun other hmem =>
        hnames other (List.mem_cons_of_mem _ hmem)
      have hne' := List.length_pos_iff.mpr (Tree.joinPath_ne_nil (by simp) hrest)
      have hcut := Tree.cutSlash_joinPath hnames
      have hdrop := Tree.dropSlash_joinPath hnames
      rw [Tree.joinPath_concat_cons] at hcut hdrop hlength hshort ⊢
      rw [List.length_append, List.length_cons] at hshort
      rw [List.length_cons] at hfuel
      obtain ⟨fuel, rfl⟩ : ∃ more, fuel = more + 1 := ⟨fuel - 1, by omega⟩
      rw [Tree.descend] at henters
      cases hchild : s.tree.enter name parent with
      | none => simp [hchild] at henters
      | some child =>
          simp only [hchild] at henters
          rw [← hdrop] at hcut
          obtain ⟨hlong, hfits⟩ := @ih (s.opening (some child)) child
            (by rwa [tree_opening]) hrest (by omega) (by rwa [tree_opening])
            (by rwa [tree_opening]) (by rwa [tree_opening]) hne' (by omega) fuel (by omega)
          rw [vfcreateFrom_enters hram hlength (hcut.trans hdrop)
            (by rw [hdrop, List.length_append, List.length_cons]; omega)
            (hnames name List.mem_cons_self) (by omega) hchild]
          refine ⟨fun h => by rw [hlong h, Option.map_none], fun h => ?_⟩
          obtain ⟨s', hcreate, htree⟩ := hfits h
          rw [hcreate, Option.map_some]
          exact ⟨fclose s' child, rfl, by rw [tree_fclose, htree, tree_opening]⟩

/-! ## The new file -/

theorem added_addChild {tree : Tree} {dir : ℕ} {name : CString} (hdir : dir < tree.next) :
    Added tree (tree.addChild dir name flags) dir name where
  next := rfl
  named := by rw [Tree.addChild_new hdir]
  bare := by rw [Tree.addChild_new hdir]
  children := fun file hfile child => Tree.mem_addChild hfile
  directory := by rw [Tree.addChild_parent]
  others := fun file hfile hother => Tree.addChild_other hother (by omega)

namespace NewPath

variable {tree : Tree} (path : NewPath tree)

theorem plain_ne_nil : path.plain ≠ [] := Tree.joinPath_ne_nil (by simp) path.isName

theorem dropSlash_pathname (leading trailing : Bool) :
    dropSlash (path.pathname leading trailing) =
      path.plain ++ if trailing then [slash] else [] := by
  cases leading with
  | true => rfl
  | false =>
      have hdrop := Tree.dropSlash_joinPath path.isName
      obtain ⟨c, rest, hplain⟩ := List.exists_cons_of_ne_nil path.plain_ne_nil
      rw [pathname, if_neg Bool.false_ne_true, List.nil_append, hplain, List.cons_append]
      rw [← NewPath.plain, hplain] at hdrop
      rw [dropSlash] at hdrop ⊢
      split at hdrop
      next => exact absurd hdrop.symm (List.cons_ne_self c rest)
      next hslash => rw [if_neg hslash]

theorem cutSlash_pathname (leading trailing : Bool) :
    cutSlash (dropSlash (path.pathname leading trailing)) = path.plain := by
  rw [path.dropSlash_pathname]
  cases trailing with
  | true => simp [cutSlash]
  | false =>
      rw [if_neg Bool.false_ne_true, List.append_nil]
      exact Tree.cutSlash_joinPath path.isName

theorem length_pathname (leading trailing : Bool) :
    (path.pathname leading trailing).length =
      path.plain.length + leading.toNat + trailing.toNat := by
  cases leading <;> cases trailing <;> simp [pathname]

theorem directories_le : path.directories.length < path.plain.length :=
  Tree.length_lt_joinPath path.isName

theorem dir_lt (hgrown : tree.Grown) : path.dir < tree.next :=
  hgrown.descend hgrown.root path.enters

theorem root_ramfs (path : NewPath tree) (hram : RamFiles tree) :
    (tree.files rootDir).fileops = .ramfs := by
  have henters := path.enters
  cases hdirectories : path.directories with
  | nil =>
      rw [hdirectories] at henters
      have hroot : rootDir = path.dir := Option.some.inj henters
      rw [hroot]
      exact path.ramfs
  | cons name names =>
      rw [hdirectories, Tree.descend] at henters
      cases hchild : tree.enter name rootDir with
      | none => simp [hchild] at henters
      | some child => exact Tree.ramfs_of_enter hram.bareDevice hchild

/-- The directories are still entered. -/
theorem keeps_addChild (hgrown : tree.Grown) (flags : ℕ) :
    tree.Keeps (tree.addChild path.dir path.name flags) := by
  have hdir := path.dir_lt hgrown
  have hkeeps := (Creation.fcreate [] flags).keeps_built hgrown hdir path.absent
  rwa [Creation.built_fcreate hdir] at hkeeps

/-- The path of the new file opens it, if the path fits in the buffers of the
lookup and the file is no mount point. -/
theorem fopen_addChild_iff (hram : RamFiles tree) (flags : ℕ) :
    (tree.addChild path.dir path.name flags).fopen (slash :: path.plain) =
        some (some tree.next) ↔
      path.plain.length < 4096 ∧ path.directories.length < maxTokens ∧
        flags &&& fsFileMount = 0 := by
  have hdir := path.dir_lt hram.grown
  have hkeeps := path.keeps_addChild hram.grown flags
  have hfound : (tree.addChild path.dir path.name flags).searchDir path.name path.dir =
      some tree.next := hram.grown.searchDir_addChild_new hdir path.absent
  have hroot : ((tree.addChild path.dir path.name flags).files rootDir).fileops = .ramfs := by
    rw [(Tree.addChild_kept hram.grown.root).2.2.1]
    exact path.root_ramfs hram
  have hnew : (tree.addChild path.dir path.name flags).files tree.next =
      ⟨path.name, flags % 2 ^ 16, .ramfs, 0, []⟩ := Tree.addChild_new hdir
  have hmount : (tree.addChild path.dir path.name flags).IsMount tree.next ↔
      flags &&& fsFileMount ≠ 0 := by
    have hflags := @Creation.isMount_built_new tree path.dir path.name (.fcreate [] flags) hdir
    rwa [Creation.built_fcreate hdir] at hflags
  have htokens : pathTokens path.plain =
      (path.directories ++ [path.name]).take maxTokens := by
    rw [pathTokens, NewPath.plain, Tree.dropSlash_joinPath path.isName,
      Tree.splitPath_joinPath (by simp) path.isName]
  have hne : slash :: path.plain ≠ [slash] := by
    simpa using path.plain_ne_nil
  have hnext : (tree.addChild path.dir path.name flags).next = tree.next + 1 := rfl
  simp only [Tree.fopen, if_neg hne, dropSlash, if_true, Tree.rfopen, hroot, hnext,
    Tree.resolvePath, htokens]
  by_cases hshort : 4096 ≤ path.plain.length
  · rw [if_pos hshort]
    simp [hshort]
  · rw [if_neg hshort]
    by_cases hnear : path.directories.length < maxTokens
    · rw [List.take_of_length_le (by simpa using hnear),
        Tree.walk_enters (hkeeps.descend hram.grown hram.grown.root path.enters), Tree.walk,
        hfound]
      by_cases hflags : flags &&& fsFileMount = 0
      · simp only [hmount, hflags]
        simp [hnear, Nat.not_le.mp hshort, Tree.walk]
      · simp only [hmount, if_pos hflags, hnew]
        simp only [hflags, and_false, iff_false]
        intro hresolve
        have hnone := Tree.resolvePath_bare (by rw [hnew]) hresolve
        simp at hnone
    · obtain ⟨entry, hentry, -⟩ : ∃ entry,
          tree.descend (path.directories.take maxTokens) rootDir = some entry ∧
            tree.descend (path.directories.drop maxTokens) entry = some path.dir := by
        rw [← Option.bind_eq_some_iff, ← Tree.descend_append, List.take_append_drop]
        exact path.enters
      have hold := hram.grown.descend hram.grown.root hentry
      rw [List.take_append_of_le_length (by omega),
        Tree.walk_descend (hkeeps.descend hram.grown hram.grown.root hentry)]
      simp only [hnear, false_and, and_false, iff_false, Option.some.injEq]
      omega

end NewPath

/-- What `fcreate` does with a path that starts in a directory of the root. -/
theorem fcreate_under {relpath name last : CString} {names : List CString} {dir : ℕ}
    (hram : RamFiles s.tree) (hlength : relpath.length % 4096 ≠ 0)
    (hnames : ∀ part ∈ name :: names ++ [last], Tree.IsName part)
    (hcut : cutSlash (dropSlash relpath) = Tree.joinPath (name :: names ++ [last]))
    (hlonger : (Tree.joinPath (name :: names ++ [last])).length ≤ (dropSlash relpath).length)
    (hshort : (Tree.joinPath (name :: names ++ [last])).length ≤ 4096)
    (hfuel : names.length < relpath.length)
    (henters : s.tree.descend (name :: names) rootDir = some dir) (hdir : s.tree.IsDir dir)
    (hops : (s.tree.files dir).fileops = .ramfs) :
    (75 < last.length → fcreate s relpath flags = none) ∧
      (last.length ≤ 75 → ∃ s', fcreate s relpath flags = some (s', some s.tree.next) ∧
        s'.tree = s.tree.addChild dir last flags) := by
  have hrest : ∀ other ∈ names ++ [last], Tree.IsName other := fun other hmem =>
    hnames other (List.mem_cons_of_mem _ hmem)
  have hplain : (Tree.joinPath (name :: names ++ [last])).length =
      name.length + ((Tree.joinPath (names ++ [last])).length + 1) := by
    rw [Tree.joinPath_concat_cons, List.length_append, List.length_cons]
  have hpositive := List.length_pos_iff.mpr (hnames name List.mem_cons_self).1
  rw [fcreate, vfcreate]
  rw [Tree.descend] at henters
  cases hchild : s.tree.enter name rootDir with
  | none => simp [hchild] at henters
  | some child =>
      simp only [hchild] at henters
      obtain ⟨hlong, hfits⟩ := @vfcreateFrom_names (s.opening (some child)) flags
        relpath.length child dir names last (by rwa [tree_opening]) hrest hfuel (by omega)
        (by rwa [tree_opening]) (by rwa [tree_opening]) (by rwa [tree_opening])
      rw [vfcreateFrom_enters hram hlength (hcut.trans (Tree.joinPath_concat_cons _ _ _))
        (by omega) (hnames name List.mem_cons_self) (by omega) hchild]
      refine ⟨fun h => by rw [hlong h, Option.map_none], fun h => ?_⟩
      obtain ⟨s', hcreate, htree⟩ := hfits h
      rw [hcreate, Option.map_some]
      exact ⟨fclose s' child, rfl, by rw [tree_fclose, htree, tree_opening]⟩

/-- What `fcreate` does with a path that fits in its buffer. -/
theorem fcreate_fits {path : NewPath s.tree} (hram : RamFiles s.tree)
    {leading trailing : Bool} (hlength : (path.pathname leading trailing).length % 4096 ≠ 0)
    (hinner : trailing = false ∨ path.directories ≠ []) :
    (75 < path.name.length →
        fcreate s (path.pathname leading trailing) flags = none) ∧
      (path.name.length ≤ 75 → ∃ s',
        fcreate s (path.pathname leading trailing) flags = some (s', some s.tree.next) ∧
          s'.tree = s.tree.addChild path.dir path.name flags) := by
  have hcut := path.cutSlash_pathname leading trailing
  have hdrop := path.dropSlash_pathname leading trailing
  have hnames := path.isName
  have hshort := path.short
  have hfuel := path.directories_le
  have henters := path.enters
  have hlonger := path.length_pathname leading trailing
  rw [NewPath.plain] at hcut hdrop hfuel hlonger
  cases hdirectories : path.directories with
  | nil =>
      obtain rfl : trailing = false := hinner.resolve_right (by simp [hdirectories])
      rw [hdirectories] at henters
      have hroot : rootDir = path.dir := Option.some.inj henters
      rw [if_neg Bool.false_ne_true, List.append_nil, hdirectories] at hdrop
      rw [fcreate, vfcreate, hroot]
      exact vfcreateFrom_name hlength hdrop (hnames path.name (by simp)) path.isDir path.ramfs
  | cons name names =>
      rw [hdirectories] at henters hcut hdrop hnames hshort hfuel hlonger
      rw [List.length_cons] at hfuel
      refine fcreate_under hram hlength hnames hcut ?_ hshort (by omega) henters path.isDir
        path.ramfs
      rw [hdrop, List.length_append]
      exact Nat.le_add_right _ _

/-- A single name with a slash behind it is opened and not created. -/
theorem fcreate_directory_form {path : NewPath s.tree} (hram : RamFiles s.tree)
    {leading : Bool} (hsingle : path.directories = []) {s' : State} {file : ℕ} :
    fcreate s (path.pathname leading true) flags ≠ some (s', some file) := by
  have hcut := path.cutSlash_pathname leading true
  have hdrop := path.dropSlash_pathname leading true
  have hname := path.isName path.name (by simp)
  have henters := path.enters
  have hplain : path.plain = path.name := by
    rw [NewPath.plain, hsingle]
    rfl
  have hroot : rootDir = path.dir := by
    rw [hsingle] at henters
    exact Option.some.inj henters
  have hops := path.ramfs
  have habsent := path.absent
  rw [← hroot] at hops habsent
  rw [fcreate, vfcreate, vfcreateFrom]
  split
  · simp
  · have hlonger : ¬ (path.name ++ [slash]).length ≤ path.name.length := by simp
    rw [if_pos rfl, hplain] at hdrop
    rw [hplain, hdrop] at hcut
    simp only [hdrop, hcut, Tree.firstComponent_of_not_mem hname.2, if_neg hlonger, rfopen,
      Tree.rfopen, hops]
    by_cases hshort : path.name.length < 4096
    · have hnext : 0 < s.tree.next := lt_of_le_of_lt (Nat.zero_le _) hram.grown.root
      have hopen := (Tree.rfopen_name hnext hname hshort hops).1 habsent
      simp only [Tree.rfopen, hops] at hopen
      simp [hopen]
    · cases hfuel : s.tree.next with
      | zero => simp [Tree.resolvePath]
      | succ fuel => simp [Tree.resolvePath, Nat.not_lt.mp hshort]

/-- `fcreate` makes the file in its directory and nothing else, inside its buffer, and
the path opens it, exactly if there is a directory in the path or no slash at its end,
the name fits in its field, the buffers of `fcreate` and `fopen` hold the path, its
components are no more than 1024, and the file is no mount point. -/
theorem fcreate_slashes_iff (s : State) (hram : RamFiles s.tree) (path : NewPath s.tree)
    (leading trailing : Bool) (flags : ℕ) :
    CreatesAndOpens s path (path.pathname leading trailing) flags ↔
      (trailing = false ∨ path.directories ≠ []) ∧ path.name.length ≤ 75 ∧
        path.directories.length < maxTokens ∧ path.plain.length < 4096 ∧
        (path.pathname leading trailing).length ≠ 4096 ∧ flags &&& fsFileMount = 0 := by
  have hpositive := List.length_pos_iff.mpr path.plain_ne_nil
  have hshort := path.short
  have hlength := path.length_pathname leading trailing
  have hleading := Bool.toNat_le leading
  have htrailing := Bool.toNat_le trailing
  rw [← NewPath.plain] at hshort
  have hpage : (path.pathname leading trailing).length % 4096 = 0 ↔
      (path.pathname leading trailing).length = 4096 := by
    omega
  have hopens : ∀ s', s'.tree = s.tree.addChild path.dir path.name flags →
      ((∃ s'', fopen s' (slash :: path.plain) = some (s'', some s.tree.next)) ↔
        path.plain.length < 4096 ∧ path.directories.length < maxTokens ∧
          flags &&& fsFileMount = 0) := by
    intro s' htree
    rw [← path.fopen_addChild_iff hram flags, fopen, htree]
    cases (s.tree.addChild path.dir path.name flags).fopen (slash :: path.plain) <;> simp
  constructor
  · rintro ⟨s', hcreate, -, hopen⟩
    have hinner : trailing = false ∨ path.directories ≠ [] := by
      cases trailing with
      | false => exact Or.inl rfl
      | true =>
          refine Or.inr fun hsingle => ?_
          exact fcreate_directory_form hram hsingle hcreate
    have hpages : (path.pathname leading trailing).length % 4096 ≠ 0 := by
      intro hfull
      rw [fcreate, vfcreate, vfcreateFrom, if_pos hfull] at hcreate
      simp at hcreate
    obtain ⟨hlong, hfits⟩ := @fcreate_fits s flags path hram leading trailing hpages hinner
    have hname : path.name.length ≤ 75 := by
      by_contra hover
      rw [hlong (by omega)] at hcreate
      simp at hcreate
    obtain ⟨mid, hmid, htree⟩ := hfits hname
    obtain rfl : s' = mid := by
      rw [hcreate, Option.some.injEq, Prod.mk.injEq] at hmid
      exact hmid.1
    obtain ⟨hbuffer, hnear, hflags⟩ := (hopens s' htree).mp hopen
    exact ⟨hinner, hname, hnear, hbuffer, mt hpage.mpr hpages, hflags⟩
  · rintro ⟨hinner, hname, hnear, hbuffer, hpages, hflags⟩
    obtain ⟨-, hfits⟩ :=
      @fcreate_fits s flags path hram leading trailing (mt hpage.mp hpages) hinner
    obtain ⟨s', hcreate, htree⟩ := hfits hname
    refine ⟨s', hcreate, ?_, (hopens s' htree).mpr ⟨hbuffer, hnear, hflags⟩⟩
    rw [htree]
    exact added_addChild (path.dir_lt hram.grown)

theorem ramFiles_ramfsInit : RamFiles ramfsInit.tree where
  grown := ramfsInit_grown
  bareDevice := fun _ _ => rfl

/-- A new file `a` in the empty root. -/
def fileInRoot : NewPath ramfsInit.tree where
  directories := []
  name := [0x61]
  dir := 0
  isName := by
    intro part hpart
    obtain rfl : part = [0x61] := by simpa using hpart
    exact ⟨by decide, by decide⟩
  enters := rfl
  isDir := by decide
  ramfs := rfl
  absent := rfl
  short := by decide

theorem fcreate_slashes_leading :
    CreatesAndOpens ramfsInit fileInRoot (fileInRoot.pathname true false) 0 :=
  (fcreate_slashes_iff ramfsInit ramFiles_ramfsInit fileInRoot true false 0).mpr (by decide)

/-- `/a/` is not created. -/
theorem fcreate_trailing_slash_fails :
    ¬ CreatesAndOpens ramfsInit fileInRoot (fileInRoot.pathname true true) 0 := by
  rintro ⟨s', hcreate, -⟩
  exact fcreate_directory_form ramFiles_ramfsInit rfl hcreate

end KimisOS.Vfs
