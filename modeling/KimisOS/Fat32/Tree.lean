import KimisOS.Fat32.Resolve

/-!
# Relative opens

Where the directories of a volume form a tree, a path leads to one entry only.
`fat32_open` forgets the directory that a relative path starts from, so that a
relative open agrees with the joined path where neither names anything.
-/

namespace KimisOS.Fat32

open KimisOS.ByteStore

/-! ## The tree -/

/-- The entry that a lookup finds. -/
def look (root : Root) (vol : Volume) (parent : Dirent) (token : CString) :
    Option (Option (ℕ × Dirent)) :=
  (lookup root vol parent token).map Prod.snd

/-- The walk over components in a volume that stays as it is. -/
def trace (root : Root) (vol : Volume) : Walk → List CString → Option (Option Walk)
  | walk, [] => some (some walk)
  | walk, token :: tokens =>
      match look root vol walk.parent token with
      | none => none
      | some none => some none
      | some (some (i, dirent)) => trace root vol ⟨walk.parent, dirent, i⟩ tokens

/-- The directory and the index of the entry that a walk has come to. -/
def Walk.place (root : Root) (walk : Walk) : ℕ × ℕ :=
  (root.dirCluster walk.lastParent, walk.direntIndex)

/-- The entry that a path names from the root on: `none` when a directory on the
way overruns its buffer. -/
def names (root : Root) (vol : Volume) (path : CString) : Option (Option (ℕ × ℕ)) :=
  (trace root vol .start (pathTokens path)).map (Option.map (Walk.place root))

inductive Reachable (root : Root) (vol : Volume) : Dirent → Prop where
  | zero : Reachable root vol .zero
  | found {parent dirent : Dirent} {token : CString} {i : ℕ}
      (hparent : Reachable root vol parent)
      (hfound : look root vol parent token = some (some (i, dirent))) :
      Reachable root vol dirent

/-- Some name is found in the directory. -/
def Occupied (root : Root) (vol : Volume) (dirent : Dirent) : Prop :=
  ∃ token found, look root vol dirent token = some (some found)

/-- The names that the search compares the entries `.` and `..` with: behind the dot of
the extension stand its three blanks. -/
def dotName : CString := [0x2e, 0x2e, 0x20, 0x20, 0x20]

def dotDotName : CString := [0x2e, 0x2e, 0x2e, 0x20, 0x20, 0x20]

/-- The depth of the directory that a component leads to, from that of the directory it
is looked up in. -/
def LeadsTo (token : CString) (depth next : ℕ) : Prop :=
  if token = dotName then next = depth
  else if token = dotDotName then next + 1 = depth
  else next = depth + 1

/-- Every directory in which something is found has its depth, and only the root
directory has depth 0: the standard gives the entry `..` of a directory in the root
cluster 0, which is not the root's and where nothing is found. -/
structure Levels (root : Root) (vol : Volume) (depth : ℕ → ℕ) : Prop where
  top : depth root.rootDirCluster = 0
  below : ∀ {parent dirent : Dirent} {token : CString} {i : ℕ},
    Reachable root vol parent → look root vol parent token = some (some (i, dirent)) →
    Occupied root vol dirent → 0 < depth (root.dirCluster dirent)
  leads : ∀ {parent dirent : Dirent} {token : CString} {i : ℕ},
    Reachable root vol parent → look root vol parent token = some (some (i, dirent)) →
    Occupied root vol dirent → (∀ c ∈ token, c ≠ 0) →
    LeadsTo token (depth (root.dirCluster parent)) (depth (root.dirCluster dirent))

/-- A mounted tree, with or without the entries `.` and `..`: what is found does not
depend on the window of the table that is cached, and the directories lie on levels. -/
structure IsTree (root : Root) (vol : Volume) : Prop where
  definite : ∀ {vol' : Volume} {parent : Dirent} {token : CString},
    Accessed vol vol' → Reachable root vol parent →
    look root vol' parent token = look root vol parent token
  levels : ∃ depth, Levels root vol depth

theorem LeadsTo.inj {token : CString} {depth depth' next : ℕ}
    (hleads : LeadsTo token depth next) (hleads' : LeadsTo token depth' next) :
    depth = depth' := by
  unfold LeadsTo at hleads hleads'
  split_ifs at hleads hleads' <;> omega

section Tree

variable {root : Root} {base vol : Volume}

/-- The walk of the code is the walk in the tree. -/
theorem IsTree.walkTokens (htree : IsTree root base) (haccessed : Accessed base vol)
    {walk : Walk} {tokens : List CString} (hreach : Reachable root base walk.parent) :
    (∃ read found, Fat32.walkTokens root vol walk tokens = some (read, found) ∧
      trace root base walk tokens = some found ∧ Accessed base read) ∨
    (Fat32.walkTokens root vol walk tokens = none ∧
      trace root base walk tokens = none) := by
  induction tokens generalizing vol walk with
  | nil => exact .inl ⟨vol, some walk, rfl, rfl, haccessed⟩
  | cons token tokens ih =>
      have hlook : look root vol walk.parent token = look root base walk.parent token :=
        htree.definite haccessed hreach
      rw [Fat32.walkTokens, trace, ← hlook, look]
      cases hlookup : lookup root vol walk.parent token with
      | none => exact .inr ⟨rfl, rfl⟩
      | some result =>
          obtain ⟨read, found⟩ := result
          have hnext := haccessed.lookup hlookup
          rw [look, hlookup] at hlook
          cases found with
          | none => exact .inl ⟨read, none, rfl, rfl, hnext⟩
          | some entry => exact ih hnext (hreach.found hlook.symm)

theorem trace_cons_eq_some {walk final : Walk} {token : CString}
    {tokens : List CString} :
    trace root vol walk (token :: tokens) = some (some final) ↔
      ∃ i dirent, look root vol walk.parent token = some (some (i, dirent)) ∧
        trace root vol ⟨walk.parent, dirent, i⟩ tokens = some (some final) := by
  rw [trace]
  cases hlook : look root vol walk.parent token with
  | none => simp
  | some found =>
      cases found with
      | none => simp
      | some entry =>
          obtain ⟨i, dirent⟩ := entry
          simp

theorem trace_append {walk mid : Walk} {tokens tokens' : List CString}
    (hfirst : trace root vol walk tokens = some (some mid)) :
    trace root vol walk (tokens ++ tokens') = trace root vol mid tokens' := by
  induction tokens generalizing walk with
  | nil =>
      obtain rfl := Option.some.inj (Option.some.inj hfirst)
      rfl
  | cons token tokens ih =>
      obtain ⟨i, dirent, hlook, hrest⟩ := trace_cons_eq_some.mp hfirst
      rw [List.cons_append, trace, hlook]
      exact ih hrest

theorem Reachable.trace {walk final : Walk} {tokens : List CString}
    (hwalk : Reachable root vol walk.parent)
    (htrace : Fat32.trace root vol walk tokens = some (some final)) :
    Reachable root vol final.parent := by
  induction tokens generalizing walk with
  | nil =>
      obtain rfl := Option.some.inj (Option.some.inj htrace)
      exact hwalk
  | cons token tokens ih =>
      obtain ⟨i, dirent, hlook, hrest⟩ := trace_cons_eq_some.mp htrace
      exact ih (hwalk.found hlook) hrest

/-- A walk over some component ends at an entry that was found. -/
theorem trace_found {walk final : Walk} {token : CString} {tokens : List CString}
    (hwalk : Reachable root vol walk.parent)
    (htrace : trace root vol walk (token :: tokens) = some (some final)) :
    ∃ parent last i, Reachable root vol parent ∧
      look root vol parent last = some (some (i, final.parent)) := by
  induction tokens generalizing walk token with
  | nil =>
      obtain ⟨i, dirent, hlook, hend⟩ := trace_cons_eq_some.mp htrace
      obtain rfl := Option.some.inj (Option.some.inj hend)
      exact ⟨walk.parent, token, i, hwalk, hlook⟩
  | cons next tokens ih =>
      obtain ⟨i, dirent, hlook, hrest⟩ := trace_cons_eq_some.mp htrace
      exact ih (hwalk.found hlook) hrest

/-- Two walks over the same components that end at the same entry have started on the
same level. -/
theorem Levels.same_start {depth : ℕ → ℕ} (hlevels : Levels root vol depth)
    {walk walk' final final' : Walk} {token : CString} {tokens : List CString}
    (hstrings : ∀ component ∈ token :: tokens, ∀ c ∈ component, c ≠ 0)
    (hreach : Reachable root vol walk.parent)
    (hreach' : Reachable root vol walk'.parent)
    (htrace : trace root vol walk (token :: tokens) = some (some final))
    (htrace' : trace root vol walk' (token :: tokens) = some (some final'))
    (hplace : final.place root = final'.place root) :
    depth (root.dirCluster walk.parent) = depth (root.dirCluster walk'.parent) := by
  induction tokens generalizing walk walk' token with
  | nil =>
      obtain ⟨i, dirent, hlook, hend⟩ := trace_cons_eq_some.mp htrace
      obtain ⟨i', dirent', hlook', hend'⟩ := trace_cons_eq_some.mp htrace'
      obtain rfl := Option.some.inj (Option.some.inj hend)
      obtain rfl := Option.some.inj (Option.some.inj hend')
      exact congrArg depth (Prod.mk.inj hplace).1
  | cons next tokens ih =>
      obtain ⟨i, dirent, hlook, hrest⟩ := trace_cons_eq_some.mp htrace
      obtain ⟨i', dirent', hlook', hrest'⟩ := trace_cons_eq_some.mp htrace'
      have hsame := ih (fun component hmem => hstrings component (List.mem_cons_of_mem _ hmem))
        (hreach.found hlook) (hreach'.found hlook') hrest hrest'
      obtain ⟨j, inner, hinner, -⟩ := trace_cons_eq_some.mp hrest
      obtain ⟨j', inner', hinner', -⟩ := trace_cons_eq_some.mp hrest'
      have hstring := hstrings token (List.mem_cons_self ..)
      have hleads := hlevels.leads hreach hlook ⟨next, (j, inner), hinner⟩ hstring
      have hleads' := hlevels.leads hreach' hlook' ⟨next, (j', inner'), hinner'⟩ hstring
      rw [← hsame] at hleads'
      exact hleads.inj hleads'

/-! ## Relative opens -/

/-- A slash between two paths separates their components. -/
theorem splitPath_append (path path' : CString) :
    splitPath (path ++ slash :: path') = splitPath path ++ splitPath path' := by
  induction path with
  | nil => simp [splitPath]
  | cons c path ih =>
      rw [List.cons_append, splitPath, splitPath, ih]
      by_cases hslash : c = slash
      · rw [if_pos hslash, if_pos hslash]
        rfl
      · rw [if_neg hslash, if_neg hslash]
        cases hsplit : splitPath path with
        | nil => exact absurd hsplit (splitPath_ne_nil path)
        | cons component components => rfl

/-- A path that names something below a directory. -/
structure Relative (path : CString) : Prop where
  nonempty : path ≠ []
  below : path.head? ≠ some slash
  string : ∀ c ∈ path, c ≠ 0

theorem splitPath_string {path : CString} (hpath : ∀ c ∈ path, c ≠ 0) :
    ∀ component ∈ splitPath path, ∀ c ∈ component, c ≠ 0 := by
  induction path with
  | nil => simp [splitPath]
  | cons c path ih =>
      have hrest := ih fun c hmem => hpath c (List.mem_cons_of_mem _ hmem)
      rw [splitPath]
      by_cases hslash : c = slash
      · rw [if_pos hslash]
        exact List.forall_mem_cons.mpr ⟨List.forall_mem_nil _, hrest⟩
      · rw [if_neg hslash]
        cases hsplit : splitPath path with
        | nil => exact absurd hsplit (splitPath_ne_nil path)
        | cons component components =>
            rw [hsplit] at hrest
            have hrest := List.forall_mem_cons.mp hrest
            refine List.forall_mem_cons.mpr ⟨List.forall_mem_cons.mpr ⟨?_, hrest.1⟩, hrest.2⟩
            exact hpath c (List.mem_cons_self ..)

theorem Relative.dropSlash {path : CString} (hrel : Relative path) :
    Fat32.dropSlash path = path := by
  cases path with
  | nil => rfl
  | cons c path =>
      have hne : c ≠ slash := by
        rintro rfl
        exact hrel.below rfl
      rw [Fat32.dropSlash, if_neg hne]

theorem dropSlash_join {path : CString} (hpath : path ≠ []) (path' : CString) :
    dropSlash (path ++ slash :: path') = dropSlash path ++ slash :: path' := by
  cases path with
  | nil => exact absurd rfl hpath
  | cons c path =>
      rw [List.cons_append, dropSlash, dropSlash]
      split <;> rfl

/-- `fat32_open` opens the entry that the path names. -/
theorem IsTree.fat32Open (htree : IsTree root base) (haccessed : Accessed base vol)
    {path : CString} (hpath : path ≠ []) (hlength : path.length < 4096)
    (parent : VFile) :
    (∃ read found, Fat32.fat32Open root vol path parent = some (read, found) ∧
      names root base path = some (found.map VFile.place) ∧ Accessed base read) ∨
    (Fat32.fat32Open root vol path parent = none ∧ names root base path = none) := by
  rw [Fat32.fat32Open, resolvePath, if_neg hpath, if_neg (Nat.not_le.mpr hlength), names]
  rcases @IsTree.walkTokens root base vol htree haccessed .start (pathTokens path) .zero with
    ⟨read, found, hwalk, htrace, hnext⟩ | ⟨hwalk, htrace⟩
  · rw [hwalk, htrace]
    cases found with
    | none => exact .inl ⟨read, none, by simp [hpath], rfl, hnext⟩
    | some walk => exact .inl ⟨read, _, rfl, rfl, hnext⟩
  · rw [hwalk, htrace]
    exact .inr ⟨rfl, rfl⟩

/-- A path that names a directory: the empty one the root, any other an entry
with the directory flag. -/
def NamesDirectory (root : Root) (vol : Volume) (path : CString) : Prop :=
  path = [] ∨ path.length < 4096 ∧
    ∃ walk, trace root vol .start (pathTokens path) = some (some walk) ∧
      walk.parent.flags &&& 0x10 ≠ 0

/-- Both calls return, and open the same entry or nothing. -/
def SameEntry (opened opened' : Option (Volume × Option VFile)) : Prop :=
  ∃ vol vol' file file', opened = some (vol, file) ∧ opened' = some (vol', file') ∧
    file.map VFile.place = file'.map VFile.place

/-- When a relative open does what it should: the directory is the root, or
neither path names anything.  Of more than 1024 components the last are dropped,
so that both paths may name the same entry. -/
def ComposesAt (root : Root) (vol : Volume) (path path' : CString) : Prop :=
  (path ++ slash :: path').length < 4096 ∧
    (path = [] ∧ names root vol path' ≠ none ∨
      names root vol path' = some none ∧
        names root vol (path ++ slash :: path') = some none ∨
      maxTokens < (splitPath (dropSlash (path ++ slash :: path'))).length ∧
        ∃ place, names root vol path' = some (some place) ∧
          names root vol (path ++ slash :: path') = some (some place))

theorem names_eq_some {path : CString} {place : ℕ × ℕ} :
    names root vol path = some (some place) ↔
      ∃ final, trace root vol .start (pathTokens path) = some (some final) ∧
        final.place root = place := by
  simp [names, Option.map_eq_some_iff]

/-- In a tree, no path from the root and from another directory leads to the
same entry. -/
theorem IsTree.names_ne (htree : IsTree root vol) {path path' : CString}
    (hpath : path ≠ []) (hdir : NamesDirectory root vol path) (hrel : Relative path')
    (hfew : (splitPath (dropSlash (path ++ slash :: path'))).length ≤ maxTokens)
    {place : ℕ × ℕ} (hnames : names root vol path' = some (some place)) :
    names root vol (path ++ slash :: path') ≠ some (some place) := by
  intro hjoined
  obtain ⟨-, mid, hmid, -⟩ := hdir.resolve_left hpath
  rw [dropSlash_join hpath, splitPath_append, List.length_append] at hfew
  have htokens : pathTokens path = splitPath (dropSlash path) :=
    List.take_of_length_le (by omega)
  have htokens' : pathTokens path' = splitPath path' := by
    rw [pathTokens, hrel.dropSlash]
    exact List.take_of_length_le (by omega)
  have hboth : pathTokens (path ++ slash :: path') =
      splitPath (dropSlash path) ++ splitPath path' := by
    rw [pathTokens, dropSlash_join hpath, splitPath_append]
    exact List.take_of_length_le (by rw [List.length_append]; exact hfew)
  rw [htokens] at hmid
  obtain ⟨token, tokens, hsplit⟩ := List.exists_cons_of_ne_nil
    (splitPath_ne_nil (dropSlash path))
  obtain ⟨token', tokens', hsplit'⟩ := List.exists_cons_of_ne_nil
    (splitPath_ne_nil path')
  obtain ⟨final, htrace, hplace⟩ := names_eq_some.mp hnames
  obtain ⟨final', htrace', hplace'⟩ := names_eq_some.mp hjoined
  rw [htokens', hsplit'] at htrace
  rw [hboth, trace_append hmid, hsplit'] at htrace'
  obtain ⟨depth, hlevels⟩ := htree.levels
  have hstrings := splitPath_string hrel.string
  rw [hsplit'] at hstrings
  have hreach : Reachable root vol mid.parent := Reachable.zero.trace hmid
  have hsame : depth root.rootDirCluster = depth (root.dirCluster mid.parent) :=
    hlevels.same_start hstrings .zero hreach htrace htrace' (hplace.trans hplace'.symm)
  rw [hsplit] at hmid
  obtain ⟨parent, last, i, hparent, hlook⟩ := trace_found .zero hmid
  obtain ⟨j, dirent, hinner, -⟩ := trace_cons_eq_some.mp htrace'
  have hdeep := hlevels.below hparent hlook ⟨token', (j, dirent), hinner⟩
  rw [← hsame, hlevels.top] at hdeep
  exact absurd hdeep (lt_irrefl 0)

/-- The entry of a path behind the empty one. -/
theorem names_slash {path' : CString} (hrel : Relative path') :
    names root vol ([] ++ slash :: path') = names root vol path' := by
  have htokens : pathTokens ([] ++ slash :: path') = pathTokens path' := by
    rw [pathTokens, pathTokens, hrel.dropSlash, List.nil_append, dropSlash, if_pos rfl]
  rw [names, names, htokens]

theorem IsTree.open_directory (htree : IsTree root vol) {path : CString}
    (hdir : NamesDirectory root vol path) (mount : VFile) :
    ∃ opened directory, Fat32.fat32Open root vol path mount =
      some (opened, some directory) ∧ Accessed vol opened := by
  by_cases hpath : path = []
  · subst hpath
    have hopen : ∃ directory, Fat32.fat32Open root vol [] mount =
        some (vol, some directory) := by
      rw [Fat32.fat32Open, resolvePath, if_pos rfl]
      exact ⟨_, rfl⟩
    obtain ⟨directory, hdirectory⟩ := hopen
    exact ⟨vol, directory, hdirectory, .refl⟩
  · obtain ⟨hlength, walk, htrace, -⟩ := hdir.resolve_left hpath
    have hnames : names root vol path = some (some (walk.place root)) :=
      names_eq_some.mpr ⟨walk, htrace, rfl⟩
    rcases htree.fat32Open .refl hpath hlength mount with
      ⟨opened, found, hopen, hfound, hnext⟩ | ⟨-, hnone⟩
    · rw [hnames] at hfound
      cases found with
      | none => cases hfound
      | some directory => exact ⟨opened, directory, hopen, hnext⟩
    · rw [hnames] at hnone
      cases hnone

/-- Two opens agree when their paths name the same. -/
theorem IsTree.sameEntry_iff (htree : IsTree root vol) {opened : Volume}
    (haccessed : Accessed vol opened) {path' joined : CString} (hpath' : path' ≠ [])
    (hlength' : path'.length < 4096)
    (hjoined : joined ≠ []) (hlength : joined.length < 4096) (directory mount : VFile) :
    SameEntry (Fat32.fat32Open root opened path' directory)
        (Fat32.fat32Open root vol joined mount) ↔
      ∃ place, names root vol path' = some place ∧
        names root vol joined = some place := by
  have hfirst := htree.fat32Open haccessed hpath' hlength' directory
  have hsecond := htree.fat32Open .refl hjoined hlength mount
  constructor
  · rintro ⟨read, read', file, file', hopen, hopen', hplace⟩
    rcases hfirst with ⟨_, _, heq, hnames, -⟩ | ⟨heq, -⟩
    · obtain ⟨-, rfl⟩ := Prod.mk.inj (Option.some.inj (heq.symm.trans hopen))
      rcases hsecond with ⟨_, _, heq', hnames', -⟩ | ⟨heq', -⟩
      · obtain ⟨-, rfl⟩ := Prod.mk.inj (Option.some.inj (heq'.symm.trans hopen'))
        exact ⟨_, hnames, hnames'.trans (congrArg some hplace.symm)⟩
      · rw [heq'] at hopen'
        cases hopen'
    · rw [heq] at hopen
      cases hopen
  · rintro ⟨place, hnames, hnames'⟩
    rcases hfirst with ⟨read, file, hopen, hfile, -⟩ | ⟨-, hnone⟩
    · rcases hsecond with ⟨read', file', hopen', hfile', -⟩ | ⟨-, hnone⟩
      · refine ⟨read, read', file, file', hopen, hopen', ?_⟩
        rw [hnames] at hfile
        rw [hnames'] at hfile'
        exact (Option.some.inj hfile).symm.trans (Option.some.inj hfile')
      · rw [hnames'] at hnone
        cases hnone
    · rw [hnames] at hnone
      cases hnone

end Tree

/-! ## A small tree -/

theorem Quiet.definite {root : Root} {vol vol' : Volume} (hquiet : Quiet vol)
    (haccessed : Accessed vol vol') (parent : Dirent) (token : CString) :
    look root vol' parent token = look root vol parent token := by
  rcases @lookup_alike root vol vol' vol parent token (.accessed hquiet haccessed)
    hquiet.alike with ⟨read, read', found, hread, hread', -⟩ | ⟨hread, hread'⟩
  · rw [look, look, hread, hread']
    rfl
  · rw [look, look, hread, hread']

theorem look_eq {root : Root} {vol read : Volume} {parent : Dirent} {token : CString}
    {dirData : ℕ → UInt8}
    (hread : fat32ReadDirent root vol parent (sizeToAlloc parent) = some (read, dirData)) :
    look root vol parent token =
      (fat32SearchDir token dirData).map
        (Option.map fun i => (i, direntAt dirData i)) := by
  rw [look, lookup, hread]
  dsimp only
  cases fat32SearchDir token dirData with
  | none => rfl
  | some found =>
      cases found with
      | none => rfl
      | some i => rfl

theorem search_empty {token : CString} {dirData : ℕ → UInt8}
    (hempty : (direntAt dirData 0).name0 = 0) :
    fat32SearchDir token dirData = some none := by
  rw [fat32SearchDir, searchFrom, if_neg (fun h => h.1 hempty)]

/-- Among short entries, the search finds one whose name equals the component. -/
theorem searchFrom_among {token : CString} {dirData : ℕ → UInt8} {rounds n i j : ℕ}
    (hshort : ∀ k < n, (direntAt dirData k).flags ≠ fat32LongFileName)
    (hend : (direntAt dirData n).name0 = 0) (hi : i ≤ n)
    (hfound : searchFrom token dirData rounds i = some (some j)) :
    j < n ∧ equalsName (fat32CopyShortFilename dirData j) token 0 = some true := by
  induction rounds generalizing i with
  | zero => cases hfound
  | succ rounds ih =>
      rw [searchFrom] at hfound
      split at hfound
      case isFalse => cases hfound
      case isTrue hround =>
        have hlt : i < n := by
          refine lt_of_le_of_ne hi ?_
          rintro rfl
          exact hround.1 hend
        rw [nameAt, if_neg (hshort i hlt)] at hfound
        dsimp only at hfound
        split at hfound
        case h_1 => cases hfound
        case h_2 hequal =>
          obtain rfl := Option.some.inj (Option.some.inj hfound)
          exact ⟨hlt, hequal⟩
        case h_3 => exact ih hlt hfound

theorem search_among {token : CString} {dirData : ℕ → UInt8} {n j : ℕ}
    (hshort : ∀ k < n, (direntAt dirData k).flags ≠ fat32LongFileName)
    (hend : (direntAt dirData n).name0 = 0)
    (hfound : fat32SearchDir token dirData = some (some j)) :
    j < n ∧ equalsName (fat32CopyShortFilename dirData j) token 0 = some true :=
  searchFrom_among hshort hend (Nat.zero_le n) hfound

/-- A directory `D` in cluster 3 with the entries `.` and `..` and an empty file `F`. -/
def treeDevice (a : ℕ) : UInt8 :=
  if 16384 ≤ a ∧ a < 16400 then 0xff
  else if a = 540672 then 0x44
  else if a = 540683 then 0x10
  else if a = 540698 then 3
  else if a = 541184 ∨ a = 541216 ∨ a = 541217 then 0x2e
  else if a = 541195 ∨ a = 541227 then 0x10
  else if a = 541210 then 3
  else if 541184 ≤ a ∧ a < 541195 ∨ 541216 ≤ a ∧ a < 541227 then 0x20
  else if a = 541248 then 0x46
  else if a = 541259 then 0x20
  else 0

def treeVolume : Volume := { zeroVolume with device := treeDevice }

def treeRoot : Root := ⟨2, fun _ => 0⟩

def treeMount : VFile := ⟨0x100, ⟨2, 0, 0, 0, 0⟩⟩

theorem treeVolume_quiet : Quiet treeVolume :=
  ⟨FreshCache.inv ⟨rfl, rfl⟩ le_rfl rfl, rfl⟩

/-- The buffer for a directory of one cluster. -/
def treeBuffer (cluster : ℕ) : ℕ → UInt8 :=
  store (fun _ => 0) 0 (load treeDevice (treeVolume.mount.clusterOffsetStart cluster)) 512

theorem treeVolume_read {parent : Dirent}
    (hend : fat32EocMin ≤ (fat32GetNextCluster treeVolume (treeRoot.dirCluster parent)).2)
    (hcluster : treeRoot.dirCluster parent < fat32EocMin) :
    fat32ReadDirent treeRoot treeVolume parent 8 =
      some ((fat32GetNextCluster treeVolume (treeRoot.dirCluster parent)).1,
        treeBuffer (treeRoot.dirCluster parent)) := by
  have hroom : 8 * 4096 / treeVolume.mount.bpb.clusterSizeBytes = 63 + 1 := by decide
  rw [fat32ReadDirent, hroom, readDirentFrom, if_pos hcluster]
  dsimp only
  rw [readDirentFrom, if_neg (Nat.not_lt.mpr hend)]
  rfl

theorem treeVolume_look {parent : Dirent} {token : CString}
    (hend : fat32EocMin ≤ (fat32GetNextCluster treeVolume (treeRoot.dirCluster parent)).2)
    (hcluster : treeRoot.dirCluster parent < fat32EocMin)
    (hsize : sizeToAlloc parent = 8) :
    look treeRoot treeVolume parent token =
      (fat32SearchDir token (treeBuffer (treeRoot.dirCluster parent))).map
        (Option.map fun i =>
          (i, direntAt (treeBuffer (treeRoot.dirCluster parent)) i)) := by
  apply look_eq
  rw [hsize]
  exact treeVolume_read hend hcluster

def treeDirectory : Dirent := ⟨0x44, 0x10, 3, 0⟩

def treeDot : Dirent := ⟨0x2e, 0x10, 3, 0⟩

def treeDotDot : Dirent := ⟨0x2e, 0x10, 0, 0⟩

def treeFile : Dirent := ⟨0x46, 0x20, 0, 0⟩

/-- The chains end after their first cluster. -/
theorem treeVolume_ends :
    ∀ parent ∈ [Dirent.zero, treeDirectory, treeDot, treeDotDot, treeFile],
      fat32EocMin ≤ (fat32GetNextCluster treeVolume (treeRoot.dirCluster parent)).2 ∧
        treeRoot.dirCluster parent < fat32EocMin := by
  decide +kernel

/-- What the directories hold, and what is found in them. -/
theorem treeBuffer_entries :
    (direntAt (treeBuffer 2) 0 = treeDirectory ∧ (direntAt (treeBuffer 2) 1).name0 = 0 ∧
      fat32SearchDir [0x44] (treeBuffer 2) = some (some 0) ∧
      fat32SearchDir [0x46] (treeBuffer 2) = some none ∧
      fat32SearchDir [0x58] (treeBuffer 2) = some none) ∧
    ((direntAt (treeBuffer 3) 0 = treeDot ∧ direntAt (treeBuffer 3) 1 = treeDotDot ∧
      direntAt (treeBuffer 3) 2 = treeFile) ∧ (direntAt (treeBuffer 3) 3).name0 = 0 ∧
      fat32SearchDir [0x46] (treeBuffer 3) = some (some 2) ∧
      fat32SearchDir [0x58] (treeBuffer 3) = some none) ∧
    (direntAt (treeBuffer 0) 0).name0 = 0 := by
  decide +kernel

theorem treeVolume_look_root (token : CString) :
    look treeRoot treeVolume .zero token =
      (fat32SearchDir token (treeBuffer 2)).map
        (Option.map fun i => (i, direntAt (treeBuffer 2) i)) := by
  have hends := treeVolume_ends .zero (by decide)
  exact treeVolume_look hends.1 hends.2 rfl

theorem treeVolume_look_directory (token : CString) :
    look treeRoot treeVolume treeDirectory token =
      (fat32SearchDir token (treeBuffer 3)).map
        (Option.map fun i => (i, direntAt (treeBuffer 3) i)) := by
  have hends := treeVolume_ends treeDirectory (by decide)
  exact treeVolume_look hends.1 hends.2 rfl

theorem treeVolume_root {token : CString} {i : ℕ} {dirent : Dirent}
    (hlook : look treeRoot treeVolume .zero token = some (some (i, dirent))) :
    dirent = treeDirectory ∧
      equalsName (fat32CopyShortFilename (treeBuffer 2) 0) token 0 = some true := by
  rw [treeVolume_look_root] at hlook
  obtain ⟨found, hsearch, hfound⟩ := Option.map_eq_some_iff.mp hlook
  obtain ⟨j, rfl, hentry⟩ := Option.map_eq_some_iff.mp hfound
  obtain ⟨hfirst, hend, -⟩ := treeBuffer_entries.1
  obtain ⟨hlt, hequal⟩ := search_among (n := 1) (by decide +kernel) hend hsearch
  obtain rfl : j = 0 := by omega
  exact ⟨by rw [← (Prod.mk.inj hentry).2, hfirst], hequal⟩

theorem treeBuffer_dot : Spells (fat32CopyShortFilename (treeBuffer 3) 0) dotName := by
  have hchars : ∀ k < 5, fat32CopyShortFilename (treeBuffer 3) 0 k = dotName.getD k 0 := by
    decide +kernel
  refine ⟨by decide, by simp [dotName], ?_, by decide +kernel⟩
  intro k c hchar
  obtain ⟨hk, hvalue⟩ := List.getElem?_eq_some_iff.mp hchar
  rw [hchars k hk, List.getD_eq_getElem _ _ hk, hvalue]

/-- Only the entry `.` of the directory, and of `.`, leads to a directory with entries. -/
theorem treeVolume_directory {parent dirent : Dirent} {token : CString} {i : ℕ}
    (hparent : parent = treeDirectory ∨ parent = treeDot)
    (hlook : look treeRoot treeVolume parent token = some (some (i, dirent))) :
    dirent = treeDot ∧ ((∀ c ∈ token, c ≠ 0) → token = dotName) ∨
      dirent = treeDotDot ∨ dirent = treeFile := by
  have hbuffer : look treeRoot treeVolume parent token =
      (fat32SearchDir token (treeBuffer 3)).map
        (Option.map fun i => (i, direntAt (treeBuffer 3) i)) := by
    rcases hparent with rfl | rfl
    · exact treeVolume_look_directory token
    · have hends := treeVolume_ends treeDot (by decide)
      exact treeVolume_look hends.1 hends.2 rfl
  rw [hbuffer] at hlook
  obtain ⟨found, hsearch, hfound⟩ := Option.map_eq_some_iff.mp hlook
  obtain ⟨j, rfl, hentry⟩ := Option.map_eq_some_iff.mp hfound
  obtain ⟨⟨hdot, hdotDot, hfile⟩, hend, -⟩ := treeBuffer_entries.2.1
  obtain ⟨hlt, hequal⟩ := search_among (n := 3) (by decide +kernel) hend hsearch
  rw [← (Prod.mk.inj hentry).2]
  interval_cases j
  · refine .inl ⟨hdot, ?_⟩
    intro hstring
    rw [treeBuffer_dot.equalsName hstring] at hequal
    exact of_decide_eq_true (Option.some.inj hequal)
  · exact .inr (.inl hdotDot)
  · exact .inr (.inr hfile)

/-- In the cluster 0 nothing is found. -/
theorem treeVolume_zero {parent : Dirent} (hparent : parent = treeDotDot ∨ parent = treeFile)
    (token : CString) : look treeRoot treeVolume parent token = some none := by
  have hends := treeVolume_ends parent (by rcases hparent with rfl | rfl <;> decide)
  have hcluster : treeRoot.dirCluster parent = 0 := by
    rcases hparent with rfl | rfl <;> rfl
  have hsize : sizeToAlloc parent = 8 := by
    rcases hparent with rfl | rfl <;> rfl
  rw [treeVolume_look hends.1 hends.2 hsize, hcluster, search_empty treeBuffer_entries.2.2]
  rfl

theorem treeVolume_reachable {dirent : Dirent}
    (hreach : Reachable treeRoot treeVolume dirent) :
    dirent = .zero ∨ (dirent = treeDirectory ∨ dirent = treeDot) ∨
      (dirent = treeDotDot ∨ dirent = treeFile) := by
  induction hreach with
  | zero => exact .inl rfl
  | found hparent hlook ih =>
      rcases ih with rfl | hdirectory | hempty
      · exact .inr (.inl (.inl (treeVolume_root hlook).1))
      · rcases treeVolume_directory hdirectory hlook with ⟨hdot, -⟩ | hother
        · exact .inr (.inl (.inr hdot))
        · exact .inr (.inr hother)
      · rw [treeVolume_zero hempty] at hlook
        cases hlook

theorem treeVolume_unoccupied {dirent : Dirent}
    (hdirent : dirent = treeDotDot ∨ dirent = treeFile) :
    ¬Occupied treeRoot treeVolume dirent := by
  rintro ⟨token, found, hlook⟩
  rw [treeVolume_zero hdirent] at hlook
  cases hlook

/-- The root is on level 0, `D` on level 1. -/
theorem treeVolume_levels :
    Levels treeRoot treeVolume fun cluster => if cluster = 2 then 0 else 1 := by
  have hfound : ∀ {parent dirent : Dirent} {token : CString} {i : ℕ},
      Reachable treeRoot treeVolume parent →
      look treeRoot treeVolume parent token = some (some (i, dirent)) →
      Occupied treeRoot treeVolume dirent →
      (parent = .zero ∧ dirent = treeDirectory ∧ token ≠ dotName ∧ token ≠ dotDotName) ∨
        ((parent = treeDirectory ∨ parent = treeDot) ∧ dirent = treeDot ∧
          ((∀ c ∈ token, c ≠ 0) → token = dotName)) := by
    intro parent dirent token i hparent hlook hoccupied
    rcases treeVolume_reachable hparent with rfl | hdirectory | hempty
    · obtain ⟨hdirent, hequal⟩ := treeVolume_root hlook
      refine .inl ⟨rfl, hdirent, ?_, ?_⟩
      · rintro rfl
        exact absurd hequal (by decide +kernel)
      · rintro rfl
        exact absurd hequal (by decide +kernel)
    · rcases treeVolume_directory hdirectory hlook with ⟨hdot, hname⟩ | hother
      · exact .inr ⟨hdirectory, hdot, hname⟩
      · exact absurd hoccupied (treeVolume_unoccupied hother)
    · rw [treeVolume_zero hempty] at hlook
      cases hlook
  refine ⟨rfl, ?_, ?_⟩
  · intro parent dirent token i hparent hlook hoccupied
    rcases hfound hparent hlook hoccupied with ⟨-, rfl, -⟩ | ⟨-, rfl, -⟩
    · decide
    · decide
  · intro parent dirent token i hparent hlook hoccupied hstring
    rcases hfound hparent hlook hoccupied with ⟨rfl, rfl, hdot, hdotDot⟩ | ⟨hparent, rfl, hname⟩
    · rw [LeadsTo, if_neg hdot, if_neg hdotDot]
      rfl
    · rw [LeadsTo, if_pos (hname hstring)]
      rcases hparent with rfl | rfl <;> rfl

theorem treeVolume_isTree : IsTree treeRoot treeVolume where
  definite haccessed _ := treeVolume_quiet.definite haccessed _ _
  levels := ⟨_, treeVolume_levels⟩

theorem treeVolume_trace_directory (tokens : List CString) :
    trace treeRoot treeVolume .start ([0x44] :: tokens) =
      trace treeRoot treeVolume ⟨.zero, treeDirectory, 0⟩ tokens := by
  have hlook : look treeRoot treeVolume Walk.start.parent [0x44] =
      some (some (0, treeDirectory)) := by
    obtain ⟨hfirst, -, hfound, -⟩ := treeBuffer_entries.1
    rw [Walk.start, treeVolume_look_root, hfound, Option.map_some, Option.map_some, hfirst]
  rw [trace, hlook]
  rfl

theorem treeVolume_namesDirectory : NamesDirectory treeRoot treeVolume [0x44] := by
  refine .inr ⟨by decide, ⟨.zero, treeDirectory, 0⟩, ?_, by decide⟩
  have htokens : pathTokens [0x44] = [[0x44]] := by decide
  rw [htokens, treeVolume_trace_directory]
  rfl

end KimisOS.Fat32
