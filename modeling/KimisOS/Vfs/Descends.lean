import KimisOS.Fat32.Descends
import KimisOS.Vfs.Ramfs

/-!
# What paths go through

The resolver of the RAM file system takes the contents of whatever a name has led to
for an array of pointers to children, and that of the FAT driver takes them for
directory entries.  Neither looks at the attribute of a directory, which
`ramfs_create` does look at.
-/

namespace KimisOS.Vfs

open KimisOS.Fat32

/-! ## The RAM file system in memory -/

/-- The fields of the `vfile_t` at an address that the resolver reads. -/
structure RamFile where
  name : CString
  flags : ℕ
  privatePtr : ℕ
  size : ℕ
  deriving DecidableEq

/-- Memory, read as files and as pointers. -/
structure RamMemory where
  file : ℕ → RamFile
  word : ℕ → ℕ

/-- A RAM tree: memory with the address of a root, which is a directory. -/
structure MemoryTree where
  mem : RamMemory
  root : ℕ
  rootIsDir : (mem.file root).flags &&& fsFileIsDir ≠ 0

namespace RamMemory

def isDir (mem : RamMemory) (entry : ℕ) : Bool :=
  decide ((mem.file entry).flags &&& fsFileIsDir ≠ 0)

def isMount (mem : RamMemory) (entry : ℕ) : Bool :=
  decide ((mem.file entry).flags &&& fsFileMount ≠ 0)

/-- A file has contents that a pointer can be read from. -/
def HasData (mem : RamMemory) (entry : ℕ) : Prop :=
  (mem.file entry).privatePtr ≠ 0 ∧ 4 ≤ (mem.file entry).size

/-- The loop of `search_dir` from index `i` on. -/
def searchChildren (mem : RamMemory) (subname : CString) (children : ℕ) : ℕ → ℕ → Option ℕ
  | 0, _ => none
  | rounds + 1, i =>
      let child := mem.word (children + 4 * i)
      if child ≠ 0 ∧ (mem.file child).name = subname then some child
      else searchChildren mem subname children rounds (i + 1)

/-- `search_dir`. -/
def searchDir (mem : RamMemory) (directory : ℕ) (subname : CString) : Option ℕ :=
  if (mem.file directory).privatePtr = 0 then none
  else searchChildren mem subname (mem.file directory).privatePtr
    ((mem.file directory).size / 4) 0

/-- The loop of `resolve_path`, with the files whose contents were searched.  A mount
goes on with the `rfopen` of its driver. -/
def resolveTokens (mem : RamMemory) (rfopen : CString → ℕ → Option ℕ) :
    List CString → CString → ℕ → Option ℕ × List ℕ
  | [], _, entry => (some entry, [])
  | token :: tokens, currentPath, entry =>
      match mem.searchDir entry token with
      | none => (none, [entry])
      | some child =>
          let currentPath := Tree.advance currentPath token
          if mem.isMount child then (rfopen currentPath child, [entry])
          else
            let rest := resolveTokens mem rfopen tokens currentPath child
            (rest.1, entry :: rest.2)

/-- `resolve_path`.  The path is copied into one page. -/
def resolvePath (mem : RamMemory) (rfopen : CString → ℕ → Option ℕ) (pathname : CString)
    (start : ℕ) : Option ℕ × List ℕ :=
  if 4096 ≤ pathname.length then (none, [])
  else mem.resolveTokens rfopen (pathTokens pathname) pathname start

/-- What components name when only directories are gone through. -/
def named (mem : RamMemory) (start : ℕ) (tokens : List CString) : Option ℕ :=
  Descent.named mem.searchDir (fun entry => mem.isDir entry && !mem.isMount entry) start
    tokens

end RamMemory

/-- The resolver of the RAM file system descends through directories only: when it
returns a file, every component but the last names a directory, or is at or behind one
that names a mount; and it reads children of directories only. -/
structure RamDescends (tree : MemoryTree) (rfopen : CString → ℕ → Option ℕ)
    (path : CString) : Prop where
  found : ∀ file, (tree.mem.resolvePath rfopen path tree.root).1 = some file →
    ∀ before token after, pathTokens path = before ++ token :: after → before ≠ [] →
      (∃ entry, tree.mem.named tree.root before = some entry ∧
        tree.mem.isDir entry = true) ∨
      ∃ front entry, front ≠ [] ∧ front <+: before ∧
        tree.mem.named tree.root front = some entry ∧ tree.mem.isMount entry = true
  searched : ∀ entry ∈ (tree.mem.resolvePath rfopen path tree.root).2,
    tree.mem.isDir entry = true ∨ ¬ tree.mem.HasData entry

/-- No component but the last names a file with contents that is neither a directory
nor a mount. -/
def RamNamesDirectories (tree : MemoryTree) (path : CString) : Prop :=
  path.length < 4096 → ∀ before token after,
    pathTokens path = before ++ token :: after → before ≠ [] →
    ∀ entry, tree.mem.named tree.root before = some entry →
      tree.mem.isMount entry = false →
        tree.mem.isDir entry = true ∨ ¬ tree.mem.HasData entry

/-! ## The tree in memory -/

/-- The slot of the array `children` at an index. -/
def RamMemory.slot (mem : RamMemory) (children i : ℕ) : Option ℕ :=
  let child := mem.word (children + 4 * i)
  if child = 0 then none else some child

/-- The tree of files that memory holds when the contents of every file are taken for
pointers, as the resolver does. -/
def RamMemory.toTree (mem : RamMemory) : Tree where
  files := fun entry =>
    { name := (mem.file entry).name
      flags := (mem.file entry).flags
      fileops := .ramfs
      id := 0
      children :=
        if (mem.file entry).privatePtr = 0 then []
        else (List.range' 0 ((mem.file entry).size / 4)).map
          (mem.slot (mem.file entry).privatePtr) }
  next := 0

section Ram

variable {mem : RamMemory} {rfopen : CString → ℕ → Option ℕ} {tokens : List CString}
  {currentPath : CString} {entry : ℕ}

theorem searchChildren_toTree (token : CString) (children rounds i : ℕ) :
    mem.toTree.searchChildren token ((List.range' i rounds).map (mem.slot children)) =
      mem.searchChildren token children rounds i := by
  induction rounds generalizing i with
  | zero => rfl
  | succ rounds ih =>
      rw [List.range'_succ, List.map_cons, RamMemory.slot, RamMemory.searchChildren]
      by_cases hnull : mem.word (children + 4 * i) = 0
      · rw [if_pos hnull, if_neg (fun hchild => hchild.1 hnull), Tree.searchChildren]
        exact ih (i + 1)
      · rw [if_neg hnull, Tree.searchChildren, ih (i + 1)]
        by_cases hname : (mem.toTree.files (mem.word (children + 4 * i))).name = token
        · rw [if_pos hname]
          exact (if_pos ⟨hnull, hname⟩).symm
        · rw [if_neg hname]
          exact (if_neg fun hchild => hname hchild.2).symm

theorem searchDir_toTree (entry : ℕ) (token : CString) :
    mem.toTree.searchDir token entry = mem.searchDir entry token := by
  rw [Tree.searchDir, RamMemory.searchDir]
  by_cases hnull : (mem.file entry).privatePtr = 0
  · rw [if_pos hnull, RamMemory.toTree]
    dsimp only
    rw [if_pos hnull]
    rfl
  · rw [if_neg hnull, ← searchChildren_toTree]
    exact congrArg (mem.toTree.searchChildren token) (if_neg hnull)

/-- The resolver over memory is the one over the tree that memory holds. -/
theorem resolveTokens_toTree :
    mem.toTree.walk (fun currentPath entry => some (rfopen currentPath entry)) tokens
        currentPath entry =
      some (mem.resolveTokens rfopen tokens currentPath entry).1 := by
  induction tokens generalizing currentPath entry with
  | nil => rfl
  | cons token tokens ih =>
      rw [Tree.walk, RamMemory.resolveTokens, searchDir_toTree]
      cases hsearch : mem.searchDir entry token with
      | none => rfl
      | some child =>
          dsimp only
          by_cases hmount : (mem.file child).flags &&& fsFileMount ≠ 0
          · rw [if_pos (show mem.isMount child = true from decide_eq_true hmount)]
            exact if_pos hmount
          · rw [if_neg (show ¬ mem.isMount child = true from
              fun htrue => hmount (of_decide_eq_true htrue)), ← ih]
            exact if_neg hmount

theorem searchDir_noData (mem : RamMemory) (entry : ℕ) (token : CString)
    (hdata : ¬ mem.HasData entry) : mem.searchDir entry token = none := by
  rw [RamMemory.searchDir]
  by_cases hnull : (mem.file entry).privatePtr = 0
  · rw [if_pos hnull]
  · have hsmall : (mem.file entry).size / 4 = 0 := by
      by_contra hne
      exact hdata ⟨hnull, by omega⟩
    rw [if_neg hnull, hsmall, RamMemory.searchChildren]

/-- The files that are searched behind the first. -/
theorem resolveTokens_searched (htokens : tokens ≠ []) :
    (mem.resolveTokens rfopen tokens currentPath entry).2 =
      entry :: Descent.searched mem.searchDir mem.isMount entry tokens := by
  induction tokens generalizing currentPath entry with
  | nil => exact absurd rfl htokens
  | cons token tokens ih =>
      rw [RamMemory.resolveTokens, Descent.searched]
      cases hsearch : mem.searchDir entry token with
      | none => rfl
      | some child =>
          dsimp only
          by_cases hmount : mem.isMount child = true
          · rw [if_pos hmount, if_pos (by rw [hmount, Bool.true_or])]
          · rw [if_neg hmount, Bool.eq_false_iff.mpr hmount, Bool.false_or]
            by_cases hlast : tokens = []
            · rw [hlast]
              rfl
            · rw [if_neg (by rwa [List.isEmpty_iff])]
              exact congrArg (entry :: ·) (ih hlast)

/-- A file is returned only when the walk finds one. -/
theorem resolveTokens_walk {file : ℕ}
    (hfound : (mem.resolveTokens rfopen tokens currentPath entry).1 = some file) :
    ∃ final rest, Descent.walk mem.searchDir mem.isMount entry tokens =
      some (final, rest) := by
  induction tokens generalizing currentPath entry with
  | nil => exact ⟨entry, [], rfl⟩
  | cons token tokens ih =>
      rw [RamMemory.resolveTokens] at hfound
      rw [Descent.walk]
      cases hsearch : mem.searchDir entry token with
      | none =>
          rw [hsearch] at hfound
          cases hfound
      | some child =>
          rw [hsearch] at hfound
          dsimp only at hfound ⊢
          by_cases hmount : mem.isMount child = true
          · exact ⟨child, tokens, if_pos hmount⟩
          · rw [if_neg hmount] at hfound ⊢
            exact ih hfound

theorem ramDescends_iff (tree : MemoryTree) (rfopen : CString → ℕ → Option ℕ)
    (path : CString) : RamDescends tree rfopen path ↔ RamNamesDirectories tree path := by
  have hempty := searchDir_noData tree.mem
  by_cases hlong : 4096 ≤ path.length
  · have hresolve : tree.mem.resolvePath rfopen path tree.root = (none, []) := if_pos hlong
    refine ⟨fun _ hshort => absurd hlong (Nat.not_le.mpr hshort), fun _ => ⟨?_, ?_⟩⟩
    · intro file hfound
      rw [hresolve] at hfound
      cases hfound
    · intro entry hentry
      rw [hresolve] at hentry
      cases hentry
  have hresolve : tree.mem.resolvePath rfopen path tree.root =
      tree.mem.resolveTokens rfopen (pathTokens path) path tree.root := if_neg hlong
  have hsearched : (tree.mem.resolvePath rfopen path tree.root).2 =
      tree.root :: Descent.searched tree.mem.searchDir tree.mem.isMount tree.root
        (pathTokens path) := by
    rw [hresolve]
    exact resolveTokens_searched (pathTokens_ne_nil path)
  constructor
  · intro hdescends _
    refine Descent.searched_iff hempty |>.mp ?_
    intro entry hentry
    refine hdescends.searched entry ?_
    rw [hsearched]
    exact List.mem_cons_of_mem _ hentry
  · intro hnames
    have honly := hnames (Nat.not_le.mp hlong)
    refine ⟨?_, ?_⟩
    · intro file hfound before token after hpath hbefore
      rw [hresolve] at hfound
      obtain ⟨final, rest, hwalk⟩ := resolveTokens_walk hfound
      exact Descent.through_or_stopped hempty honly hwalk hpath hbefore
    · intro entry hentry
      rw [hsearched] at hentry
      rcases List.mem_cons.mp hentry with rfl | hmem
      · exact .inl (decide_eq_true tree.rootIsDir)
      · exact Descent.searched_iff hempty |>.mpr honly entry hmem

end Ram

/-! ## Both resolvers -/

/-- A path of either file system goes through directories only exactly when no
component but the last names anything else. -/
theorem resolution_descends_iff (tree : MemoryTree) (rfopen : CString → ℕ → Option ℕ)
    (root : Root) (vol : Volume) (path : CString) :
    (RamDescends tree rfopen path ↔ RamNamesDirectories tree path) ∧
      (FatDescends root vol path ↔ FatNamesDirectories root vol path) :=
  ⟨ramDescends_iff tree rfopen path, fatDescends_iff root vol path⟩

/-- A root with a regular file `f`, whose four bytes are the address of a file `x`. -/
def pointerMemory : RamMemory where
  file := fun entry =>
    if entry = 100 then ⟨[slash], fsFileIsDir ||| fsFileSystem, 1000, 4⟩
    else if entry = 200 then ⟨[0x66], 0, 2000, 4⟩
    else ⟨[0x78], 0, 0, 0⟩
  word := fun a => if a = 1000 then 200 else 300

def pointerTree : MemoryTree := ⟨pointerMemory, 100, by decide⟩

/-- A regular file `D` in cluster 3, whose 32 bytes are an entry for a file `F`. -/
def entryDevice (a : ℕ) : UInt8 :=
  if a = 540683 then 0x20 else if a = 540700 then 32 else treeDevice a

def entryVolume : Volume := { zeroVolume with device := entryDevice }

/-- `f/x` and `D/F` open what the contents of a regular file are taken for. -/
theorem resolution_through_file :
    (pointerTree.mem.resolvePath (fun _ _ => none) [0x66, slash, 0x78] 100).1 = some 300 ∧
      ¬ RamDescends pointerTree (fun _ _ => none) [0x66, slash, 0x78] ∧
      (resolvePath treeRoot entryVolume [0x44, slash, 0x46]).map (·.2.isSome) = some true ∧
      ¬ FatDescends treeRoot entryVolume [0x44, slash, 0x46] := by
  refine ⟨by decide, fun hdescends => ?_, by decide +kernel, fun hdescends => ?_⟩
  · have hmem : 200 ∈ (pointerTree.mem.resolvePath (fun _ _ => none)
        [0x66, slash, 0x78] 100).2 := by decide
    rcases hdescends.searched 200 hmem with hdir | hnothing
    · exact absurd hdir (by decide)
    · exact hnothing ⟨by decide, by decide⟩
  · have hnamed : namedEntry treeRoot entryVolume [[0x44]] = some ⟨0x44, 0x20, 3, 32⟩ := by
      decide +kernel
    have hpath : pathTokens [0x44, slash, 0x46] = [[0x44]] ++ [0x46] :: [] := by decide
    have hdir := (fatDescends_iff _ _ _).mp hdescends (by decide) [[0x44]] [0x46] [] hpath
      (by decide) _ hnamed
    exact absurd hdir (by decide)

end KimisOS.Vfs
