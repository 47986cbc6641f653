import KimisOS.Fat32.Tree

/-!
# The virtual file system over the RAM file system

A directory holds pointers to its children, and a path is resolved one
component at a time.  `vfcreate` opens every directory on the way to the one it
creates the file in, and closes it again.
-/

namespace KimisOS.Vfs

open KimisOS.Fat32

/-! ## Files -/

/-- The two sets of file operations.  That of a PCI function has no `create`,
no `close` and no `rfopen`. -/
inductive FileOps where
  | ramfs
  | pci
  deriving DecidableEq

def fsFileSystem : ℕ := 4
def fsFileIsDir : ℕ := 0x10
def fsFileMount : ℕ := 0x100

/-- `vfile_t`, as far as the calls below use it.  `children` is the array that
`private` points to. -/
structure VFile where
  name : CString
  flags : ℕ
  fileops : FileOps
  id : ℕ
  children : List (Option ℕ)
  deriving DecidableEq

/-- The files in memory.  A file is named by the number of files that were
there before it; `next` is the number of the next one. -/
structure Tree where
  files : ℕ → VFile
  next : ℕ

/-- What an open or a close leaves in the history. -/
inductive Use where
  | opened (file : ℕ)
  | closed (file : ℕ)
  deriving DecidableEq

/-- The files, their `refcount` fields, and the history of the opens and
closes, which the code does not keep. -/
structure State where
  tree : Tree
  refcount : ℕ → ℕ
  history : List Use

def rootDir : ℕ := 0

/-- `ramfs_init`. -/
def ramfsInit : State where
  tree := ⟨fun _ => ⟨[slash], fsFileIsDir ||| fsFileSystem, .ramfs, 0, []⟩, 1⟩
  refcount := fun _ => 0
  history := []

namespace Tree

def IsDir (tree : Tree) (file : ℕ) : Prop := (tree.files file).flags &&& fsFileIsDir ≠ 0

instance (tree : Tree) (file : ℕ) : Decidable (tree.IsDir file) :=
  inferInstanceAs (Decidable ((tree.files file).flags &&& fsFileIsDir ≠ 0))

def IsMount (tree : Tree) (file : ℕ) : Prop := (tree.files file).flags &&& fsFileMount ≠ 0

instance (tree : Tree) (file : ℕ) : Decidable (tree.IsMount file) :=
  inferInstanceAs (Decidable ((tree.files file).flags &&& fsFileMount ≠ 0))

/-! ## Looking up a path -/

/-- The loop of `search_dir`. -/
def searchChildren (tree : Tree) (subname : CString) : List (Option ℕ) → Option ℕ
  | [] => none
  | none :: children => searchChildren tree subname children
  | some child :: children =>
      if (tree.files child).name = subname then some child
      else searchChildren tree subname children

def searchDir (tree : Tree) (subname : CString) (directory : ℕ) : Option ℕ :=
  searchChildren tree subname (tree.files directory).children

/-- `current_path` behind one component: the slash it stands at then is left
out too. -/
def advance (currentPath token : CString) : CString :=
  dropSlash (currentPath.drop token.length)

/-- The loop of `resolve_path`, which goes on in `mounted` at a mount point.
The outer `none` is a call of a null pointer, the inner one the null pointer
that is returned. -/
def walk (tree : Tree) (mounted : CString → ℕ → Option (Option ℕ)) :
    List CString → CString → ℕ → Option (Option ℕ)
  | [], _, entry => some (some entry)
  | token :: tokens, currentPath, entry =>
      match tree.searchDir token entry with
      | none => some none
      | some entry =>
          let currentPath := advance currentPath token
          if tree.IsMount entry then mounted currentPath entry
          else walk tree mounted tokens currentPath entry

/-- `resolve_path` with `get_last_child` set, which is how `ramfs_rfopen` calls
it.  The copy of the path has one page. -/
def resolvePath (tree : Tree) : ℕ → CString → ℕ → Option (Option ℕ)
  | 0, _, _ => none
  | fuel + 1, pathname, start =>
      if 4096 ≤ pathname.length then none
      else
        tree.walk
          (fun currentPath entry =>
            match (tree.files entry).fileops with
            | .ramfs => resolvePath tree fuel currentPath entry
            | .pci => none)
          (pathTokens pathname) pathname start

/-- What `rfopen` finds.  A mount point leads to one that was created later, so
there are fewer of them on the way than files. -/
def rfopen (tree : Tree) (name : CString) (dir : ℕ) : Option (Option ℕ) :=
  match (tree.files dir).fileops with
  | .ramfs => tree.resolvePath tree.next name dir
  | .pci => some none

/-- What `fopen` finds. -/
def fopen (tree : Tree) (name : CString) : Option (Option ℕ) :=
  if name = [slash] then some (some rootDir)
  else tree.rfopen (dropSlash name) rootDir

/-! ## Creating a file -/

/-- The first empty slot of the array, or a new one at its end. -/
def insertChild (child : ℕ) : List (Option ℕ) → List (Option ℕ)
  | [] => [some child]
  | none :: children => some child :: children
  | some other :: children => some other :: insertChild child children

/-- The file `tree.next` as a new child. -/
def addChild (tree : Tree) (parent : ℕ) (name : CString) (flags : ℕ) : Tree where
  files := Function.update
    (Function.update tree.files tree.next ⟨name, flags % 2 ^ 16, .ramfs, 0, []⟩) parent
    { tree.files parent with
      children := insertChild tree.next (tree.files parent).children }
  next := tree.next + 1

end Tree

/-- `ramfs_create`.  The name field has room for 75 characters. -/
def ramfsCreate (s : State) (parent : ℕ) (path : CString) (flags : ℕ) :
    Option (State × Option ℕ) :=
  if s.tree.IsDir parent then
    let newName := dropSlash path
    if 75 < newName.length then none
    else some ({ s with
        tree := s.tree.addChild parent newName flags
        refcount := Function.update s.refcount s.tree.next 0 }, some s.tree.next)
  else some (s, none)

/-- `parent_dir->fileops->create`. -/
def create (s : State) (parent : ℕ) (name : CString) (flags : ℕ) :
    Option (State × Option ℕ) :=
  match (s.tree.files parent).fileops with
  | .ramfs => ramfsCreate s parent name flags
  | .pci => none

/-- An open enters the history when it returns a file. -/
def State.opening (s : State) : Option ℕ → State
  | none => s
  | some file => { s with history := .opened file :: s.history }

def rfopen (s : State) (name : CString) (dir : ℕ) : Option (State × Option ℕ) :=
  match s.tree.rfopen name dir with
  | none => none
  | some found => some (s.opening found, found)

def fopen (s : State) (name : CString) : Option (State × Option ℕ) :=
  match s.tree.fopen name with
  | none => none
  | some found => some (s.opening found, found)

/-- `ramfs_close`. -/
def ramfsClose (s : State) (file : ℕ) : State :=
  { s with refcount :=
      Function.update s.refcount file ((s.refcount file + (2 ^ 32 - 1)) % 2 ^ 32) }

def fclose (s : State) (file : ℕ) : State :=
  let s := { s with history := .closed file :: s.history }
  match (s.tree.files file).fileops with
  | .ramfs => ramfsClose s file
  | .pci => s

/-- The slash at the end of a name. -/
def cutSlash (name : CString) : CString :=
  if name.getLast? = some slash then name.dropLast else name

def firstComponent (name : CString) : CString := name.takeWhile (· ≠ slash)

/-- `vfcreate`.  The copy of `relpath` has `(strlen(relpath) + 4095)/4096`
pages.  `name_length` is taken before the slash at the end is cut. -/
def vfcreateFrom (flags : ℕ) : ℕ → State → ℕ → CString → Option (State × Option ℕ)
  | 0, _, _, _ => none
  | fuel + 1, s, parentDir, relpath =>
      if relpath.length % 4096 = 0 then none
      else
        let name := dropSlash relpath
        let nameLength := name.length
        let name := cutSlash name
        let nameIndex := (firstComponent name).length
        if nameLength ≤ nameIndex then create s parentDir (firstComponent name) flags
        else
          match rfopen s (firstComponent name) parentDir with
          | none => none
          | some (s, none) => some (s, none)
          | some (s, some newParent) =>
              match vfcreateFrom flags fuel s newParent (name.drop (nameIndex + 1)) with
              | none => none
              | some (s, newFile) => some (fclose s newParent, newFile)

def vfcreate (s : State) (parentDir : ℕ) (relpath : CString) (flags : ℕ) :
    Option (State × Option ℕ) :=
  vfcreateFrom flags (relpath.length + 1) s parentDir relpath

def fcreate (s : State) (path : CString) (flags : ℕ) : Option (State × Option ℕ) :=
  vfcreate s rootDir path flags

end KimisOS.Vfs
