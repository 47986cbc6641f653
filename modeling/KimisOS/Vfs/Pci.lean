import KimisOS.Core.Run
import KimisOS.Vfs.Siblings

/-!
# Files of PCI functions

`pci_init` makes a directory for each kind of device, and then a file for every
function it finds.  The file is named after the class of the function, with the
number 0 behind it: the loop that would try the next number is commented out.
-/

namespace KimisOS.Vfs

open KimisOS.Fat32
open KimisOS.Run

/-! ## The PCI driver -/

def cstr (text : String) : CString := text.toList.map fun c => UInt8.ofNat c.toNat

def classes : List (List String) :=
  [[],
    ["scsi", "ide", "floppy", "ipi", "raid", "ata", "sata", "sascsi", "nvm"],
    ["eth", "tring", "fddi", "atm", "isdn", "wordfip", "picmg", "infband", "fabric"],
    ["vga", "xga", "nvga3d"],
    [],
    [],
    ["host", "isa", "eisa", "mca", "pci", "pcmcia", "nubus", "cardbus"],
    [],
    ["pic", "dma", "timer", "rtc"]]

/-- The directory of a class in `/dev/pci/`. -/
def classDirectory : ℕ → String
  | 1 => "disk/"
  | 2 => "net/"
  | 3 => "video/"
  | 6 => "bridge/"
  | _ => ""

/-- The path of a function, or `none` where the table of the classes is read
outside its names. -/
def classPath (major minor : ℕ) : Option CString :=
  match classes[major]? with
  | none => none
  | some row =>
      match row[minor]? with
      | none => none
      | some dev =>
          some (cstr "/dev/pci/" ++ cstr (classDirectory major) ++ cstr dev ++ cstr "0")

/-- The arguments of `pci_make_file`. -/
structure PciFunction where
  cls : ℕ
  bus : ℕ
  slot : ℕ
  func : ℕ

def PciFunction.path (function : PciFunction) : Option CString :=
  classPath (function.cls >>> 8) (function.cls &&& 0xf)

def PciFunction.id (function : PciFunction) : ℕ :=
  function.slot ||| function.func <<< 8 ||| function.bus <<< 16

/-- The assignments of `file->fileops` and `file->id`. -/
def Tree.setDevice (tree : Tree) (file : ℕ) (fileops : FileOps) (id : ℕ) : Tree :=
  { tree with files :=
      Function.update tree.files file { tree.files file with fileops := fileops, id := id } }

/-- `pci_make_file`. -/
def pciMakeFile (s : State) (function : PciFunction) : Option State :=
  match function.path with
  | none => none
  | some path =>
      match fcreate s path 0 with
      | none => none
      | some (s, none) => some s
      | some (s, some file) => some { s with tree := s.tree.setDevice file .pci function.id }

/-- What the configuration words of a function that is present say. -/
structure PciHeader where
  cls : ℕ
  header : ℕ

/-- The address of a configuration word.  A `func` beyond 7 reaches into the
bits of the slot. -/
def pciAddress (bus slot func : ℕ) : ℕ := bus <<< 16 ||| slot <<< 11 ||| func <<< 8

/-- One file that is created. -/
inductive Creation where
  | fcreate (path : CString) (flags : ℕ)
  | pciMakeFile (function : PciFunction)

/-- `pci_read_funcs`. -/
def pciReadFuncs (config : ℕ → Option PciHeader) (bus slot : ℕ) : List Creation :=
  (List.range' 1 255).filterMap fun i =>
    (config (pciAddress bus slot i)).map fun found => .pciMakeFile ⟨found.cls, bus, slot, i⟩

/-- `pci_get_vendor`. -/
def pciGetVendor (config : ℕ → Option PciHeader) (bus slot : ℕ) : List Creation :=
  match config (pciAddress bus slot 0) with
  | none => []
  | some found =>
      (if found.header &&& 0x80 ≠ 0 then pciReadFuncs config bus slot else []) ++
        [.pciMakeFile ⟨found.cls, bus, slot, 0⟩]

/-- The files that `pci_init` creates, in this order. -/
def pciInit (config : ℕ → Option PciHeader) : List Creation :=
  [.fcreate (cstr "/dev/pci/") fsFileIsDir,
    .fcreate (cstr "/dev/pci/disk") fsFileIsDir,
    .fcreate (cstr "/dev/pci/net") fsFileIsDir,
    .fcreate (cstr "/dev/pci/video") fsFileIsDir,
    .fcreate (cstr "/dev/pci/bridge") fsFileIsDir] ++
  (List.range 256).flatMap fun bus =>
    (List.range 32).flatMap fun slot => pciGetVendor config bus slot

/-- The kernel creates single files and scans the bus. -/
inductive Request where
  | fcreate (path : CString) (flags : ℕ)
  | pciInit (config : ℕ → Option PciHeader)

def Request.creations : Request → List Creation
  | .fcreate path flags => [.fcreate path flags]
  | .pciInit config => Vfs.pciInit config

namespace Creation

def step (s : State) : Creation → Option State
  | .fcreate path flags => (Vfs.fcreate s path flags).map Prod.fst
  | .pciMakeFile function => Vfs.pciMakeFile s function

def path : Creation → Option CString
  | .fcreate path _ => some path
  | .pciMakeFile function => function.path

def flags : Creation → ℕ
  | .fcreate _ flags => flags
  | .pciMakeFile _ => 0

def fileops : Creation → FileOps
  | .fcreate _ _ => .ramfs
  | .pciMakeFile _ => .pci

def id : Creation → ℕ
  | .fcreate _ _ => 0
  | .pciMakeFile function => function.id

/-- The tree with the new file. -/
def built (creation : Creation) (tree : Tree) (dir : ℕ) (name : CString) : Tree :=
  (tree.addChild dir name creation.flags).setDevice tree.next creation.fileops creation.id

/-- No child of the directory the file is created in has its name. -/
def Fresh (s : State) (creation : Creation) : Prop :=
  ∀ path, creation.path = some path → ∀ dir name,
    s.tree.target path = some (dir, name) → s.tree.IsDir dir →
      s.tree.searchDir name dir = none

/-- The directory that the file of a PCI function belongs to is there. -/
def HasDirectory (s : State) : Creation → Prop
  | .fcreate _ _ => True
  | .pciMakeFile function => ∃ path dir name, function.path = some path ∧
      s.tree.target path = some (dir, name) ∧ s.tree.IsDir dir

end Creation

/-! ## The laws -/

/-- Names joined by single slashes, with or without a slash in front, that fit
in the buffers of the lookup. -/
structure PathOf (path : CString) (names : List CString) : Prop where
  ne_nil : names ≠ []
  isName : ∀ name ∈ names, Tree.IsName name
  joined : path = Tree.joinPath names ∨ path = slash :: Tree.joinPath names
  tokens : names.length ≤ maxTokens
  short : path.length < 4096

/-- What was created at a path of names, and is not a mount point, is what the
path opens. -/
def OpensCreated (creations : List Creation) (final : State) : Prop :=
  ∀ n s s' path names flags file,
    exec Creation.step ramfsInit (creations.take n) = some s →
    creations[n]? = some (.fcreate path flags) →
    fcreate s path flags = some (s', some file) →
    PathOf path names → flags &&& fsFileMount = 0 →
    final.tree.fopen path = some (some file)

/-- The path of every PCI function opens a file with its number, and no two of
them are the same file. -/
def OwnFiles (creations : List Creation) (final : State) : Prop :=
  ∃ fileOf : ℕ → ℕ,
    (∀ n function, creations[n]? = some (.pciMakeFile function) →
      ∃ path, function.path = some path ∧
        final.tree.fopen path = some (some (fileOf n)) ∧
        (final.tree.files (fileOf n)).fileops = .pci ∧
        (final.tree.files (fileOf n)).id = function.id) ∧
    ∀ n m function function', n < m →
      creations[n]? = some (.pciMakeFile function) →
      creations[m]? = some (.pciMakeFile function') → fileOf n ≠ fileOf m

end KimisOS.Vfs
