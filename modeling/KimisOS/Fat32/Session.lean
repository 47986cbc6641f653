import KimisOS.Fat32.Create
import KimisOS.Fat32.MountTable

/-!
# Calls on a mounted volume

The files that have been opened on a volume, and the calls of the virtual file
system that the driver answers.  The first file is that of the mount.
-/

namespace KimisOS.Fat32

open KimisOS.ByteStore

/-- What the calls find in fresh buffers, the results of `malloc`, and how many
clusters a walk of `fat32_create` may have. -/
structure Env where
  stale : ℕ → UInt8
  scratch : Scratch
  rounds : ℕ

structure Session where
  root : Root
  vol : Volume
  files : List VFile

inductive Call where
  | openFile (parent : ℕ) (path : CString)
  | read (file : ℕ) (buffer : ℕ → UInt8) (offset count : ℕ)
  | write (file : ℕ) (buffer : ℕ → UInt8) (offset count : ℕ)
  | create (parent : ℕ) (path : CString) (flags : ℕ)
  | close (file : ℕ)

/-- What a call returns; a read also fills the buffer. -/
inductive Answer where
  | file (opened : Option VFile)
  | loaded (returned : ℤ) (buffer : ℕ → UInt8)
  | written (returned : ℤ)
  | closed

def VFile.withFile (vfile : VFile) (file : OpenFile) : VFile := { vfile with file := file }

/-- The new files, with the one that the call returns at the end. -/
def Session.add (session : Session) (vol : Volume) (opened : Option VFile) : Session :=
  { session with vol := vol, files := session.files ++ opened.toList }

def Session.openFile (session : Session) (parent : VFile) (path : CString) :
    Option (Session × Answer) :=
  (fat32Open session.root session.vol path parent).map fun opened =>
    (session.add opened.1 opened.2, .file opened.2)

def Session.read (session : Session) (vfile : VFile) (buffer : ℕ → UInt8)
    (offset count : ℕ) : Option (Session × Answer) :=
  let out := fat32Read session.vol vfile.file buffer offset count
  out.returned.map fun returned =>
    ({ session with vol := out.vol }, .loaded returned out.buffer)

def Session.write (env : Env) (session : Session) (file : ℕ) (vfile : VFile)
    (buffer : ℕ → UInt8) (offset count : ℕ) : Option (Session × Answer) :=
  let out := fat32Write env.scratch.malloc session.vol vfile.file buffer offset count
  out.returned.map fun returned =>
    ({ session with vol := out.vol, files := session.files.set file (vfile.withFile out.file) },
      .written returned)

def Session.create (env : Env) (session : Session) (parent : ℕ) (vfile : VFile)
    (path : CString) (flags : ℕ) : Option (Session × Answer) :=
  (fat32Create session.root env.scratch env.rounds session.vol vfile path flags).map
    fun created =>
      let session :=
        { session with files := session.files.set parent (vfile.withFile created.parent) }
      (session.add created.vol created.file, .file created.file)

/-- One call; `none` for a file that is not open, or a call without a result.
`fat32_close` does nothing. -/
def Session.call (env : Env) (session : Session) : Call → Option (Session × Answer)
  | .openFile parent path =>
      session.files[parent]?.bind fun vfile => session.openFile vfile path
  | .read file buffer offset count =>
      session.files[file]?.bind fun vfile => session.read vfile buffer offset count
  | .write file buffer offset count =>
      session.files[file]?.bind fun vfile =>
        session.write env file vfile buffer offset count
  | .create parent path flags =>
      session.files[parent]?.bind fun vfile =>
        session.create env parent vfile path flags
  | .close _ => some (session, .closed)

/-- A sequence of calls, with the answers in order. -/
def Session.run (env : Env) : Session → List Call → Option (Session × List Answer)
  | session, [] => some (session, [])
  | session, call :: calls =>
      match session.call env call with
      | none => none
      | some (session, answer) =>
          (session.run env calls).map fun out => (out.1, answer :: out.2)

/-! ## After a mount -/

def BootSector.bpb (boot : BootSector) : Bpb where
  bytesPerSector := boot.bytesPerSector
  sectorsPerCluster := boot.sectorsPerCluster
  reservedSectors := boot.reservedSectors
  fatCount := boot.fatCount
  sectorCount := boot.sectorCount
  sectorsPerFat := boot.sectorsPerFat

/-- The volume of a slot that `fat32_mount` has filled; `blockSizeBytes` is the
field of the device. -/
def FatMount.volume (slot : FatMount) (bpb : Bpb) (blockSizeBytes : ℕ)
    (device : ℕ → UInt8) : Volume where
  mount :=
    { bpb := bpb
      blockSizeBytes := blockSizeBytes
      cacheDirty := slot.cacheDirty
      fatSearchStart := slot.fatSearchStart
      fatStartSector := slot.fatStartSector
      dataStartSector := slot.dataStartSector
      fatCacheStart := slot.fatCacheStart
      fatCacheSize := slot.fatCacheSize
      fatCacheAllocated := slot.fatCache ≠ 0
      fatCache := fun _ => 0 }
  device := device

/-- The calls start with the file of the mount; of its open file only the first
cluster is set. -/
def MountCall.session (call : MountCall) (env : Env) (blockSizeBytes flags : ℕ)
    (fresh : OpenFile) : Session where
  root := ⟨call.bpb.rootDirCluster, env.stale⟩
  vol := (call.slot 0).volume call.bpb.bpb blockSizeBytes call.device
  files := [⟨flags, { fresh with firstCluster := call.bpb.rootDirCluster }⟩]

end KimisOS.Fat32
