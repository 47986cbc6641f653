import KimisOS.Core.Walk
import KimisOS.Fat32.Resolve

/-!
# Creating files

`fat32_create` loads the whole parent directory, looks for entries that are
free, and stores the entries of the long name in front of the short one there.
When there is no room it appends a cluster to the directory.
-/

namespace KimisOS.Fat32

open KimisOS.ByteStore
open KimisOS.Walk

/-! ## The clusters of the parent directory -/

/-- The walk of `fat32_create` along the parent directory; `cluster_count` and
`last_cluster` are the length and the last one of what it visits. -/
def createWalk : ℕ → Volume → ℕ → Option (Volume × List ℕ) :=
  follow fat32GetNextCluster fun cluster => decide (cluster < fat32Eoc)

/-! ## The path -/

/-- The path behind its first slash, without a slash at its end, and its two
parts: the path of the parent directory, if there is one, and
`file_to_create`. -/
structure Target where
  path : CString
  cut : CString
  parentPath : Option CString
  name : CString

/-- `none` for the paths that leave nothing: the last character is looked for in
front of the buffer. -/
def target (path : CString) : Option Target :=
  let path := dropSlash path
  if path = [] then none
  else
    let cut := if path.getLast? = some slash then path.dropLast else path
    let reversed := cut.reverse.span fun c => c != slash
    some
      { path := path
        cut := cut
        parentPath := match reversed.2 with
          | [] => none
          | _ :: rest => some rest.reverse
        name := reversed.1.reverse }

/-- The memory from `file_to_create` on. -/
def Target.bytes (target : Target) (stale : ℕ → UInt8) : ℕ → UInt8 := fun k =>
  let place := target.cut.length - target.name.length + k
  if k < target.name.length then target.name.getD k 0
  else if place ≤ target.path.length then 0
  else stale place

/-- `lfn_count`, and one entry more for the short name. -/
def Target.totalDirents (target : Target) : ℕ := (target.name.length + 12) / 13 + 1

/-! ## Free entries -/

/-- The value of a `char`, which has a sign here. -/
def toChar (c : UInt8) : ℤ := c.toBitVec.toInt

/-- The inner loop: it ends with `found`, and with the index of the entry that
is in the way. -/
def probe (first : ℕ → UInt8) (count i : ℕ) : ℕ → ℕ → Bool × ℕ
  | 0, _ => (true, i)
  | left + 1, j =>
      if count ≤ i + j then (false, i)
      else if first (i + j) = 0 then (true, i)
      else if toChar (first (i + j)) ≠ 0xe5 then (false, i + j)
      else probe first count i left (j + 1)

/-- `found`, `free_index` and `short_filename_matches`. -/
structure Slot where
  found : Bool
  freeIndex : ℕ
  shortFilenameMatches : ℕ

/-- The outer loop. -/
def searchSlot (first : ℕ → UInt8) (count total : ℕ) (initial : UInt8) :
    ℕ → ℕ → Slot → Slot
  | 0, _, slot => slot
  | rounds + 1, i, slot =>
      if count ≤ i then slot
      else
        let probed := probe first count i total 0
        if first probed.2 = 0 then ⟨true, probed.2, slot.shortFilenameMatches⟩
        else
          let shortFilenameMatches :=
            if first probed.2 = initial then slot.shortFilenameMatches + 1
            else slot.shortFilenameMatches
          let freeIndex := if probed.1 then min slot.freeIndex probed.2 else slot.freeIndex
          searchSlot first count total initial rounds (probed.2 + 1)
            ⟨probed.1, freeIndex, shortFilenameMatches⟩

def findSlot (buffer : ℕ → UInt8) (count total : ℕ) (initial : UInt8) : Slot :=
  searchSlot (fun i => buffer (32 * i)) count total initial count 0
    ⟨false, 2 ^ 32 - 1, 0⟩

/-! ## The new entries -/

/-- `itoa` in base 10, of a number that is not negative. -/
def itoa (n : ℕ) : CString := (Nat.toDigits 10 n).map fun c => UInt8.ofNat c.toNat

/-- Where the extension starts: behind the first dot, or at the end. -/
def extIndex (name : CString) : ℕ :=
  match name.findIdx? fun c => c == 0x2e with
  | some i => i + 1
  | none => name.length

/-- `short_filename`.  Of the array on the stack the bytes that no copy reaches
stay as they were. -/
def shortFilename (stack bytes : ℕ → UInt8) (name : CString) (shortFilenameMatches : ℕ) :
    ℕ → UInt8 :=
  let digits := itoa shortFilenameMatches
  let array := store stack 0 bytes 6
  let array := store array 0 (fun k => if k = 0 then bytes 0 else 0x7e) 2
  let array := store array 2 (fun k => digits.getD k 0) (digits.length + 1)
  store array 8 (load bytes (extIndex name)) 3

def lfnChecksum (sfn : ℕ → UInt8) : UInt8 :=
  (List.range 11).foldl
    (fun (sum : UInt8) i =>
      (if sum &&& 1 ≠ 0 then (0x80 : UInt8) else 0) + (sum >>> 1) + sfn i) 0

/-- The character of a long name that a byte of its entry holds a half of. -/
def lfnPosition (k : ℕ) : Option ℕ :=
  if 1 ≤ k ∧ k < 11 then some (k - 1)
  else if 14 ≤ k ∧ k < 26 then some (10 + (k - 14))
  else if 28 ≤ k ∧ k < 32 then some (22 + (k - 28))
  else none

/-- One half of the 16 bits that a `char` is converted to. -/
def wordHalf (c : UInt8) (half : ℕ) : UInt8 :=
  if half = 0 then c else if c < 0x80 then 0 else 0xff

/-- Entry `i` of the long name, of `count` ones. -/
def lfnEntry (name : CString) (checksum : UInt8) (count i : ℕ) : ℕ → UInt8 := fun k =>
  if k = 0 then UInt8.ofNat (if i + 1 = count then (i + 1) ||| 0x40 else i + 1)
  else if k = 11 then 0xf
  else if k = 13 then checksum
  else
    match lfnPosition k with
    | some place => wordHalf (name.getD (13 * i + place / 2) 0) (place % 2)
    | none => 0

/-- The entry of the short name.  The fields that are not set hold what the
fresh buffer held. -/
def shortEntry (stale sfn : ℕ → UInt8) (flags : ℕ) : ℕ → UInt8 := fun k =>
  if k < 11 then sfn k
  else if k = 11 then UInt8.ofNat (flags &&& 0x2f)
  else if (20 ≤ k ∧ k < 22) ∨ (26 ≤ k ∧ k < 32) then 0
  else stale k

/-- The new entries as the directory gets them: the entries of the long name in
reverse order, and the one of the short name. -/
def newEntry (name : CString) (sfn stale : ℕ → UInt8) (flags total i : ℕ) : ℕ → UInt8 :=
  if i + 1 = total then shortEntry (load stale (32 * (total - 1))) sfn flags
  else lfnEntry name (lfnChecksum sfn) (total - 1) (total - 2 - i)

/-- The entries stored from `freeIndex` on. -/
def placeEntries (buffer : ℕ → UInt8) (freeIndex total : ℕ) (entry : ℕ → ℕ → UInt8) :
    ℕ → UInt8 :=
  store buffer (32 * freeIndex) (fun k => entry (k / 32) (k % 32)) (32 * total)

/-! ## The directory -/

/-- The results of `malloc` that are looked at: for `trunc_path`, for the buffer of
the directory, and those of `resolve_path` for the parent and for the new file. -/
structure Grants where
  truncPath : Bool
  buffer : Bool
  parent : ℕ → Bool
  file : ℕ → Bool

/-- No allocation fails. -/
def Grants.all : Grants := ⟨true, true, fun _ => true, fun _ => true⟩

/-- What the fresh buffers and the array on the stack hold, and the results of
`malloc`; `malloc` are those that `fat32_write` gets. -/
structure Scratch where
  grants : Grants
  malloc : ℕ → Bool
  truncPath : ℕ → UInt8
  stack : ℕ → UInt8
  directory : ℕ → UInt8
  extended : ℕ → UInt8
  dirents : ℕ → UInt8

/-- The contents of the parent directory. -/
structure Directory where
  vol : Volume
  buffer : ℕ → UInt8
  clusterCount : ℕ
  lastCluster : ℕ

/-- The directory is loaded; one without clusters is a cluster of zeros.
`none` inside for a directory that gets no cluster or no buffer. -/
def loadDirectory (scratch : Scratch) (rounds : ℕ) (vol : Volume) (file : OpenFile) :
    Option (Volume × Option Directory) :=
  if file.firstCluster = 0 then
    let free := fat32GetFreeCluster vol
    if free.2 = 0 then some (free.1, none)
    else
      let vol := fat32SetNextCluster free.1 free.2 fat32Eoc
      some (vol, if scratch.grants.buffer then some ⟨vol, fun _ => 0, 1, free.2⟩ else none)
  else
    (createWalk rounds vol file.firstCluster).map fun walked =>
      if scratch.grants.buffer then
        let read := fat32Read walked.1 file scratch.directory 0
          (walked.2.length * walked.1.mount.bpb.clusterSizeBytes % 2 ^ 32)
        (read.vol, some ⟨read.vol, read.buffer, walked.2.length, walked.2.getLastD 0⟩)
      else (walked.1, none)

/-- The directory with one more cluster.  The part of the buffer that is cleared
lies behind it: the offset is counted in entries. -/
def extendDirectory (scratch : Scratch) (directory : Directory) :
    Volume × Option Directory :=
  let clusterSizeBytes := directory.vol.mount.bpb.clusterSizeBytes
  let free := fat32GetFreeCluster directory.vol
  let ended := fat32SetNextCluster free.1 free.2 fat32Eoc
  if free.2 = 0 then (ended, none)
  else
    let vol := fat32SetNextCluster ended directory.lastCluster free.2
    let count := directory.clusterCount + 1
    let buffer := store scratch.extended 0 directory.buffer
      (directory.clusterCount * clusterSizeBytes)
    let cleared := store buffer (32 * (clusterSizeBytes * count)) (fun _ => 0)
      clusterSizeBytes
    (vol, some ⟨vol, cleared, count, directory.lastCluster⟩)

def Directory.entryCount (directory : Directory) : ℕ :=
  directory.vol.mount.bpb.clusterSizeBytes * directory.clusterCount % 2 ^ 32 / 32

/-- The directory with room for the entries, and where they go. -/
def makeRoom (scratch : Scratch) (directory : Directory) (slot : Slot) (total : ℕ) :
    Volume × Option (Directory × ℕ) :=
  let count := directory.entryCount
  if slot.found = false ∨ count < (slot.freeIndex + total) % 2 ^ 32 then
    let extended := extendDirectory scratch directory
    (extended.1, extended.2.map fun directory =>
      (directory, if slot.found then slot.freeIndex else count))
  else (directory.vol, some (directory, slot.freeIndex))

/-! ## The call -/

/-- What a call leaves: the volume, the open file of the parent, and the new
file. -/
structure Created where
  vol : Volume
  parent : OpenFile
  file : Option VFile

/-- `fat32_open` when `resolve_path` gets these results of `malloc`: for the path,
for its components, and for the open file. -/
def fat32OpenWith (granted : ℕ → Bool) (root : Root) (vol : Volume) (path : CString)
    (parent : VFile) : Option (Volume × Option VFile) :=
  if path = [] then fat32Open root vol path parent
  else if granted 0 ∧ granted 1 then
    (fat32Open root vol path parent).map fun opened =>
      (opened.1, if granted 2 then opened.2 else none)
  else some (vol, none)

/-- The parent directory of the new file: the one that the caller passes, if the
path names no other. -/
def openParent (root : Root) (scratch : Scratch) (vol : Volume) (parent : VFile)
    (target : Target) : Option (Volume × Option VFile) :=
  match target.parentPath with
  | none => some (vol, some parent)
  | some path => fat32OpenWith scratch.grants.parent root vol path parent

/-- The entries are stored, and the directory is written back as a whole. -/
def writeDirectory (scratch : Scratch) (directory : Directory) (file : OpenFile)
    (target : Target) (slot : Slot) (freeIndex flags : ℕ) : Outcome :=
  let bytes := target.bytes scratch.truncPath
  let sfn := shortFilename scratch.stack bytes target.name slot.shortFilenameMatches
  let buffer := placeEntries directory.buffer freeIndex target.totalDirents
    (newEntry target.name sfn scratch.dirents flags target.totalDirents)
  fat32Write scratch.malloc directory.vol file buffer 0
    (directory.vol.mount.bpb.clusterSizeBytes * directory.clusterCount % 2 ^ 32)

/-- `fat32_create` behind the parent directory: `none` inside when it gives up. -/
def createIn (scratch : Scratch) (rounds : ℕ) (vol : Volume) (file : OpenFile)
    (target : Target) (flags : ℕ) : Option (Volume × OpenFile × Bool) :=
  match loadDirectory scratch rounds vol file with
  | none => none
  | some (vol, none) => some (vol, file, false)
  | some (_, some directory) =>
      let slot := findSlot directory.buffer directory.entryCount target.totalDirents
        (target.bytes scratch.truncPath 0)
      match makeRoom scratch directory slot target.totalDirents with
      | (vol, none) => some (vol, file, false)
      | (vol, some (directory, freeIndex)) =>
          if 999999 < slot.shortFilenameMatches then some (vol, file, false)
          else if 128 < target.totalDirents then none
          else
            let out := writeDirectory scratch directory file target slot freeIndex flags
            out.returned.map fun _ => (out.vol, out.file, true)

/-- `fat32_create` up to the last `fat32_open`: the volume, the open file of the
parent, and the target if its entries have been stored. -/
def createEntries (root : Root) (scratch : Scratch) (rounds : ℕ) (vol : Volume)
    (parent : VFile) (path : CString) (flags : ℕ) :
    Option (Volume × OpenFile × Option Target) :=
  if path = [] then some (vol, parent.file, none)
  else if scratch.grants.truncPath = false then some (vol, parent.file, none)
  else
    match target path with
    | none => none
    | some target =>
        match openParent root scratch vol parent target with
        | none => none
        | some (vol, none) => some (vol, parent.file, none)
        | some (vol, some directory) =>
            (createIn scratch rounds vol directory.file target flags).map fun made =>
              (made.1, if target.parentPath = none then made.2.1 else parent.file,
                if made.2.2 then some target else none)

/-- `fat32_create`.  It has no result when it does not end, traps, or leaves one
of its buffers; the entries of the new file have one page. -/
def fat32Create (root : Root) (scratch : Scratch) (rounds : ℕ) (vol : Volume)
    (parent : VFile) (path : CString) (flags : ℕ) : Option Created :=
  match createEntries root scratch rounds vol parent path flags with
  | none => none
  | some (vol, file, none) => some ⟨vol, file, none⟩
  | some (vol, file, some target) =>
      (fat32OpenWith scratch.grants.file root vol target.path parent).map fun opened =>
        ⟨opened.1, file, opened.2⟩

end KimisOS.Fat32
