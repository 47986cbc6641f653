import KimisOS.Fat32.Cache
import KimisOS.Fat32.Chains

/-!
# Reading and writing files

`fat32_write` finds or allocates the first cluster, walks to the cluster of
the offset and extends the chain on the way, writes the part of that cluster
behind the offset, and then writes cluster by cluster.  Each of these phases
has its own early returns.  The directory entry is written at the end.
-/

namespace KimisOS.Fat32

open KimisOS.ByteStore

/-- `fat_open_file_t`, with `dirent_offset` counted in directory entries. -/
structure OpenFile where
  firstCluster : ℕ
  sizeBytes : ℕ
  fileFlags : ℕ
  direntCluster : ℕ
  direntOffset : ℕ
  deriving DecidableEq

def Bpb.clusterSizeBytes (bpb : Bpb) : ℕ := bpb.bytesPerSector * bpb.sectorsPerCluster

/-- The number of data clusters, computed in 32 bits. -/
def Bpb.entryCount (bpb : Bpb) : ℕ :=
  (bpb.sectorCount + 2 ^ 32 -
      (bpb.reservedSectors + bpb.fatCount * bpb.sectorsPerFat) % 2 ^ 32) % 2 ^ 32 /
    bpb.sectorsPerCluster

/-- The offset of the first byte of a cluster in the device. -/
def Mount.clusterOffset (mount : Mount) (cluster : ℕ) : ℕ :=
  (cluster + 2 ^ 32 - 2) % 2 ^ 32 * mount.bpb.clusterSizeBytes % 2 ^ 32 +
    mount.dataStartSector * mount.bpb.bytesPerSector % 2 ^ 32

/-- `fwrite` to the device of the mount. -/
def fwrite (vol : Volume) (bytes : ℕ → UInt8) (offset count : ℕ) : Volume :=
  { vol with device := store vol.device offset bytes count }

/-- The `divl` instruction of `udiv64`, which traps when the quotient does not
fit into 32 bits. -/
def udiv64 (dividend divisor : ℕ) : Option ℕ :=
  if dividend / divisor < 2 ^ 32 then some (dividend / divisor) else none

/-- The conversion of a returned number to `int`. -/
def toInt (n : ℕ) : ℤ := Int.bmod n (2 ^ 32)

/-! ## Free clusters -/

/-- The loop of `fat32_get_free_cluster`, with the number of entries left. -/
def findFreeCluster : ℕ → Volume → ℕ → Volume × ℕ
  | 0, vol, _ => (vol, 0)
  | rounds + 1, vol, i =>
      let get := fat32GetNextCluster vol i
      if get.2 = 0 then
        ({ get.1 with mount := { get.1.mount with fatSearchStart := i } }, i)
      else findFreeCluster rounds get.1 (i + 1)

@[irreducible]
def fat32GetFreeCluster (vol : Volume) : Volume × ℕ :=
  findFreeCluster (vol.mount.bpb.entryCount - vol.mount.fatSearchStart) vol
    vol.mount.fatSearchStart

/-- The lines of `fat32_write` that link a free cluster behind the last one, or
return 0. -/
@[irreducible]
def linkNewCluster (vol : Volume) (lastCluster : ℕ) : Volume × ℕ :=
  let free := fat32GetFreeCluster vol
  if free.2 = 0 then (free.1, 0)
  else
    let linked := fat32SetNextCluster free.1 lastCluster free.2
    (fat32SetNextCluster linked free.2 fat32Eoc, free.2)

/-! ## The directory entry -/

/-- The walk of `dirent_writeback` along the directory, `none` when it gives
up. -/
def direntClusterFrom (steps : ℕ) : ℕ → Volume → ℕ → Volume × Option ℕ
  | 0, vol, cluster => (vol, some cluster)
  | left + 1, vol, cluster =>
      let i := steps - (left + 1)
      if fat32Eoc ≤ cluster ∧ i + 1 < steps then (vol, none)
      else
        let get := fat32GetNextCluster vol cluster
        direntClusterFrom steps left get.1 get.2

/-- The fields that are set in entry `index` of a page of directory entries. -/
def setDirent (page : ℕ → UInt8) (index : ℕ) (file : OpenFile) : ℕ → UInt8 :=
  let page := writeU32 page (32 * index + 28) file.sizeBytes
  let page := store page (32 * index + 20)
    (fun k => UInt8.ofNat (file.firstCluster / 65536 / 256 ^ k)) 2
  let page := store page (32 * index + 26)
    (fun k => UInt8.ofNat (file.firstCluster % 65536 / 256 ^ k)) 2
  store page (32 * index + 11) (fun _ => UInt8.ofNat file.fileFlags) 1

/-- `dirent_writeback`.  One page is read and written back, however large the
cluster is. -/
def direntWriteback (vol : Volume) (file : OpenFile) : Volume :=
  let direntsPerCluster := vol.mount.bpb.clusterSizeBytes / 32
  let steps := file.direntOffset / direntsPerCluster
  let walk := direntClusterFrom steps steps vol file.direntCluster
  match walk.2 with
  | none => walk.1
  | some cluster =>
      let offset := walk.1.mount.clusterOffset cluster % 2 ^ 32
      let page := setDirent (load walk.1.device offset)
        (file.direntOffset % direntsPerCluster) file
      fwrite walk.1 page offset 4096

/-! ## Writing -/

/-- What a write leaves: the volume, the open file, and the returned number, or
`none` after a trap of the division. -/
structure Outcome where
  vol : Volume
  file : OpenFile
  returned : Option ℤ

/-- The walk to the cluster of the offset.  New clusters are cleared with one
page of zeros, for which the memory may run out in each round. -/
def walkToOffset (malloc : ℕ → Bool) : ℕ → Volume → ℕ → Volume × Option ℕ
  | 0, vol, currentCluster => (vol, some currentCluster)
  | rounds + 1, vol, currentCluster =>
      let get := fat32GetNextCluster vol currentCluster
      if fat32EocMin ≤ get.2 then
        let link := linkNewCluster get.1 currentCluster
        if link.2 = 0 then (link.1, none)
        else if malloc rounds then
          walkToOffset malloc rounds
            (fwrite link.1 (fun _ => 0) (link.1.mount.clusterOffset link.2) 4096) link.2
        else (link.1, none)
      else walkToOffset malloc rounds get.1 get.2

/-- The loop over whole clusters.  It returns `some` short count when it finds
no free cluster. -/
def writeClusters (buffer : ℕ → UInt8) : ℕ → Volume → ℕ → ℕ → ℕ → Volume × Option ℕ
  | 0, vol, _, _, _ => (vol, none)
  | rounds + 1, vol, currentCluster, remainingCount, i =>
      if remainingCount = 0 then (vol, none)
      else
        let clusterSizeBytes := vol.mount.bpb.clusterSizeBytes
        let toWrite := min remainingCount clusterSizeBytes
        let written := fwrite vol (load buffer (i * clusterSizeBytes % 2 ^ 32))
          (vol.mount.clusterOffset currentCluster) toWrite
        let get := fat32GetNextCluster written currentCluster
        if fat32EocMin ≤ get.2 ∧ remainingCount - toWrite > 0 then
          let link := linkNewCluster get.1 currentCluster
          if link.2 = 0 then (link.1, some (i * clusterSizeBytes % 2 ^ 32))
          else writeClusters buffer rounds link.1 link.2 (remainingCount - toWrite) (i + 1)
        else writeClusters buffer rounds get.1 get.2 (remainingCount - toWrite) (i + 1)

/-- The loop, the new size and the directory entry. -/
def writeRest (vol : Volume) (file : OpenFile) (buffer : ℕ → UInt8)
    (offset count currentCluster remainingCount : ℕ) : Outcome :=
  let loop := writeClusters buffer remainingCount vol currentCluster remainingCount 0
  match loop.2 with
  | some short => ⟨loop.1, file, some (toInt short)⟩
  | none =>
      let file :=
        if (offset + count) % 2 ^ 64 > file.sizeBytes then
          { file with sizeBytes := (offset + count) % 2 ^ 64 % 2 ^ 32 }
        else file
      ⟨direntWriteback loop.1 file, file, some (toInt count)⟩

/-- The part of the first cluster behind an unaligned offset, and the rest. -/
def writeFrom (vol : Volume) (file : OpenFile) (buffer : ℕ → UInt8)
    (offset count currentCluster : ℕ) : Outcome :=
  let clusterSizeBytes := vol.mount.bpb.clusterSizeBytes
  let offsetInCluster := offset &&& (clusterSizeBytes - 1)
  if offsetInCluster ≠ 0 then
    let toWrite := min count (clusterSizeBytes - offsetInCluster)
    let written := fwrite vol buffer
      (vol.mount.clusterOffset currentCluster + offsetInCluster) toWrite
    if clusterSizeBytes - offsetInCluster > count then
      ⟨written, file, some (toInt count)⟩
    else
      let get := fat32GetNextCluster written currentCluster
      let remainingCount := count - (clusterSizeBytes - offsetInCluster)
      if fat32EocMin ≤ get.2 then
        ⟨get.1, file, some (toInt (count - remainingCount))⟩
      else
        writeRest get.1 file (load buffer (clusterSizeBytes - offsetInCluster))
          offset count get.2 remainingCount
  else writeRest vol file buffer offset count currentCluster count

/-- The first cluster of the file, which an empty file is given here. -/
def firstClusterFor (vol : Volume) (file : OpenFile) : Volume × OpenFile :=
  if file.firstCluster = 0 then
    let free := fat32GetFreeCluster vol
    if free.2 = 0 then (free.1, file)
    else (fat32SetNextCluster free.1 free.2 fat32Eoc,
      { file with firstCluster := free.2 })
  else (vol, file)

/-- `fat32_write`. -/
def fat32Write (malloc : ℕ → Bool) (vol : Volume) (file : OpenFile)
    (buffer : ℕ → UInt8) (offset count : ℕ) : Outcome :=
  let first := firstClusterFor vol file
  if first.2.firstCluster = 0 then ⟨first.1, first.2, some 0⟩
  else
    let clusterSizeBytes := first.1.mount.bpb.clusterSizeBytes
    match udiv64 offset clusterSizeBytes,
        udiv64 ((count + clusterSizeBytes - 1) % 2 ^ 64) clusterSizeBytes with
    | some clustersUntilStart, some _ =>
        let walk := walkToOffset malloc clustersUntilStart first.1 first.2.firstCluster
        match walk.2 with
        | none => ⟨walk.1, first.2, some 0⟩
        | some currentCluster =>
            writeFrom walk.1 first.2 buffer offset count currentCluster
    | _, _ => ⟨first.1, first.2, none⟩

/-! ## Reading -/

/-- What a read leaves: the volume, the buffer, and the returned number, or
`none` after a trap of the division. -/
structure ReadOutcome where
  vol : Volume
  buffer : ℕ → UInt8
  returned : Option ℤ

/-- The walk to the cluster of the offset, `none` at the end of the chain. -/
def readWalk : ℕ → Volume → ℕ → Volume × Option ℕ
  | 0, vol, currentCluster => (vol, some currentCluster)
  | rounds + 1, vol, currentCluster =>
      let get := fat32GetNextCluster vol currentCluster
      if fat32EocMin ≤ get.2 then (get.1, none) else readWalk rounds get.1 get.2

/-- The loop over whole clusters, which stores behind `start` in the buffer. -/
def readClusters (clustersToRead count start : ℕ) :
    ℕ → Volume → (ℕ → UInt8) → ℕ → ℕ → ℕ → ReadOutcome
  | 0, vol, buffer, _, _, _ => ⟨vol, buffer, some (toInt count)⟩
  | rounds + 1, vol, buffer, currentCluster, remainingCount, i =>
      if remainingCount = 0 then ⟨vol, buffer, some (toInt count)⟩
      else
        let clusterSizeBytes := vol.mount.bpb.clusterSizeBytes
        let toRead := min remainingCount clusterSizeBytes
        let buffer := store buffer (start + i * clusterSizeBytes % 2 ^ 32)
          (load vol.device (vol.mount.clusterOffset currentCluster)) toRead
        let get := fat32GetNextCluster vol currentCluster
        if fat32EocMin ≤ get.2 ∧ i < (clustersToRead + 2 ^ 32 - 1) % 2 ^ 32 then
          ⟨get.1, buffer, some (toInt ((i + 1) * clusterSizeBytes))⟩
        else
          readClusters clustersToRead count start rounds get.1 buffer get.2
            (remainingCount - toRead) (i + 1)

/-- The part of the first cluster behind an unaligned offset, and the rest. -/
def readFrom (vol : Volume) (buffer : ℕ → UInt8)
    (clustersToRead offset count currentCluster : ℕ) : ReadOutcome :=
  let clusterSizeBytes := vol.mount.bpb.clusterSizeBytes
  let offsetInCluster := offset &&& (clusterSizeBytes - 1)
  if offsetInCluster ≠ 0 then
    let toRead := min count (clusterSizeBytes - offsetInCluster)
    let buffer := store buffer 0
      (load vol.device (vol.mount.clusterOffset currentCluster + offsetInCluster)) toRead
    if clusterSizeBytes - offsetInCluster > count then
      ⟨vol, buffer, some (toInt count)⟩
    else
      let get := fat32GetNextCluster vol currentCluster
      let remainingCount := count - (clusterSizeBytes - offsetInCluster)
      if fat32EocMin ≤ get.2 then
        ⟨get.1, buffer, some (toInt (count - remainingCount))⟩
      else
        readClusters clustersToRead count (clusterSizeBytes - offsetInCluster)
          remainingCount get.1 buffer get.2 remainingCount 0
  else readClusters clustersToRead count 0 count vol buffer currentCluster count 0

/-- `fat32_read`. -/
def fat32Read (vol : Volume) (file : OpenFile) (buffer : ℕ → UInt8)
    (offset count : ℕ) : ReadOutcome :=
  let clusterSizeBytes := vol.mount.bpb.clusterSizeBytes
  match udiv64 offset clusterSizeBytes,
      udiv64 ((count + clusterSizeBytes - 1) % 2 ^ 64) clusterSizeBytes with
  | some clustersUntilStart, some clustersToRead =>
      let walk := readWalk clustersUntilStart vol file.firstCluster
      match walk.2 with
      | none => ⟨walk.1, buffer, some 0⟩
      | some currentCluster =>
          readFrom walk.1 buffer clustersToRead offset count currentCluster
  | _, _ => ⟨vol, buffer, none⟩

end KimisOS.Fat32
