import KimisOS.Fat32.QuietRead

/-!
# The tool that writes files to an image

`diskwrite` keeps the whole table in memory.  It stores every file in a chain
of its own, writes the root directory anew after each file, and writes the
table to the image at the end.  A chain always has one cluster behind the last
one that is written.
-/

namespace KimisOS.Diskwrite

open KimisOS.ByteStore
open KimisOS.Fat32 (Bpb CString)

def fileEnd : ℕ := 0xFFFFFFFF

/-- `fat_info`, with the words of the file table, and the bytes of the image.
The parameter block is the one in the boot sector of the image. -/
structure FatInfo where
  bpb : Bpb
  rootDirCluster : ℕ
  rootDirEntries : ℕ
  partitionStart : ℕ
  clusterSearchStart : ℕ
  fileTable : ℕ → ℕ
  disk : ℕ → UInt8

def FatInfo.fileTableSizeSectors (info : FatInfo) : ℕ :=
  info.bpb.fatCount * info.bpb.sectorsPerFat % 2 ^ 32

/-! ## Sectors -/

/-- Where a sector is in the image; a sector has 512 bytes here. -/
def sectorOffset (sector : ℕ) : ℕ := sector * 512 % 2 ^ 32

def readSector (disk : ℕ → UInt8) (sectorStart : ℕ) : ℕ → UInt8 :=
  load disk (sectorOffset sectorStart)

def writeSector (disk : ℕ → UInt8) (sectorStart count : ℕ) (buf : ℕ → UInt8) :
    ℕ → UInt8 :=
  store disk (sectorOffset sectorStart) buf (512 * count)

/-- The first sector of a cluster, computed in 32 bits. -/
def FatInfo.clusterSector (info : FatInfo) (cluster : ℕ) : ℕ :=
  (info.bpb.reservedSectors + info.fileTableSizeSectors + info.partitionStart +
    (cluster + 2 ^ 32 - 2) % 2 ^ 32 * info.bpb.sectorsPerCluster) % 2 ^ 32

def readCluster (info : FatInfo) (cluster : ℕ) : ℕ → UInt8 :=
  readSector info.disk (info.clusterSector cluster)

def writeCluster (info : FatInfo) (cluster : ℕ) (buffer : ℕ → UInt8) : FatInfo :=
  { info with
    disk := writeSector info.disk (info.clusterSector cluster)
      info.bpb.sectorsPerCluster buffer }

/-! ## The file table -/

/-- A loop that counts up until it finds a place. -/
def firstFrom (found : ℕ → Bool) : ℕ → ℕ → Option ℕ
  | 0, _ => none
  | rounds + 1, i => if found i then some i else firstFrom found rounds (i + 1)

/-- `find_free_cluster`.  The C function returns no value when the loop ends
without a free cluster. -/
def findFreeCluster (info : FatInfo) : Option ℕ :=
  let start := if info.clusterSearchStart < 2 then 2 else info.clusterSearchStart
  firstFrom (fun i => info.fileTable i == 0)
    (info.bpb.sectorCount / info.bpb.sectorsPerCluster - start) start

/-- `write_cluster_value`, in every copy of the table. -/
def writeClusterValue (info : FatInfo) (value cluster : ℕ) : FatInfo :=
  { info with
    fileTable := (List.range info.bpb.fatCount).foldl
      (fun table i => Function.update table
        ((cluster + i * info.bpb.sectorsPerFat * (info.bpb.bytesPerSector / 4)) % 2 ^ 32)
        value) info.fileTable }

/-! ## Files -/

/-- The loop of `write_file`: the chain grows where it ends. -/
def writeFileFrom (buffer : ℕ → UInt8) : ℕ → FatInfo → ℕ → ℕ → Option (FatInfo × ℕ)
  | 0, info, cluster, _ => some (info, cluster)
  | rounds + 1, info, cluster, i =>
      let info := writeCluster info cluster
        (load buffer (i * info.bpb.sectorsPerCluster * info.bpb.bytesPerSector % 2 ^ 32))
      if info.fileTable cluster = fileEnd then
        match findFreeCluster info with
        | none => none
        | some next =>
            writeFileFrom buffer rounds
              (writeClusterValue (writeClusterValue info next cluster) fileEnd next)
              next (i + 1)
      else writeFileFrom buffer rounds info (info.fileTable cluster) (i + 1)

/-- `write_file`, with the first cluster that the entry of the file gives. -/
def writeFile (info : FatInfo) (firstCluster : ℕ) (buffer : ℕ → UInt8) (size : ℕ) :
    Option FatInfo :=
  let clusters := (size / info.bpb.clusterSizeBytes + 1) % 2 ^ 32
  let newBuffer := fun k => if k < size then buffer k else 0
  match writeFileFrom newBuffer clusters info firstCluster 0 with
  | none => none
  | some (info, cluster) => some (writeClusterValue info fileEnd cluster)

def dot : UInt8 := 0x2e

/-- The fields that are set in an entry of the root directory. -/
def setFile (rootFiles : ℕ → UInt8) (index : ℕ) (base ext : CString)
    (sizeBytes firstCluster : ℕ) : ℕ → UInt8 :=
  let files := store rootFiles (32 * index) (fun k => base.getD k 0) base.length
  let files := store files (32 * index + 8) (fun k => ext.getD k 0) ext.length
  let files := writeU32 files (32 * index + 28) sizeBytes
  let files := store files (32 * index + 26)
    (fun k => UInt8.ofNat (firstCluster % 65536 / 256 ^ k)) 2
  store files (32 * index + 20) (fun k => UInt8.ofNat (firstCluster / 65536 / 256 ^ k)) 2

/-- The first cluster as an entry gives it. -/
def startCluster (rootFiles : ℕ → UInt8) (index : ℕ) : ℕ :=
  readU16 rootFiles (32 * index + 26) + readU16 rootFiles (32 * index + 20) * 65536

/-- `create_file`, for the path of the file and its bytes.  The name ends in
front of the first dot, and there has to be one. -/
def createFile (info : FatInfo) (path : CString) (file : List UInt8) :
    Option FatInfo := do
  let clusterSizeBytes := info.bpb.sectorsPerCluster * 512
  let cluster := readCluster info info.rootDirCluster
  let rootFiles := fun k => if k < clusterSizeBytes then cluster k else 0
  let index ← firstFrom (fun index => rootFiles (32 * index) == 0) clusterSizeBytes 0
  let ext ← (path.dropWhile (· != dot)).tail?
  let size := file.length % 2 ^ 32
  let firstCluster ← findFreeCluster info
  let info :=
    { info with
      fileTable := Function.update info.fileTable firstCluster fileEnd
      rootDirEntries := (info.rootDirEntries + 1) % 2 ^ 16 }
  let rootFiles := setFile rootFiles index (path.takeWhile (· != dot)) (ext.take 3) size
    firstCluster
  let info ← writeFile info (startCluster rootFiles index) (fun k => file.getD k 0) size
  writeFile info info.rootDirCluster rootFiles (info.rootDirEntries * 32)

/-! ## The whole run -/

/-- The bytes of a table of words. -/
def wordBytes (table : ℕ → ℕ) : ℕ → UInt8 := fun k =>
  UInt8.ofNat (table (k / 4) / 256 ^ (k % 4))

/-- `fat_write_back`. -/
def fatWriteBack (info : FatInfo) : FatInfo :=
  { info with
    disk := writeSector info.disk info.bpb.reservedSectors
      (info.bpb.sectorsPerFat * info.bpb.fatCount) (wordBytes info.fileTable) }

/-- `field += factor * field == 0`. -/
def repaired (factor field : ℕ) : ℕ := field + if factor * field = 0 then 1 else 0

/-- The parameter block of an image, with the fields that only the tool
reads. -/
structure BootRecord where
  bpb : Bpb
  rootDirCluster : ℕ
  rootDirEntries : ℕ
  partitionStart : ℕ

def BootRecord.repair (boot : BootRecord) : BootRecord :=
  { boot with
    bpb := { boot.bpb with
      bytesPerSector := repaired 512 boot.bpb.bytesPerSector
      sectorsPerCluster := repaired 8 boot.bpb.sectorsPerCluster
      reservedSectors := repaired 32 boot.bpb.reservedSectors }
    rootDirCluster := repaired 2 boot.rootDirCluster }

/-- `detect_repair_fs`, apart from the bytes of the boot sector. -/
def detectRepairFs (boot : BootRecord) (disk : ℕ → UInt8) : FatInfo :=
  let boot := boot.repair
  let fileTable := fun i => readU32 (readSector disk boot.bpb.reservedSectors) (4 * i)
  { bpb := boot.bpb
    rootDirCluster := boot.rootDirCluster
    rootDirEntries := boot.rootDirEntries
    partitionStart := boot.partitionStart
    clusterSearchStart := 0
    fileTable :=
      if fileTable boot.rootDirCluster = 0 then
        Function.update (Function.update (Function.update fileTable 0 fileEnd) 1 fileEnd)
          boot.rootDirCluster fileEnd
      else fileTable
    disk }

/-- An input file of the tool. -/
structure InputFile where
  path : CString
  bytes : List UInt8

def createFiles : FatInfo → List InputFile → Option FatInfo
  | info, [] => some info
  | info, file :: files =>
      match createFile info file.path file.bytes with
      | none => none
      | some info => createFiles info files

/-- `main`: the image that the tool leaves. -/
def diskwrite (boot : BootRecord) (disk : ℕ → UInt8) (files : List InputFile) :
    Option (ℕ → UInt8) :=
  match createFiles (detectRepairFs boot disk) files with
  | none => none
  | some info => some (fatWriteBack info).disk

end KimisOS.Diskwrite
