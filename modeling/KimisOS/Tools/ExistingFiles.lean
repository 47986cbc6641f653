import KimisOS.Tools.ChainWrites
import KimisOS.Tools.ReadBack

/-!
# Files that are on the image already

`create_file` finds its entry in the root directory itself, but it writes only as many
entries back as a counter says that it takes from the boot sector and does not store
there.  Everything behind them in the cluster is cleared.
-/

namespace KimisOS.Diskwrite

open KimisOS.ByteStore
open KimisOS.Fat32 (Bpb CString Geometry IsChain)

/-- An input file with a name of eight characters at most in front of the first dot. -/
structure RootFile where
  base : CString
  ext : CString
  bytes : List UInt8
  baseLength : 1 ≤ base.length ∧ base.length ≤ 8
  baseChars : ∀ c ∈ base, c ≠ dot ∧ c ≠ 0
  extChars : ∀ c ∈ ext, c ≠ 0

def RootFile.path (file : RootFile) : CString := file.base ++ dot :: file.ext

def RootFile.inputFile (file : RootFile) : InputFile := ⟨file.path, file.bytes⟩

/-- What is stored of the extension. -/
def RootFile.storedExt (file : RootFile) : CString := file.ext.take 3

theorem RootFile.storedExt_length (file : RootFile) : file.storedExt.length ≤ 3 :=
  List.length_take_le _ _

theorem RootFile.path_split (file : RootFile) :
    file.path.takeWhile (· != dot) = file.base ∧
      (file.path.dropWhile (· != dot)).tail? = some file.ext := by
  have hbase : ∀ c ∈ file.base, (c != dot) = true := by
    intro c hc
    exact bne_iff_ne.mpr (file.baseChars c hc).1
  constructor
  · rw [RootFile.path, List.takeWhile_append_of_pos hbase]
    simp
  · rw [RootFile.path, List.dropWhile_append_of_pos hbase]
    simp

/-! ## The parts of `create_file` -/

/-- What `create_file` writes with: the image with the first cluster of the file marked,
the root directory with its entry, and that cluster. -/
structure Prepared where
  info : FatInfo
  rootFiles : ℕ → UInt8
  start : ℕ

/-- `create_file` up to the writes. -/
def prepareFile (info : FatInfo) (path : CString) (file : List UInt8) : Option Prepared := do
  let clusterSizeBytes := info.bpb.sectorsPerCluster * 512
  let cluster := readCluster info info.rootDirCluster
  let rootFiles := fun k => if k < clusterSizeBytes then cluster k else 0
  let index ← firstFrom (fun index => rootFiles (32 * index) == 0) clusterSizeBytes 0
  let ext ← (path.dropWhile (· != dot)).tail?
  let size := file.length % 2 ^ 32
  let firstCluster ← findFreeCluster info
  let info :=
    { info with
      fileTable := Function.update info.fileTable firstCluster fileEnd
      rootDirEntries := (info.rootDirEntries + 1) % 2 ^ 16 }
  let rootFiles := setFile rootFiles index (path.takeWhile (· != dot)) (ext.take 3) size
    firstCluster
  some ⟨info, rootFiles, startCluster rootFiles index⟩

theorem createFile_prepared (info : FatInfo) (path : CString) (file : List UInt8) :
    createFile info path file = (prepareFile info path file).bind fun prepared =>
      (writeFile prepared.info prepared.start (fun k => file.getD k 0)
        (file.length % 2 ^ 32)).bind fun info =>
          writeFile info info.rootDirCluster prepared.rootFiles (info.rootDirEntries * 32) := by
  simp only [createFile, prepareFile, Option.bind_eq_bind, Option.bind_assoc, Option.bind_some]

theorem prepareFile_eq {info : FatInfo} {path ext : CString} {file : List UInt8}
    {rootFiles : ℕ → UInt8} {index firstCluster : ℕ}
    (hroot : (fun k => if k < info.bpb.sectorsPerCluster * 512 then
      readCluster info info.rootDirCluster k else 0) = rootFiles)
    (hindex : firstFrom (fun index => rootFiles (32 * index) == 0)
      (info.bpb.sectorsPerCluster * 512) 0 = some index)
    (hext : (path.dropWhile (· != dot)).tail? = some ext)
    (hfirst : findFreeCluster info = some firstCluster) :
    prepareFile info path file = some
      ⟨marked info firstCluster ((info.rootDirEntries + 1) % 2 ^ 16),
        setFile rootFiles index (path.takeWhile (· != dot)) (ext.take 3) (file.length % 2 ^ 32)
          firstCluster,
        startCluster (setFile rootFiles index (path.takeWhile (· != dot)) (ext.take 3)
          (file.length % 2 ^ 32) firstCluster) index⟩ := by
  subst hroot
  simp only [prepareFile, Option.bind_eq_bind, hindex, hext, hfirst, Option.bind_some]
  rfl

/-- `write_file` only comes to clusters of the image. -/
def WriteFileInside (clusters : ℕ) (info : FatInfo) (firstCluster : ℕ)
    (buffer : ℕ → UInt8) (size : ℕ) : Prop :=
  StaysInside clusters (padded buffer size)
    ((size / info.bpb.clusterSizeBytes + 1) % 2 ^ 32) info firstCluster 0

/-- Both writes only come to clusters of the image, and the entries that are written back
lie in the buffer, which has room for one for each byte of a cluster. -/
def CreateFileInside (clusters : ℕ) (info : FatInfo) (path : CString) (file : List UInt8) :
    Prop :=
  ∀ prepared, prepareFile info path file = some prepared →
    prepared.info.rootDirEntries ≤ info.bpb.sectorsPerCluster * 512 ∧
      WriteFileInside clusters prepared.info prepared.start (fun k => file.getD k 0)
        (file.length % 2 ^ 32) ∧
      ∀ next, writeFile prepared.info prepared.start (fun k => file.getD k 0)
          (file.length % 2 ^ 32) = some next →
        WriteFileInside clusters next next.rootDirCluster prepared.rootFiles
          (next.rootDirEntries * 32)

def CreateFilesInside (clusters : ℕ) : FatInfo → List InputFile → Prop
  | _, [] => True
  | info, file :: files =>
      CreateFileInside clusters info file.path file.bytes ∧
        ∀ next, createFile info file.path file.bytes = some next →
          CreateFilesInside clusters next files

/-! ## Chains that stay -/

/-- The first cluster of the root directory, with zeros behind it. -/
def directory (bpb : Bpb) (root : ℕ) (disk : ℕ → UInt8) : ℕ → UInt8 := fun x =>
  if x < bpb.clusterSizeBytes then disk (bpb.clusterStart root + x) else 0

/-- A chain that has its entries and its bytes as they were. -/
structure ChainKept (bpb : Bpb) (clusters : ℕ) (before info : FatInfo) (head : ℕ)
    (chain : List ℕ) : Prop where
  isChain : IsChain info.fileTable (clusters + 2) head chain
  table : ∀ c ∈ chain, info.fileTable c = before.fileTable c
  disk : ∀ c ∈ chain, ∀ k < bpb.clusterSizeBytes,
    info.disk (bpb.clusterStart c + k) = before.disk (bpb.clusterStart c + k)

section Chains

variable {bpb : Bpb} {clusters root counter head head' first : ℕ} {before info info' : FatInfo}
  {chain other other' rootChain : List ℕ} {buffer : ℕ → UInt8} {start rounds : ℕ}

theorem ChainKept.refl (hchain : IsChain info.fileTable (clusters + 2) head chain) :
    ChainKept bpb clusters info info head chain :=
  ⟨hchain, fun _ _ => rfl, fun _ _ _ _ => rfl⟩

/-- A free cluster is marked. -/
theorem ChainKept.mark (hgeo : Geometry bpb clusters)
    (hkept : ChainKept bpb clusters before info head chain) (hfree : info.fileTable first = 0)
    (m : ℕ) :
    ChainKept bpb clusters before (marked info first m) head chain ∧
      chain.Disjoint [first] := by
  have hout : first ∉ chain := fun hmem => hkept.isChain.ne_zero hgeo.count_le hmem hfree
  have hsame : ∀ c ∈ chain, (marked info first m).fileTable c = info.fileTable c := by
    intro c hc
    apply Function.update_of_ne
    rintro rfl
    exact hout hc
  refine ⟨⟨hkept.isChain.congr hsame, ?_, hkept.disk⟩, List.disjoint_singleton.mpr hout⟩
  intro c hc
  rw [hsame c hc, hkept.table c hc]

/-- Another chain is written. -/
theorem ChainKept.wrote (hgeo : Geometry bpb clusters)
    (hkept : ChainKept bpb clusters before info head chain)
    (hwrote : Wrote bpb clusters info info' head' other other' buffer start rounds)
    (hdisjoint : chain.Disjoint other) :
    ChainKept bpb clusters before info' head chain ∧ chain.Disjoint other' := by
  have hcs := hgeo.clusterSize_ge
  obtain ⟨hapart, htable, hdisk⟩ := hwrote.keepsChain hgeo hkept.isChain hdisjoint
  refine ⟨⟨hkept.isChain.congr htable, ?_, ?_⟩, hapart⟩
  · intro c hc
    rw [htable c hc, hkept.table c hc]
  · intro c hc k hk
    obtain ⟨p, hp⟩ := List.mem_iff_getElem?.mp hc
    have hlt := (List.getElem?_eq_some_iff.mp hp).1
    have hat := hgeo.fileAddress_eq hp hk
    have hplace : (p * bpb.clusterSizeBytes + k) / bpb.clusterSizeBytes = p := by
      rw [Nat.add_comm, Nat.add_mul_div_right _ _ (by omega), Nat.div_eq_of_lt hk,
        Nat.zero_add]
    rw [← hkept.disk c hc k hk, ← hat]
    apply hdisk
    rw [hplace]
    exact hlt

end Chains

/-! ## One file -/

/-- The number of clusters that are written for so many bytes. -/
def writeRounds (bpb : Bpb) (size : ℕ) : ℕ := size / bpb.clusterSizeBytes + 1

/-- `root_dir_entries++` in 16 bits. -/
def nextCounter (counter : ℕ) : ℕ := (counter + 1) % 2 ^ 16

/-- The entry that is filled in: the first one that begins with a zero. -/
structure FirstUnused (files : ℕ → UInt8) (index : ℕ) : Prop where
  unused : files (32 * index) = 0
  before : ∀ i < index, files (32 * i) ≠ 0

/-- The root directory behind a write of its first entries. -/
def rewritten (files : ℕ → UInt8) (index : ℕ) (file : RootFile) (firstCluster counter : ℕ) :
    ℕ → UInt8 := fun x =>
  if x < 32 * counter then
    setFile files index file.base file.storedExt file.bytes.length firstCluster x
  else 0

/-- The image on the way: the root directory has a chain, and every chain apart from the
one that it had at the start is as it was. -/
structure Stage (bpb : Bpb) (clusters root counter : ℕ) (before info : FatInfo)
    (startChain rootChain : List ℕ) : Prop where
  fixed : Fixed bpb clusters root counter info
  chain : IsChain info.fileTable (clusters + 2) root rootChain
  first : rootChain[0]? = some root
  kept : ∀ head chain, IsChain before.fileTable (clusters + 2) head chain →
    chain.Disjoint startChain →
      ChainKept bpb clusters before info head chain ∧ chain.Disjoint rootChain

/-- The root chain ends in the mark of the tool, or what is written with this counter is
shorter. -/
def RootEnds (bpb : Bpb) (table : ℕ → ℕ) (rootChain : List ℕ) (counter : ℕ) : Prop :=
  (∀ last, rootChain.getLast? = some last → table last = fileEnd) ∨
    writeRounds bpb (counter * 32) < rootChain.length

/-- What one file needs: its chain, and what the root chain has to grow. -/
def oneFile (bpb : Bpb) (counter rootLength : ℕ) (file : RootFile) : ℕ :=
  writeRounds bpb file.bytes.length + 1 +
    (writeRounds bpb (nextCounter counter * 32) + 1 - rootLength)

section Stage

variable {bpb : Bpb} {clusters root counter : ℕ} {before info : FatInfo}
  {startChain rootChain : List ℕ} {file : RootFile}

theorem firstFrom_first {found : ℕ → Bool} {rounds i j : ℕ}
    (hfirst : firstFrom found rounds i = some j) :
    found j = true ∧ ∀ k, i ≤ k → k < j → found k = false := by
  induction rounds generalizing i with
  | zero => cases hfirst
  | succ rounds ih =>
      rw [firstFrom] at hfirst
      split at hfirst
      case isTrue hhere =>
        obtain rfl := Option.some.inj hfirst
        exact ⟨hhere, fun k hlow hhigh => absurd hlow (by omega)⟩
      case isFalse hhere =>
        obtain ⟨hfound, hbefore⟩ := ih hfirst
        refine ⟨hfound, ?_⟩
        intro k hlow hhigh
        by_cases hk : k = i
        · rw [hk]
          exact Bool.eq_false_of_not_eq_true hhere
        · exact hbefore k (by omega) hhigh

theorem Stage.directory_eq (hstage : Stage bpb clusters root counter before info startChain
    rootChain) :
    (fun k => if k < info.bpb.sectorsPerCluster * 512 then
      readCluster info info.rootDirCluster k else 0) = directory bpb root info.disk := by
  have hrange := hstage.chain.range root (List.mem_of_getElem? hstage.first)
  have hsize := hstage.fixed.clusterSize_eq
  funext k
  rw [directory, hstage.fixed.bpb_eq, Nat.mul_comm bpb.sectorsPerCluster, hsize, readCluster,
    readSector, load, hstage.fixed.rootDirCluster, hstage.fixed.sectorOffset_eq hrange]

/-- There is an unused entry, in the cluster or behind it. -/
theorem Stage.unused (hstage : Stage bpb clusters root counter before info startChain
    rootChain) :
    ∃ index, firstFrom (fun index => directory bpb root info.disk (32 * index) == 0)
        (info.bpb.sectorsPerCluster * 512) 0 = some index ∧
      FirstUnused (directory bpb root info.disk) index := by
  have hsize := hstage.fixed.clusterSize_eq
  have hcs := hstage.fixed.geometry.clusterSize_ge
  have hbehind : directory bpb root info.disk (32 * (bpb.clusterSizeBytes - 1)) = 0 :=
    if_neg (by omega)
  have hbound : info.bpb.sectorsPerCluster * 512 = bpb.clusterSizeBytes := by
    rw [hstage.fixed.bpb_eq, Nat.mul_comm, hsize]
  obtain ⟨index, -, hindex, -, -⟩ := @firstFrom_spec
    (fun index => directory bpb root info.disk (32 * index) == 0) bpb.clusterSizeBytes 0
    (bpb.clusterSizeBytes - 1) (Nat.zero_le _) (by omega) (beq_iff_eq.mpr hbehind)
  obtain ⟨hunused, hall⟩ := firstFrom_first hindex
  refine ⟨index, by rwa [hbound], beq_iff_eq.mp hunused, ?_⟩
  intro i hi hzero
  have hnot := hall i (Nat.zero_le i) hi
  rw [hzero] at hnot
  cases hnot

/-- A file of a size that the clusters allow. -/
theorem length_lt (hgeo : Geometry bpb clusters)
    (hroom : writeRounds bpb file.bytes.length + 1 ≤ clusterLimit bpb clusters - 2) :
    file.bytes.length < 2 ^ 32 := by
  have hcs := hgeo.clusterSize_ge
  have hbelow := hgeo.below
  have hlimit : clusterLimit bpb clusters ≤ clusters + 2 := min_le_left _ _
  have hdiv : file.bytes.length / bpb.clusterSizeBytes < clusters := by
    rw [writeRounds] at hroom
    omega
  have hmul := (Nat.div_lt_iff_lt_mul (show 0 < bpb.clusterSizeBytes by omega)).mp hdiv
  omega

/-- `create_file` before the writes. -/
theorem Stage.prepare (file : RootFile)
    (hstage : Stage bpb clusters root counter before info startChain rootChain)
    (hroom : usedCount (clusterLimit bpb clusters) info.fileTable +
      (writeRounds bpb file.bytes.length + 1) ≤ clusterLimit bpb clusters - 2) :
    ∃ index first, FirstUnused (directory bpb root info.disk) index ∧
      (2 ≤ first ∧ first < clusters + 2) ∧ info.fileTable first = 0 ∧
      prepareFile info file.path file.bytes = some
        ⟨marked info first (nextCounter counter), setFile (directory bpb root info.disk) index
          file.base file.storedExt file.bytes.length first, first⟩ := by
  have hclusters := hstage.fixed.geometry.clusters_lt
  have hlimit : clusterLimit bpb clusters ≤ clusters + 2 := min_le_left _ _
  obtain ⟨index, hindex, hunused⟩ := hstage.unused
  obtain ⟨first, hfirst, hlow, hhigh, hfree⟩ := hstage.fixed.findFree (by omega)
  obtain ⟨hbase, hext⟩ := file.path_split
  have hsize := Nat.mod_eq_of_lt (length_lt hstage.fixed.geometry
    (Nat.le_trans (Nat.le_add_left _ _) hroom))
  refine ⟨index, first, hunused, ⟨hlow, by omega⟩, hfree, ?_⟩
  rw [prepareFile_eq hstage.directory_eq hindex hext hfirst, hbase, hsize,
    startCluster_setFile (by omega), hstage.fixed.rootDirEntries]
  rfl

theorem inside_iff {firstCluster size : ℕ} {buffer : ℕ → UInt8}
    (hfixed : Fixed bpb clusters root counter info) (hsize : size < 2 ^ 32) :
    WriteFileInside clusters info firstCluster buffer size ↔
      StaysInside clusters (padded buffer size) (writeRounds bpb size) info firstCluster 0 := by
  have hrounds : (size / info.bpb.clusterSizeBytes + 1) % 2 ^ 32 = writeRounds bpb size := by
    have hle : size / bpb.clusterSizeBytes ≤ size / 512 :=
      Nat.div_le_div_left hfixed.geometry.clusterSize_ge (by decide)
    rw [hfixed.bpb_eq, writeRounds]
    exact Nat.mod_eq_of_lt (by omega)
  rw [WriteFileInside, hrounds]

theorem ChainKept.directory (hkept : ChainKept bpb clusters before info root rootChain)
    (hfirst : rootChain[0]? = some root) :
    Diskwrite.directory bpb root info.disk = Diskwrite.directory bpb root before.disk := by
  funext x
  rw [Diskwrite.directory, Diskwrite.directory]
  split
  case isTrue hx => exact hkept.disk root (List.mem_of_getElem? hfirst) x hx
  case isFalse => rfl

/-- The file itself is written, into clusters of its own. -/
theorem Stage.writeNew (file : RootFile)
    (hstage : Stage bpb clusters root counter before info startChain rootChain)
    (hroom : usedCount (clusterLimit bpb clusters) info.fileTable +
      oneFile bpb counter rootChain.length file ≤ clusterLimit bpb clusters - 2) :
    ∃ index first next, FirstUnused (Diskwrite.directory bpb root info.disk) index ∧
      first < 2 ^ 32 ∧
      prepareFile info file.path file.bytes = some
        ⟨marked info first (nextCounter counter), setFile (Diskwrite.directory bpb root info.disk)
          index file.base file.storedExt file.bytes.length first, first⟩ ∧
      writeFile (marked info first (nextCounter counter)) first (fun k => file.bytes.getD k 0)
        (file.bytes.length % 2 ^ 32) = some next ∧
      Stage bpb clusters root (nextCounter counter) before next startChain rootChain ∧
      WriteFileInside clusters (marked info first (nextCounter counter)) first
        (fun k => file.bytes.getD k 0) (file.bytes.length % 2 ^ 32) ∧
      ChainKept bpb clusters info next root rootChain ∧
      usedCount (clusterLimit bpb clusters) next.fileTable ≤
        usedCount (clusterLimit bpb clusters) info.fileTable +
          (writeRounds bpb file.bytes.length + 1) := by
  rw [oneFile] at hroom
  have hgeo := hstage.fixed.geometry
  have hclusters := hgeo.clusters_lt
  have hsize := @length_lt _ _ file hgeo (by omega)
  obtain ⟨index, first, hunused, hrange, hfree, hprepare⟩ := hstage.prepare file (by omega)
  obtain ⟨hfixed, hended, hused⟩ := hstage.fixed.mark hrange (nextCounter counter)
  have hone : [first].length = 1 := rfl
  have hrounds : writeRounds bpb file.bytes.length =
    file.bytes.length / bpb.clusterSizeBytes + 1 := rfl
  obtain ⟨next, chain, hwrite, hfixed', hwrote, hinside⟩ := writeFile_spec
    (fun k => file.bytes.getD k 0) hfixed hended rfl (by rw [hone]; omega) hsize
    (by rw [hone]; omega)
  have hused' := hwrote.used
  rw [hwrote.length, hone] at hused'
  have hothers : ∀ {other : FatInfo} {head : ℕ} {chain : List ℕ},
      ChainKept bpb clusters other info head chain →
        ChainKept bpb clusters other next head chain := by
    intro other head chain hkept
    obtain ⟨hmarked, hapart⟩ := hkept.mark hgeo hfree (nextCounter counter)
    exact (hmarked.wrote hgeo hwrote hapart).1
  have hroot := hothers (ChainKept.refl hstage.chain)
  rw [Nat.mod_eq_of_lt hsize]
  refine ⟨index, first, next, hunused, by omega, hprepare, hwrite,
    ⟨hfixed', hroot.isChain, hstage.first, ?_⟩, (inside_iff hfixed hsize).mpr hinside, hroot,
    by omega⟩
  intro head chain hchain hdisjoint
  obtain ⟨hkept, hapart⟩ := hstage.kept head chain hchain hdisjoint
  exact ⟨hothers hkept, hapart⟩

/-- What `create_file` leaves. -/
structure Added (bpb : Bpb) (clusters root counter : ℕ) (before info info' : FatInfo)
    (startChain rootChain rootChain' : List ℕ) (file : RootFile) : Prop where
  stage : Stage bpb clusters root (nextCounter counter) before info' startChain rootChain'
  ended : Ended info'.fileTable (clusters + 2) root rootChain'
  length : rootChain'.length = writeRounds bpb (nextCounter counter * 32) + 1
  used : usedCount (clusterLimit bpb clusters) info'.fileTable ≤
    usedCount (clusterLimit bpb clusters) info.fileTable + oneFile bpb counter rootChain.length file
  directory : ∃ index first, FirstUnused (directory bpb root info.disk) index ∧
    first < 2 ^ 32 ∧ ∀ x < bpb.clusterSizeBytes, Diskwrite.directory bpb root info'.disk x =
      rewritten (Diskwrite.directory bpb root info.disk) index file first
        (nextCounter counter) x

theorem nextCounter_lt (counter : ℕ) : nextCounter counter < 2 ^ 16 := Nat.mod_lt _ (by decide)

/-- The root directory is written anew. -/
theorem Stage.writeRoot (buffer : ℕ → UInt8)
    (hstage : Stage bpb clusters root counter before info startChain rootChain)
    (hcounter : counter < 2 ^ 16) (hends : RootEnds bpb info.fileTable rootChain counter)
    (hroom : usedCount (clusterLimit bpb clusters) info.fileTable +
      (writeRounds bpb (counter * 32) + 1 - rootChain.length) ≤ clusterLimit bpb clusters - 2) :
    ∃ info' rootChain', writeFile info root buffer (counter * 32) = some info' ∧
      Stage bpb clusters root counter before info' startChain rootChain' ∧
      Ended info'.fileTable (clusters + 2) root rootChain' ∧
      rootChain'.length = writeRounds bpb (counter * 32) + 1 ∧
      WriteFileInside clusters info root buffer (counter * 32) ∧
      usedCount (clusterLimit bpb clusters) info'.fileTable ≤
        usedCount (clusterLimit bpb clusters) info.fileTable +
          (writeRounds bpb (counter * 32) + 1 - rootChain.length) ∧
      ∀ x < bpb.clusterSizeBytes, directory bpb root info'.disk x =
        padded buffer (counter * 32) x := by
  have hgeo := hstage.fixed.geometry
  have hsize : counter * 32 < 2 ^ 32 := by omega
  obtain ⟨info', rootChain', hwrite, hfixed, hwrote, hinside, hused⟩ := writeFile_chain buffer
    hstage.fixed hstage.chain hstage.first hends hsize hroom
  have hlength := hwrote.length
  have hfirst : rootChain'[0]? = some root :=
    hwrote.ended.isChain.first (hstage.chain.head_ne (by
      rintro rfl
      cases hstage.first))
  refine ⟨info', rootChain', hwrite, ⟨hfixed, hwrote.ended.isChain, hfirst, ?_⟩,
    hwrote.ended, by rw [hlength, Nat.zero_add, writeRounds],
    (inside_iff hstage.fixed hsize).mpr hinside, hused, ?_⟩
  · intro head chain hchain hdisjoint
    obtain ⟨hkept, hapart⟩ := hstage.kept head chain hchain hdisjoint
    exact hkept.wrote hgeo hwrote fun c hc hmem => hapart hc (List.mem_of_mem_take hmem)
  · intro x hx
    have hbyte := hwrote.bytes x (by rw [Nat.succ_mul]; omega)
    have hat := hgeo.fileAddress_eq hfirst hx
    rw [Nat.zero_mul, Nat.zero_add] at hbyte hat
    rw [directory, if_pos hx, ← hat, hbyte]

/-- `create_file` adds a file. -/
theorem Stage.create (file : RootFile)
    (hstage : Stage bpb clusters root counter before info startChain rootChain)
    (hends : RootEnds bpb info.fileTable rootChain (nextCounter counter))
    (hroom : usedCount (clusterLimit bpb clusters) info.fileTable +
      oneFile bpb counter rootChain.length file ≤ clusterLimit bpb clusters - 2) :
    ∃ info' rootChain', createFile info file.path file.bytes = some info' ∧
      Added bpb clusters root counter before info info' startChain rootChain rootChain' file ∧
      (nextCounter counter ≤ bpb.clusterSizeBytes →
        CreateFileInside clusters info file.path file.bytes) := by
  obtain ⟨index, first, next, hunused, hless, hprepare, hwrite, hstage₁, hinside₁, hkept,
    hused₁⟩ := hstage.writeNew file hroom
  rw [oneFile] at hroom
  have hends₁ : RootEnds bpb next.fileTable rootChain (nextCounter counter) := by
    rcases hends with hmark | hlong
    · refine Or.inl fun last hlast => ?_
      rw [hkept.table last (List.mem_of_getLast? hlast)]
      exact hmark last hlast
    · exact Or.inr hlong
  obtain ⟨info', rootChain', hwriteRoot, hstage', hended, hlength, hinside₂, hused₂, hbytes⟩ :=
    hstage₁.writeRoot (setFile (directory bpb root info.disk) index file.base file.storedExt
      file.bytes.length first) (nextCounter_lt counter) hends₁ (by omega)
  have hcode : createFile info file.path file.bytes = some info' := by
    rw [createFile_prepared, hprepare, Option.bind_some]
    dsimp only
    rw [hwrite, Option.bind_some, hstage₁.fixed.rootDirCluster,
      hstage₁.fixed.rootDirEntries, hwriteRoot]
  refine ⟨info', rootChain', hcode, ⟨hstage', hended, hlength, ?_, ?_⟩, ?_⟩
  · rw [oneFile]
    omega
  · refine ⟨index, first, hunused, hless, ?_⟩
    intro x hx
    rw [hbytes x hx, padded, rewritten, Nat.mul_comm]
  · intro hcounter prepared hprepared
    obtain rfl := Option.some.inj (hprepare.symm.trans hprepared)
    have hcluster := hstage.fixed.clusterSize_eq
    refine ⟨?_, hinside₁, ?_⟩
    · change nextCounter counter ≤ _
      rw [hstage.fixed.bpb_eq, Nat.mul_comm, hcluster]
      exact hcounter
    · intro other hother
      obtain rfl := Option.some.inj (hwrite.symm.trans hother)
      rw [hstage₁.fixed.rootDirCluster, hstage₁.fixed.rootDirEntries]
      exact hinside₂

/-- The counter stays within the buffer, and the root chain ends as it should, where
`create_file` stays inside. -/
theorem Stage.ends_of_inside
    (hstage : Stage bpb clusters root counter before info startChain rootChain)
    (hroom : usedCount (clusterLimit bpb clusters) info.fileTable +
      oneFile bpb counter rootChain.length file ≤ clusterLimit bpb clusters - 2)
    (hinside : CreateFileInside clusters info file.path file.bytes) :
    nextCounter counter ≤ bpb.clusterSizeBytes ∧
      RootEnds bpb info.fileTable rootChain (nextCounter counter) := by
  obtain ⟨index, first, next, -, -, hprepare, hwrite, hstage₁, -, hkept, -⟩ :=
    hstage.writeNew file hroom
  obtain ⟨hcounter, -, hroot⟩ := hinside _ hprepare
  constructor
  · change nextCounter counter ≤ _ at hcounter
    rwa [hstage.fixed.bpb_eq, Nat.mul_comm, hstage.fixed.clusterSize_eq] at hcounter
  · by_contra hbad
    rw [RootEnds, not_or] at hbad
    have hwritten := hroot next hwrite
    have hcount := nextCounter_lt counter
    rw [hstage₁.fixed.rootDirCluster, hstage₁.fixed.rootDirEntries,
      inside_iff hstage₁.fixed (by omega)] at hwritten
    refine not_staysInside hstage₁.chain hstage.fixed.geometry.count_le hstage₁.first
      (by omega) ?_ hwritten
    -- the last entry of the root chain is the only one that may hold another mark
    intro last hlast hmark
    apply hbad.1
    intro other hother
    obtain rfl := Option.some.inj (hlast.symm.trans hother)
    rw [← hkept.table last (List.mem_of_getLast? hlast), hmark]

end Stage

/-! ## All files -/

/-- The clusters that the files need, and that the root chain grows by. -/
def clustersNeeded (bpb : Bpb) : ℕ → ℕ → List RootFile → ℕ
  | _, _, [] => 0
  | counter, rootLength, file :: files =>
      oneFile bpb counter rootLength file +
        clustersNeeded bpb (nextCounter counter)
          (writeRounds bpb (nextCounter counter * 32) + 1) files

/-- The directory, file by file. -/
def Rewrites (clusterSizeBytes : ℕ) : List RootFile → ℕ → (ℕ → UInt8) → (ℕ → UInt8) → Prop
  | [], _, files, final => final = files
  | file :: more, counter, files, final => ∃ next, (∃ index first, FirstUnused files index ∧
      first < 2 ^ 32 ∧ ∀ x, next x = if x < clusterSizeBytes then
        rewritten files index file first (nextCounter counter) x else 0) ∧
      Rewrites clusterSizeBytes more (nextCounter counter) next final

theorem iterate_nextCounter {counter : ℕ} (hcounter : counter < 2 ^ 16) (k : ℕ) :
    nextCounter^[k] counter = (counter + k) % 2 ^ 16 := by
  induction k with
  | zero => exact (Nat.mod_eq_of_lt hcounter).symm
  | succ k ih =>
      rw [Function.iterate_succ_apply', ih, nextCounter]
      omega

section Run

variable {bpb : Bpb} {clusters root counter : ℕ} {before info : FatInfo}
  {startChain rootChain : List ℕ} {files : List RootFile}

theorem createFiles_cons (file : RootFile) (files : List RootFile) (info : FatInfo) :
    createFiles info ((file :: files).map RootFile.inputFile) =
      (createFile info file.path file.bytes).bind fun next =>
        createFiles next (files.map RootFile.inputFile) := by
  rw [List.map_cons, createFiles, RootFile.inputFile]
  cases createFile info file.path file.bytes with
  | none => rfl
  | some next => rfl

theorem Ended.rootEnds (hended : Ended info.fileTable (clusters + 2) root rootChain)
    (counter : ℕ) : RootEnds bpb info.fileTable rootChain counter := Or.inl hended.mark

/-- Every file is created, and the directory is rewritten with each of them. -/
theorem Stage.createAll
    (hstage : Stage bpb clusters root counter before info startChain rootChain)
    (hends : files ≠ [] → RootEnds bpb info.fileTable rootChain (nextCounter counter))
    (hroom : usedCount (clusterLimit bpb clusters) info.fileTable +
      clustersNeeded bpb counter rootChain.length files ≤ clusterLimit bpb clusters - 2) :
    ∃ info' rootChain', createFiles info (files.map RootFile.inputFile) = some info' ∧
      Stage bpb clusters root (nextCounter^[files.length] counter) before info' startChain
        rootChain' ∧
      Rewrites bpb.clusterSizeBytes files counter (directory bpb root info.disk)
        (directory bpb root info'.disk) ∧
      ((∀ k < files.length, nextCounter^[k + 1] counter ≤ bpb.clusterSizeBytes) →
        CreateFilesInside clusters info (files.map RootFile.inputFile)) := by
  induction files generalizing counter info rootChain with
  | nil => exact ⟨info, rootChain, rfl, hstage, rfl, fun _ => trivial⟩
  | cons file files ih =>
      rw [clustersNeeded] at hroom
      obtain ⟨next, rootChain₁, hcreate, hadded, hinside⟩ :=
        hstage.create file (hends (List.cons_ne_nil _ _)) (by omega)
      have hused := hadded.used
      obtain ⟨info', rootChain', hrest, hstage', hrewrites, hinside'⟩ := ih hadded.stage
        (fun _ => hadded.ended.rootEnds _) (by rw [hadded.length]; omega)
      refine ⟨info', rootChain', ?_, hstage', ?_, ?_⟩
      · rw [createFiles_cons, hcreate, Option.bind_some, hrest]
      · obtain ⟨index, first, hunused, hfirst, hbytes⟩ := hadded.directory
        refine ⟨directory bpb root next.disk, ⟨index, first, hunused, hfirst, ?_⟩, hrewrites⟩
        intro x
        by_cases hx : x < bpb.clusterSizeBytes
        · rw [if_pos hx, hbytes x hx]
        · rw [if_neg hx, directory, if_neg hx]
      · intro hcounters
        refine ⟨hinside (hcounters 0 (Nat.succ_pos _)), ?_⟩
        intro other hother
        obtain rfl := Option.some.inj (hcreate.symm.trans hother)
        apply hinside'
        intro k hk
        exact hcounters (k + 1) (Nat.succ_lt_succ hk)

/-- A run that stays inside needs the root chain to end as it should, and its last counter
stays within the buffer. -/
theorem Stage.of_inside
    (hstage : Stage bpb clusters root counter before info startChain rootChain)
    (hroom : usedCount (clusterLimit bpb clusters) info.fileTable +
      clustersNeeded bpb counter rootChain.length files ≤ clusterLimit bpb clusters - 2)
    (hinside : CreateFilesInside clusters info (files.map RootFile.inputFile))
    (hne : files ≠ []) :
    RootEnds bpb info.fileTable rootChain (nextCounter counter) ∧
      nextCounter^[files.length] counter ≤ bpb.clusterSizeBytes := by
  induction files generalizing counter info rootChain with
  | nil => exact absurd rfl hne
  | cons file files ih =>
      rw [clustersNeeded] at hroom
      obtain ⟨hfirst, hrest⟩ := hinside
      obtain ⟨hcounter, hends⟩ := hstage.ends_of_inside (by omega) hfirst
      refine ⟨hends, ?_⟩
      obtain ⟨next, rootChain₁, hcreate, hadded, -⟩ := hstage.create file hends (by omega)
      have hused := hadded.used
      cases files with
      | nil => exact hcounter
      | cons second more =>
          exact (ih hadded.stage (by rw [hadded.length]; omega) (hrest next hcreate)
            (List.cons_ne_nil _ _)).2

end Run

/-! ## The listing -/

section Listing

variable {clusterSizeBytes counter count : ℕ} {files : List RootFile}
  {dir final : ℕ → UInt8}

/-- The entry has the name and the size of the file. -/
structure EntryNamed (files : ℕ → UInt8) (i : ℕ) (file : RootFile) : Prop where
  base : ∀ j < 8, files (32 * i + j) = file.base.getD j 0
  ext : ∀ j < 3, files (32 * i + 8 + j) = file.storedExt.getD j 0
  size : readU32 files (32 * i + 28) = file.bytes.length

/-- Nothing is left behind the entries of the last counter. -/
theorem Rewrites.cleared (hrewrites : Rewrites clusterSizeBytes files counter dir final)
    (hne : files ≠ []) {x : ℕ} (hx : 32 * nextCounter^[files.length] counter ≤ x) :
    final x = 0 := by
  induction files generalizing counter dir with
  | nil => exact absurd rfl hne
  | cons file files ih =>
      obtain ⟨next, ⟨index, first, -, -, hnext⟩, hrest⟩ := hrewrites
      cases files with
      | nil =>
          obtain rfl : final = next := hrest
          rw [hnext]
          split
          case isTrue => exact if_neg (Nat.not_lt.mpr hx)
          case isFalse => rfl
      | cons second more => exact ih hrest (List.cons_ne_nil _ _) hx

theorem EntryNamed.congr {i : ℕ} {file : RootFile} (hnamed : EntryNamed dir i file)
    (hbytes : ∀ j < 32, final (32 * i + j) = dir (32 * i + j)) : EntryNamed final i file := by
  constructor
  · intro j hj
    rw [hbytes j (by omega)]
    exact hnamed.base j hj
  · intro j hj
    rw [Nat.add_assoc, hbytes (8 + j) (by omega), ← Nat.add_assoc]
    exact hnamed.ext j hj
  · rw [← hnamed.size]
    apply readU32_congr
    intro k hk
    rw [Nat.add_assoc]
    exact hbytes _ (by omega)

theorem EntryNamed.ne_zero {i : ℕ} {file : RootFile} (hnamed : EntryNamed dir i file) :
    dir (32 * i) ≠ 0 := by
  have hfirst := hnamed.base 0 (by decide)
  have hlength := file.baseLength.1
  rw [Nat.add_zero, List.getD_eq_getElem _ _ hlength] at hfirst
  rw [hfirst]
  exact (file.baseChars _ (List.getElem_mem _)).2

/-- The directory has so many entries, with zeros behind them. -/
structure Entries (dir : ℕ → UInt8) (count : ℕ) : Prop where
  listed : ∀ i < count, dir (32 * i) ≠ 0
  unlisted : ∀ x, 32 * count ≤ x → dir x = 0

theorem Entries.unused_eq {index : ℕ} (hentries : Entries dir count)
    (hunused : FirstUnused dir index) : index = count := by
  rcases Nat.lt_trichotomy index count with hlt | heq | hgt
  · exact absurd hunused.unused (hentries.listed index hlt)
  · exact heq
  · exact absurd (hentries.unlisted _ (le_refl _)) (hunused.before count hgt)

/-- A file more, when the counter is not behind. -/
theorem Entries.rewrite {file : RootFile} {first : ℕ} (hentries : Entries dir count)
    (hcounter : count < counter) (hroom : 32 * (count + 1) ≤ clusterSizeBytes)
    (hsize : file.bytes.length < 2 ^ 32)
    (hfinal : ∀ x, final x = if x < clusterSizeBytes then
      rewritten dir count file first counter x else 0) :
    Entries final (count + 1) ∧ (∀ x < 32 * count, final x = dir x) ∧
      EntryNamed final count file := by
  have hbase := file.baseLength.2
  have hext := file.storedExt_length
  have hinside : ∀ x < 32 * (count + 1), final x =
      setFile dir count file.base file.storedExt file.bytes.length first x := by
    intro x hx
    rw [hfinal, if_pos (by omega), rewritten, if_pos (by omega)]
  have hold : ∀ x < 32 * count, final x = dir x := by
    intro x hx
    rw [hinside x (by omega), setFile_outside hbase hext (by omega)]
  have hzero : ∀ j < 32, dir (32 * count + j) = 0 := by
    intro j _
    exact hentries.unlisted _ (by omega)
  have hnamed : EntryNamed final count file := by
    constructor
    · intro j hj
      rw [hinside _ (by omega)]
      exact setFile_name hzero hj
    · intro j hj
      rw [hinside _ (by omega)]
      exact setFile_ext hbase hzero hj
    · rw [← @setFile_size dir count first file.base file.storedExt file.bytes.length hsize]
      apply readU32_congr
      intro k hk
      exact hinside _ (by omega)
  refine ⟨⟨?_, ?_⟩, hold, hnamed⟩
  · intro i hi
    by_cases hlast : i = count
    · rw [hlast]
      exact hnamed.ne_zero
    · rw [hold _ (by omega)]
      exact hentries.listed i (by omega)
  · intro x hx
    rw [hfinal, rewritten, setFile_outside hbase hext (by omega), hentries.unlisted x (by omega),
      ite_self, ite_self]

/-- The old entries stay in front of the new ones, when the counter is not behind. -/
theorem Rewrites.keeps (hrewrites : Rewrites clusterSizeBytes files counter dir final)
    (hentries : Entries dir count) (hcounter : count ≤ counter)
    (hwrap : counter + files.length < 2 ^ 16)
    (hroom : 32 * (count + files.length) ≤ clusterSizeBytes)
    (hsizes : ∀ file ∈ files, file.bytes.length < 2 ^ 32) :
    Entries final (count + files.length) ∧ (∀ x < 32 * count, final x = dir x) ∧
      ∀ k file, files[k]? = some file → EntryNamed final (count + k) file := by
  induction files generalizing counter count dir with
  | nil =>
      obtain rfl : final = dir := hrewrites
      exact ⟨hentries, fun _ _ => rfl, fun k file hfile => by cases hfile⟩
  | cons file files ih =>
      obtain ⟨next, ⟨index, first, hunused, -, hnext⟩, hrest⟩ := hrewrites
      rw [List.length_cons] at hwrap hroom ⊢
      obtain rfl := hentries.unused_eq hunused
      have hstep : nextCounter counter = counter + 1 := Nat.mod_eq_of_lt (by omega)
      rw [hstep] at hnext hrest
      obtain ⟨hentries', hold, hnamed⟩ := hentries.rewrite (by omega) (by omega)
        (hsizes file List.mem_cons_self) hnext
      obtain ⟨hfinal, hkept, hnew⟩ := ih hrest hentries' (by omega) (by omega) (by omega)
        fun other hother => hsizes other (List.mem_cons_of_mem _ hother)
      refine ⟨?_, ?_, ?_⟩
      · rwa [Nat.add_assoc, Nat.add_comm 1] at hfinal
      · intro x hx
        rw [hkept x (by omega), hold x hx]
      · intro k other hother
        cases k with
        | zero =>
            obtain rfl := Option.some.inj hother
            apply hnamed.congr
            intro j hj
            exact hkept _ (by omega)
        | succ k =>
            have hentry := hnew k other hother
            rwa [Nat.add_assoc, Nat.add_comm 1] at hentry

end Listing

/-! ## Images with files -/

/-- The file table on an image. -/
def tableOf (boot : BootRecord) (image : ℕ → UInt8) (c : ℕ) : ℕ :=
  readU32 image (boot.bpb.reservedSectors * 512 + 4 * c)

def rootOf (boot : BootRecord) (image : ℕ → UInt8) : ℕ → UInt8 :=
  directory boot.bpb boot.rootDirCluster image

/-- An image with a number of entries in the first cluster of its root directory.  The
root directory has a chain, or one cluster that is not marked yet, and shares it with no
file. -/
structure Populated (boot : BootRecord) (clusters : ℕ) (disk : ℕ → UInt8)
    (rootChain : List ℕ) (count : ℕ) : Prop where
  geometry : Geometry boot.bpb clusters
  sector : boot.bpb.bytesPerSector = 512
  bootSector : 1 ≤ boot.bpb.reservedSectors
  atStart : boot.partitionStart = 0
  counter : boot.rootDirEntries < 2 ^ 16
  root : 2 ≤ boot.rootDirCluster ∧ boot.rootDirCluster < clusters + 2
  chain : tableOf boot disk boot.rootDirCluster = 0 ∧ rootChain = [boot.rootDirCluster] ∨
    IsChain (tableOf boot disk) (clusters + 2) boot.rootDirCluster rootChain
  entries : Entries (rootOf boot disk) count
  apart : ∀ i < count, ∀ chain,
    IsChain (tableOf boot disk) (clusters + 2) (startCluster (rootOf boot disk) i) chain →
      chain.Disjoint rootChain

/-- The files fit the free clusters, and one cluster of the root directory. -/
structure FilesFit (boot : BootRecord) (clusters : ℕ) (disk : ℕ → UInt8)
    (rootChain : List ℕ) (count : ℕ) (files : List RootFile) : Prop where
  clusters : usedCount (clusterLimit boot.bpb clusters) (detectRepairFs boot disk).fileTable +
    clustersNeeded boot.bpb boot.rootDirEntries rootChain.length files ≤
      clusterLimit boot.bpb clusters - 2
  listing : 32 * (count + files.length) ≤ boot.bpb.clusterSizeBytes

/-- The name, the size and the first cluster are the same. -/
structure SameEntry (files : ℕ → UInt8) (i : ℕ) (files' : ℕ → UInt8) (i' : ℕ) : Prop where
  name : ∀ j < 11, files' (32 * i' + j) = files (32 * i + j)
  size : readU32 files' (32 * i' + 28) = readU32 files (32 * i + 28)
  cluster : startCluster files' i' = startCluster files i

/-- The entry is in the first cluster, with none in front of it that ends the listing. -/
def InListing (clusterSizeBytes : ℕ) (files : ℕ → UInt8) (i : ℕ) : Prop :=
  32 * i + 32 ≤ clusterSizeBytes ∧ ∀ j ≤ i, files (32 * j) ≠ 0

/-- Each file, old or new, is listed in an entry of its own, and the data of the old ones
is where it was. -/
structure Kept (boot : BootRecord) (clusters : ℕ) (disk : ℕ → UInt8) (count : ℕ)
    (files : List RootFile) (image : ℕ → UInt8) : Prop where
  places : ∃ place : ℕ → ℕ, Set.InjOn place (Set.Iio (count + files.length)) ∧
    (∀ i < count + files.length,
      InListing boot.bpb.clusterSizeBytes (rootOf boot image) (place i)) ∧
    (∀ i < count, SameEntry (rootOf boot disk) i (rootOf boot image) (place i)) ∧
    ∀ k file, files[k]? = some file →
      EntryNamed (rootOf boot image) (place (count + k)) file
  data : ∀ i < count, ∀ chain,
    IsChain (tableOf boot disk) (clusters + 2) (startCluster (rootOf boot disk) i) chain →
      IsChain (tableOf boot image) (clusters + 2) (startCluster (rootOf boot disk) i) chain ∧
        ∀ c ∈ chain, ∀ k < boot.bpb.clusterSizeBytes,
          image (boot.bpb.clusterStart c + k) = disk (boot.bpb.clusterStart c + k)

/-- The tool ends, it stays within the image and its buffers, and the files are kept. -/
def KeepsFiles (boot : BootRecord) (clusters : ℕ) (disk : ℕ → UInt8) (count : ℕ)
    (files : List RootFile) : Prop :=
  ∃ image, diskwrite boot disk (files.map RootFile.inputFile) = some image ∧
    CreateFilesInside clusters (detectRepairFs boot disk) (files.map RootFile.inputFile) ∧
    Kept boot clusters disk count files image

/-- The counter of the boot sector is not behind the entries and stays a small number,
and the root chain ends in a way that the tool knows. -/
structure CounterCovers (boot : BootRecord) (disk : ℕ → UInt8) (rootChain : List ℕ)
    (count : ℕ) (files : List RootFile) : Prop where
  counter : count ≤ boot.rootDirEntries
  wrap : boot.rootDirEntries + files.length < 2 ^ 16
  buffer : boot.rootDirEntries + files.length ≤ boot.bpb.clusterSizeBytes
  ends : tableOf boot disk boot.rootDirCluster = 0 ∨
    RootEnds boot.bpb (tableOf boot disk) rootChain (boot.rootDirEntries + 1)

theorem SameEntry.of_bytes {files files' : ℕ → UInt8} {i : ℕ}
    (hbytes : ∀ j < 32, files' (32 * i + j) = files (32 * i + j)) :
    SameEntry files i files' i := by
  have hword : ∀ place, place + 2 ≤ 32 →
      ByteStore.readU16 files' (32 * i + place) = ByteStore.readU16 files (32 * i + place) := by
    intro place hplace
    apply ByteStore.readU16_congr
    intro k hk
    rw [Nat.add_assoc]
    exact hbytes _ (by omega)
  constructor
  · intro j hj
    exact hbytes j (by omega)
  · apply readU32_congr
    intro k hk
    rw [Nat.add_assoc]
    exact hbytes _ (by omega)
  · rw [startCluster, startCluster, hword 26 (by decide), hword 20 (by decide)]

section Images

variable {boot : BootRecord} {clusters count : ℕ} {disk : ℕ → UInt8} {rootChain : List ℕ}
  {files : List RootFile} {info : FatInfo}

theorem Populated.repair_eq (himage : Populated boot clusters disk rootChain count) :
    boot.repair = boot := by
  have hperCluster := himage.geometry.perCluster
  have hbootSector := himage.bootSector
  have hroot := himage.root
  have hsector := himage.sector
  rw [BootRecord.repair, repaired_eq (by decide) (by omega),
    repaired_eq (by decide) (by omega), repaired_eq (by decide) (by omega),
    repaired_eq (by decide) (by omega)]

theorem Populated.sectorOffset_eq (himage : Populated boot clusters disk rootChain count) :
    sectorOffset boot.bpb.reservedSectors = boot.bpb.reservedSectors * 512 ∧
      boot.bpb.reservedSectors * 512 + 4 * (clusters + 2) ≤ boot.bpb.dataOffset := by
  have hbefore := himage.geometry.table_before
  have hsector := (himage.geometry.clusterSector himage.root).2.2
  have hstart := boot.bpb.dataOffset_le_clusterStart boot.rootDirCluster
  rw [himage.sector] at hbefore
  exact ⟨Nat.mod_eq_of_lt (by omega), hbefore⟩

/-- The table that the tool starts with. -/
theorem Populated.fileTable (himage : Populated boot clusters disk rootChain count) (c : ℕ) :
    (detectRepairFs boot disk).fileTable c =
      if tableOf boot disk boot.rootDirCluster = 0 ∧
        (c = boot.rootDirCluster ∨ c = 1 ∨ c = 0) then fileEnd else tableOf boot disk c := by
  have hword : ∀ i, readU32 (readSector disk boot.bpb.reservedSectors) (4 * i) =
      tableOf boot disk i := by
    intro i
    rw [readSector, readU32_load, himage.sectorOffset_eq.1, tableOf]
  unfold detectRepairFs
  dsimp only
  rw [himage.repair_eq]
  simp only [hword]
  by_cases hzero : tableOf boot disk boot.rootDirCluster = 0
  · rw [if_pos hzero]
    simp only [Function.update_apply, hzero, true_and]
    by_cases hroot : c = boot.rootDirCluster
    · simp [hroot]
    · by_cases hone : c = 1
      · simp [hone]
      · simp [hroot, hone]
  · rw [if_neg hzero, if_neg (fun hboth => hzero hboth.1)]

theorem Populated.fields (himage : Populated boot clusters disk rootChain count) :
    Fixed boot.bpb clusters boot.rootDirCluster boot.rootDirEntries
        (detectRepairFs boot disk) ∧
      (detectRepairFs boot disk).disk = disk := by
  have hboot : (detectRepairFs boot disk).bpb = boot.bpb ∧
      (detectRepairFs boot disk).rootDirCluster = boot.rootDirCluster ∧
      (detectRepairFs boot disk).rootDirEntries = boot.rootDirEntries ∧
      (detectRepairFs boot disk).partitionStart = 0 := by
    unfold detectRepairFs
    dsimp only
    rw [himage.repair_eq]
    exact ⟨rfl, rfl, rfl, himage.atStart⟩
  exact ⟨⟨himage.geometry, himage.sector, hboot.1, hboot.2.1, hboot.2.2.1, hboot.2.2.2, rfl⟩,
    rfl⟩

/-- A chain of the image is one of the table that the tool starts with, with the same
entries. -/
theorem Populated.same_table (himage : Populated boot clusters disk rootChain count)
    {head : ℕ} {chain : List ℕ}
    (hchain : IsChain (tableOf boot disk) (clusters + 2) head chain) :
    ∀ c ∈ chain, (detectRepairFs boot disk).fileTable c = tableOf boot disk c := by
  intro c hc
  rw [himage.fileTable, if_neg]
  rintro ⟨hzero, hcluster⟩
  have hrange := hchain.range c hc
  have hne := hchain.ne_zero himage.geometry.count_le hc
  rcases hcluster with rfl | rfl | rfl
  · exact hne hzero
  · omega
  · omega

theorem Populated.rootStage (himage : Populated boot clusters disk rootChain count) :
    Stage boot.bpb clusters boot.rootDirCluster boot.rootDirEntries
      (detectRepairFs boot disk) (detectRepairFs boot disk) rootChain rootChain := by
  have hroot := himage.root
  refine ⟨himage.fields.1, ?_, ?_, ?_⟩
  · rcases himage.chain with ⟨hzero, rfl⟩ | hchain
    · have hmark : (detectRepairFs boot disk).fileTable boot.rootDirCluster = fileEnd := by
        rw [himage.fileTable, if_pos ⟨hzero, Or.inl rfl⟩]
      refine ⟨rfl, ?_, List.nodup_singleton _, ?_, ?_⟩
      · intro c hc
        rw [List.mem_singleton.mp hc]
        exact hroot
      · intro p c next _ hnext
        simp at hnext
      · intro last hlast
        obtain rfl : boot.rootDirCluster = last := Option.some.inj hlast
        rw [hmark]
        decide
    · exact hchain.congr (himage.same_table hchain)
  · rcases himage.chain with ⟨-, rfl⟩ | hchain
    · rfl
    · exact hchain.first (by omega)
  · intro head chain hchain hdisjoint
    exact ⟨ChainKept.refl hchain, hdisjoint⟩

theorem Populated.rootEnds_iff (himage : Populated boot clusters disk rootChain count)
    (counter : ℕ) : RootEnds boot.bpb (detectRepairFs boot disk).fileTable rootChain counter ↔
      tableOf boot disk boot.rootDirCluster = 0 ∨
        RootEnds boot.bpb (tableOf boot disk) rootChain counter := by
  rcases himage.chain with ⟨hzero, rfl⟩ | hchain
  · refine iff_of_true (Or.inl fun last hlast => ?_) (Or.inl hzero)
    obtain rfl : boot.rootDirCluster = last := Option.some.inj hlast
    rw [himage.fileTable, if_pos ⟨hzero, Or.inl rfl⟩]
  · have hfirst := hchain.first (show boot.rootDirCluster ≠ 0 by have := himage.root.1; omega)
    have hne := hchain.ne_zero himage.geometry.count_le (List.mem_of_getElem? hfirst)
    rw [or_iff_right hne, RootEnds, RootEnds]
    refine or_congr_left (forall_congr' fun last => forall_congr' fun hlast => ?_)
    rw [himage.same_table hchain last (List.mem_of_getLast? hlast)]

/-- The image behind `fat_write_back`. -/
theorem Populated.writeBack (himage : Populated boot clusters disk rootChain count)
    (hbpb : info.bpb = boot.bpb) :
    (∀ c < clusters + 2,
        tableOf boot (fatWriteBack info).disk c = info.fileTable c % 2 ^ 32) ∧
      ∀ a, boot.bpb.dataOffset ≤ a → (fatWriteBack info).disk a = info.disk a := by
  have hsize := himage.geometry.fatSize
  have hone : boot.bpb.sectorsPerFat ≤ boot.bpb.sectorsPerFat * boot.bpb.fatCount :=
    Nat.le_mul_of_pos_right _ himage.geometry.fatCount
  have hdata : boot.bpb.dataOffset = boot.bpb.reservedSectors * 512 +
      512 * (boot.bpb.sectorsPerFat * boot.bpb.fatCount) := by
    rw [Bpb.dataOffset, himage.sector]
    ring
  rw [himage.sector] at hsize
  unfold fatWriteBack writeSector tableOf
  dsimp only
  rw [hbpb, himage.sectorOffset_eq.1]
  constructor
  · intro c hc
    rw [readU32_store_inside (by omega), readU32_wordBytes]
  · intro a ha
    exact store_outside (by omega)

theorem Populated.rootOf_writeBack (himage : Populated boot clusters disk rootChain count)
    (hbpb : info.bpb = boot.bpb) :
    rootOf boot (fatWriteBack info).disk =
      directory boot.bpb boot.rootDirCluster info.disk := by
  have hstart := boot.bpb.dataOffset_le_clusterStart boot.rootDirCluster
  funext x
  rw [rootOf, directory, directory, (himage.writeBack hbpb).2 _ (by omega)]

/-- A chain that the run keeps is one of the image that it leaves. -/
theorem Populated.chain_writeBack (himage : Populated boot clusters disk rootChain count)
    (hbpb : info.bpb = boot.bpb) {head : ℕ} {chain : List ℕ}
    (hchain : IsChain (tableOf boot disk) (clusters + 2) head chain)
    (hkept : ChainKept boot.bpb clusters (detectRepairFs boot disk) info head chain) :
    IsChain (tableOf boot (fatWriteBack info).disk) (clusters + 2) head chain ∧
      ∀ c ∈ chain, ∀ k < boot.bpb.clusterSizeBytes,
        (fatWriteBack info).disk (boot.bpb.clusterStart c + k) =
          disk (boot.bpb.clusterStart c + k) := by
  obtain ⟨htable, hdata⟩ := himage.writeBack hbpb
  constructor
  · apply hchain.congr
    intro c hc
    rw [htable c (hchain.range c hc).2, hkept.table c hc, himage.same_table hchain c hc]
    exact Nat.mod_eq_of_lt (readU32_lt _ _)
  · intro c hc k hk
    have hstart := boot.bpb.dataOffset_le_clusterStart c
    rw [hdata _ (by omega), hkept.disk c hc k hk, himage.fields.2]

theorem oneFile_le {counter rootLength : ℕ} {bpb : Bpb} {file : RootFile}
    (hfile : file ∈ files) :
    writeRounds bpb file.bytes.length + 1 ≤ clustersNeeded bpb counter rootLength files := by
  induction files generalizing counter rootLength with
  | nil => cases hfile
  | cons other files ih =>
      rw [clustersNeeded, oneFile]
      rcases List.mem_cons.mp hfile with rfl | hmem
      · omega
      · have hrest := @ih (nextCounter counter)
          (writeRounds bpb (nextCounter counter * 32) + 1) hmem
        omega

/-- Where the counter covers what is there, every file is kept. -/
theorem CounterCovers.keepsFiles (himage : Populated boot clusters disk rootChain count)
    (hfits : FilesFit boot clusters disk rootChain count files)
    (hcovers : files = [] ∨ CounterCovers boot disk rootChain count files) :
    KeepsFiles boot clusters disk count files := by
  have hcs := himage.geometry.clusterSize_ge
  have hcounter := himage.counter
  have hends : files ≠ [] → RootEnds boot.bpb (detectRepairFs boot disk).fileTable rootChain
      (nextCounter boot.rootDirEntries) := by
    intro hne
    have hcovers := hcovers.resolve_left hne
    have hpos := List.length_pos_iff.mpr hne
    have hwrap := hcovers.wrap
    rw [himage.rootEnds_iff, nextCounter, Nat.mod_eq_of_lt (by omega)]
    exact hcovers.ends
  obtain ⟨info, finalChain, hcreate, hstage, hrewrites, hinside⟩ :=
    himage.rootStage.createAll hends hfits.clusters
  have hbpb := hstage.fixed.bpb_eq
  refine ⟨(fatWriteBack info).disk, by rw [diskwrite, hcreate], ?_, ?_⟩
  · apply hinside
    intro k hk
    have hcovers := hcovers.resolve_left (List.length_pos_iff.mp (by omega))
    have hwrap := hcovers.wrap
    have hbuffer := hcovers.buffer
    rw [iterate_nextCounter hcounter, Nat.mod_eq_of_lt (by omega)]
    omega
  · have hlisting : Entries (rootOf boot (fatWriteBack info).disk) (count + files.length) ∧
        (∀ x < 32 * count, rootOf boot (fatWriteBack info).disk x = rootOf boot disk x) ∧
        ∀ k file, files[k]? = some file →
          EntryNamed (rootOf boot (fatWriteBack info).disk) (count + k) file := by
      rw [himage.rootOf_writeBack hbpb]
      rw [himage.fields.2] at hrewrites
      rcases hcovers with rfl | hcovers
      · have hsame : directory boot.bpb boot.rootDirCluster info.disk = rootOf boot disk :=
          hrewrites
        rw [hsame]
        exact ⟨himage.entries, fun _ _ => rfl, fun k file hfile => by cases hfile⟩
      · refine hrewrites.keeps himage.entries hcovers.counter hcovers.wrap hfits.listing ?_
        intro file hfile
        have hneeded := @oneFile_le files boot.rootDirEntries rootChain.length boot.bpb file hfile
        have hroom := hfits.clusters
        exact length_lt himage.geometry (by omega)
    obtain ⟨hentries, hold, hnew⟩ := hlisting
    have hroom := hfits.listing
    refine ⟨⟨id, Set.injOn_id _, ?_, ?_, hnew⟩, ?_⟩
    · intro i hi
      refine ⟨?_, fun j hj => hentries.listed j (Nat.lt_of_le_of_lt hj hi)⟩
      change 32 * i + 32 ≤ _
      omega
    · intro i hi
      exact SameEntry.of_bytes fun j hj => hold _ (by omega)
    · intro i hi chain hchain
      have hsame := himage.same_table hchain
      obtain ⟨hkept, -⟩ := hstage.kept _ chain (hchain.congr hsame)
        (himage.apart i hi chain hchain)
      exact himage.chain_writeBack hbpb hchain hkept

/-- Where every file is kept, the counter covers what is there. -/
theorem counterCovers_of_keepsFiles (himage : Populated boot clusters disk rootChain count)
    (hfits : FilesFit boot clusters disk rootChain count files)
    (hkeeps : KeepsFiles boot clusters disk count files) (hne : files ≠ []) :
    CounterCovers boot disk rootChain count files := by
  have hcs := himage.geometry.clusterSize_ge
  have hcounter := himage.counter
  obtain ⟨image, himageEq, hinside, hkept⟩ := hkeeps
  obtain ⟨hends, hbuffer⟩ := himage.rootStage.of_inside hfits.clusters hinside hne
  obtain ⟨info, finalChain, hcreate, hstage, hrewrites, -⟩ :=
    himage.rootStage.createAll (fun _ => hends) hfits.clusters
  rw [diskwrite, hcreate] at himageEq
  obtain rfl := Option.some.inj himageEq
  rw [iterate_nextCounter hcounter] at hbuffer
  -- the last counter leaves room for an entry for each file
  have hcount : count + files.length ≤ (boot.rootDirEntries + files.length) % 2 ^ 16 := by
    obtain ⟨place, hinj, hlisted, -, -⟩ := hkept.places
    have hmaps : ∀ i ∈ Finset.range (count + files.length), place i ∈
        Finset.range ((boot.rootDirEntries + files.length) % 2 ^ 16) := by
      intro i hi
      by_contra hout
      rw [Finset.mem_range, ← iterate_nextCounter hcounter] at hout
      apply (hlisted i (Finset.mem_range.mp hi)).2 (place i) (le_refl _)
      rw [himage.rootOf_writeBack hstage.fixed.bpb_eq]
      exact hrewrites.cleared hne (by omega)
    have hcard := Finset.card_le_card_of_injOn place hmaps (by
      intro i hi j hj heq
      exact hinj (Finset.mem_range.mp hi) (Finset.mem_range.mp hj) heq)
    rwa [Finset.card_range, Finset.card_range] at hcard
  have hpos := List.length_pos_iff.mpr hne
  have hlisting := hfits.listing
  have hwrap : boot.rootDirEntries + files.length < 2 ^ 16 := by omega
  have hstep : nextCounter boot.rootDirEntries = boot.rootDirEntries + 1 :=
    Nat.mod_eq_of_lt (by omega)
  rw [Nat.mod_eq_of_lt hwrap] at hcount hbuffer
  rw [hstep, himage.rootEnds_iff] at hends
  exact ⟨by omega, hwrap, hbuffer, hends⟩

end Images

/-- The tool keeps the files of an image if the counter in the boot sector covers
them. -/
theorem diskwrite_keepsFiles_iff (boot : BootRecord) (clusters : ℕ) (disk : ℕ → UInt8)
    (rootChain : List ℕ) (count : ℕ) (files : List RootFile)
    (himage : Populated boot clusters disk rootChain count)
    (hfits : FilesFit boot clusters disk rootChain count files) :
    KeepsFiles boot clusters disk count files ↔
      files = [] ∨ CounterCovers boot disk rootChain count files := by
  constructor
  · intro hkeeps
    by_cases hnone : files = []
    · exact Or.inl hnone
    · exact Or.inr (counterCovers_of_keepsFiles himage hfits hkeeps hnone)
  · exact CounterCovers.keepsFiles himage hfits

/-- A boot sector that counts so many files. -/
def countedBoot (entries : ℕ) : BootRecord := { smallBoot with rootDirEntries := entries }

/-- An image with one file of five bytes in cluster 3. -/
def oneFileDisk : ℕ → UInt8 := fun a =>
  if 520 ≤ a ∧ a < 528 then 0xff
  else if a = 1536 then 0x41
  else if a = 1562 then 3
  else if a = 1564 then 5
  else 0

def newFile : RootFile where
  base := [0x62]
  ext := [0x63]
  bytes := [1]
  baseLength := by decide
  baseChars := by decide +kernel
  extChars := by decide +kernel

theorem oneFileDisk_populated {entries : ℕ} (hentries : entries < 2 ^ 16) :
    Populated (countedBoot entries) 61 oneFileDisk [2] 1 := by
  have hgeo : Geometry smallBoot.bpb 61 := by
    constructor
    case powerOfTwo => exact ⟨9, rfl⟩
    all_goals decide +kernel
  have hsingle : ∀ c, 2 ≤ c → c < 63 → tableOf smallBoot oneFileDisk c = fileEnd →
      IsChain (tableOf smallBoot oneFileDisk) 63 c [c] := by
    intro c hlow hhigh hmark
    refine ⟨rfl, ?_, List.nodup_singleton c, ?_, ?_⟩
    · intro other hother
      rw [List.mem_singleton.mp hother]
      exact ⟨hlow, hhigh⟩
    · intro p cluster next _ hnext
      simp at hnext
    · intro last hlast
      obtain rfl : c = last := Option.some.inj hlast
      rw [hmark]
      decide
  refine ⟨hgeo, rfl, le_refl 1, rfl, hentries, show 2 ≤ 2 ∧ 2 < 61 + 2 by decide,
    Or.inr (hsingle 2 (by decide) (by decide) (by decide +kernel)), ⟨?_, ?_⟩, ?_⟩
  · intro i hi
    obtain rfl := Nat.lt_one_iff.mp hi
    change rootOf smallBoot oneFileDisk 0 ≠ 0
    decide +kernel
  · intro x hx
    have hstart : smallBoot.bpb.clusterStart 2 = 1536 := by decide +kernel
    change (if x < smallBoot.bpb.clusterSizeBytes then
      oneFileDisk (smallBoot.bpb.clusterStart 2 + x) else 0) = 0
    have hbyte : oneFileDisk (1536 + x) = 0 := by
      rw [oneFileDisk, if_neg (by omega), if_neg (by omega), if_neg (by omega),
        if_neg (by omega)]
    rw [hstart, hbyte, ite_self]
  · intro i hi chain hchain
    obtain rfl := Nat.lt_one_iff.mp hi
    have hfirst : startCluster (rootOf (countedBoot entries) oneFileDisk) 0 = 3 := by
      change startCluster (rootOf smallBoot oneFileDisk) 0 = 3
      decide +kernel
    rw [hfirst] at hchain
    obtain rfl := hchain.unique
      (hsingle 3 (by decide) (by decide) (by decide +kernel)) (by decide)
    exact List.disjoint_singleton.mpr (by decide)

theorem oneFileDisk_filesFit {entries : ℕ} (hentries : entries = 0 ∨ entries = 1) :
    FilesFit (countedBoot entries) 61 oneFileDisk [2] 1 [newFile] := by
  rcases hentries with rfl | rfl
  · exact ⟨by decide +kernel, by decide +kernel⟩
  · exact ⟨by decide +kernel, by decide +kernel⟩

theorem diskwrite_keepsFiles_counted : KeepsFiles (countedBoot 1) 61 oneFileDisk 1 [newFile] := by
  refine (diskwrite_keepsFiles_iff (countedBoot 1) 61 oneFileDisk [2] 1 [newFile]
    (oneFileDisk_populated (by decide)) (oneFileDisk_filesFit (Or.inr rfl))).mpr (Or.inr ?_)
  refine ⟨by decide, by decide, by decide +kernel, Or.inr (Or.inl ?_)⟩
  intro last hlast
  obtain rfl : 2 = last := Option.some.inj hlast
  decide +kernel

/-- A counter of zero, as on every image that the build makes, loses the new file. -/
theorem diskwrite_losesFile :
    ¬ ∀ boot clusters disk rootChain count files,
      Populated boot clusters disk rootChain count →
        FilesFit boot clusters disk rootChain count files →
          KeepsFiles boot clusters disk count files := by
  intro hall
  have himage := @oneFileDisk_populated 0 (by decide)
  have hfits := oneFileDisk_filesFit (Or.inl rfl)
  have hcovers := counterCovers_of_keepsFiles himage hfits
    (hall _ _ _ _ _ _ himage hfits) (List.cons_ne_nil _ _)
  exact absurd hcovers.counter (by decide)

end KimisOS.Diskwrite
