import KimisOS.Core.Run
import KimisOS.Bootloader.EndOfChain
import KimisOS.Bootloader.OpenFile
import KimisOS.Tools.FirstFit

/-!
# The boot loader reads what the tool has written

The tool links free clusters from the second one on and ends every chain with the
mark that `read_file` looks for.  As long as the files stay within the first
1024 entries of the table, the boot loader finds each of them by its name and
loads its bytes, one file after the other.
-/

namespace KimisOS.Bootloader

open KimisOS.Run
open KimisOS.ByteStore
open KimisOS.Diskwrite
open KimisOS.Fat32 (Bpb CString direntAt IsChain Geometry ShortEntry)

/-- The eleven bytes of a name, as `kernel_file` and `initrd_file` hold them. -/
def fileName (file : NamedFile) : ℕ → UInt8 := fun j =>
  if j < 8 then file.base.getD j 0 else file.ext.getD (j - 8) 0

/-- The boot loader on an image of the tool. -/
def bootOf (boot : BootRecord) : BootBpb := ⟨boot.bpb, boot.partitionStart⟩

/-! ## Names -/

section Names

variable {files : ℕ → UInt8} {memory : ℕ → UInt8} {file other : NamedFile} {i : ℕ}

/-- Strings without zeros are what their padded fields say. -/
theorem eq_of_padded {left right : CString} (hleft : ∀ c ∈ left, c ≠ 0)
    (hright : ∀ c ∈ right, c ≠ 0) {size : ℕ} (hleftSize : left.length ≤ size)
    (hrightSize : right.length ≤ size)
    (hsame : ∀ j < size, left.getD j 0 = right.getD j 0) : left = right := by
  have hshort : ∀ {first second : CString}, (∀ c ∈ first, c ≠ 0) → first.length ≤ size →
      (∀ j < size, first.getD j 0 = second.getD j 0) → first.length ≤ second.length := by
    intro first second hfirst hsize hsame
    by_contra hlonger
    have hj : second.length < first.length := by omega
    have hzero := hsame second.length (by omega)
    rw [List.getD_eq_default second 0 (le_refl _), List.getD_eq_getElem _ _ hj] at hzero
    exact hfirst _ (List.getElem_mem hj) hzero
  have hlength := le_antisymm (hshort hleft hleftSize hsame)
    (hshort hright hrightSize fun j hj => (hsame j hj).symm)
  apply List.ext_getElem hlength
  intro j hj hj'
  have hat := hsame j (by omega)
  rwa [List.getD_eq_getElem _ _ hj, List.getD_eq_getElem _ _ hj'] at hat

theorem path_eq_of_fileName (hsame : ∀ j < 11, fileName file j = fileName other j) :
    file.path = other.path := by
  have hbase : file.base = other.base := by
    apply eq_of_padded (fun c hc => (file.baseChars c hc).2.2.2)
      (fun c hc => (other.baseChars c hc).2.2.2) file.baseLength.2 other.baseLength.2
    intro j hj
    have hat := hsame j (by omega)
    rwa [fileName, fileName, if_pos hj, if_pos hj] at hat
  have hext : file.ext = other.ext := by
    apply eq_of_padded (fun c hc => (file.extChars c hc).2.2.2)
      (fun c hc => (other.extChars c hc).2.2.2) file.extLength.2 other.extLength.2
    intro j hj
    have hat := hsame (8 + j) (by omega)
    rwa [fileName, fileName, if_neg (by omega), if_neg (by omega),
      Nat.add_sub_cancel_left] at hat
  rw [NamedFile.path, NamedFile.path, hbase, hext]

/-- An entry of the directory in memory. -/
theorem nameMatches_listed {firstCluster : ℕ} (hlisted : Listed files i file firstCluster)
    (hmemory : ∀ j < 32, memory (rootDir + 32 * i + j) = files (32 * i + j)) :
    memory (rootDir + 32 * i) ≠ 0 ∧
      ∀ name, NameMatches memory (rootDir + 32 * i) name ↔ ∀ j < 11, fileName file j = name j := by
  have hname : ∀ j < 11, memory (rootDir + 32 * i + j) = fileName file j := by
    intro j hj
    rw [hmemory j (by omega), fileName]
    split
    case isTrue hbase => exact hlisted.short.baseBytes j hbase
    case isFalse hext =>
      have hat := hlisted.short.extBytes (j - 8) (by omega)
      rwa [Nat.add_assoc, Nat.add_sub_cancel' (by omega)] at hat
  constructor
  · have hfirst := hname 0 (by decide)
    have hlength := file.baseLength.1
    rw [Nat.add_zero, fileName, if_pos (by decide), List.getD_eq_getElem _ _ hlength] at hfirst
    rw [hfirst]
    exact (file.baseChars _ (List.getElem_mem hlength)).2.2.2
  · intro name
    refine forall_congr' fun j => forall_congr' fun hj => ?_
    rw [hname j hj]

end Names

/-! ## One file -/

section OneFile

variable {boot : BootRecord} {clusters i : ℕ} {disk image memory : ℕ → UInt8}
  {files : List NamedFile} {info : FatInfo} {rootChain : List ℕ} {chains : ℕ → List ℕ}
  {file : NamedFile} {loader : Loader}

/-- More rounds change nothing. -/
theorem readFile_more {bootBpb : BootBpb} {rounds cluster : ℕ} {read : Loader × List ℕ}
    (more : ℕ) (hread : readFile bootBpb disk rounds loader cluster = some read) :
    readFile bootBpb disk (rounds + more) loader cluster = some read := by
  induction rounds generalizing loader cluster read with
  | zero => cases hread
  | succ rounds ih =>
      rw [Nat.succ_add, readFile]
      rw [readFile] at hread
      split at hread
      case isTrue hend => rw [if_pos hend, hread]
      case isFalse hgoes =>
        rw [if_neg hgoes]
        obtain ⟨rest, hrest, hcons⟩ := Option.map_eq_some_iff.mp hread
        rw [ih hrest, Option.map_some, hcons]

/-- What the buffers of the boot loader and its 16-bit sector allow for, and the first
1024 entries of the table. -/
structure FitsLoader (boot : BootRecord) (files : List NamedFile) : Prop where
  cluster : fileBuffer + boot.bpb.clusterSizeBytes ≤ fileTable
  root : boot.bpb.clusterStart boot.rootDirCluster < 512 * 2 ^ 16
  directory : files.length * 32 ≤ 8 * 512
  needed : neededClusters boot.bpb files + 3 < 1024
  rootEntry : boot.rootDirCluster < 1024

theorem FitsLoader.fitsBuffers (hloader : FitsLoader boot files)
    (hformat : Formatted boot clusters disk) : FitsBuffers (bootOf boot) :=
  ⟨hformat.sector, hloader.cluster⟩

/-- The sector of the root directory. -/
theorem FitsLoader.rootSector (hloader : FitsLoader boot files)
    (hformat : Formatted boot clusters disk) :
    512 * (bootOf boot).rootSector boot.rootDirCluster =
      boot.bpb.clusterStart boot.rootDirCluster := by
  obtain ⟨-, hstart, -⟩ := hformat.geometry.clusterSector hformat.root
  have hroot := hloader.root
  rw [hformat.sector] at hstart
  have hlow := hformat.root.1
  have hfat : boot.bpb.sectorsPerFat ≤ boot.bpb.fatCount * boot.bpb.sectorsPerFat :=
    Nat.le_mul_of_pos_left _ hformat.geometry.fatCount
  have hper : boot.rootDirCluster - 2 ≤
      (boot.rootDirCluster - 2) * boot.bpb.sectorsPerCluster :=
    Nat.le_mul_of_pos_right _ hformat.geometry.perCluster
  have hshift : (boot.rootDirCluster + 2 ^ 16 - 2) % 2 ^ 16 = boot.rootDirCluster - 2 := by
    omega
  have hspf : boot.bpb.sectorsPerFat % 2 ^ 16 = boot.bpb.sectorsPerFat :=
    Nat.mod_eq_of_lt (by omega)
  rw [BootBpb.rootSector, bootOf, hformat.atStart]
  dsimp only
  rw [hshift, hspf, Nat.mul_comm boot.bpb.sectorsPerFat, Nat.zero_div, Nat.zero_mul,
    Nat.zero_add, Nat.zero_add, Nat.mod_eq_of_lt (by omega)]
  omega

/-- The sector of a cluster. -/
theorem clusterSector_eq (hformat : Formatted boot clusters disk) {cluster : ℕ}
    (hrange : 2 ≤ cluster ∧ cluster < clusters + 2) :
    512 * (bootOf boot).clusterSector cluster = boot.bpb.clusterStart cluster := by
  obtain ⟨hword, hstart, -⟩ := hformat.geometry.clusterSector hrange
  have hclusters := hformat.geometry.clusters_lt
  have hcount := hformat.geometry.sectorCount
  rw [hformat.sector] at hstart
  have hshift : (cluster + 2 ^ 32 - 2) % 2 ^ 32 = cluster - 2 := by omega
  rw [BootBpb.clusterSector, bootOf, hformat.atStart]
  dsimp only
  rw [hshift, Nat.mul_comm boot.bpb.sectorsPerFat, Nat.add_zero, Nat.mod_eq_of_lt (by omega)]
  omega

/-- An entry among the first 1024. -/
theorem foundEntry_eq (hformat : Formatted boot clusters disk)
    (hwritten : Written boot clusters info image) {cluster : ℕ}
    (hcluster : cluster < clusters + 2) (hlow : cluster < 1024) :
    foundEntry (bootOf boot) image memory cluster = info.fileTable cluster % 2 ^ 32 := by
  have hbelow := hformat.reserved_lt
  rw [← hwritten.entries cluster hcluster, foundEntry, if_pos (by omega),
    Nat.mod_eq_of_lt (by omega), Nat.div_eq_of_lt (by omega), BootBpb.fatBlockSector, bootOf]
  dsimp only
  rw [Nat.zero_mul, Nat.zero_add, Nat.mod_eq_of_lt (by omega), Nat.mul_comm 512]

/-- The clusters of a file are among the first ones. -/
theorem FitsLoader.lt (hloader : FitsLoader boot files)
    (hformat : Formatted boot clusters disk)
    (hlaid : Laid boot.bpb clusters boot.rootDirCluster files info rootChain chains)
    (hat : StandsAt boot.bpb clusters boot.rootDirCluster info boot.rootDirCluster)
    {head : ℕ} {chain : List ℕ} (hended : Ended info.fileTable (clusters + 2) head chain)
    {cluster : ℕ} (hmem : cluster ∈ chain) : cluster < 1024 := by
  have hrange := hended.isChain.range cluster hmem
  have hused := hended.isChain.ne_zero hformat.geometry.count_le hmem
  have hneeded := hloader.needed
  obtain hsmall | hroot := hat.lt_of_taken hlaid.used hformat.clusters_le
    ⟨hrange.1, hrange.2, hused⟩
  · omega
  · rw [hroot]
    exact hloader.rootEntry

/-- The boot loader follows the chain of a file to its mark. -/
theorem FitsLoader.linked (hloader : FitsLoader boot files)
    (hformat : Formatted boot clusters disk)
    (hlaid : Laid boot.bpb clusters boot.rootDirCluster files info rootChain chains)
    (hat : StandsAt boot.bpb clusters boot.rootDirCluster info boot.rootDirCluster)
    (hwritten : Written boot clusters info image) {head : ℕ} {chain : List ℕ}
    (hended : Ended info.fileTable (clusters + 2) head chain) (hne : chain ≠ []) :
    Walk.Linked (foundEntry (bootOf boot) image memory)
      (fun cluster => decide (cluster ≠ Bootloader.fileEnd)) head chain := by
  have hcount := hformat.geometry.count_le
  have hmark : Fat32.fat32EocMin ≤ Bootloader.fileEnd := by decide
  have hfound : ∀ cluster ∈ chain, foundEntry (bootOf boot) image memory cluster =
      info.fileTable cluster % 2 ^ 32 := by
    intro cluster hmem
    exact foundEntry_eq hformat hwritten (hended.isChain.range cluster hmem).2
      (hloader.lt hformat hlaid hat hended hmem)
  refine (linked_chain_iff hended.isChain hne ?_).mpr ⟨?_, ?_⟩
  · intro cluster hless
    exact decide_eq_true (by omega)
  · intro p cluster next hp hnext
    have hlink := hended.isChain.links p cluster next hp hnext
    have hrange := hended.isChain.range next (List.mem_of_getElem? hnext)
    unfold Fat32.fat32EocMin at hcount
    rw [hfound cluster (List.mem_of_getElem? hp), hlink, Nat.mod_eq_of_lt (by omega)]
  · intro last hlast
    rw [hfound last (List.mem_of_getLast? hlast), hended.mark last hlast]
    decide

/-- The table is in its buffer, whatever is loaded next. -/
def Tabled (bootBpb : BootBpb) (disk memory : ℕ → UInt8) (loader : Loader) : Prop :=
  ∀ rounds destination, fileTable + 4 * 4096 ≤ destination →
    destination + rounds * bootBpb.bpb.clusterSizeBytes < 2 ^ 32 →
      Ready bootBpb disk memory rounds { loader with destination := destination }

/-- Block 0 of the table is loaded before the files. -/
theorem tabled_cacheFileTable {bootBpb : BootBpb} (hfits : FitsBuffers bootBpb)
    (start : Loader) :
    Tabled bootBpb disk start.memory (cacheFileTable bootBpb disk start 0) := by
  intro rounds destination hlow hhigh
  exact @ready_cacheFileTable bootBpb disk _ rounds { start with destination := destination }
    hfits (fun _ _ _ => rfl) hlow hhigh 0

/-- The root directory is loaded below the other buffers. -/
theorem Tabled.openFile {bootBpb : BootBpb} (htabled : Tabled bootBpb disk memory loader)
    (sector : ℕ) : Tabled bootBpb disk memory
      { loader with memory := readSectors disk loader.memory sector 8 rootDir } := by
  intro rounds destination hlow hhigh
  have hready := htabled rounds destination hlow hhigh
  have habove : ∀ a, fileTable ≤ a →
      readSectors disk loader.memory sector 8 rootDir a = loader.memory a := by
    intro a ha
    have hroot : rootDir + 512 * 8 ≤ fileTable := by decide
    exact readSectors_outside (.inr (hroot.trans ha))
  refine ⟨?_, ?_, hlow, hhigh⟩
  · intro k hk
    rw [← hready.block k hk]
    exact habove _ (Nat.le_add_right _ _)
  · intro a ha ha'
    rw [← hready.behind a ha ha']
    exact habove a ((Nat.le_add_right _ _).trans ha)

/-- `open_file` finds a file of the image. -/
theorem FitsLoader.openFile (hloader : FitsLoader boot files)
    (hformat : Formatted boot clusters disk)
    (hlaid : Laid boot.bpb clusters boot.rootDirCluster files info rootChain chains)
    (hwritten : Written boot clusters info image)
    (hlisting : files.length * 32 ≤ boot.bpb.clusterSizeBytes)
    (hdistinct : (files.map NamedFile.path).Nodup) (hfile : files[i]? = some file)
    (more : ℕ) :
    openFile (bootOf boot) boot.rootDirCluster image (i + (more + 1)) loader (fileName file) =
      some ({ loader with
        memory := readSectors image loader.memory
          ((bootOf boot).rootSector boot.rootDirCluster) 8 rootDir },
        some ⟨(chains i).headD 0, file.bytes.length⟩) := by
  have hsector := hloader.rootSector hformat
  have hdirectory := hloader.directory
  generalize hread : readSectors image loader.memory
    ((bootOf boot).rootSector boot.rootDirCluster) 8 rootDir = mem
  have hmem : ∀ x < files.length * 32, mem (rootDir + x) =
      content boot.bpb info rootChain x := by
    intro x hx
    have hat := hformat.geometry.fileAddress_eq hlaid.rootFirst
      (show x < boot.bpb.clusterSizeBytes by omega)
    rw [Nat.zero_mul, Nat.zero_add] at hat
    rw [← hwritten.content, hat, ← hread, readSectors, store_inside (by omega), load, hsector]
  have hlisted : ∀ k other, files[k]? = some other →
      Listed (content boot.bpb info rootChain) k other ((chains k).headD 0) := fun k other hother =>
    (hlaid.holds k other hother).listed
  have hentry : ∀ k < files.length, ∀ j < 32,
      mem (rootDir + 32 * k + j) = content boot.bpb info rootChain (32 * k + j) := by
    intro k hk j hj
    rw [Nat.add_assoc]
    exact hmem _ (by omega)
  have hi := (List.getElem?_eq_some_iff.mp hfile).1
  obtain ⟨hused, hmatches⟩ := nameMatches_listed (hlisted i file hfile) (hentry i hi)
  have hfound : checkEntries mem (fileName file) (i + (more + 1)) rootDir =
      some (some (rootDir + 32 * i)) := by
    apply checkEntries_found
    · intro k hk
      have hother := List.getElem?_eq_getElem (show k < files.length by omega)
      obtain ⟨husedk, hmatchesk⟩ := nameMatches_listed (hlisted k _ hother)
        (hentry k (by omega))
      refine ⟨husedk, ?_⟩
      rw [hmatchesk]
      intro hsame
      have hpath : (files.map NamedFile.path)[k]? = (files.map NamedFile.path)[i]? := by
        rw [List.getElem?_map, List.getElem?_map, hfile, hother, Option.map_some,
          Option.map_some]
        exact congrArg some (path_eq_of_fileName hsame)
      have hindex := (List.getElem?_inj (by rw [List.length_map]; omega) hdistinct).mp hpath
      omega
    · exact hused
    · exact (hmatches _).mpr fun j _ => rfl
  have hword : ∀ place, place + 2 ≤ 32 → readU16 mem (rootDir + 32 * i + place) =
      readU16 (content boot.bpb info rootChain) (32 * i + place) := by
    intro place hplace
    apply ByteStore.readU16_congr
    intro k hk
    rw [Nat.add_assoc, Nat.add_assoc (32 * i)]
    exact hentry i hi _ (by omega)
  have hcluster : readU16 mem (rootDir + 32 * i + 20) * 65536 +
      readU16 mem (rootDir + 32 * i + 26) = (chains i).headD 0 := by
    rw [hword 20 (by decide), hword 26 (by decide)]
    exact (hlisted i file hfile).cluster
  have hsize : readU32 mem (rootDir + 32 * i + 28) = file.bytes.length := by
    rw [← (hlisted i file hfile).size]
    change _ = readU32 _ (32 * i + 28)
    apply readU32_congr
    intro k hk
    rw [Nat.add_assoc, Nat.add_assoc (32 * i)]
    exact hentry i hi _ (by omega)
  rw [Bootloader.openFile, hread, hfound, Option.map_some, Option.map_some, hcluster, hsize]

/-- What `read_file` leaves of one file. -/
structure LoadsFile (boot : BootRecord) (image memory : ℕ → UInt8) (file : NamedFile)
    (destination : ℕ) (loader final : Loader) : Prop where
  tabled : Tabled (bootOf boot) image memory final
  block : loader.loadedFatBlock = 0 → final.loadedFatBlock = 0
  bytes : ∀ t < file.bytes.length, final.memory (destination + t) = file.bytes.getD t 0
  others : ∀ a, fileTable + 4096 ≤ a →
    a < destination ∨ destination + (file.bytes.length / boot.bpb.clusterSizeBytes + 2) *
      boot.bpb.clusterSizeBytes ≤ a → final.memory a = loader.memory a

/-- The table is not loaded again for entries of its first block. -/
theorem readFile_block {bootBpb : BootBpb} {rounds cluster : ℕ} {final : Loader}
    {visited : List ℕ} (hread : readFile bootBpb disk rounds loader cluster =
      some (final, visited)) (hlow : ∀ c ∈ visited, c < 4096)
    (hblock : loader.loadedFatBlock = 0) : final.loadedFatBlock = 0 := by
  induction rounds generalizing loader cluster visited with
  | zero => cases hread
  | succ rounds ih =>
      have hround : cluster < 4096 →
          (readRound bootBpb disk loader cluster).1.loadedFatBlock = 0 := by
        intro hcluster
        rw [readRound, readFat, Nat.div_eq_of_lt hcluster]
        rw [if_pos (show 0 = (loadCluster bootBpb disk loader cluster).loadedFatBlock from
          hblock.symm)]
        exact hblock
      rw [readFile] at hread
      split at hread
      case isTrue hend =>
        obtain ⟨rfl, rfl⟩ := Prod.mk.inj (Option.some.inj hread)
        exact hround (hlow cluster List.mem_cons_self)
      case isFalse hgoes =>
        obtain ⟨⟨last, rest⟩, hrest, hcons⟩ := Option.map_eq_some_iff.mp hread
        obtain ⟨rfl, rfl⟩ := Prod.mk.inj hcons
        exact ih hrest (fun c hc => hlow c (List.mem_cons_of_mem _ hc))
          (hround (hlow cluster List.mem_cons_self))

/-- `read_file` loads a file of the image. -/
theorem FitsLoader.readFile (hloader : FitsLoader boot files)
    (hformat : Formatted boot clusters disk)
    (hlaid : Laid boot.bpb clusters boot.rootDirCluster files info rootChain chains)
    (hat : StandsAt boot.bpb clusters boot.rootDirCluster info boot.rootDirCluster)
    (hwritten : Written boot clusters info image) (hfile : files[i]? = some file)
    (htabled : Tabled (bootOf boot) image memory loader) {destination : ℕ}
    (hlow : fileTable + 4 * 4096 ≤ destination)
    (hhigh : destination + (file.bytes.length / boot.bpb.clusterSizeBytes + 2) *
      boot.bpb.clusterSizeBytes < 2 ^ 32) {rounds : ℕ}
    (hrounds : file.bytes.length / boot.bpb.clusterSizeBytes + 2 ≤ rounds) :
    ∃ final, Bootloader.readFile (bootOf boot) image rounds
        { loader with destination := destination } ((chains i).headD 0) =
          some (final, chains i) ∧
      LoadsFile boot image memory file destination loader final := by
  have hholds := hlaid.holds i file hfile
  have hlengthLe := hholds.length
  have hne : chains i ≠ [] := by
    intro hnil
    rw [hnil] at hlengthLe
    simp at hlengthLe
  have hcs := hformat.geometry.clusterSize_ge
  have hready := htabled (chains i).length destination hlow (by rw [hlengthLe]; exact hhigh)
  obtain ⟨final, hread, hcontent, hkept, htabled'⟩ := readFile_content
    (hloader.fitsBuffers hformat) hready
    (hloader.linked hformat hlaid hat hwritten hholds.ended hne) hne
  have hmore := readFile_more (rounds - (chains i).length) hread
  rw [Nat.add_sub_cancel' (by rw [hlengthLe]; exact hrounds)] at hmore
  refine ⟨final, hmore, htabled', ?_, ?_, ?_⟩
  · intro hblock
    exact readFile_block hmore (fun c hc => (hloader.lt hformat hlaid hat hholds.ended hc).trans
      (by decide)) hblock
  · intro t ht
    have hdiv := Nat.div_lt_iff_lt_mul (show 0 < boot.bpb.clusterSizeBytes by omega)
      (x := t) (y := (chains i).length)
    have hroom : t < (chains i).length * boot.bpb.clusterSizeBytes := by
      rw [hlengthLe, Nat.add_mul]
      have hblocks := Nat.lt_div_mul_add (show 0 < boot.bpb.clusterSizeBytes by omega)
        (a := file.bytes.length)
      omega
    have hp := List.getElem?_eq_getElem (hdiv.mpr hroom)
    have hmod := Nat.mod_lt t (show 0 < boot.bpb.clusterSizeBytes by omega)
    have hload := hcontent _ _ hp _ hmod
    have hrange := hholds.ended.isChain.range _ (List.mem_of_getElem? hp)
    rw [clusterSector_eq hformat hrange, ← hformat.geometry.fileAddress_eq hp hmod,
      Nat.div_add_mod' t, hwritten.content, hholds.bytes t ht] at hload
    rw [← hload, Nat.add_assoc]
    congr 2
    exact (Nat.div_add_mod' t boot.bpb.clusterSizeBytes).symm
  · intro a habove hout
    exact hkept a (.inr habove) (by rw [hlengthLe]; exact hout)

/-- `open_file` and `read_file`. -/
theorem FitsLoader.loadFile (hloader : FitsLoader boot files)
    (hformat : Formatted boot clusters disk)
    (hlaid : Laid boot.bpb clusters boot.rootDirCluster files info rootChain chains)
    (hat : StandsAt boot.bpb clusters boot.rootDirCluster info boot.rootDirCluster)
    (hwritten : Written boot clusters info image)
    (hlisting : files.length * 32 ≤ boot.bpb.clusterSizeBytes)
    (hdistinct : (files.map NamedFile.path).Nodup) (hfile : files[i]? = some file)
    (htabled : Tabled (bootOf boot) image memory loader) {destination : ℕ}
    (hlow : fileTable + 4 * 4096 ≤ destination)
    (hhigh : destination + (file.bytes.length / boot.bpb.clusterSizeBytes + 2) *
      boot.bpb.clusterSizeBytes < 2 ^ 32) {rounds : ℕ}
    (hrounds : files.length + (file.bytes.length / boot.bpb.clusterSizeBytes + 2) ≤ rounds) :
    ∃ final, loadFile (bootOf boot) boot.rootDirCluster image rounds loader (fileName file)
        destination = some (final, some file.bytes.length) ∧
      LoadsFile boot image memory file destination loader final := by
  have hi := (List.getElem?_eq_some_iff.mp hfile).1
  have hopen := @FitsLoader.openFile boot clusters i disk image files info rootChain chains
    file loader hloader hformat hlaid hwritten hlisting hdistinct hfile (rounds - i - 1)
  have henough := (Nat.le_add_right _ _).trans hrounds
  rw [show i + (rounds - i - 1 + 1) = rounds by omega] at hopen
  obtain ⟨final, hread, hloads⟩ := hloader.readFile hformat hlaid hat hwritten hfile
    (htabled.openFile ((bootOf boot).rootSector boot.rootDirCluster)) hlow hhigh
    ((Nat.le_add_left _ _).trans hrounds)
  refine ⟨final, ?_, hloads.tabled, hloads.block, hloads.bytes, ?_⟩
  · rw [Bootloader.loadFile, hopen]
    dsimp only
    rw [hread]
    rfl
  · intro a habove hout
    have hroot : rootDir + 512 * 8 ≤ fileTable + 4096 := by decide
    rw [hloads.others a habove hout]
    exact readSectors_outside (.inr (hroot.trans habove))

end OneFile

/-! ## Several files -/

/-- The boot loader loads one file after the other; the sizes are those it has found. -/
def loadStep (boot : BootBpb) (rootDirCluster : ℕ) (disk : ℕ → UInt8) (rounds : ℕ)
    (state : Loader × List (Option ℕ)) (request : (ℕ → UInt8) × ℕ) :
    Option (Loader × List (Option ℕ)) :=
  (loadFile boot rootDirCluster disk rounds state.1 request.1 request.2).map fun loaded =>
    (loaded.1, state.2 ++ [loaded.2])

/-- A file and the address it is loaded to. -/
structure Placed where
  file : NamedFile
  destination : ℕ

def Placed.request (placed : Placed) : (ℕ → UInt8) × ℕ :=
  (fileName placed.file, placed.destination)

/-- The clusters that are loaded, and the first byte behind them. -/
def Placed.rounds (boot : BootRecord) (placed : Placed) : ℕ :=
  placed.file.bytes.length / boot.bpb.clusterSizeBytes + 2

def Placed.stop (boot : BootRecord) (placed : Placed) : ℕ :=
  placed.destination + placed.rounds boot * boot.bpb.clusterSizeBytes

/-- Files of the image go to places above the buffers that do not meet. -/
structure Placement (boot : BootRecord) (files : List NamedFile) (requests : List Placed) :
    Prop where
  written : ∀ placed ∈ requests, placed.file ∈ files
  low : ∀ placed ∈ requests, fileTable + 4 * 4096 ≤ placed.destination
  high : ∀ placed ∈ requests, placed.stop boot < 2 ^ 32
  apart : requests.Pairwise fun first second =>
    first.stop boot ≤ second.destination ∨ second.stop boot ≤ first.destination

section Files

variable {boot : BootRecord} {clusters : ℕ} {disk image memory : ℕ → UInt8}
  {files : List NamedFile} {info : FatInfo} {rootChain : List ℕ} {chains : ℕ → List ℕ}
  {requests : List Placed}

theorem FitsLoader.loadFiles (hloader : FitsLoader boot files)
    (hformat : Formatted boot clusters disk)
    (hlaid : Laid boot.bpb clusters boot.rootDirCluster files info rootChain chains)
    (hat : StandsAt boot.bpb clusters boot.rootDirCluster info boot.rootDirCluster)
    (hwritten : Written boot clusters info image)
    (hlisting : files.length * 32 ≤ boot.bpb.clusterSizeBytes)
    (hdistinct : (files.map NamedFile.path).Nodup) (hplacement : Placement boot files requests)
    {rounds : ℕ} (hrounds : ∀ placed ∈ requests, files.length + placed.rounds boot ≤ rounds)
    {loader : Loader} (htabled : Tabled (bootOf boot) image memory loader)
    (sizes : List (Option ℕ)) :
    ∃ final, exec (loadStep (bootOf boot) boot.rootDirCluster image rounds) (loader, sizes)
        (requests.map Placed.request) = some final ∧
      final.2 = sizes ++ requests.map (fun placed => some placed.file.bytes.length) ∧
      (∀ placed ∈ requests, ∀ t < placed.file.bytes.length,
        final.1.memory (placed.destination + t) = placed.file.bytes.getD t 0) ∧
      ∀ a, fileTable + 4 * 4096 ≤ a →
        (∀ placed ∈ requests, a < placed.destination ∨ placed.stop boot ≤ a) →
          final.1.memory a = loader.memory a := by
  induction requests generalizing loader sizes with
  | nil => exact ⟨(loader, sizes), rfl, (List.append_nil _).symm, by simp, fun _ _ _ => rfl⟩
  | cons placed rest ih =>
      obtain ⟨happart, hrestApart⟩ := List.pairwise_cons.mp hplacement.apart
      have hmem : placed ∈ placed :: rest := List.mem_cons_self
      obtain ⟨i, hfile⟩ := List.mem_iff_getElem?.mp (hplacement.written placed hmem)
      obtain ⟨next, hload, hloads⟩ := hloader.loadFile hformat hlaid hat hwritten hlisting
        hdistinct hfile htabled (hplacement.low placed hmem) (hplacement.high placed hmem)
        (hrounds placed hmem)
      obtain ⟨final, hrun, hsizes, hbytes, hothers⟩ := ih
        ⟨fun other hother => hplacement.written other (List.mem_cons_of_mem _ hother),
          fun other hother => hplacement.low other (List.mem_cons_of_mem _ hother),
          fun other hother => hplacement.high other (List.mem_cons_of_mem _ hother),
          hrestApart⟩
        (fun other hother => hrounds other (List.mem_cons_of_mem _ hother)) hloads.tabled
        (sizes ++ [some placed.file.bytes.length])
      refine ⟨final, ?_, ?_, ?_, ?_⟩
      · rw [List.map_cons, exec_cons_eq_some]
        refine ⟨(next, sizes ++ [some placed.file.bytes.length]), ?_, hrun⟩
        rw [loadStep, Placed.request]
        dsimp only
        rw [hload, Option.map_some]
      · rw [hsizes, List.append_assoc]
        rfl
      · intro other hother t ht
        obtain rfl | hrest := List.mem_cons.mp hother
        · -- the file is out of the way of those that are loaded behind it
          have hblocks := Nat.lt_div_mul_add
            (show 0 < boot.bpb.clusterSizeBytes by
              have hcs := hformat.geometry.clusterSize_ge
              omega) (a := other.file.bytes.length)
          have hstop : other.destination + t < other.stop boot := by
            rw [Placed.stop, Placed.rounds, Nat.add_mul]
            omega
          have hlow := (hplacement.low other hmem).trans (Nat.le_add_right _ t)
          rw [hothers _ hlow, hloads.bytes t ht]
          intro later hlater
          obtain hbefore | hafter := happart later hlater
          · exact .inl (hstop.trans_le hbefore)
          · exact .inr (hafter.trans (Nat.le_add_right _ _))
        · exact hbytes other hrest t ht
      · intro a habove hout
        rw [hothers a habove fun other hother => hout other (List.mem_cons_of_mem _ hother)]
        exact hloads.others a ((Nat.add_le_add_left (by decide) _).trans habove)
          (hout placed hmem)

end Files

/-- What the tool writes to a fresh image the boot loader loads: every file is found by
its name with its size, and its bytes are at their place after all the files have been
loaded, as long as the files lie in the first 1024 entries of the table. -/
theorem bootloader_loads_written (boot : BootRecord) (clusters : ℕ) (disk : ℕ → UInt8)
    (files : List NamedFile) (hformat : Formatted boot clusters disk)
    (hdistinct : (files.map NamedFile.path).Nodup)
    (hfits : neededClusters boot.bpb files ≤ clusterLimit boot.bpb clusters - 2)
    (hlisting : files.length * 32 ≤ boot.bpb.clusterSizeBytes)
    (hloader : FitsLoader boot files) :
    ∃ image, diskwrite boot disk (files.map NamedFile.inputFile) = some image ∧
      ∀ (start : Loader) (requests : List Placed), Placement boot files requests →
        ∃ rounds final, exec (loadStep (bootOf boot) boot.rootDirCluster image rounds)
            (cacheFileTable (bootOf boot) image start 0, [])
            (requests.map Placed.request) = some final ∧
          final.2 = requests.map (fun placed => some placed.file.bytes.length) ∧
          ∀ placed ∈ requests, ∀ t < placed.file.bytes.length,
            final.1.memory (placed.destination + t) = placed.file.bytes.getD t 0 := by
  obtain ⟨info, rootChain, chains, hcreate, hlaid⟩ :=
    hformat.laid.createAll hformat.perCluster (by rwa [List.nil_append])
      (by rwa [List.nil_append])
  rw [List.nil_append] at hlaid
  refine ⟨(fatWriteBack info).disk, ?_, ?_⟩
  · rw [diskwrite, hcreate]
  · intro start requests hplacement
    have hwritten := hformat.written hlaid.fixed.bpb_eq
    have hat := createFiles_standsAt hformat.standsAt hcreate
    have htabled := @tabled_cacheFileTable (fatWriteBack info).disk (bootOf boot)
      (hloader.fitsBuffers hformat) start
    have hrounds : ∀ placed ∈ requests, files.length + placed.rounds boot ≤
        files.length + (requests.map (Placed.rounds boot)).sum := by
      intro placed hmem
      exact Nat.add_le_add_left (List.single_le_sum (fun _ _ => Nat.zero_le _) _
        (List.mem_map_of_mem hmem)) _
    obtain ⟨final, hrun, hsizes, hbytes, -⟩ := hloader.loadFiles hformat hlaid hat hwritten
      hlisting hdistinct hplacement hrounds htabled []
    exact ⟨_, final, hrun, hsizes, hbytes⟩

/-- The parameter block of the boot loader. -/
def imageBoot : BootRecord := ⟨bootBpb.bpb, 2, 0, 0⟩

/-- `kernel.elf`. -/
def kernelElf : NamedFile where
  base := [0x6b, 0x65, 0x72, 0x6e, 0x65, 0x6c]
  ext := [0x65, 0x6c, 0x66]
  bytes := List.replicate 5000 7
  baseLength := by decide +kernel
  extLength := by decide +kernel
  baseChars := by decide +kernel
  extChars := by decide +kernel

/-- `initrd.rd`. -/
def initrdRd : NamedFile where
  base := [0x69, 0x6e, 0x69, 0x74, 0x72, 0x64]
  ext := [0x72, 0x64]
  bytes := [1, 2, 3]
  baseLength := by decide +kernel
  extLength := by decide +kernel
  baseChars := by decide +kernel
  extChars := by decide +kernel

theorem bootloader_loads_kernel :
    ∃ image, diskwrite imageBoot (fun _ => 0)
        ([kernelElf, initrdRd].map NamedFile.inputFile) = some image ∧
      ∃ rounds final, exec (loadStep (bootOf imageBoot) 2 image rounds)
          (cacheFileTable (bootOf imageBoot) image startLoader 0, [])
          ([⟨kernelElf, 0x100000⟩, ⟨initrdRd, 0x200000⟩].map Placed.request) = some final ∧
        final.2 = [some 5000, some 3] ∧ final.1.memory 0x101000 = 7 ∧
          final.1.memory 0x200001 = 2 := by
  have hformat : Formatted imageBoot 130556 (fun _ => 0) :=
    ⟨bootBpb_geometry, rfl, by decide, by decide, by decide, rfl, rfl, fun _ _ _ => rfl,
      fun _ _ => rfl⟩
  have hloader : FitsLoader imageBoot [kernelElf, initrdRd] :=
    ⟨by decide +kernel, by decide +kernel, by decide +kernel, by decide +kernel,
      by decide +kernel⟩
  obtain ⟨image, himage, hall⟩ := bootloader_loads_written imageBoot 130556 (fun _ => 0)
    [kernelElf, initrdRd] hformat (by decide +kernel) (by decide +kernel) (by decide +kernel)
    hloader
  obtain ⟨rounds, final, hrun, hsizes, hbytes⟩ := hall startLoader
    [⟨kernelElf, 0x100000⟩, ⟨initrdRd, 0x200000⟩]
    ⟨by simp, by simp [fileTable], by
      intro placed hmem
      rw [List.mem_cons, List.mem_singleton] at hmem
      obtain rfl | rfl := hmem
      · decide +kernel
      · decide +kernel, by
      refine List.pairwise_pair.mpr (.inl ?_)
      decide +kernel⟩
  refine ⟨image, himage, rounds, final, hrun, ?_, ?_, ?_⟩
  · rw [hsizes]
    decide +kernel
  · rw [hbytes ⟨kernelElf, 0x100000⟩ List.mem_cons_self 0x1000 (by decide +kernel)]
    decide +kernel
  · rw [hbytes ⟨initrdRd, 0x200000⟩ (by simp) 1 (by decide +kernel)]
    decide +kernel

end KimisOS.Bootloader
