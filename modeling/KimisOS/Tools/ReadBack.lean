import KimisOS.Tools.RootEntry

/-!
# The driver reads what the tool has written

After every file the image holds the files so far, each in a chain of its own,
and the root directory lists them.  From the table that is written back the
driver follows the same chains.
-/

namespace KimisOS.Diskwrite

open KimisOS.ByteStore
open KimisOS.Fat32 (Bpb CString Geometry IsChain ShortEntry direntAt slash)

/-- The clusters of the root directory that lists this many files. -/
def rootClusters (bpb : Bpb) (files : ℕ) : ℕ :=
  if files = 0 then 1 else files * 32 / bpb.clusterSizeBytes + 2

/-- The clusters of the files and of the root directory; every chain has one to
spare. -/
def neededClusters (bpb : Bpb) (files : List NamedFile) : ℕ :=
  (files.map fun file => file.bytes.length / bpb.clusterSizeBytes + 2).sum +
    rootClusters bpb files.length

theorem rootClusters_mono (bpb : Bpb) (files : ℕ) :
    rootClusters bpb files ≤ rootClusters bpb (files + 1) ∧
      rootClusters bpb (files + 1) = (files + 1) * 32 / bpb.clusterSizeBytes + 2 := by
  have hdiv : files * 32 / bpb.clusterSizeBytes ≤ (files + 1) * 32 / bpb.clusterSizeBytes :=
    Nat.div_le_div_right (by omega)
  rw [rootClusters, rootClusters, if_neg (Nat.succ_ne_zero files)]
  refine ⟨?_, rfl⟩
  split
  case isTrue => exact Nat.le_add_left 1 (_ + 1)
  case isFalse => exact Nat.add_le_add_right hdiv 2

theorem neededClusters_append (bpb : Bpb) (files : List NamedFile) (file : NamedFile) :
    neededClusters bpb (files ++ [file]) + rootClusters bpb files.length =
      neededClusters bpb files + (file.bytes.length / bpb.clusterSizeBytes + 2) +
        rootClusters bpb (files.length + 1) := by
  simp only [neededClusters, List.map_append, List.map_singleton, List.sum_append,
    List.sum_singleton, List.length_append, List.length_singleton]
  omega

theorem neededClusters_prefix (bpb : Bpb) (files more : List NamedFile) :
    neededClusters bpb files ≤ neededClusters bpb (files ++ more) := by
  induction more generalizing files with
  | nil => rw [List.append_nil]
  | cons file more ih =>
      have hnext := ih (files ++ [file])
      have hone := neededClusters_append bpb files file
      have hmono := (rootClusters_mono bpb files.length).1
      have hfile := Nat.zero_le (file.bytes.length / bpb.clusterSizeBytes)
      rw [List.append_assoc, List.singleton_append] at hnext
      omega

/-- The bytes of a chain of the image. -/
def content (bpb : Bpb) (info : FatInfo) (chain : List ℕ) : ℕ → UInt8 :=
  fun x => info.disk (bpb.fileAddress chain x)

/-- A file of the image, listed in entry `i` of the root directory. -/
structure Holds (bpb : Bpb) (clusters : ℕ) (info : FatInfo) (rootChain : List ℕ) (i : ℕ)
    (file : NamedFile) (chain : List ℕ) : Prop where
  ended : Ended info.fileTable (clusters + 2) (chain.headD 0) chain
  length : chain.length = file.bytes.length / bpb.clusterSizeBytes + 2
  apart : chain.Disjoint rootChain
  listed : Listed (content bpb info rootChain) i file (chain.headD 0)
  bytes : ∀ t < file.bytes.length, content bpb info chain t = file.bytes.getD t 0

/-- The image holds these files and nothing else. -/
structure Laid (bpb : Bpb) (clusters root : ℕ) (files : List NamedFile) (info : FatInfo)
    (rootChain : List ℕ) (chains : ℕ → List ℕ) : Prop where
  fixed : Fixed bpb clusters root files.length info
  rootEnded : Ended info.fileTable (clusters + 2) root rootChain
  rootFirst : rootChain[0]? = some root
  rootLength : rootChain.length = rootClusters bpb files.length
  used : usedCount (clusterLimit bpb clusters) info.fileTable ≤ neededClusters bpb files
  holds : ∀ i file, files[i]? = some file → Holds bpb clusters info rootChain i file (chains i)
  unlisted : ∀ x, 32 * files.length ≤ x → x < bpb.clusterSizeBytes →
    content bpb info rootChain x = 0

/-! ## One more file -/

/-- `create_file`, step by step. -/
theorem createFile_eq {info info₁ info₂ info' : FatInfo} {path ext : CString}
    {file : List UInt8} {rootFiles : ℕ → UInt8} {index firstCluster : ℕ}
    (hroot : (fun k => if k < info.bpb.sectorsPerCluster * 512 then
      readCluster info info.rootDirCluster k else 0) = rootFiles)
    (hindex : firstFrom (fun index => rootFiles (32 * index) == 0)
      (info.bpb.sectorsPerCluster * 512) 0 = some index)
    (hext : (path.dropWhile (· != dot)).tail? = some ext)
    (hfirst : findFreeCluster info = some firstCluster)
    (hinfo₁ : { info with
      fileTable := Function.update info.fileTable firstCluster fileEnd
      rootDirEntries := (info.rootDirEntries + 1) % 2 ^ 16 } = info₁)
    (hfile : writeFile info₁
      (startCluster (setFile rootFiles index (path.takeWhile (· != dot)) (ext.take 3)
        (file.length % 2 ^ 32) firstCluster) index)
      (fun k => file.getD k 0) (file.length % 2 ^ 32) = some info₂)
    (hdirectory : writeFile info₂ info₂.rootDirCluster
      (setFile rootFiles index (path.takeWhile (· != dot)) (ext.take 3)
        (file.length % 2 ^ 32) firstCluster) (info₂.rootDirEntries * 32) = some info') :
    createFile info path file = some info' := by
  subst hroot hinfo₁
  simp only [createFile, Option.bind_eq_bind, hindex, hext, hfirst, hfile, hdirectory,
    Option.bind_some]

section Create

variable {bpb : Bpb} {clusters root : ℕ} {files : List NamedFile} {info info' : FatInfo}
  {rootChain chain chain' : List ℕ} {chains : ℕ → List ℕ} {file : NamedFile}

/-- What the tool reads of the root directory. -/
def rootBuffer (bpb : Bpb) (info : FatInfo) (rootChain : List ℕ) : ℕ → UInt8 :=
  fun k => if k < bpb.clusterSizeBytes then content bpb info rootChain k else 0

theorem Laid.readRoot (hlaid : Laid bpb clusters root files info rootChain chains) :
    (fun k => if k < info.bpb.sectorsPerCluster * 512 then
      readCluster info info.rootDirCluster k else 0) = rootBuffer bpb info rootChain := by
  have hrange := hlaid.rootEnded.isChain.range root (List.mem_of_getElem? hlaid.rootFirst)
  have hsize := hlaid.fixed.clusterSize_eq
  funext k
  rw [rootBuffer, hlaid.fixed.bpb_eq, Nat.mul_comm bpb.sectorsPerCluster, hsize]
  by_cases hk : k < bpb.clusterSizeBytes
  · have hat := hlaid.fixed.geometry.fileAddress_eq hlaid.rootFirst hk
    rw [Nat.zero_mul, Nat.zero_add] at hat
    rw [if_pos hk, if_pos hk, readCluster, readSector, load, hlaid.fixed.rootDirCluster,
      hlaid.fixed.sectorOffset_eq hrange, content, hat]
  · rw [if_neg hk, if_neg hk]

/-- The first unused entry is the one behind the files. -/
theorem Laid.firstUnused (hlaid : Laid bpb clusters root files info rootChain chains)
    (hlisting : (files.length + 1) * 32 ≤ bpb.clusterSizeBytes) :
    firstFrom (fun index => rootBuffer bpb info rootChain (32 * index) == 0)
      (info.bpb.sectorsPerCluster * 512) 0 = some files.length := by
  have hsize := hlaid.fixed.clusterSize_eq
  apply firstFrom_eq (Nat.zero_le _)
  · rw [hlaid.fixed.bpb_eq]
    omega
  · rw [rootBuffer, if_pos (by omega), hlaid.unlisted _ (le_refl _) (by omega)]
    rfl
  · intro k _ hk
    obtain ⟨earlier, hearlier⟩ : ∃ earlier, files[k]? = some earlier :=
      ⟨_, List.getElem?_eq_getElem hk⟩
    have hname := (hlaid.holds k earlier hearlier).listed.short.name0_ne
    rw [rootBuffer, if_pos (by omega)]
    exact beq_eq_false_iff_ne.mpr hname

/-- The files before are where they were, also while another chain is
written. -/
theorem Wrote.holds {head start rounds : ℕ} {buffer : ℕ → UInt8} {rootChain' other : List ℕ}
    {i : ℕ} (hgeo : Geometry bpb clusters)
    (hwrote : Wrote bpb clusters info info' head chain chain' buffer start rounds)
    (hholds : Holds bpb clusters info rootChain i file other)
    (hdisjoint : other.Disjoint chain) (hapart : other.Disjoint rootChain')
    (hlisted : ∀ j < 32, content bpb info' rootChain' (32 * i + j) =
      content bpb info rootChain (32 * i + j)) :
    Holds bpb clusters info' rootChain' i file other := by
  have hcs := hgeo.clusterSize_ge
  obtain ⟨hended, -, hkept⟩ := hwrote.keeps hgeo hholds.ended hdisjoint
  refine ⟨hended, hholds.length, hapart, hholds.listed.congr hlisted, ?_⟩
  intro t ht
  have hplace : t / bpb.clusterSizeBytes < other.length := by
    have hle : t / bpb.clusterSizeBytes ≤ file.bytes.length / bpb.clusterSizeBytes :=
      Nat.div_le_div_right (by omega)
    rw [hholds.length]
    omega
  rw [content, hkept t hplace]
  exact hholds.bytes t ht

/-- The image with the first cluster of a new file marked. -/
def marked (info : FatInfo) (firstCluster files : ℕ) : FatInfo :=
  { info with
    fileTable := Function.update info.fileTable firstCluster fileEnd
    rootDirEntries := files }

/-- Marking a free cluster gives the new file a chain. -/
theorem Fixed.mark {n firstCluster : ℕ} (hfixed : Fixed bpb clusters root n info)
    (hrange : 2 ≤ firstCluster ∧ firstCluster < clusters + 2) (m : ℕ) :
    Fixed bpb clusters root m (marked info firstCluster m) ∧
      Ended (marked info firstCluster m).fileTable (clusters + 2) firstCluster
        [firstCluster] ∧
      usedCount (clusterLimit bpb clusters) (marked info firstCluster m).fileTable ≤
        usedCount (clusterLimit bpb clusters) info.fileTable + 1 := by
  unfold marked
  refine ⟨⟨hfixed.geometry, hfixed.sector, hfixed.bpb_eq, hfixed.rootDirCluster, rfl,
    hfixed.partitionStart, hfixed.clusterSearchStart⟩, ⟨⟨rfl, ?_, ?_, ?_, ?_⟩, ?_⟩, ?_⟩
  · intro c hc
    rw [List.mem_singleton.mp hc]
    exact hrange
  · exact List.nodup_singleton firstCluster
  · intro p c next _ hnext
    simp at hnext
  · intro last hlast
    obtain rfl : firstCluster = last := Option.some.inj hlast
    dsimp only
    rw [Function.update_self]
    decide
  · intro last hlast
    obtain rfl : firstCluster = last := Option.some.inj hlast
    exact Function.update_self _ _ _
  · apply @usedCount_take _ firstCluster
    intro c _ hne htaken
    dsimp only at htaken
    rwa [Function.update_of_ne hne] at htaken

/-- A chain is not changed by marking a free cluster. -/
theorem Ended.marked {head firstCluster : ℕ} (hgeo : Geometry bpb clusters)
    (hended : Ended info.fileTable (clusters + 2) head chain)
    (hfree : info.fileTable firstCluster = 0) (m : ℕ) :
    Ended (Diskwrite.marked info firstCluster m).fileTable (clusters + 2) head chain ∧
      chain.Disjoint [firstCluster] := by
  have hout : firstCluster ∉ chain := by
    intro hmem
    exact hended.isChain.ne_zero hgeo.count_le hmem hfree
  refine ⟨?_, List.disjoint_singleton.mpr hout⟩
  apply hended.congr
  intro c hc
  unfold Diskwrite.marked
  dsimp only
  apply Function.update_of_ne
  rintro rfl
  exact hout hc

/-- What the tool writes of the root directory, with the new file in its entry. -/
def newRoot (bpb : Bpb) (info : FatInfo) (rootChain : List ℕ) (files : ℕ) (file : NamedFile)
    (firstCluster : ℕ) : ℕ → UInt8 :=
  setFile (rootBuffer bpb info rootChain) files file.base file.ext file.bytes.length
    firstCluster

/-- What `create_file` does: `first` is marked, the file is written behind it to `written`,
and then the root directory. -/
structure Created (bpb : Bpb) (clusters root : ℕ) (files : List NamedFile) (file : NamedFile)
    (first : ℕ) (info written info' : FatInfo) (rootChain chain rootChain' : List ℕ) :
    Prop where
  free : info.fileTable first = 0
  first_lt : first < 2 ^ 32
  size : file.bytes.length < 2 ^ 32
  wroteFile : Wrote bpb clusters (marked info first (files.length + 1)) written first [first]
    chain (padded (fun k => file.bytes.getD k 0) file.bytes.length) 0
    (file.bytes.length / bpb.clusterSizeBytes + 1)
  wroteRoot : Wrote bpb clusters written info' root rootChain rootChain'
    (padded (newRoot bpb info rootChain files.length file first)
      ((files.length + 1) * 32)) 0 ((files.length + 1) * 32 / bpb.clusterSizeBytes + 1)

section Created

variable {first : ℕ} {written : FatInfo}

/-- The directory before is there until it is written anew. -/
theorem Created.root_kept
    (hcreated : Created bpb clusters root files file first info written info' rootChain chain
      rootChain')
    (hlaid : Laid bpb clusters root files info rootChain chains) :
    rootChain.Disjoint chain ∧ ∀ x < bpb.clusterSizeBytes,
      content bpb written rootChain x = content bpb info rootChain x := by
  have hgeo := hlaid.fixed.geometry
  obtain ⟨hroot, hapart⟩ := hlaid.rootEnded.marked hgeo hcreated.free (files.length + 1)
  obtain ⟨-, hdisjoint, hbytes⟩ := hcreated.wroteFile.keeps hgeo hroot hapart
  refine ⟨hdisjoint, ?_⟩
  intro x hx
  apply hbytes
  rw [Nat.div_eq_of_lt hx]
  exact (List.getElem?_eq_some_iff.mp hlaid.rootFirst).1

/-- The directory afterwards. -/
theorem Created.root_content
    (hcreated : Created bpb clusters root files file first info written info' rootChain chain
      rootChain') {x : ℕ} (hx : x < bpb.clusterSizeBytes) :
    content bpb info' rootChain' x =
      padded (newRoot bpb info rootChain files.length file first)
        ((files.length + 1) * 32) x := by
  have hbyte := hcreated.wroteRoot.bytes x (by rw [Nat.succ_mul]; omega)
  rwa [Nat.zero_mul, Nat.zero_add] at hbyte

/-- A file before is where it was. -/
theorem Created.holds_old
    (hcreated : Created bpb clusters root files file first info written info' rootChain chain
      rootChain')
    (hlaid : Laid bpb clusters root files info rootChain chains)
    (hlisting : (files.length + 1) * 32 ≤ bpb.clusterSizeBytes) {i : ℕ} {other : NamedFile}
    (hother : files[i]? = some other) :
    Holds bpb clusters info' rootChain' i other (chains i) := by
  have hgeo := hlaid.fixed.geometry
  have hlt := (List.getElem?_eq_some_iff.mp hother).1
  obtain ⟨-, hkept⟩ := hcreated.root_kept hlaid
  have hholds := hlaid.holds i other hother
  obtain ⟨hended, happart⟩ := hholds.ended.marked hgeo hcreated.free (files.length + 1)
  have hmarked : Holds bpb clusters (marked info first (files.length + 1)) rootChain i other
      (chains i) :=
    ⟨hended, hholds.length, hholds.apart, hholds.listed, hholds.bytes⟩
  have hwritten := hcreated.wroteFile.holds hgeo hmarked happart hholds.apart fun j hj =>
    hkept _ (by omega)
  have hapart' := (hcreated.wroteRoot.keeps hgeo hwritten.ended hholds.apart).2.1
  apply hcreated.wroteRoot.holds hgeo hwritten hholds.apart hapart'
  intro j hj
  rw [hcreated.root_content (by omega), hkept _ (by omega), padded, if_pos (by omega), newRoot,
    setFile_outside file.baseLength.2 file.extLength.2 (by omega), rootBuffer,
    if_pos (by omega)]

/-- The new file is in the entry behind them. -/
theorem Created.holds_new
    (hcreated : Created bpb clusters root files file first info written info' rootChain chain
      rootChain')
    (hlaid : Laid bpb clusters root files info rootChain chains)
    (hlisting : (files.length + 1) * 32 ≤ bpb.clusterSizeBytes) :
    Holds bpb clusters info' rootChain' files.length file chain := by
  have hgeo := hlaid.fixed.geometry
  have hcs := hgeo.clusterSize_ge
  have hwrote := hcreated.wroteFile
  have hhead : chain.headD 0 = first := hwrote.ended.isChain.starts
  obtain ⟨hended, hapart, hbytes⟩ :=
    hcreated.wroteRoot.keeps hgeo hwrote.ended (hcreated.root_kept hlaid).1.symm
  refine ⟨hhead ▸ hended, ?_, hapart, ?_, ?_⟩
  · rw [hwrote.length]
    omega
  · have hzero : ∀ j < 32, rootBuffer bpb info rootChain (32 * files.length + j) = 0 := by
      intro j hj
      rw [rootBuffer, if_pos (by omega)]
      exact hlaid.unlisted _ (by omega) (by omega)
    rw [hhead]
    apply (Listed.setFile file hzero hcreated.size hcreated.first_lt).congr
    intro j hj
    rw [hcreated.root_content (by omega), padded, if_pos (by omega), newRoot]
  · intro t ht
    have hdiv := Nat.lt_div_mul_add (show 0 < bpb.clusterSizeBytes by omega)
      (a := file.bytes.length)
    have hbyte := hwrote.bytes t (by rw [Nat.succ_mul]; omega)
    rw [Nat.zero_mul, Nat.zero_add, padded, if_pos ht] at hbyte
    rw [content, hbytes t, hbyte]
    rw [Nat.div_lt_iff_lt_mul (by omega), hwrote.length, Nat.zero_add, Nat.add_mul, Nat.add_mul]
    omega

/-- The files before, and then the new one. -/
theorem Created.holds
    (hcreated : Created bpb clusters root files file first info written info' rootChain chain
      rootChain')
    (hlaid : Laid bpb clusters root files info rootChain chains)
    (hlisting : (files.length + 1) * 32 ≤ bpb.clusterSizeBytes) {i : ℕ} {other : NamedFile}
    (hother : (files ++ [file])[i]? = some other) :
    Holds bpb clusters info' rootChain' i other
      (Function.update chains files.length chain i) := by
  rcases Nat.lt_trichotomy i files.length with hlt | rfl | hgt
  · rw [List.getElem?_append_left hlt] at hother
    rw [Function.update_of_ne (by omega)]
    exact hcreated.holds_old hlaid hlisting hother
  · rw [List.getElem?_concat_length] at hother
    obtain rfl : file = other := Option.some.inj hother
    rw [Function.update_self]
    exact hcreated.holds_new hlaid hlisting
  · rw [List.getElem?_eq_none (by simp; omega)] at hother
    cases hother

end Created

/-- `create_file` adds a file, as long as it fits. -/
theorem Laid.create (file : NamedFile)
    (hlaid : Laid bpb clusters root files info rootChain chains)
    (hperCluster : bpb.sectorsPerCluster < 256)
    (hfits : neededClusters bpb (files ++ [file]) ≤ clusterLimit bpb clusters - 2)
    (hlisting : (files.length + 1) * 32 ≤ bpb.clusterSizeBytes) :
    ∃ info' rootChain' chains', createFile info file.path file.bytes = some info' ∧
      Laid bpb clusters root (files ++ [file]) info' rootChain' chains' := by
  have hgeo := hlaid.fixed.geometry
  have hcs := hgeo.clusterSize_ge
  have hclusters := hgeo.clusters_lt
  have hlimit : clusterLimit bpb clusters ≤ clusters + 2 := min_le_left _ _
  have hneeded := neededClusters_append bpb files file
  obtain ⟨hmono, hrootNext⟩ := rootClusters_mono bpb files.length
  have hfileChain := Nat.zero_le (file.bytes.length / bpb.clusterSizeBytes)
  have hused := hlaid.used
  have hbefore : rootClusters bpb files.length ≤ neededClusters bpb files :=
    Nat.le_add_left _ _
  have hbytes : file.bytes.length < 2 ^ 32 := by
    have hbelow := hgeo.below
    have hdiv : file.bytes.length / bpb.clusterSizeBytes < clusters := by omega
    have hmul := (Nat.div_lt_iff_lt_mul (show 0 < bpb.clusterSizeBytes by omega)).mp hdiv
    omega
  -- The first cluster of the file.
  obtain ⟨first, hfirst, hlow, hfirstLt, hfree⟩ := hlaid.fixed.findFree (by omega)
  have hrange : 2 ≤ first ∧ first < clusters + 2 := ⟨hlow, by omega⟩
  obtain ⟨hfixed₁, hended₁, hused₁⟩ := hlaid.fixed.mark hrange (files.length + 1)
  obtain ⟨hroot₁, hrootApart⟩ := hlaid.rootEnded.marked hgeo hfree (files.length + 1)
  -- The file is written behind it.
  obtain ⟨written, chain, hfile, hfixed₂, hwroteFile, -⟩ := writeFile_spec
    (fun k => file.bytes.getD k 0) hfixed₁ hended₁ rfl (by simp) hbytes
    (by rw [List.length_singleton]; omega)
  have hused₂ := hwroteFile.used
  rw [List.length_singleton, hwroteFile.length] at hused₂
  have hroot₂ := (hwroteFile.keeps hgeo hroot₁ hrootApart).1
  -- The root directory is written anew.
  have hcluster := hlaid.fixed.clusterSize_eq
  have hsize : (files.length + 1) * 32 < 2 ^ 32 := by omega
  obtain ⟨info', rootChain', hdirectory, hfixed', hwroteRoot, -⟩ := writeFile_spec
    (newRoot bpb info rootChain files.length file first)
    hfixed₂ hroot₂ hlaid.rootFirst (by rw [hlaid.rootLength]; omega) hsize
    (by rw [hlaid.rootLength]; omega)
  have hused' := hwroteRoot.used
  have hrootLength' := hwroteRoot.length
  rw [hlaid.rootLength] at hused'
  have hcreated : Created bpb clusters root files file first info written info' rootChain chain
      rootChain' :=
    ⟨hfree, by omega, hbytes, hwroteFile, hwroteRoot⟩
  obtain ⟨hbase, hext, hextAll⟩ := file.path_split
  have hmod := Nat.mod_eq_of_lt hbytes
  have hentries : (info.rootDirEntries + 1) % 2 ^ 16 = files.length + 1 := by
    rw [hlaid.fixed.rootDirEntries]
    exact Nat.mod_eq_of_lt (by omega)
  refine ⟨info', rootChain', Function.update chains files.length chain, ?_, ?_⟩
  · apply createFile_eq hlaid.readRoot (hlaid.firstUnused hlisting) hext hfirst
      (show _ = marked info first (files.length + 1) by rw [hentries, marked])
    · rw [hbase, hextAll, hmod, startCluster_setFile (by omega)]
      exact hfile
    · rw [hbase, hextAll, hmod, hfixed₂.rootDirCluster, hfixed₂.rootDirEntries]
      exact hdirectory
  · refine ⟨?_, hwroteRoot.ended, ?_, ?_, ?_, ?_, ?_⟩
    · rw [List.length_append, List.length_singleton]
      exact hfixed'
    · obtain ⟨added, happend, -⟩ := hwroteRoot.added
      rw [happend, List.getElem?_append_left
        (List.getElem?_eq_some_iff.mp hlaid.rootFirst).1]
      exact hlaid.rootFirst
    · rw [List.length_append, List.length_singleton, hrootNext]
      omega
    · omega
    · intro i other hother
      exact hcreated.holds hlaid hlisting hother
    · intro x hx hlt
      rw [List.length_append, List.length_singleton] at hx
      rw [hcreated.root_content hlt, padded, if_neg (by omega)]

/-- `create_file` for every input file. -/
theorem Laid.createAll {more : List NamedFile}
    (hlaid : Laid bpb clusters root files info rootChain chains)
    (hperCluster : bpb.sectorsPerCluster < 256)
    (hfits : neededClusters bpb (files ++ more) ≤ clusterLimit bpb clusters - 2)
    (hlisting : (files ++ more).length * 32 ≤ bpb.clusterSizeBytes) :
    ∃ info' rootChain' chains',
      createFiles info (more.map NamedFile.inputFile) = some info' ∧
      Laid bpb clusters root (files ++ more) info' rootChain' chains' := by
  induction more generalizing files info rootChain chains with
  | nil =>
      rw [List.append_nil]
      exact ⟨info, rootChain, chains, rfl, hlaid⟩
  | cons file more ih =>
      have happend : files ++ file :: more = files ++ [file] ++ more := by
        rw [List.append_assoc, List.singleton_append]
      have hless : neededClusters bpb (files ++ [file]) ≤
          neededClusters bpb (files ++ file :: more) := by
        rw [happend]
        exact neededClusters_prefix bpb _ more
      rw [List.length_append, List.length_cons] at hlisting
      obtain ⟨info₁, rootChain₁, chains₁, hcreate, hlaid₁⟩ :=
        hlaid.create file hperCluster (hless.trans hfits) (by omega)
      rw [happend] at hfits ⊢
      obtain ⟨info', rootChain', chains', hrest, hlaid'⟩ := ih hlaid₁ hfits (by
        simp only [List.length_append, List.length_singleton]
        omega)
      refine ⟨info', rootChain', chains', ?_, hlaid'⟩
      rw [List.map_cons, createFiles, NamedFile.inputFile, hcreate]
      exact hrest

end Create

/-! ## A formatted image -/

/-- A freshly formatted image: the table and the cluster of the root directory
are zero. -/
structure Formatted (boot : BootRecord) (clusters : ℕ) (disk : ℕ → UInt8) : Prop where
  geometry : Geometry boot.bpb clusters
  sector : boot.bpb.bytesPerSector = 512
  perCluster : boot.bpb.sectorsPerCluster < 256
  bootSector : 1 ≤ boot.bpb.reservedSectors
  root : 2 ≤ boot.rootDirCluster ∧ boot.rootDirCluster < clusters + 2
  noFiles : boot.rootDirEntries = 0
  atStart : boot.partitionStart = 0
  table : ∀ a, boot.bpb.reservedSectors * 512 ≤ a → a < boot.bpb.dataOffset → disk a = 0
  rootCluster : ∀ k < boot.bpb.clusterSizeBytes,
    disk (boot.bpb.clusterStart boot.rootDirCluster + k) = 0

section Formatted

variable {boot : BootRecord} {clusters : ℕ} {disk : ℕ → UInt8}

theorem repaired_eq {factor field : ℕ} (hfactor : factor ≠ 0) (hfield : field ≠ 0) :
    repaired factor field = field := by
  rw [repaired, if_neg (Nat.mul_ne_zero hfactor hfield), Nat.add_zero]

theorem Formatted.repair_eq (hformat : Formatted boot clusters disk) :
    boot.repair = boot := by
  have hperCluster := hformat.geometry.perCluster
  have hbootSector := hformat.bootSector
  have hroot := hformat.root
  have hsector := hformat.sector
  rw [BootRecord.repair, repaired_eq (by decide) (by omega),
    repaired_eq (by decide) (by omega), repaired_eq (by decide) (by omega),
    repaired_eq (by decide) (by omega)]

theorem Formatted.reserved_lt (hformat : Formatted boot clusters disk) :
    boot.bpb.reservedSectors * 512 + 4 * (clusters + 2) ≤ boot.bpb.dataOffset ∧
      boot.bpb.dataOffset + boot.bpb.clusterSizeBytes ≤ 2 ^ 32 := by
  have hbefore := hformat.geometry.table_before
  have hsector := (hformat.geometry.clusterSector hformat.root).2.2
  have hstart := boot.bpb.dataOffset_le_clusterStart boot.rootDirCluster
  rw [hformat.sector] at hbefore
  exact ⟨hbefore, by omega⟩

theorem Formatted.sectorOffset_eq (hformat : Formatted boot clusters disk) :
    sectorOffset boot.bpb.reservedSectors = boot.bpb.reservedSectors * 512 := by
  obtain ⟨hbefore, hbelow⟩ := hformat.reserved_lt
  exact Nat.mod_eq_of_lt (by omega)

/-- The table that the tool starts with. -/
theorem Formatted.fileTable (hformat : Formatted boot clusters disk) {c : ℕ}
    (hc : c < clusters + 2) :
    (detectRepairFs boot disk).fileTable c =
      if c = boot.rootDirCluster ∨ c = 1 ∨ c = 0 then fileEnd else 0 := by
  have hzero : ∀ i < clusters + 2,
      readU32 (readSector disk boot.bpb.reservedSectors) (4 * i) = 0 := by
    intro i hi
    have hbytes : ∀ k < 4, readSector disk boot.bpb.reservedSectors (4 * i + k) = 0 := by
      intro k hk
      have hbefore := hformat.reserved_lt.1
      rw [readSector, load, hformat.sectorOffset_eq]
      apply hformat.table
      · exact Nat.le_add_right _ _
      · omega
    have h0 := hbytes 0 (by decide)
    rw [Nat.add_zero] at h0
    have h1 := hbytes 1 (by decide)
    have h2 := hbytes 2 (by decide)
    have h3 := hbytes 3 (by decide)
    simp [readU32, h0, h1, h2, h3]
  unfold detectRepairFs
  dsimp only
  rw [hformat.repair_eq, if_pos (hzero _ hformat.root.2)]
  simp only [Function.update_apply, hzero c hc]
  by_cases hroot : c = boot.rootDirCluster
  · simp [hroot]
  · by_cases hone : c = 1
    · simp [hone]
    · simp [hroot, hone]

/-- The tool starts with an empty root directory. -/
theorem Formatted.laid (hformat : Formatted boot clusters disk) :
    Laid boot.bpb clusters boot.rootDirCluster [] (detectRepairFs boot disk)
      [boot.rootDirCluster] fun _ => [] := by
  have hroot := hformat.root
  have hcs := hformat.geometry.clusterSize_ge
  have hmark : (detectRepairFs boot disk).fileTable boot.rootDirCluster = fileEnd := by
    rw [hformat.fileTable hroot.2, if_pos (.inl rfl)]
  have hboot : (detectRepairFs boot disk).bpb = boot.bpb ∧
      (detectRepairFs boot disk).rootDirCluster = boot.rootDirCluster ∧
      (detectRepairFs boot disk).disk = disk := by
    unfold detectRepairFs
    dsimp only
    rw [hformat.repair_eq]
    exact ⟨rfl, rfl, rfl⟩
  have hfields : (detectRepairFs boot disk).rootDirEntries = 0 ∧
      (detectRepairFs boot disk).partitionStart = 0 ∧
      (detectRepairFs boot disk).clusterSearchStart = 0 := by
    unfold detectRepairFs
    dsimp only
    rw [hformat.repair_eq]
    exact ⟨hformat.noFiles, hformat.atStart, rfl⟩
  refine ⟨⟨hformat.geometry, hformat.sector, hboot.1, hboot.2.1, hfields.1, hfields.2.1,
    hfields.2.2⟩, ⟨⟨rfl, ?_, List.nodup_singleton _, ?_, ?_⟩, ?_⟩, rfl, rfl, ?_, ?_, ?_⟩
  · intro c hc
    rw [List.mem_singleton.mp hc]
    exact hroot
  · intro p c next _ hnext
    simp at hnext
  · intro last hlast
    obtain rfl : boot.rootDirCluster = last := Option.some.inj hlast
    rw [hmark]
    decide
  · intro last hlast
    obtain rfl : boot.rootDirCluster = last := Option.some.inj hlast
    exact hmark
  · have hlimit : clusterLimit boot.bpb clusters ≤ clusters + 2 := min_le_left _ _
    have hsub : ((Finset.Ico 2 (clusterLimit boot.bpb clusters)).filter
        fun c => (detectRepairFs boot disk).fileTable c ≠ 0) ⊆ {boot.rootDirCluster} := by
      intro c hc
      obtain ⟨hmem, htaken⟩ := Finset.mem_filter.mp hc
      have hrange := Finset.mem_Ico.mp hmem
      rw [hformat.fileTable (by omega)] at htaken
      by_contra hne
      rw [Finset.mem_singleton] at hne
      rw [if_neg (by omega)] at htaken
      exact htaken rfl
    calc usedCount (clusterLimit boot.bpb clusters) (detectRepairFs boot disk).fileTable
        ≤ ({boot.rootDirCluster} : Finset ℕ).card := Finset.card_le_card hsub
      _ = neededClusters boot.bpb [] := rfl
  · intro i file hfile
    cases hfile
  · intro x _ hx
    have hat := hformat.geometry.fileAddress_eq
      (show [boot.rootDirCluster][0]? = some boot.rootDirCluster from rfl) hx
    rw [Nat.zero_mul, Nat.zero_add] at hat
    rw [content, hat, hboot.2.2]
    exact hformat.rootCluster x hx

end Formatted

/-! ## The driver -/

section Driver

variable {boot : BootRecord} {clusters : ℕ} {disk : ℕ → UInt8} {files : List NamedFile}
  {info : FatInfo} {rootChain chain : List ℕ} {chains : ℕ → List ℕ}

theorem readU32_wordBytes (table : ℕ → ℕ) (i : ℕ) :
    readU32 (wordBytes table) (4 * i) = table i % 2 ^ 32 := by
  have hbyte : ∀ k < 4, (wordBytes table (4 * i + k)).toNat = table i / 256 ^ k % 256 := by
    intro k hk
    rw [wordBytes, show (4 * i + k) / 4 = i by omega, show (4 * i + k) % 4 = k by omega]
    simp
  have h0 := hbyte 0 (by decide)
  have h1 := hbyte 1 (by decide)
  have h2 := hbyte 2 (by decide)
  have h3 := hbyte 3 (by decide)
  rw [Nat.add_zero] at h0
  simp only [readU32, h0, h1, h2, h3]
  omega

/-- The image after the table has been written back. -/
structure Written (boot : BootRecord) (clusters : ℕ) (info : FatInfo)
    (image : ℕ → UInt8) : Prop where
  entries : ∀ c < clusters + 2,
    readU32 image (boot.bpb.reservedSectors * 512 + 4 * c) = info.fileTable c % 2 ^ 32
  data : ∀ a, boot.bpb.dataOffset ≤ a → image a = info.disk a

theorem Formatted.written (hformat : Formatted boot clusters disk)
    (hbpb : info.bpb = boot.bpb) :
    Written boot clusters info (fatWriteBack info).disk := by
  have hsize := hformat.geometry.fatSize
  have hone : boot.bpb.sectorsPerFat ≤ boot.bpb.sectorsPerFat * boot.bpb.fatCount :=
    Nat.le_mul_of_pos_right _ hformat.geometry.fatCount
  have hdata : boot.bpb.dataOffset = boot.bpb.reservedSectors * 512 +
      512 * (boot.bpb.sectorsPerFat * boot.bpb.fatCount) := by
    rw [Bpb.dataOffset, hformat.sector]
    ring
  rw [hformat.sector] at hsize
  unfold fatWriteBack writeSector
  dsimp only
  rw [hbpb, hformat.sectorOffset_eq]
  constructor
  · intro c hc
    rw [readU32_store_inside (by omega), readU32_wordBytes]
  · intro a ha
    exact store_outside (by omega)

/-- The driver follows the chains of the tool. -/
theorem Written.isChain {base : Fat32.Volume} {head : ℕ}
    (hformat : Formatted boot clusters disk)
    (hwritten : Written boot clusters info base.device)
    (hmounted : Fat32.Mounted boot.bpb base.mount)
    (hended : Ended info.fileTable (clusters + 2) head chain) :
    IsChain (Fat32.diskEntry base) (clusters + 2) head chain := by
  have hcount := hformat.geometry.count_le
  apply hended.isChain.congr
  intro c hc
  have hrange := hended.isChain.range c hc
  have hvalue : info.fileTable c < 2 ^ 32 := by
    obtain ⟨p, hp⟩ := List.mem_iff_getElem?.mp hc
    rcases hended.fileEnd_iff hcount hp with ⟨hmark, -⟩ | ⟨-, hnext⟩
    · rw [hmark]
      decide
    · have hnextRange := hended.isChain.range _ (List.mem_of_getElem? hnext)
      unfold Fat32.fat32EocMin at hcount
      omega
  rw [Fat32.diskEntry, hmounted.entryOffset_eq hformat.geometry hrange.2, hformat.sector,
    hwritten.entries c hrange.2, Nat.mod_eq_of_lt hvalue]

theorem Written.content {device : ℕ → UInt8} (hwritten : Written boot clusters info device)
    (x : ℕ) : device (boot.bpb.fileAddress chain x) = content boot.bpb info chain x := by
  apply hwritten.data
  exact (boot.bpb.dataOffset_le_clusterStart _).trans (Nat.le_add_right _ _)

/-- What the driver finds on the image: entry `i` of the root directory is the
one of the file, and reading from its first cluster gives the bytes of the
file. -/
structure ReadsBack (root : Fat32.Root) (base : Fat32.Volume) (pages i : ℕ)
    (file : NamedFile) : Prop where
  found : ∃ read dirData,
    Fat32.fat32ReadDirent root base .zero pages = some (read, dirData) ∧
    Fat32.fat32SearchDir file.path dirData = some (some i) ∧
    (direntAt dirData i).size = file.bytes.length ∧
    ∀ (opened : Fat32.OpenFile) (buffer : ℕ → UInt8),
      opened.firstCluster = (direntAt dirData i).cluster →
      (Fat32.fat32Read read opened buffer 0 (direntAt dirData i).size).returned =
        some (Fat32.toInt file.bytes.length) ∧
      ∀ t < file.bytes.length,
        (Fat32.fat32Read read opened buffer 0 (direntAt dirData i).size).buffer t =
          file.bytes.getD t 0

theorem Laid.readsBack {root : Fat32.Root} {base : Fat32.Volume} {pages i : ℕ}
    {file : NamedFile} (hformat : Formatted boot clusters disk)
    (hlaid : Laid boot.bpb clusters boot.rootDirCluster files info rootChain chains)
    (hwritten : Written boot clusters info base.device)
    (hlisting : files.length * 32 ≤ boot.bpb.clusterSizeBytes)
    (hdistinct : (files.map NamedFile.path).Nodup)
    (hmounted : Fat32.Mounted boot.bpb base.mount) (hquiet : Fat32.Quiet base)
    (hroot : root.rootDirCluster = boot.rootDirCluster)
    (hpages : 3 * boot.bpb.clusterSizeBytes ≤ pages * 4096)
    (hfile : files[i]? = some file) : ReadsBack root base pages i file := by
  have hgeo := hformat.geometry
  have hcs := hgeo.clusterSize_ge
  have hcluster := hlaid.fixed.clusterSize_eq
  have hperCluster := hformat.perCluster
  have hi := (List.getElem?_eq_some_iff.mp hfile).1
  have hsettled := Fat32.Settled.refl hgeo hmounted hquiet
  have hrootChain := hwritten.isChain hformat hmounted hlaid.rootEnded
  have hlength : rootChain.length ≤ 3 := by
    have hdiv : files.length * 32 / boot.bpb.clusterSizeBytes ≤ 1 :=
      Nat.div_le_of_le_mul (by omega)
    rw [hlaid.rootLength, rootClusters]
    split
    · decide
    · omega
  have hmul : rootChain.length * boot.bpb.clusterSizeBytes ≤
      3 * boot.bpb.clusterSizeBytes := Nat.mul_le_mul_right _ hlength
  have hfirst : rootChain[0]? = some (root.dirCluster .zero) := by
    rw [hlaid.rootFirst, ← hroot]
    rfl
  have hnonempty := (List.getElem?_eq_some_iff.mp hlaid.rootFirst).1
  have hone : boot.bpb.clusterSizeBytes ≤ rootChain.length * boot.bpb.clusterSizeBytes :=
    Nat.le_mul_of_pos_left _ hnonempty
  obtain ⟨read, dirData, hread, hsettled', hbytes⟩ := Fat32.fat32ReadDirent_chain hsettled
    hrootChain hfirst (hmul.trans hpages)
  have hlisted : ∀ k other, files[k]? = some other →
      Listed dirData k other ((chains k).headD 0) := by
    intro k other hother
    have hk := (List.getElem?_eq_some_iff.mp hother).1
    apply (hlaid.holds k other hother).listed.congr
    intro j hj
    rw [hbytes _ (by omega), hwritten.content]
  have hholds := hlaid.holds i file hfile
  have hentry := hlisted i file hfile
  refine ⟨read, dirData, hread, ?_, hentry.size, ?_⟩
  · have hat : ∀ k < files.length, files[k]? = some (files.getD k file) := by
      intro k hk
      rw [List.getElem?_eq_getElem hk, List.getD_eq_getElem _ _ hk]
    have hself : files.getD i file = file := by
      rw [List.getD_eq_getElem?_getD, hfile, Option.getD_some]
    apply @Fat32.search_short _ _ _ (fun k => (files.getD k file).base)
      (fun k => (files.getD k file).ext) file.path_ne_zero
    · intro k hk
      exact (hlisted k _ (hat k (by omega))).short
    · intro k hk heq
      have hpath : (files.map NamedFile.path)[i]? = (files.map NamedFile.path)[k]? := by
        rw [List.getElem?_map, List.getElem?_map, hfile, hat k (by omega), Option.map_some,
          Option.map_some]
        exact congrArg some heq
      have hsame := (List.getElem?_inj (by rwa [List.length_map]) hdistinct).mp hpath
      omega
    · rw [hself]
      rfl
    · omega
  · intro opened buffer hopened
    rw [hentry.cluster] at hopened
    have hchain := hwritten.isChain hformat hmounted hholds.ended
    have hlengthFile := hholds.length
    have hstart : (chains i)[0]? = some opened.firstCluster := by
      cases hchainEq : chains i with
      | nil =>
          rw [hchainEq] at hlengthFile
          simp at hlengthFile
      | cons head rest =>
          rw [hopened, hchainEq]
          rfl
    have hroom : file.bytes.length ≤
        ((chains i).length - 1) * boot.bpb.clusterSizeBytes := by
      rw [hlengthFile, show file.bytes.length / boot.bpb.clusterSizeBytes + 2 - 1 =
        file.bytes.length / boot.bpb.clusterSizeBytes + 1 from rfl, Nat.succ_mul]
      have hdiv := Nat.lt_div_mul_add (show 0 < boot.bpb.clusterSizeBytes by omega)
        (a := file.bytes.length)
      omega
    rw [hentry.size]
    obtain ⟨hreturned, hcontents⟩ :=
      Fat32.fat32Read_settled buffer hsettled' hchain hstart hroom
    refine ⟨hreturned, ?_⟩
    intro t ht
    rw [hcontents t ht, hwritten.content]
    exact hholds.bytes t ht

end Driver

/-- On a freshly formatted image the driver reads what the tool has written, as
long as the files fit the free clusters and one cluster of the root
directory. -/
theorem diskwrite_readsBack (boot : BootRecord) (clusters : ℕ) (disk : ℕ → UInt8)
    (files : List NamedFile) (hformat : Formatted boot clusters disk)
    (hdistinct : (files.map NamedFile.path).Nodup)
    (hfits : neededClusters boot.bpb files ≤ clusterLimit boot.bpb clusters - 2)
    (hlisting : files.length * 32 ≤ boot.bpb.clusterSizeBytes) :
    ∃ image, diskwrite boot disk (files.map NamedFile.inputFile) = some image ∧
      ∀ (root : Fat32.Root) (base : Fat32.Volume) (pages : ℕ),
        base.device = image → Fat32.FreshCache base.mount →
        Fat32.Mounted boot.bpb base.mount → root.rootDirCluster = boot.rootDirCluster →
        3 * boot.bpb.clusterSizeBytes ≤ pages * 4096 →
        ∀ i file, files[i]? = some file → ReadsBack root base pages i file := by
  obtain ⟨info, rootChain, chains, hcreate, hlaid⟩ :=
    hformat.laid.createAll hformat.perCluster (by rwa [List.nil_append])
      (by rwa [List.nil_append])
  rw [List.nil_append] at hlaid
  refine ⟨(fatWriteBack info).disk, ?_, ?_⟩
  · rw [diskwrite, hcreate]
  · intro root base pages hdevice hfresh hmounted hroot hpages i file hfile
    have hwritten := hformat.written hlaid.fixed.bpb_eq
    rw [← hdevice] at hwritten
    have hquiet : Fat32.Quiet base := by
      refine ⟨hfresh.inv (le_refl _) hmounted.findsTable, ?_⟩
      rw [Fat32.writtenBack, hfresh.notAllocated, if_neg]
      rintro ⟨hallocated, -⟩
      cases hallocated
    exact hlaid.readsBack hformat hwritten hlisting hdistinct hmounted hquiet hroot hpages
      hfile

/-- An image of 61 clusters of one sector. -/
def smallBoot : BootRecord where
  bpb := ⟨512, 1, 1, 2, 64, 1⟩
  rootDirCluster := 2
  rootDirEntries := 0
  partitionStart := 0

def smallMount : Fat32.Mount where
  bpb := smallBoot.bpb
  blockSizeBytes := 512
  cacheDirty := false
  fatSearchStart := 0
  fatStartSector := 1
  dataStartSector := 3
  fatCacheStart := 0
  fatCacheSize := 0
  fatCacheAllocated := false
  fatCache := fun _ => 0

def emptyFile : NamedFile where
  base := [0x61]
  ext := [0x62, 0x63]
  bytes := []
  baseLength := by decide +kernel
  extLength := by decide +kernel
  baseChars := by decide +kernel
  extChars := by decide +kernel

/-- A file of two whole clusters. -/
def wholeFile : NamedFile where
  base := [0x61, 0x61]
  ext := [0x62]
  bytes := List.replicate 1024 7
  baseLength := by decide +kernel
  extLength := by decide +kernel
  baseChars := by decide +kernel
  extChars := by decide +kernel

theorem diskwrite_readsBack_whole :
    ∃ image, diskwrite smallBoot (fun _ => 0)
        ([emptyFile, wholeFile].map NamedFile.inputFile) = some image ∧
      ReadsBack ⟨2, fun _ => 0xff⟩ ⟨smallMount, image⟩ 1 1 wholeFile := by
  have hformat : Formatted smallBoot 61 (fun _ => 0) := by
    have hgeo : Geometry smallBoot.bpb 61 := by
      constructor
      case powerOfTwo => exact ⟨9, rfl⟩
      all_goals decide +kernel
    exact ⟨hgeo, rfl, by decide, by decide, by decide, rfl, rfl, fun _ _ _ => rfl,
      fun _ _ => rfl⟩
  obtain ⟨image, himage, hall⟩ := diskwrite_readsBack smallBoot 61 (fun _ => 0)
    [emptyFile, wholeFile] hformat (by decide +kernel) (by decide +kernel)
    (by decide +kernel)
  exact ⟨image, himage, hall ⟨2, fun _ => 0xff⟩ ⟨smallMount, image⟩ 1 rfl ⟨rfl, rfl⟩
    ⟨rfl, rfl, rfl, rfl⟩ rfl (by decide +kernel) 1 wholeFile rfl⟩

end KimisOS.Diskwrite
