import KimisOS.Fat32.QuietRead
import KimisOS.Fat32.WriteRead

/-!
# The first cluster in a directory entry

A write that stores all its bytes writes the first cluster of its open file to
the directory entry, next to the size.
-/

namespace KimisOS.Fat32

open KimisOS.ByteStore

/-- The first cluster that the entry at an address names. -/
def entryHead (mem : ℕ → UInt8) (address : ℕ) : ℕ :=
  readU16 mem (address + 20) * 65536 + readU16 mem (address + 26)

theorem entryHead_congr {mem mem' : ℕ → UInt8} {a a' : ℕ}
    (hsame : ∀ k < 32, mem (a + k) = mem' (a' + k)) :
    entryHead mem a = entryHead mem' a' := by
  have hhigh : readU16 mem (a + 20) = readU16 mem' (a' + 20) := by
    apply readU16_congr
    intro k hk
    rw [Nat.add_assoc, Nat.add_assoc]
    exact hsame _ (by omega)
  have hlow : readU16 mem (a + 26) = readU16 mem' (a' + 26) := by
    apply readU16_congr
    intro k hk
    rw [Nat.add_assoc, Nat.add_assoc]
    exact hsame _ (by omega)
  rw [entryHead, entryHead, hhigh, hlow]

/-- The entry gets the first cluster of the open file. -/
theorem entryHead_setDirent (page : ℕ → UInt8) (index : ℕ) (file : OpenFile) :
    entryHead (setDirent page index file) (32 * index) = file.firstCluster % 2 ^ 32 := by
  rw [entryHead, setDirent, readU16_store_outside (by omega),
    readU16_store_outside (by omega), readU16_store, readU16_store_outside (by omega),
    readU16_store]
  omega

/-- Writing data takes no cluster. -/
theorem Flat.freeCount_write (flat : Flat) (bytes : ℕ → UInt8) (offset count clusters : ℕ) :
    (flat.write bytes offset count).freeCount clusters = flat.freeCount clusters := by
  rw [Flat.freeCount, Flat.freeCount, Flat.write]

section Writeback

variable {File : Type*} [DecidableEq File] {heads : File → ℕ} {chains : File → List ℕ}
  {f d : File} {bpb : Bpb} {clusters : ℕ} {table : ℕ → ℕ} {vol : Volume} {flat : Flat}
  {head : ℕ} {new : List ℕ} {file : OpenFile} {buffer : ℕ → UInt8}
  {offset count remaining p current : ℕ} {malloc : ℕ → Bool}

theorem direntWriteback_head
    (hholds : Holds bpb clusters table heads chains f vol flat head new)
    (hentry : EntryIn bpb chains d file)
    (hindex : file.direntOffset % (bpb.clusterSizeBytes / 32) < 128) :
    entryHead (direntWriteback vol file).device (file.direntAddress bpb (chains d)) =
      file.firstCluster % 2 ^ 32 := by
  have hbpb := hholds.shows.mounted.bpb_eq
  obtain ⟨target, htarget⟩ : ∃ target,
      (chains d)[file.direntOffset / (bpb.clusterSizeBytes / 32)]? = some target :=
    ⟨_, List.getElem?_eq_getElem hentry.inside⟩
  obtain ⟨vol', result, hwalk⟩ : ∃ vol' result,
      direntClusterFrom (file.direntOffset / (bpb.clusterSizeBytes / 32))
        (file.direntOffset / (bpb.clusterSizeBytes / 32)) vol file.direntCluster =
          (vol', result) := ⟨_, _, rfl⟩
  have htarget' := htarget
  rw [← Nat.zero_add (file.direntOffset / _)] at htarget'
  obtain ⟨hwalked, rfl⟩ := direntClusterFrom_spec hholds hentry.start htarget' hwalk
  have hgeo := hwalked.shows.geometry
  have hrange := hwalked.grown.range (List.mem_of_getElem? htarget)
  have haddress : vol'.mount.clusterOffset target % 2 ^ 32 = bpb.clusterStart target := by
    have hend := (hgeo.clusterSector hrange).2.2
    have hcs := hgeo.clusterSize_ge
    rw [hwalked.shows.clusterOffset_eq hrange]
    exact Nat.mod_eq_of_lt (show bpb.clusterStart target < 2 ^ 32 by omega)
  have hdirent : file.direntAddress bpb (chains d) = bpb.clusterStart target +
      32 * (file.direntOffset % (bpb.clusterSizeBytes / 32)) := by
    rw [OpenFile.direntAddress, List.getD_eq_getElem?_getD, htarget, Option.getD_some]
  rw [← hbpb] at hwalk
  rw [direntWriteback_eq hwalk, haddress, hbpb, hdirent,
    ← entryHead_setDirent (load vol'.device (bpb.clusterStart target))
      (file.direntOffset % (bpb.clusterSizeBytes / 32)) file]
  apply entryHead_congr
  intro k hk
  rw [Nat.add_assoc]
  exact store_inside (by omega)

/-- With clusters for all bytes the loop ends with the entry. -/
theorem writeRest_head
    (hholds : Holds bpb clusters table heads chains f vol flat file.firstCluster new)
    (hentry : EntryIn bpb chains d file)
    (hindex : file.direntOffset % (bpb.clusterSizeBytes / 32) < 128)
    (hp : remaining ≠ 0 → (chains f ++ new)[p]? = some current)
    (hreached : p ≤ (chains f ++ new).length)
    (hfree : p + bpb.clustersFor remaining ≤
      flat.freeCount clusters + (chains f ++ new).length) :
    entryHead (writeRest vol file buffer offset count current remaining).vol.device
      (file.direntAddress bpb (chains d)) = file.firstCluster % 2 ^ 32 := by
  obtain ⟨vol', result, hloop⟩ : ∃ vol' result,
      writeClusters buffer remaining vol current remaining 0 = (vol', result) :=
    ⟨_, _, rfl⟩
  obtain ⟨flat₁, added, hholds', hstored⟩ :=
    writeClusters_spec hholds hp hreached (Nat.zero_le p) (le_refl _) hloop
  cases result with
  | some short =>
      obtain ⟨hzero, hlength, -⟩ := hstored.short short rfl
      have hsum := hstored.free
      omega
  | none =>
      have hindex' : (file.extended offset count).direntOffset %
          (bpb.clusterSizeBytes / 32) < 128 := by
        rw [file.extended_direntOffset]
        exact hindex
      have haddress : (file.extended offset count).direntAddress bpb (chains d) =
          file.direntAddress bpb (chains d) := by
        exact OpenFile.direntAddress_congr (file.extended_direntOffset _ _) _ _
      rw [writeRest_whole hloop, ← haddress, ← file.extended_firstCluster offset count]
      dsimp only
      exact direntWriteback_head hholds' (hentry.extended offset count) hindex'

/-- The write reaches the directory entry: it starts with a cluster, or goes on in
another cluster of the chain. -/
def WritesBack (bpb : Bpb) (clusterCount offset count : ℕ) : Prop :=
  offset % bpb.clusterSizeBytes = 0 ∨
    (bpb.clusterSizeBytes - offset % bpb.clusterSizeBytes ≤ count ∧
      offset / bpb.clusterSizeBytes + 1 < clusterCount)

theorem writeFrom_head
    (hholds : Holds bpb clusters table heads chains f vol flat file.firstCluster new)
    (hentry : EntryIn bpb chains d file)
    (hindex : file.direntOffset % (bpb.clusterSizeBytes / 32) < 128)
    (hp : (chains f ++ new)[offset / bpb.clusterSizeBytes]? = some current)
    (hback : WritesBack bpb (chains f ++ new).length offset count)
    (hfree : bpb.clustersFor (offset + count) ≤
      flat.freeCount clusters + (chains f ++ new).length) :
    entryHead (writeFrom vol file buffer offset count current).vol.device
      (file.direntAddress bpb (chains d)) = file.firstCluster % 2 ^ 32 := by
  have hgeo := hholds.shows.geometry
  have hcs := hgeo.clusterSize_ge
  have hsize : vol.mount.bpb.clusterSizeBytes = bpb.clusterSizeBytes := by
    rw [hholds.shows.mounted.bpb_eq]
  have hand := hgeo.and_eq_mod offset
  have hplace := (List.getElem?_eq_some_iff.mp hp).1
  by_cases ho : offset % bpb.clusterSizeBytes = 0
  · have hstart : offset / bpb.clusterSizeBytes * bpb.clusterSizeBytes = offset :=
      Nat.div_mul_cancel (Nat.dvd_of_mod_eq_zero ho)
    rw [← hstart, hgeo.clustersFor_add] at hfree
    rw [writeFrom_aligned hsize (hand.trans ho)]
    exact writeRest_head hholds hentry hindex (fun _ => hp) (by omega) hfree
  · obtain haligned | ⟨hcount, hmore⟩ := hback
    · exact absurd haligned ho
    · have hlt := Nat.mod_lt offset (show 0 < bpb.clusterSizeBytes by omega)
      have hsplit : offset / bpb.clusterSizeBytes * bpb.clusterSizeBytes +
          offset % bpb.clusterSizeBytes = offset := Nat.div_add_mod' offset _
      have hstart : (offset / bpb.clusterSizeBytes + 1) * bpb.clusterSizeBytes =
          offset + (bpb.clusterSizeBytes - offset % bpb.clusterSizeBytes) := by
        rw [Nat.succ_mul]
        omega
      have hneed : bpb.clustersFor (offset + count) = offset / bpb.clusterSizeBytes + 1 +
          bpb.clustersFor
            (count - (bpb.clusterSizeBytes - offset % bpb.clusterSizeBytes)) := by
        rw [← hgeo.clustersFor_add, hstart]
        congr 1
        omega
      obtain ⟨written, hwritten⟩ : ∃ written, fwrite vol buffer
          (vol.mount.clusterOffset current + offset % bpb.clusterSizeBytes)
          (min count (bpb.clusterSizeBytes - offset % bpb.clusterSizeBytes)) = written :=
        ⟨_, rfl⟩
      have hle := bpb.dataOffset_le_clusterStart current
      have hwrite := hholds.write buffer
        (min count (bpb.clusterSizeBytes - offset % bpb.clusterSizeBytes))
        (show bpb.dataOffset ≤ bpb.clusterStart current + offset % bpb.clusterSizeBytes by
          omega)
      rw [← hholds.clusterOffset_eq hp, hwritten] at hwrite
      have hcount' := flat.freeCount_write buffer
        (vol.mount.clusterOffset current + offset % bpb.clusterSizeBytes)
        (min count (bpb.clusterSizeBytes - offset % bpb.clusterSizeBytes)) clusters
      rw [hneed, ← hcount'] at hfree
      generalize flat.write buffer (vol.mount.clusterOffset current +
        offset % bpb.clusterSizeBytes) (min count (bpb.clusterSizeBytes -
          offset % bpb.clusterSizeBytes)) = flat₁ at hwrite hfree
      obtain ⟨hread, ⟨hnext, hp'⟩ | ⟨-, hlast⟩⟩ := hwrite.next hp
      · rw [writeFrom_rest hsize hand ho hwritten (by omega) (Nat.not_le.mpr hnext)]
        have hplace' := (List.getElem?_eq_some_iff.mp hp').1
        generalize fat32GetNextCluster written current = get at hread hp'
        exact writeRest_head hread hentry hindex (fun _ => hp') (Nat.le_of_lt hplace') hfree
      · omega

/-- A write to a file with clusters, and with clusters enough. -/
theorem fat32Write_head (hshows : Shows bpb clusters vol flat)
    (hwell : WellFormed flat.table (clusters + 2) heads chains)
    (hfirst : file.firstCluster = heads f) (hne : file.firstCluster ≠ 0)
    (hentry : EntryIn bpb chains d file)
    (hindex : file.direntOffset % (bpb.clusterSizeBytes / 32) < 128)
    (hmemory : ∀ i, malloc i = true)
    (hquotient : udiv64 offset bpb.clusterSizeBytes = some (offset / bpb.clusterSizeBytes))
    (hclusters : ∃ clustersToWrite, udiv64 ((count + bpb.clusterSizeBytes - 1) % 2 ^ 64)
      bpb.clusterSizeBytes = some clustersToWrite)
    (hplace : offset / bpb.clusterSizeBytes < flat.freeCount clusters + (chains f).length)
    (hback : WritesBack bpb (chains f).length offset count)
    (hfree : bpb.clustersFor (offset + count) ≤
      flat.freeCount clusters + (chains f).length) :
    entryHead (fat32Write malloc vol file buffer offset count).vol.device
      (file.direntAddress bpb (chains d)) = file.firstCluster % 2 ^ 32 := by
  obtain ⟨clustersToWrite, hclusters⟩ := hclusters
  have hsize : vol.mount.bpb.clusterSizeBytes = bpb.clusterSizeBytes := by
    rw [hshows.mounted.bpb_eq]
  have hfirstFor : firstClusterFor vol file = (vol, file) := by
    rw [firstClusterFor, if_neg hne]
  have hholds : Holds bpb clusters flat.table heads chains f vol flat file.firstCluster
      [] := by
    rw [hfirst]
    exact ⟨hshows, .refl hwell⟩
  have hchain := hwell.chain f
  have hstart : (chains f ++ [])[0]? = some file.firstCluster := by
    rw [List.append_nil, hfirst]
    exact hchain.first (hfirst ▸ hne)
  obtain ⟨vol₂, result, hwalk⟩ : ∃ vol₂ result,
      walkToOffset malloc (offset / bpb.clusterSizeBytes) vol file.firstCluster =
        (vol₂, result) := ⟨_, _, rfl⟩
  obtain ⟨flat₂, gap, hholds₂, hfree₂, -, hsome, hnone⟩ :=
    walkToOffset_spec hholds hstart hwalk
  rw [List.nil_append, Nat.zero_add] at hsome hnone
  rw [List.nil_append] at hholds₂
  rw [List.append_nil] at hsome
  cases result with
  | none =>
      obtain ⟨hzero, hshort⟩ := hnone rfl hmemory
      rw [List.length_append] at hshort
      omega
  | some current =>
      obtain ⟨hcurrent, hlength⟩ := hsome current rfl
      rw [fat32Write_from hfirstFor hne hsize hquotient hclusters hwalk]
      apply writeFrom_head hholds₂ hentry hindex hcurrent
      · refine hback.imp id ?_
        intro hcross
        refine ⟨hcross.1, ?_⟩
        rw [hlength]
        exact lt_max_of_lt_left hcross.2
      · rw [List.length_append]
        omega

end Writeback

end KimisOS.Fat32
