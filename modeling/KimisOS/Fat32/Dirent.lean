import KimisOS.Fat32.Loop

/-!
# The directory entry

`dirent_writeback` walks along the directory to the cluster of the entry, reads
one page from there, sets the fields of the entry and writes the page back.
Only the bytes of the entry change, as long as the page covers it.
-/

namespace KimisOS.Fat32

open KimisOS.ByteStore

/-! ## The fields -/

section Fields

variable {page : ℕ → UInt8} {index : ℕ} {file : OpenFile}

theorem setDirent_outside {k : ℕ} (hk : k < 32 * index ∨ 32 * index + 32 ≤ k) :
    setDirent page index file k = page k := by
  rw [setDirent, store_outside (by omega), store_outside (by omega),
    store_outside (by omega), writeU32, store_outside (by omega)]

theorem readU32_setDirent_size (page : ℕ → UInt8) (index : ℕ) (file : OpenFile) :
    readU32 (setDirent page index file) (32 * index + 28) = file.sizeBytes % 2 ^ 32 := by
  rw [setDirent, readU32_store_outside (by omega), readU32_store_outside (by omega),
    readU32_store_outside (by omega), readU32_writeU32_self]

end Fields

/-! ## The place of the entry -/

/-- The entry of the open file is one of the entries of the directory `d`. -/
structure EntryIn {File : Type*} (bpb : Bpb) (chains : File → List ℕ) (d : File)
    (file : OpenFile) : Prop where
  start : (chains d)[0]? = some file.direntCluster
  inside : file.direntOffset / (bpb.clusterSizeBytes / 32) < (chains d).length

/-- Where the entry of the open file lies on the device. -/
def OpenFile.direntAddress (file : OpenFile) (bpb : Bpb) (directory : List ℕ) : ℕ :=
  bpb.clusterStart (directory.getD (file.direntOffset / (bpb.clusterSizeBytes / 32)) 0) +
    32 * (file.direntOffset % (bpb.clusterSizeBytes / 32))

theorem OpenFile.direntAddress_congr {file file' : OpenFile}
    (hoffset : file'.direntOffset = file.direntOffset) (bpb : Bpb) (directory : List ℕ) :
    file'.direntAddress bpb directory = file.direntAddress bpb directory := by
  rw [OpenFile.direntAddress, OpenFile.direntAddress, hoffset]

theorem OutOfReach.mono {bpb : Bpb} {clusters a a' : ℕ} (ha : OutOfReach bpb clusters a)
    (hle : a ≤ a') : OutOfReach bpb clusters a' := by
  rcases ha with hsmall | hbehind
  · exact .inl hsmall
  · exact .inr (hbehind.trans hle)

section Writeback

variable {File : Type*} [DecidableEq File] {heads : File → ℕ} {chains : File → List ℕ}
  {f : File} {bpb : Bpb} {clusters : ℕ} {table table' : ℕ → ℕ} {vol : Volume} {flat : Flat}
  {head : ℕ} {new : List ℕ} {count : ℕ}

/-- The clusters that a file or directory had are still linked. -/
theorem Grown.links (hgrown : Grown table table' count heads chains f head new) {x : File}
    {p cluster next : ℕ} (hp : (chains x)[p]? = some cluster)
    (hnext : (chains x)[p + 1]? = some next) : table' cluster = next := by
  by_cases hx : x = f
  · subst hx
    have hlt := (List.getElem?_eq_some_iff.mp hp).1
    have hlt' := (List.getElem?_eq_some_iff.mp hnext).1
    apply hgrown.isChain.links p
    · rw [List.getElem?_append_left hlt]
      exact hp
    · rw [List.getElem?_append_left hlt']
      exact hnext
  · exact (hgrown.other hx).1.links p cluster next hp hnext

theorem Grown.range (hgrown : Grown table table' count heads chains f head new) {x : File}
    {cluster : ℕ} (hmem : cluster ∈ chains x) : 2 ≤ cluster ∧ cluster < count := by
  by_cases hx : x = f
  · subst hx
    exact hgrown.isChain.range cluster (List.mem_append_left new hmem)
  · exact (hgrown.other hx).1.range cluster hmem

theorem direntClusterFrom_next {steps left : ℕ} {cluster : ℕ}
    (hlt : cluster < fat32Eoc) :
    direntClusterFrom steps (left + 1) vol cluster =
      direntClusterFrom steps left (fat32GetNextCluster vol cluster).1
        (fat32GetNextCluster vol cluster).2 := by
  rw [direntClusterFrom, if_neg (fun h => absurd h.1 (Nat.not_le.mpr hlt))]

/-- A walk along a directory that goes on in its chain comes to the cluster of the entry. -/
theorem direntClusterFrom_along {P : ℕ → Volume → Prop} {directory : List ℕ}
    {steps left p cluster target : ℕ} {vol' : Volume} {result : Option ℕ}
    (hstep : ∀ {p cluster next vol}, P p vol → directory[p]? = some cluster →
      directory[p + 1]? = some next → cluster < fat32Eoc ∧
        P (p + 1) (fat32GetNextCluster vol cluster).1 ∧
        (fat32GetNextCluster vol cluster).2 = next)
    (hvol : P p vol) (hp : directory[p]? = some cluster)
    (htarget : directory[p + left]? = some target)
    (hwalk : direntClusterFrom steps left vol cluster = (vol', result)) :
    P (p + left) vol' ∧ result = some target := by
  induction left generalizing vol p cluster with
  | zero =>
      rw [direntClusterFrom] at hwalk
      obtain ⟨rfl, rfl⟩ := Prod.mk.inj hwalk
      rw [Nat.add_zero, hp] at htarget
      exact ⟨hvol, htarget⟩
  | succ left ih =>
      have hp' : p + 1 < directory.length := by
        have := (List.getElem?_eq_some_iff.mp htarget).1
        omega
      have hnext := List.getElem?_eq_getElem hp'
      obtain ⟨hlt, hget, hvalue⟩ := hstep hvol hp hnext
      rw [direntClusterFrom_next hlt, hvalue] at hwalk
      rw [show p + (left + 1) = p + 1 + left by omega] at htarget ⊢
      exact ih hget hnext htarget hwalk

/-- The walk along the directory stays in its chain. -/
theorem direntClusterFrom_spec {d : File} {steps left p cluster target : ℕ}
    {vol' : Volume} {result : Option ℕ}
    (hholds : Holds bpb clusters table heads chains f vol flat head new)
    (hp : (chains d)[p]? = some cluster) (htarget : (chains d)[p + left]? = some target)
    (hwalk : direntClusterFrom steps left vol cluster = (vol', result)) :
    Holds bpb clusters table heads chains f vol' flat head new ∧ result = some target := by
  have hcount := hholds.count_le
  have hle : fat32EocMin ≤ fat32Eoc := by decide
  refine direntClusterFrom_along
    (P := fun _ vol => Holds bpb clusters table heads chains f vol flat head new) ?_ hholds hp
      htarget hwalk
  intro p cluster next vol hholds hp hnext
  have hrange := hholds.grown.range (List.mem_of_getElem? hp)
  obtain ⟨hshows, hvalue⟩ := hholds.shows.get hrange.2
  exact ⟨by omega, ⟨hshows, hholds.grown⟩, hvalue.trans (hholds.grown.links hp hnext)⟩

theorem direntWriteback_eq {file : OpenFile} {vol' : Volume} {cluster : ℕ}
    (hwalk : direntClusterFrom (file.direntOffset / (vol.mount.bpb.clusterSizeBytes / 32))
      (file.direntOffset / (vol.mount.bpb.clusterSizeBytes / 32)) vol
      file.direntCluster = (vol', some cluster)) :
    direntWriteback vol file =
      fwrite vol' (setDirent (load vol'.device (vol'.mount.clusterOffset cluster % 2 ^ 32))
        (file.direntOffset % (vol.mount.bpb.clusterSizeBytes / 32)) file)
        (vol'.mount.clusterOffset cluster % 2 ^ 32) 4096 := by
  rw [direntWriteback, hwalk]

/-- The entry is written back, and nothing else changes. -/
theorem direntWriteback_spec {file : OpenFile} {d : File}
    (hholds : Holds bpb clusters table heads chains f vol flat head new)
    (hentry : EntryIn bpb chains d file) :
    ∃ flat', Holds bpb clusters table heads chains f (direntWriteback vol file) flat' head
        new ∧
      (OutOfReach bpb clusters bpb.dataOffset →
        (∀ a, a < file.direntAddress bpb (chains d) ∨
            file.direntAddress bpb (chains d) + 32 ≤ a → flat'.data a = flat.data a) ∧
          (file.direntOffset % (bpb.clusterSizeBytes / 32) < 128 →
            readU32 flat'.data (file.direntAddress bpb (chains d) + 28) =
              file.sizeBytes % 2 ^ 32)) := by
  have hbpb := hholds.shows.mounted.bpb_eq
  obtain ⟨target, htarget⟩ : ∃ target,
      (chains d)[file.direntOffset / (bpb.clusterSizeBytes / 32)]? = some target :=
    ⟨_, List.getElem?_eq_getElem hentry.inside⟩
  obtain ⟨vol', result, hwalk⟩ : ∃ vol' result,
      direntClusterFrom (file.direntOffset / (bpb.clusterSizeBytes / 32))
        (file.direntOffset / (bpb.clusterSizeBytes / 32)) vol file.direntCluster =
          (vol', result) := ⟨_, _, rfl⟩
  have htarget' := htarget
  rw [← Nat.zero_add (file.direntOffset / _)] at htarget'
  obtain ⟨hwalked, rfl⟩ := direntClusterFrom_spec hholds hentry.start htarget' hwalk
  have hrange := hwalked.grown.range (List.mem_of_getElem? htarget)
  have hplace := hwalked.shows.clusterOffset_eq hrange
  have hlt : bpb.clusterStart target < 2 ^ 32 := by
    have hbelow := hwalked.shows.geometry.below
    have hcs := hwalked.shows.geometry.clusterSize_ge
    have hlast : (target - 2 + 1) * bpb.clusterSizeBytes ≤ clusters * bpb.clusterSizeBytes :=
      Nat.mul_le_mul_right _ (by omega)
    rw [Nat.succ_mul] at hlast
    rw [Bpb.clusterStart]
    omega
  have haddress : vol'.mount.clusterOffset target % 2 ^ 32 = bpb.clusterStart target := by
    rw [hplace]
    exact Nat.mod_eq_of_lt hlt
  have heq := hwalk
  rw [← hbpb] at heq
  rw [direntWriteback_eq heq, haddress, hbpb]
  refine ⟨_, hwalked.write _ 4096 (bpb.dataOffset_le_clusterStart target), ?_⟩
  intro hreach
  have hdirent : file.direntAddress bpb (chains d) = bpb.clusterStart target +
      32 * (file.direntOffset % (bpb.clusterSizeBytes / 32)) := by
    rw [OpenFile.direntAddress, List.getD_eq_getElem?_getD, htarget, Option.getD_some]
  rw [hdirent]
  have hpage : ∀ k, load vol'.device (bpb.clusterStart target) k =
      flat.data (bpb.clusterStart target + k) := by
    intro k
    have hle := bpb.dataOffset_le_clusterStart target
    exact hwalked.shows.bytes _ (by omega) (hreach.mono (by omega))
  constructor
  · intro a ha
    by_cases hin : bpb.clusterStart target ≤ a ∧ a < bpb.clusterStart target + 4096
    · obtain ⟨k, rfl⟩ := Nat.exists_eq_add_of_le hin.1
      change store flat.data _ _ _ _ = _
      rw [store_inside (by omega), setDirent_outside (by omega), hpage]
    · exact store_outside (by omega)
  · intro hindex
    change readU32 (store flat.data _ _ _) _ = _
    rw [Nat.add_assoc, readU32_store_inside (by omega), readU32_setDirent_size]

end Writeback

end KimisOS.Fat32
