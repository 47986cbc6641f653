import KimisOS.Fat32.Integrity
import KimisOS.Fat32.Read

/-!
# Writing and reading back

What was written is read back, the other bytes of the file stay, and the size
follows in the open file and in its directory entry.  This is so for writes
that start with a cluster, for writes that cross into a cluster the file already
has, and for writes inside the first cluster and the old size.  The other
writes return before the size is set.
-/

namespace KimisOS.Fat32

open KimisOS.ByteStore

/-! ## The law and its condition -/

/-- An open file `f` of a mounted volume, with its entry in the directory
`d`. -/
structure OpenIn {File : Type*} (bpb : Bpb) (clusters : ℕ) (vol : Volume)
    (heads : File → ℕ) (chains : File → List ℕ) (f d : File) (file : OpenFile) : Prop where
  consistent : Consistent bpb clusters vol
  wellFormed : WellFormed (fatEntry vol) (clusters + 2) heads chains
  first : file.firstCluster = heads f
  entry : EntryIn bpb chains d file
  apart : d ≠ f
  size : file.sizeBytes ≤ (chains f).length * bpb.clusterSizeBytes
  entrySize : readU32 vol.device (file.direntAddress bpb (chains d) + 28) = file.sizeBytes

/-- The write-then-read law for one call of `fat32_write`. -/
structure WriteReadLaw (bpb : Bpb) (chain directory : List ℕ) (vol : Volume)
    (file : OpenFile) (buffer : ℕ → UInt8) (offset count : ℕ) (out : Outcome) : Prop where
  returned : out.returned = some (count : ℤ)
  readBack : ∀ initial, ∀ t < count,
    (fat32Read out.vol out.file initial offset count).buffer t = buffer t
  others : ∀ x < file.sizeBytes, x < offset ∨ offset + count ≤ x →
    out.vol.device (bpb.fileAddress chain x) = vol.device (bpb.fileAddress chain x)
  size : out.file.sizeBytes = max file.sizeBytes (offset + count)
  entrySize : readU32 out.vol.device (file.direntAddress bpb directory + 28) =
    max file.sizeBytes (offset + count)

/-- Nothing but the bytes of the file and its entry is in the way of a write:
the windows of the table end before the data area, a cleared page is no larger
than a cluster, the entry is in the first page of its cluster, and there is
memory for the page. -/
structure Undisturbed (bpb : Bpb) (clusters : ℕ) (chain : List ℕ) (file : OpenFile)
    (offset : ℕ) (malloc : ℕ → Bool) : Prop where
  reach : OutOfReach bpb clusters bpb.dataOffset
  page : 4096 ≤ bpb.clusterSizeBytes ∨ offset / bpb.clusterSizeBytes < max chain.length 1
  entry : file.direntOffset % (bpb.clusterSizeBytes / 32) < 128
  memory : ∀ i, malloc i = true

/-- The number of bytes is an `int`, there are enough free clusters from the
search hint on, and the write starts with a cluster, or crosses into another
cluster of the file, or stays inside the first cluster and the old size. -/
def Lawful (bpb : Bpb) (clusters : ℕ) (chain : List ℕ) (vol : Volume) (file : OpenFile)
    (offset count : ℕ) : Prop :=
  count < 2147483648 ∧
    bpb.clustersFor (offset + count) ≤ vol.flat.freeCount clusters + chain.length ∧
    (offset % bpb.clusterSizeBytes = 0 ∨
      (offset / bpb.clusterSizeBytes + 1 < chain.length ∧
        bpb.clusterSizeBytes - offset % bpb.clusterSizeBytes ≤ count) ∨
      (count ≤ bpb.clusterSizeBytes - offset % bpb.clusterSizeBytes ∧
        offset + count ≤ file.sizeBytes))

/-! ## The returned number -/

theorem toInt_lt (n : ℕ) : toInt n < 2147483648 := by
  have hlt := Int.bmod_lt (x := (n : ℤ)) (m := 4294967296) (by norm_num)
  norm_num at hlt
  exact hlt

theorem toInt_eq_iff {n : ℕ} : toInt n = n ↔ n < 2147483648 := by
  constructor
  · intro heq
    have hlt := toInt_lt n
    rw [heq] at hlt
    omega
  · intro hsmall
    have hle : -((4294967296 : ℕ) / 2 : ℤ) ≤ (n : ℤ) := by norm_num
    have hlt : (n : ℤ) < ((4294967296 : ℕ) + 1) / 2 := by
      norm_num
      omega
    exact Int.bmod_eq_of_le hle hlt

/-- A smaller number is not returned as the count. -/
theorem toInt_ne_of_lt {n count : ℕ} (hlt : n < count) : toInt n ≠ count := by
  intro heq
  have hcount := toInt_lt n
  rw [heq] at hcount
  have hself : toInt n = n := toInt_eq_iff.mpr (by omega)
  rw [hself] at heq
  omega

/-! ## Bytes that stay -/

section Kept

variable {bpb : Bpb} {clusters : ℕ} {chain new : List ℕ} {flat flat' : Flat}
  {buffer : ℕ → UInt8} {offset count : ℕ}

/-- The walk clears no byte of another cluster. -/
theorem Reached.kept (hreached : Reached bpb clusters chain new flat flat' offset)
    (hgeo : Geometry bpb clusters)
    (hpage : 4096 ≤ bpb.clusterSizeBytes ∨
      offset / bpb.clusterSizeBytes < max chain.length 1)
    {cluster r : ℕ} (hcluster : 2 ≤ cluster) (hnew : ∀ c ∈ new, 2 ≤ c ∧ c ≠ cluster)
    (hr : r < bpb.clusterSizeBytes) :
    flat'.data (bpb.clusterStart cluster + r) = flat.data (bpb.clusterStart cluster + r) := by
  rcases hpage with hpage | hnoGap
  · apply hreached.data
    intro c hc
    obtain ⟨hlow, hne⟩ := hnew c hc
    by_contra hinside
    have heq : bpb.clusterStart c + (bpb.clusterStart cluster + r - bpb.clusterStart c) =
        bpb.clusterStart cluster + r := by omega
    exact hne (hgeo.clusterStart_inj hlow hcluster (by omega) hr heq).1
  · rw [hreached.noGap hnoGap]

/-- A write changes no byte of a cluster of another file. -/
theorem Written.kept (hwritten : Written bpb chain flat flat' buffer offset count)
    (hgeo : Geometry bpb clusters)
    (hroom : offset + count ≤ chain.length * bpb.clusterSizeBytes)
    {cluster r : ℕ} (hcluster : 2 ≤ cluster) (hrange : ∀ c ∈ chain, 2 ≤ c)
    (hout : cluster ∉ chain) (hr : r < bpb.clusterSizeBytes) :
    flat'.data (bpb.clusterStart cluster + r) = flat.data (bpb.clusterStart cluster + r) := by
  have hcs := hgeo.clusterSize_ge
  apply hwritten.frame
  intro t ht heq
  have hlt : (offset + t) / bpb.clusterSizeBytes < chain.length := hgeo.div_lt (by omega)
  have hmem := List.getElem_mem hlt
  rw [Bpb.fileAddress, List.getD_eq_getElem _ _ hlt] at heq
  have hsame := hgeo.clusterStart_inj hcluster (hrange _ hmem) hr
    (Nat.mod_lt _ (by omega)) heq
  exact hout (hsame.1 ▸ hmem)

/-- The entry is inside one cluster of its directory. -/
theorem EntryIn.address {File : Type*} {chains : File → List ℕ} {d : File}
    {file : OpenFile} (hentry : EntryIn bpb chains d file) (hgeo : Geometry bpb clusters) :
    ∃ target ∈ chains d, ∃ o, o + 32 ≤ bpb.clusterSizeBytes ∧
      file.direntAddress bpb (chains d) = bpb.clusterStart target + o := by
  have hcs := hgeo.clusterSize_ge
  have hlt := Nat.mod_lt file.direntOffset
    (show 0 < bpb.clusterSizeBytes / 32 by omega)
  refine ⟨_, List.getElem_mem hentry.inside,
    32 * (file.direntOffset % (bpb.clusterSizeBytes / 32)), ?_, ?_⟩
  · have hdiv := Nat.div_mul_le_self bpb.clusterSizeBytes 32
    omega
  · rw [OpenFile.direntAddress, List.getD_eq_getElem _ _ hentry.inside]

theorem Geometry.lt_clustersFor (hgeo : Geometry bpb clusters) (offset : ℕ)
    (hcount : 1 ≤ count) :
    offset / bpb.clusterSizeBytes < bpb.clustersFor (offset + count) := by
  have hle := hgeo.le_clustersFor (offset + count)
  exact hgeo.div_lt (by omega)

theorem Geometry.clustersFor_le (hgeo : Geometry bpb clusters) {bytes n : ℕ}
    (hle : bytes ≤ n * bpb.clusterSizeBytes) : bpb.clustersFor bytes ≤ n := by
  have hcs := hgeo.clusterSize_ge
  rw [Bpb.clustersFor, ← Nat.lt_succ_iff, Nat.div_lt_iff_lt_mul (by omega), Nat.succ_mul]
  omega

theorem Flat.freeCount_le (flat : Flat) (clusters : ℕ) :
    flat.freeCount clusters ≤ clusters := by
  calc flat.freeCount clusters ≤ (Finset.Ico flat.search clusters).card :=
        Finset.card_filter_le _ _
    _ = clusters - flat.search := Nat.card_Ico _ _
    _ ≤ clusters := Nat.sub_le _ _

/-- A lawful write does not trap in the divisions. -/
theorem OpenIn.no_trap {File : Type*} {heads : File → ℕ} {chains : File → List ℕ}
    {f d : File} {vol : Volume} {file : OpenFile}
    (hopen : OpenIn bpb clusters vol heads chains f d file)
    (hcount : 1 ≤ count) (hlawful : Lawful bpb clusters (chains f) vol file offset count) :
    offset / bpb.clusterSizeBytes < 2 ^ 32 ∧
      (count + bpb.clusterSizeBytes - 1) % 2 ^ 64 / bpb.clusterSizeBytes < 2 ^ 32 := by
  have hgeo := hopen.consistent.geometry
  have hcs := hgeo.clusterSize_ge
  have hclusters := hgeo.clusters_lt
  have hfree := vol.flat.freeCount_le clusters
  have hbelow := hgeo.below
  obtain ⟨hint, hneed, -⟩ := hlawful
  have hlength : (chains f).length ≤ 2 ^ 23 := by
    have hbound := hgeo.chain_le (hopen.wellFormed.chain f)
    have hmul : (chains f).length * 512 ≤ (chains f).length * bpb.clusterSizeBytes :=
      Nat.mul_le_mul_left _ hcs
    omega
  have hsize : bpb.clusterSizeBytes ≤ clusters * bpb.clusterSizeBytes := by
    have hrange := (hopen.wellFormed.chain d).range _ (List.mem_of_getElem? hopen.entry.start)
    exact Nat.le_mul_of_pos_left _ (by omega)
  constructor
  · have hlt := hgeo.lt_clustersFor offset hcount
    omega
  · apply Nat.div_lt_of_lt_mul
    have hmul : 512 * 2 ^ 32 ≤ bpb.clusterSizeBytes * 2 ^ 32 := Nat.mul_le_mul_right _ hcs
    omega

end Kept

/-! ## The law -/

section Law

variable {File : Type*} [DecidableEq File] {heads : File → ℕ} {chains : File → List ℕ}
  {f d : File} {bpb : Bpb} {clusters : ℕ} {vol : Volume} {file : OpenFile}
  {malloc : ℕ → Bool} {buffer : ℕ → UInt8} {offset count : ℕ} {out : Outcome}
  {flat₁ flat₂ flat' : Flat} {first added : List ℕ}

/-- The state at the end of a write that has stored its bytes. -/
structure Finished (bpb : Bpb) (clusters : ℕ) (heads : File → ℕ) (chains : File → List ℕ)
    (f d : File) (vol : Volume) (file : OpenFile) (buffer : ℕ → UInt8) (offset count : ℕ)
    (out : Outcome) (first added : List ℕ) (flat₁ flat₂ flat' : Flat) : Prop where
  holds : Holds bpb clusters (fatEntry vol) heads chains f out.vol flat'
    out.file.firstCluster (first ++ added)
  reached : Reached bpb clusters (chains f) first vol.flat flat₁ offset
  written : Written bpb (chains f ++ (first ++ added)) flat₁ flat₂ buffer offset count
  room : offset + count ≤ (chains f ++ (first ++ added)).length * bpb.clusterSizeBytes
  entryOnly : ∀ a, a < file.direntAddress bpb (chains d) ∨
    file.direntAddress bpb (chains d) + 32 ≤ a → flat'.data a = flat₂.data a

/-- The entry does not lie in the file. -/
theorem Finished.file_bytes (hopen : OpenIn bpb clusters vol heads chains f d file)
    (hfinished : Finished bpb clusters heads chains f d vol file buffer offset count out
      first added flat₁ flat₂ flat') {x : ℕ}
    (hx : x < (chains f ++ (first ++ added)).length * bpb.clusterSizeBytes) :
    flat'.data (bpb.fileAddress (chains f ++ (first ++ added)) x) =
      flat₂.data (bpb.fileAddress (chains f ++ (first ++ added)) x) := by
  have hgeo := hopen.consistent.geometry
  have hcs := hgeo.clusterSize_ge
  have hgrown := hfinished.holds.grown
  obtain ⟨target, htarget, o, ho, haddress⟩ := hopen.entry.address hgeo
  have hlt := hgeo.div_lt hx
  have hmem := List.getElem_mem hlt
  have hmod := Nat.mod_lt x (show 0 < bpb.clusterSizeBytes by omega)
  apply hfinished.entryOnly
  rw [haddress, Bpb.fileAddress, List.getD_eq_getElem _ _ hlt]
  by_contra hinside
  have heq : bpb.clusterStart target + (o + (bpb.clusterStart
      (chains f ++ (first ++ added))[x / bpb.clusterSizeBytes] + x % bpb.clusterSizeBytes -
        (bpb.clusterStart target + o))) = bpb.clusterStart
      (chains f ++ (first ++ added))[x / bpb.clusterSizeBytes] + x % bpb.clusterSizeBytes := by
    omega
  have hsame := hgeo.clusterStart_inj (hgrown.range htarget).1
    (hgrown.isChain.range _ hmem).1 (by omega) hmod heq
  exact (hgrown.other hopen.apart).2 htarget (hsame.1 ▸ hmem)

theorem Finished.device_eq
    (hquiet : Undisturbed bpb clusters (chains f) file offset malloc)
    (hfinished : Finished bpb clusters heads chains f d vol file buffer offset count out
      first added flat₁ flat₂ flat') {a : ℕ} (ha : bpb.dataOffset ≤ a) :
    out.vol.device a = flat'.data a :=
  hfinished.holds.shows.bytes a ha (hquiet.reach.mono ha)

theorem Finished.readBack (hopen : OpenIn bpb clusters vol heads chains f d file)
    (hquiet : Undisturbed bpb clusters (chains f) file offset malloc) (hcount : 1 ≤ count)
    (hfinished : Finished bpb clusters heads chains f d vol file buffer offset count out
      first added flat₁ flat₂ flat') (initial : ℕ → UInt8) {t : ℕ} (ht : t < count) :
    (fat32Read out.vol out.file initial offset count).buffer t = buffer t := by
  have hchain := hfinished.holds.grown.isChain
  have hroom := hfinished.room
  have hfirst : (chains f ++ (first ++ added))[0]? = some out.file.firstCluster := by
    have hstarts := hchain.starts
    cases hlist : chains f ++ (first ++ added) with
    | nil =>
        rw [hlist, List.length_nil, Nat.zero_mul] at hroom
        omega
    | cons cluster rest =>
        rw [hlist] at hstarts
        rw [List.getElem?_cons_zero, ← hstarts, List.headD_cons]
  have hloaded := fat32Read_spec initial hfinished.holds.shows hchain
    hquiet.reach hfirst hcount hroom
  have hbyte := hloaded.bytes t ht
  rw [Nat.zero_add] at hbyte
  rw [hbyte, hfinished.file_bytes hopen (by omega), hfinished.written.bytes t ht]

theorem Finished.others (hopen : OpenIn bpb clusters vol heads chains f d file)
    (hquiet : Undisturbed bpb clusters (chains f) file offset malloc)
    (hfinished : Finished bpb clusters heads chains f d vol file buffer offset count out
      first added flat₁ flat₂ flat') {x : ℕ} (hx : x < file.sizeBytes)
    (houtside : x < offset ∨ offset + count ≤ x) :
    out.vol.device (bpb.fileAddress (chains f) x) =
      vol.device (bpb.fileAddress (chains f) x) := by
  have hgeo := hopen.consistent.geometry
  have hcs := hgeo.clusterSize_ge
  have hchain := hfinished.holds.grown.isChain
  have hroom := hfinished.room
  have hold : x < (chains f).length * bpb.clusterSizeBytes := by
    have hsize := hopen.size
    omega
  have hplace := hgeo.div_lt hold
  have hmem := List.getElem_mem hplace
  have hlong : x < (chains f ++ (first ++ added)).length * bpb.clusterSizeBytes := by
    refine lt_of_lt_of_le hold (Nat.mul_le_mul_right _ ?_)
    rw [List.length_append]
    exact Nat.le_add_right _ _
  have hsame := bpb.fileAddress_append (first ++ added) hplace
  have haddress : bpb.fileAddress (chains f) x =
      bpb.clusterStart (chains f)[x / bpb.clusterSizeBytes] + x % bpb.clusterSizeBytes := by
    rw [Bpb.fileAddress, List.getD_eq_getElem _ _ hplace]
  have hwritten : flat₂.data (bpb.fileAddress (chains f) x) =
      flat₁.data (bpb.fileAddress (chains f) x) := by
    apply hfinished.written.frame
    intro t ht heq
    rw [← hsame] at heq
    have := hgeo.fileAddress_inj hchain (hgeo.div_lt hlong) (hgeo.div_lt (by omega)) heq
    omega
  have hwalked : flat₁.data (bpb.fileAddress (chains f) x) =
      vol.flat.data (bpb.fileAddress (chains f) x) := by
    rw [haddress]
    apply hfinished.reached.kept hgeo hquiet.page
      (hfinished.holds.grown.range hmem).1 ?_ (Nat.mod_lt _ (by omega))
    intro c hc
    have hcNew := List.mem_append_left added hc
    refine ⟨(hchain.range c (List.mem_append_right _ hcNew)).1, ?_⟩
    intro heq
    exact (List.nodup_append.mp hchain.nodup).2.2 _ hmem _ hcNew heq.symm
  have hdata : bpb.dataOffset ≤ bpb.fileAddress (chains f) x := by
    have hle := bpb.dataOffset_le_clusterStart (chains f)[x / bpb.clusterSizeBytes]
    omega
  rw [hfinished.device_eq hquiet hdata, ← hsame, hfinished.file_bytes hopen hlong,
    hsame, hwritten, hwalked]
  rfl

/-- A write that does not write the entry back leaves its bytes as they were. -/
theorem Finished.entry_byte (hopen : OpenIn bpb clusters vol heads chains f d file)
    (hquiet : Undisturbed bpb clusters (chains f) file offset malloc)
    (hfinished : Finished bpb clusters heads chains f d vol file buffer offset count out
      first added flat₁ flat₂ flat₂) {k : ℕ} (hk : k < 32) :
    out.vol.device (file.direntAddress bpb (chains d) + k) =
      vol.device (file.direntAddress bpb (chains d) + k) := by
  have hgeo := hopen.consistent.geometry
  have hgrown := hfinished.holds.grown
  obtain ⟨target, htarget, o, ho, haddress⟩ := hopen.entry.address hgeo
  have hlow := (hgrown.range htarget).1
  have hout := (hgrown.other hopen.apart).2 htarget
  have hle := bpb.dataOffset_le_clusterStart target
  rw [haddress, hfinished.device_eq hquiet (by omega), Nat.add_assoc,
    hfinished.written.kept hgeo hfinished.room hlow
      (fun c hc => (hgrown.isChain.range c hc).1) hout (by omega)]
  apply hfinished.reached.kept hgeo hquiet.page hlow ?_ (by omega)
  intro c hc
  have hcNew := List.mem_append_right (chains f) (List.mem_append_left added hc)
  refine ⟨(hgrown.isChain.range c hcNew).1, ?_⟩
  intro heq
  exact hout (heq ▸ hcNew)

theorem Finished.entry_kept (hopen : OpenIn bpb clusters vol heads chains f d file)
    (hquiet : Undisturbed bpb clusters (chains f) file offset malloc)
    (hfinished : Finished bpb clusters heads chains f d vol file buffer offset count out
      first added flat₁ flat₂ flat₂) :
    readU32 out.vol.device (file.direntAddress bpb (chains d) + 28) = file.sizeBytes := by
  rw [← hopen.entrySize]
  apply readU32_congr
  intro k hk
  rw [Nat.add_assoc]
  exact hfinished.entry_byte hopen hquiet (by omega)

/-- Where the entry is not written back, the law needs the old size. -/
theorem Finished.law_of_kept (hopen : OpenIn bpb clusters vol heads chains f d file)
    (hquiet : Undisturbed bpb clusters (chains f) file offset malloc) (hcount : 1 ≤ count)
    (hfinished : Finished bpb clusters heads chains f d vol file buffer offset count out
      first added flat₁ flat₂ flat₂)
    (hreturned : out.returned = some (toInt count))
    (hsize : out.file.sizeBytes = file.sizeBytes) :
    WriteReadLaw bpb (chains f) (chains d) vol file buffer offset count out ↔
      count < 2147483648 ∧ offset + count ≤ file.sizeBytes := by
  constructor
  · intro hlaw
    have hint := Option.some.inj (hreturned.symm.trans hlaw.returned)
    have hmax := hsize.symm.trans hlaw.size
    exact ⟨toInt_eq_iff.mp hint, by omega⟩
  · rintro ⟨hint, hinside⟩
    refine ⟨?_, ?_, ?_, ?_, ?_⟩
    · rw [hreturned, toInt_eq_iff.mpr hint]
    · intro initial t ht
      exact hfinished.readBack hopen hquiet hcount initial ht
    · intro x hx houtside
      exact hfinished.others hopen hquiet hx houtside
    · rw [hsize, max_eq_left hinside]
    · rw [hfinished.entry_kept hopen hquiet, max_eq_left hinside]

theorem OpenFile.extended_sizeBytes (file : OpenFile) {offset count : ℕ}
    (hlt : offset + count < 2 ^ 32) :
    (file.extended offset count).sizeBytes = max file.sizeBytes (offset + count) := by
  have hmod : (offset + count) % 2 ^ 64 = offset + count := Nat.mod_eq_of_lt (by omega)
  rw [OpenFile.extended, hmod]
  split
  case isTrue hgt =>
    change (offset + count) % 2 ^ 32 = _
    rw [Nat.mod_eq_of_lt hlt, max_eq_right (by omega)]
  case isFalse hle => rw [max_eq_left (by omega)]

theorem OpenFile.extended_sizeBytes_congr {file file' : OpenFile}
    (hsize : file.sizeBytes = file'.sizeBytes) (offset count : ℕ) :
    (file.extended offset count).sizeBytes = (file'.extended offset count).sizeBytes := by
  rw [OpenFile.extended, OpenFile.extended, hsize]
  split
  · rfl
  · exact hsize

/-- The size in the entry is on the device. -/
theorem Finished.entrySize_eq (hopen : OpenIn bpb clusters vol heads chains f d file)
    (hquiet : Undisturbed bpb clusters (chains f) file offset malloc)
    (hfinished : Finished bpb clusters heads chains f d vol file buffer offset count out
      first added flat₁ flat₂ flat') :
    readU32 out.vol.device (file.direntAddress bpb (chains d) + 28) =
      readU32 flat'.data (file.direntAddress bpb (chains d) + 28) := by
  obtain ⟨target, htarget, o, ho, haddress⟩ :=
    hopen.entry.address hopen.consistent.geometry
  have hle := bpb.dataOffset_le_clusterStart target
  apply readU32_congr
  intro k hk
  exact hfinished.device_eq hquiet (by omega)

/-- Where the entry is written back, the law needs a count that is an `int`. -/
theorem Finished.law_of_extended (hopen : OpenIn bpb clusters vol heads chains f d file)
    (hquiet : Undisturbed bpb clusters (chains f) file offset malloc) (hcount : 1 ≤ count)
    (hfinished : Finished bpb clusters heads chains f d vol file buffer offset count out
      first added flat₁ flat₂ flat')
    (hreturned : out.returned = some (toInt count))
    (hsize : out.file.sizeBytes = (file.extended offset count).sizeBytes)
    (hentrySize : readU32 flat'.data (file.direntAddress bpb (chains d) + 28) =
      (file.extended offset count).sizeBytes % 2 ^ 32) :
    WriteReadLaw bpb (chains f) (chains d) vol file buffer offset count out ↔
      count < 2147483648 := by
  have hgeo := hopen.consistent.geometry
  have hbound := hgeo.chain_le hfinished.holds.grown.isChain
  have hroom := hfinished.room
  have htable := hgeo.table_before
  rw [file.extended_sizeBytes (by omega)] at hsize hentrySize
  constructor
  · intro hlaw
    exact toInt_eq_iff.mp (Option.some.inj (hreturned.symm.trans hlaw.returned))
  · intro hint
    refine ⟨?_, ?_, ?_, hsize, ?_⟩
    · rw [hreturned, toInt_eq_iff.mpr hint]
    · intro initial t ht
      exact hfinished.readBack hopen hquiet hcount initial ht
    · intro x hx houtside
      exact hfinished.others hopen hquiet hx houtside
    · have hold : file.sizeBytes < 2 ^ 32 := by
        rw [← hopen.entrySize]
        exact readU32_lt _ _
      rw [hfinished.entrySize_eq hopen hquiet, hentrySize]
      exact Nat.mod_eq_of_lt (by omega)

/-- A write that has reached the cluster of its offset. -/
theorem Ends.law_iff {file₁ : OpenFile}
    (hopen : OpenIn bpb clusters vol heads chains f d file)
    (hquiet : Undisturbed bpb clusters (chains f) file offset malloc) (hcount : 1 ≤ count)
    (hholds : Holds bpb clusters (fatEntry vol) heads chains f out.vol flat'
      out.file.firstCluster (first ++ added))
    (hfile₁ : file₁ = { file with firstCluster := file₁.firstCluster })
    (hreached : Reached bpb clusters (chains f) first vol.flat flat₁ offset)
    (hends : Ends bpb clusters (chains d) (chains f ++ first)
      (chains f ++ (first ++ added)) flat₁ flat' file₁ buffer offset count out) :
    WriteReadLaw bpb (chains f) (chains d) vol file buffer offset count out ↔
      Lawful bpb clusters (chains f) vol file offset count := by
  have hgeo := hopen.consistent.geometry
  have hsize₁ : file₁.sizeBytes = file.sizeBytes := by rw [hfile₁]
  have hoffset₁ : file₁.direntOffset = file.direntOffset := by rw [hfile₁]
  have hfree := hreached.free
  have hhead := hreached.head_le (Nat.zero_lt_of_lt hgeo.clusterSize_ge) added
  -- Inside the old size there are clusters enough.
  have henough : offset + count ≤ file.sizeBytes →
      bpb.clustersFor (offset + count) ≤ vol.flat.freeCount clusters + (chains f).length := by
    intro hinside
    have hle := hgeo.clustersFor_le (hinside.trans hopen.size)
    omega
  cases hends with
  | inside hoffset hless hreturned hfile hwritten =>
      have hfinished : Finished bpb clusters heads chains f d vol file buffer offset count
          out first added flat₁ flat' flat' :=
        ⟨hholds, hreached, hwritten, by omega, fun _ _ => rfl⟩
      rw [hfinished.law_of_kept hopen hquiet hcount hreturned (by rw [hfile, hsize₁])]
      constructor
      · rintro ⟨hint, hinside⟩
        exact ⟨hint, henough hinside, .inr (.inr ⟨by omega, hinside⟩)⟩
      · rintro ⟨hint, -, haligned | ⟨-, hcross⟩ | ⟨-, hinside⟩⟩
        · exact absurd haligned hoffset
        · omega
        · exact ⟨hint, hinside⟩
  | atEnd hoffset hle hlast hreturned hfile hwritten =>
      have hshort : (chains f).length ≤ offset / bpb.clusterSizeBytes + 1 := by
        rw [hlast]
        rw [List.length_append]
        exact Nat.le_add_right _ _
      by_cases hexact : count = bpb.clusterSizeBytes - offset % bpb.clusterSizeBytes
      · rw [← hexact] at hwritten hreturned
        have hfinished : Finished bpb clusters heads chains f d vol file buffer offset count
            out first added flat₁ flat' flat' :=
          ⟨hholds, hreached, hwritten, by omega, fun _ _ => rfl⟩
        rw [hfinished.law_of_kept hopen hquiet hcount hreturned (by rw [hfile, hsize₁])]
        constructor
        · rintro ⟨hint, hinside⟩
          exact ⟨hint, henough hinside, .inr (.inr ⟨hexact.le, hinside⟩)⟩
        · rintro ⟨hint, -, haligned | ⟨hcross, -⟩ | ⟨-, hinside⟩⟩
          · exact absurd haligned hoffset
          · exact absurd hcross (Nat.not_lt.mpr hshort)
          · exact ⟨hint, hinside⟩
      · apply iff_of_false
        · intro hlaw
          exact toInt_ne_of_lt (by omega)
            (Option.some.inj (hreturned.symm.trans hlaw.returned))
        · rintro ⟨-, -, haligned | ⟨hcross, -⟩ | ⟨hinside, -⟩⟩
          · exact hoffset haligned
          · exact absurd hcross (Nat.not_lt.mpr hshort)
          · omega
  | full returned hless hreturned hfile hfull =>
      apply iff_of_false
      · intro hlaw
        exact toInt_ne_of_lt hless (Option.some.inj (hreturned.symm.trans hlaw.returned))
      · rintro ⟨-, hneed, -⟩
        rw [List.length_append] at hfull
        omega
  | whole flat₂ hoffset hreturned hfile hneed hroom hwritten hentry =>
      have haddress := OpenFile.direntAddress_congr hoffset₁ bpb (chains d)
      have hextended := OpenFile.extended_sizeBytes_congr hsize₁ offset count
      obtain ⟨honly, hsizeField⟩ := hentry hquiet.reach
      rw [haddress] at honly hsizeField
      rw [hextended, hoffset₁] at hsizeField
      have hfinished : Finished bpb clusters heads chains f d vol file buffer offset count
          out first added flat₁ flat₂ flat' :=
        ⟨hholds, hreached, hwritten, (hgeo.le_clustersFor _).trans
          (Nat.mul_le_mul_right _ hroom), honly⟩
      rw [hfinished.law_of_extended hopen hquiet hcount hreturned
        (by rw [hfile, hextended]) (hsizeField hquiet.entry)]
      constructor
      · intro hint
        refine ⟨hint, ?_, ?_⟩
        · rw [List.length_append] at hneed
          omega
        · rcases hoffset with haligned | ⟨hcross, hle⟩
          · exact .inl haligned
          · refine .inr (.inl ⟨?_, hle⟩)
            exact hreached.lt_length hcross
      · intro hlawful
        exact hlawful.1

/-- The write-then-read law holds of a write exactly when it is lawful. -/
theorem fat32Write_law_iff (hopen : OpenIn bpb clusters vol heads chains f d file)
    (hquiet : Undisturbed bpb clusters (chains f) file offset malloc) (hcount : 1 ≤ count) :
    WriteReadLaw bpb (chains f) (chains d) vol file buffer offset count
        (fat32Write malloc vol file buffer offset count) ↔
      Lawful bpb clusters (chains f) vol file offset count := by
  have hgeo := hopen.consistent.geometry
  have hcs := hgeo.clusterSize_ge
  have hplace := hgeo.lt_clustersFor offset hcount
  obtain ⟨out, hout⟩ : ∃ out, fat32Write malloc vol file buffer offset count = out :=
    ⟨_, rfl⟩
  obtain ⟨flat', new, hholds, hcases⟩ := fat32Write_spec hopen.consistent.shows
    hopen.wellFormed hopen.first hopen.entry hout
  rw [hout]
  rcases hcases with ⟨hreturned, hfull⟩ | ⟨hreturned, htrap⟩ |
    ⟨flat₁, file₁, first, added, rfl, hfile₁, hreached, hends⟩
  · apply iff_of_false
    · intro hlaw
      have hzero := Option.some.inj (hreturned.symm.trans hlaw.returned)
      omega
    · rintro ⟨-, hneed, -⟩
      have hshort := hfull hquiet.memory
      omega
  · apply iff_of_false
    · intro hlaw
      cases hreturned.symm.trans hlaw.returned
    · intro hlawful
      obtain ⟨hstart, hclusters⟩ := hopen.no_trap hcount hlawful
      rcases htrap with htrap | htrap
      · exact absurd hstart (Nat.not_lt.mpr htrap)
      · exact absurd hclusters (Nat.not_lt.mpr htrap)
  · exact hends.law_iff hopen hquiet hcount hholds hfile₁ hreached

end Law

theorem smallFile_open :
    OpenIn smallVolume.mount.bpb 6 smallVolume (fun x => (smallChains x).headD 0) smallChains
      false true smallFile :=
  ⟨smallVolume_consistent, smallVolume_wellFormed, rfl, ⟨rfl, by decide⟩, by decide,
    by decide, by decide +kernel⟩

theorem smallFile_undisturbed :
    Undisturbed smallVolume.mount.bpb 6 (smallChains false) smallFile 0 (fun _ => true) :=
  ⟨.inl (by decide), .inr (by decide), by decide, fun _ => rfl⟩

/-- A thousand bytes are written to an empty file. -/
theorem fat32Write_law_small :
    WriteReadLaw smallVolume.mount.bpb (smallChains false) (smallChains true) smallVolume
      smallFile (fun k => UInt8.ofNat k) 0 1000
      (fat32Write (fun _ => true) smallVolume smallFile (fun k => UInt8.ofNat k) 0 1000) :=
  (fat32Write_law_iff smallFile_open smallFile_undisturbed (by decide)).mpr
    ⟨by decide, by decide +kernel, .inl (by decide)⟩

/-- Ten bytes at offset 100 of an empty file are written inside its first
cluster, and the size of the file stays 0. -/
theorem fat32Write_loses_size :
    OpenIn smallVolume.mount.bpb 6 smallVolume (fun x => (smallChains x).headD 0)
        smallChains false true smallFile ∧
      smallVolume.mount.bpb.clustersFor (100 + 10) ≤
        smallVolume.flat.freeCount 6 + (smallChains false).length ∧
      ¬WriteReadLaw smallVolume.mount.bpb (smallChains false) (smallChains true) smallVolume
        smallFile (fun _ => 1) 100 10
        (fat32Write (fun _ => true) smallVolume smallFile (fun _ => 1) 100 10) := by
  refine ⟨smallFile_open, by decide +kernel, ?_⟩
  intro hlaw
  have hsize : (fat32Write (fun _ => true) smallVolume smallFile (fun _ => 1) 100
      10).file.sizeBytes = 0 := by decide +kernel
  have hlawSize := hlaw.size
  rw [hsize] at hlawSize
  cases hlawSize

end KimisOS.Fat32
