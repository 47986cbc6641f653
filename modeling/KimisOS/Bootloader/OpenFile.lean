import KimisOS.Bootloader.FatEntries
import KimisOS.Fat32.Names

/-!
# Files that the boot loader opens and reads

`open_file` loads eight sectors of the root directory and compares eleven bytes
of each entry with the name, up to an entry that starts with zero.  `read_file`
then loads the whole chain of the file behind each other.  The sector of the
root directory is computed in 16 bits.
-/

namespace KimisOS.Bootloader

open KimisOS.ByteStore
open KimisOS.Fat32 (Bpb direntAt IsChain Geometry)

def rootDir : ℕ := 0x1000

/-- What `open_file` returns in `eax` and `edx`. -/
structure Opened where
  firstCluster : ℕ
  size : ℕ
  deriving DecidableEq

/-- The sector in `esi`; all but its upper half is computed in `si`. -/
def BootBpb.rootSector (boot : BootBpb) (rootDirCluster : ℕ) : ℕ :=
  boot.partStart / 2 ^ 16 * 2 ^ 16 +
    (boot.partStart + boot.bpb.reservedSectors +
      boot.bpb.sectorsPerFat % 2 ^ 16 * boot.bpb.fatCount +
      (rootDirCluster + 2 ^ 16 - 2) % 2 ^ 16 * boot.bpb.sectorsPerCluster) % 2 ^ 16

/-- The comparison of an entry with a name. -/
def NameMatches (memory : ℕ → UInt8) (esi : ℕ) (name : ℕ → UInt8) : Prop :=
  ∀ j < 11, memory (esi + j) = name j

instance (memory : ℕ → UInt8) (esi : ℕ) (name : ℕ → UInt8) :
    Decidable (NameMatches memory esi name) :=
  inferInstanceAs (Decidable (∀ j < 11, _))

/-- `.chklp`: the place of the entry, `some none` when there is none, and `none` when
the loop has not ended. -/
def checkEntries (memory name : ℕ → UInt8) : ℕ → ℕ → Option (Option ℕ)
  | 0, _ => none
  | rounds + 1, esi =>
      if memory esi = 0 then some none
      else if NameMatches memory esi name then some (some esi)
      else checkEntries memory name rounds (esi + 0x20)

/-- `open_file`; the inner `none` stands for `-1`. -/
def openFile (boot : BootBpb) (rootDirCluster : ℕ) (disk : ℕ → UInt8) (rounds : ℕ)
    (loader : Loader) (name : ℕ → UInt8) : Option (Loader × Option Opened) :=
  let memory := readSectors disk loader.memory (boot.rootSector rootDirCluster) 8 rootDir
  (checkEntries memory name rounds rootDir).map fun found =>
    ({ loader with memory := memory }, found.map fun esi =>
      { firstCluster := readU16 memory (esi + 20) * 65536 + readU16 memory (esi + 26)
        size := readU32 memory (esi + 28) })

/-- `open_file` and `read_file`, as `part_2` calls them for each of its files: the size
of the file, and `none` when it is not found. -/
def loadFile (boot : BootBpb) (rootDirCluster : ℕ) (disk : ℕ → UInt8) (rounds : ℕ)
    (loader : Loader) (name : ℕ → UInt8) (destination : ℕ) : Option (Loader × Option ℕ) :=
  match openFile boot rootDirCluster disk rounds loader name with
  | none => none
  | some (loader, none) => some (loader, none)
  | some (loader, some opened) =>
      (readFile boot disk rounds { loader with destination := destination }
        opened.firstCluster).map fun read => (read.1, some opened.size)

/-! ## Searching -/

section Search

variable {memory name : ℕ → UInt8} {i : ℕ}

/-- Entries that are in use and have other names are passed over. -/
theorem checkEntries_skip (hbefore : ∀ k < i, memory (rootDir + 32 * k) ≠ 0 ∧
      ¬NameMatches memory (rootDir + 32 * k) name) (rounds : ℕ) :
    checkEntries memory name (i + rounds) rootDir =
      checkEntries memory name rounds (rootDir + 32 * i) := by
  induction i generalizing rounds with
  | zero => rw [Nat.zero_add, Nat.mul_zero, Nat.add_zero]
  | succ i ih =>
      obtain ⟨hfull, hother⟩ := hbefore i (Nat.lt_succ_self i)
      rw [show i + 1 + rounds = i + (rounds + 1) by omega,
        ih (fun k hk => hbefore k (hk.trans (Nat.lt_succ_self i))), checkEntries,
        if_neg hfull, if_neg hother, Nat.mul_succ, Nat.add_assoc]

theorem checkEntries_found (hbefore : ∀ k < i, memory (rootDir + 32 * k) ≠ 0 ∧
      ¬NameMatches memory (rootDir + 32 * k) name)
    (hused : memory (rootDir + 32 * i) ≠ 0)
    (hmatches : NameMatches memory (rootDir + 32 * i) name) (more : ℕ) :
    checkEntries memory name (i + (more + 1)) rootDir = some (some (rootDir + 32 * i)) := by
  rw [checkEntries_skip hbefore, checkEntries, if_neg hused, if_pos hmatches]

end Search

/-! ## Loading a chain -/

section Load

variable {boot : BootBpb} {disk memory : ℕ → UInt8} {cluster : ℕ} {loader : Loader}
  {chain : List ℕ}

theorem readFat_destination (index : ℕ) :
    (readFat boot disk loader index).1.destination = loader.destination := by
  rw [readFat]
  split
  · rfl
  · rfl

/-- `read_fat` touches the buffer of the table only. -/
theorem readFat_outside (hfits : FitsBuffers boot) (index : ℕ) {a : ℕ}
    (ha : a < fileTable ∨ fileTable + 4096 ≤ a) :
    (readFat boot disk loader index).1.memory a = loader.memory a := by
  rw [readFat]
  split
  · rfl
  · change (cacheFileTable boot disk loader (index / 4096)).memory a = loader.memory a
    rw [cacheFileTable_memory hfits, store_outside ha]

theorem loadCluster_memory : (loadCluster boot disk loader cluster).memory =
    store (readSectors disk loader.memory (boot.clusterSector cluster)
        boot.bpb.sectorsPerCluster fileBuffer) loader.destination
      (load (readSectors disk loader.memory (boot.clusterSector cluster)
        boot.bpb.sectorsPerCluster fileBuffer) fileBuffer) boot.bpb.clusterSizeBytes := rfl

/-- One round: the cluster is at the destination, and only the buffers change beside. -/
theorem readRound_memory (hfits : FitsBuffers boot)
    (hlow : fileTable + 4 * 4096 ≤ loader.destination) :
    (∀ k < boot.bpb.clusterSizeBytes,
      (readRound boot disk loader cluster).1.memory (loader.destination + k) =
        disk (512 * boot.clusterSector cluster + k)) ∧
    ∀ a, a < fileBuffer ∨ fileTable + 4096 ≤ a →
      a < loader.destination ∨ loader.destination + boot.bpb.clusterSizeBytes ≤ a →
        (readRound boot disk loader cluster).1.memory a = loader.memory a := by
  have hcluster := hfits.cluster
  have hsize : boot.bpb.clusterSizeBytes = 512 * boot.bpb.sectorsPerCluster := by
    rw [Bpb.clusterSizeBytes, hfits.sector]
  have hbuffers : fileBuffer < fileTable := by decide
  constructor
  · intro k hk
    rw [readRound, readFat_outside hfits cluster (by omega), loadCluster_memory,
      store_inside hk, load, readSectors, store_inside (by omega)]
    rfl
  · intro a hbuffer hout
    rw [readRound, readFat_outside hfits cluster (by omega), loadCluster_memory,
      store_outside hout, readSectors_outside (by omega)]

/-- `read_file` along a chain: the clusters lie behind each other at the destination. -/
theorem readFile_content (hfits : FitsBuffers boot)
    (hready : Ready boot disk memory chain.length loader)
    (hlinked : Walk.Linked (foundEntry boot disk memory)
      (fun cluster => decide (cluster ≠ fileEnd)) cluster chain) (hne : chain ≠ []) :
    ∃ final, readFile boot disk chain.length loader cluster = some (final, chain) ∧
      (∀ p c, chain[p]? = some c → ∀ k < boot.bpb.clusterSizeBytes,
        final.memory (loader.destination + p * boot.bpb.clusterSizeBytes + k) =
          disk (512 * boot.clusterSector c + k)) ∧
      (∀ a, a < fileBuffer ∨ fileTable + 4096 ≤ a →
        a < loader.destination ∨
          loader.destination + chain.length * boot.bpb.clusterSizeBytes ≤ a →
        final.memory a = loader.memory a) ∧
      ∀ rounds destination, fileTable + 4 * 4096 ≤ destination →
        destination + rounds * boot.bpb.clusterSizeBytes < 2 ^ 32 →
          Ready boot disk memory rounds { final with destination := destination } := by
  induction chain generalizing loader cluster with
  | nil => exact absurd rfl hne
  | cons first rest ih =>
      obtain ⟨hfirst, -, hlinked⟩ := hlinked
      subst hfirst
      obtain ⟨hloaded, hframe⟩ :=
        @readRound_memory boot disk first loader hfits hready.low
      obtain ⟨hnext, hfound⟩ := hready.readRound hfits first
      have hdestination : (readRound boot disk loader first).1.destination =
          loader.destination := by
        rw [readRound, readFat_destination, loadCluster]
      rw [← hfound] at hlinked
      by_cases hend : (readRound boot disk loader first).2 = fileEnd
      · have hnil : rest = [] := by
          cases rest with
          | nil => rfl
          | cons second rest => exact absurd hend (of_decide_eq_true hlinked.2.1)
        subst hnil
        refine ⟨(readRound boot disk loader first).1, ?_, ?_, ?_, ?_⟩
        · rw [List.length_singleton, readFile, if_pos hend]
        · intro p c hp k hk
          cases p with
          | zero =>
              obtain rfl : first = c := Option.some.inj hp
              rw [Nat.zero_mul, Nat.add_zero]
              exact hloaded k hk
          | succ p => cases hp
        · intro a hbuffer hout
          rw [List.length_singleton, Nat.one_mul] at hout
          exact hframe a hbuffer hout
        · intro rounds destination hlow hhigh
          exact ⟨hnext.block, hnext.behind, hlow, hhigh⟩
      · have hrest : rest ≠ [] := by
          rintro rfl
          exact hend (of_not_not (of_decide_eq_false hlinked))
        obtain ⟨final, hread, hcontent, hkept, hready'⟩ := ih hnext hlinked hrest
        have hadvance : ((readRound boot disk loader first).1.advance
            boot.bpb.clusterSizeBytes).destination =
              loader.destination + boot.bpb.clusterSizeBytes := by
          have hhigh := hready.high
          rw [List.length_cons, Nat.succ_mul] at hhigh
          change ((readRound boot disk loader first).1.destination +
            boot.bpb.clusterSizeBytes) % 2 ^ 32 = _
          rw [hdestination]
          exact Nat.mod_eq_of_lt (by omega)
        rw [hadvance] at hcontent hkept
        have hlow := hready.low
        refine ⟨final, ?_, ?_, ?_, hready'⟩
        · rw [List.length_cons, readFile, if_neg hend, hread]
          rfl
        · intro p c hp k hk
          cases p with
          | zero =>
              obtain rfl : first = c := Option.some.inj hp
              have hbehind : fileTable + 4096 ≤ loader.destination + k :=
                ((Nat.add_le_add_left (by decide) _).trans hlow).trans (Nat.le_add_right _ _)
              rw [Nat.zero_mul, Nat.add_zero,
                hkept (loader.destination + k) (.inr hbehind) (.inl (by omega))]
              exact hloaded k hk
          | succ p =>
              have hplace : loader.destination + (p + 1) * boot.bpb.clusterSizeBytes + k =
                  loader.destination + boot.bpb.clusterSizeBytes +
                    p * boot.bpb.clusterSizeBytes + k := by
                rw [Nat.succ_mul]
                ring
              rw [hplace]
              exact hcontent p c hp k hk
        · intro a hbuffer hout
          rw [List.length_cons, Nat.succ_mul] at hout
          rw [hkept a hbuffer (by omega)]
          exact hframe a hbuffer (by omega)

end Load

end KimisOS.Bootloader
