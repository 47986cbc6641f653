import KimisOS.Core.Walk
import KimisOS.Fat32.Write

/-!
# The file loader of the boot loader

`read_file` loads a cluster into a buffer in low memory, moves it behind what it
has loaded so far, and looks up the next cluster.  `read_fat` keeps one block of
the table in low memory.  It counts blocks of 4096 entries, and a block that
is loaded has 4096 bytes.
-/

namespace KimisOS.Bootloader

open KimisOS.ByteStore
open KimisOS.Walk
open KimisOS.Fat32 (Bpb)

def fileBuffer : ℕ := 0xa000

def fileTable : ℕ := 0xf000

/-- What `read_file` compares the next cluster with. -/
def fileEnd : ℕ := 0xffffffff

/-- The parameter block in the boot sector. -/
structure BootBpb where
  bpb : Bpb
  partStart : ℕ

/-- The memory, `loaded_fat_block`, and the destination in `edi`. -/
structure Loader where
  memory : ℕ → UInt8
  loadedFatBlock : ℕ
  destination : ℕ

/-- The BIOS reads sectors of 512 bytes. -/
def readSectors (disk memory : ℕ → UInt8) (sectorStart readCount offset : ℕ) :
    ℕ → UInt8 :=
  store memory offset (load disk (512 * sectorStart)) (512 * readCount)

/-- The sector at which a block of the table is looked for. -/
def BootBpb.fatBlockSector (boot : BootBpb) (block : ℕ) : ℕ :=
  (block * (4096 / boot.bpb.bytesPerSector) + boot.bpb.reservedSectors) % 2 ^ 32

def cacheFileTable (boot : BootBpb) (disk : ℕ → UInt8) (loader : Loader) (block : ℕ) :
    Loader :=
  { loader with
    memory := readSectors disk loader.memory (boot.fatBlockSector block)
      (4096 / boot.bpb.bytesPerSector) fileTable
    loadedFatBlock := block }

def readFat (boot : BootBpb) (disk : ℕ → UInt8) (loader : Loader) (index : ℕ) :
    Loader × ℕ :=
  let loader :=
    if index / 4096 = loader.loadedFatBlock then loader
    else cacheFileTable boot disk loader (index / 4096)
  (loader, readU32 loader.memory (fileTable + 4 * (index % 4096)))

/-- The first sector of a cluster, computed in 32 bits. -/
def BootBpb.clusterSector (boot : BootBpb) (cluster : ℕ) : ℕ :=
  ((cluster + 2 ^ 32 - 2) % 2 ^ 32 * boot.bpb.sectorsPerCluster +
    boot.bpb.sectorsPerFat * boot.bpb.fatCount + boot.bpb.reservedSectors +
    boot.partStart) % 2 ^ 32

/-- The cluster is loaded and moved to the destination. -/
def loadCluster (boot : BootBpb) (disk : ℕ → UInt8) (loader : Loader) (cluster : ℕ) :
    Loader :=
  let memory := readSectors disk loader.memory (boot.clusterSector cluster)
    boot.bpb.sectorsPerCluster fileBuffer
  { loader with
    memory := store memory loader.destination (load memory fileBuffer)
      boot.bpb.clusterSizeBytes }

/-- One round of `read_file`: the loader behind it, and the next cluster. -/
def readRound (boot : BootBpb) (disk : ℕ → UInt8) (loader : Loader) (cluster : ℕ) :
    Loader × ℕ :=
  readFat boot disk (loadCluster boot disk loader cluster) cluster

def Loader.advance (loader : Loader) (count : ℕ) : Loader :=
  { loader with destination := (loader.destination + count) % 2 ^ 32 }

/-- `read_file`, with the clusters that it has loaded. -/
def readFile (boot : BootBpb) (disk : ℕ → UInt8) :
    ℕ → Loader → ℕ → Option (Loader × List ℕ)
  | 0, _, _ => none
  | rounds + 1, loader, cluster =>
      let round := readRound boot disk loader cluster
      if round.2 = fileEnd then some (round.1, [cluster])
      else
        (readFile boot disk rounds (round.1.advance boot.bpb.clusterSizeBytes) round.2).map
          fun read => (read.1, cluster :: read.2)

/-! ## What an entry is read from -/

/-- The word that `read_fat` finds for an entry: the first 1024 entries of a
block lie in the loaded sectors, the others behind the buffer. -/
def foundEntry (boot : BootBpb) (disk memory : ℕ → UInt8) (index : ℕ) : ℕ :=
  if index % 4096 < 1024 then
    readU32 disk (512 * boot.fatBlockSector (index / 4096) + 4 * (index % 4096))
  else readU32 memory (fileTable + 4 * (index % 4096))

/-- Sectors have the size that the BIOS reads, and a cluster fits into its
buffer. -/
structure FitsBuffers (boot : BootBpb) : Prop where
  sector : boot.bpb.bytesPerSector = 512
  cluster : fileBuffer + boot.bpb.clusterSizeBytes ≤ fileTable

/-- The buffer of the table holds the loaded block, the memory behind it is as
it was, and the destination of the next `rounds` clusters is behind both. -/
structure Ready (boot : BootBpb) (disk memory : ℕ → UInt8) (rounds : ℕ)
    (loader : Loader) : Prop where
  block : ∀ k < 4096, loader.memory (fileTable + k) =
    disk (512 * boot.fatBlockSector loader.loadedFatBlock + k)
  behind : ∀ a, fileTable + 4096 ≤ a → a < fileTable + 4 * 4096 →
    loader.memory a = memory a
  low : fileTable + 4 * 4096 ≤ loader.destination
  high : loader.destination + rounds * boot.bpb.clusterSizeBytes < 2 ^ 32

section Ready

variable {boot : BootBpb} {disk memory : ℕ → UInt8} {rounds cluster index : ℕ}
  {loader : Loader} {visited rest : List ℕ}

theorem readSectors_outside {readCount offset sectorStart a : ℕ}
    (hout : a < offset ∨ offset + 512 * readCount ≤ a) :
    readSectors disk memory sectorStart readCount offset a = memory a := by
  rw [readSectors, store_outside hout]

/-- Loading a cluster leaves the buffer of the table and what is behind it. -/
theorem loadCluster_between (hfits : FitsBuffers boot)
    (hlow : fileTable + 4 * 4096 ≤ loader.destination) {a : ℕ} (ha : fileTable ≤ a)
    (ha' : a < fileTable + 4 * 4096) :
    (loadCluster boot disk loader cluster).memory a = loader.memory a := by
  have hcluster := hfits.cluster
  rw [Bpb.clusterSizeBytes, hfits.sector] at hcluster
  calc (loadCluster boot disk loader cluster).memory a
      = readSectors disk loader.memory (boot.clusterSector cluster)
          boot.bpb.sectorsPerCluster fileBuffer a := store_outside (.inl (by omega))
    _ = loader.memory a := readSectors_outside (.inr (by omega))

theorem Ready.loadCluster (hfits : FitsBuffers boot)
    (hready : Ready boot disk memory rounds loader) (cluster : ℕ) :
    Ready boot disk memory rounds (loadCluster boot disk loader cluster) := by
  have hlow := hready.low
  have hspace : fileTable + 4096 ≤ fileTable + 4 * 4096 := by
    generalize fileTable = start
    omega
  refine ⟨?_, ?_, hlow, hready.high⟩
  · intro k hk
    rw [loadCluster_between hfits hlow (Nat.le_add_right _ _)
      ((Nat.add_lt_add_left hk _).trans_le hspace)]
    exact hready.block k hk
  · intro a ha ha'
    rw [loadCluster_between hfits hlow ((Nat.le_add_right _ _).trans ha) ha']
    exact hready.behind a ha ha'

theorem cacheFileTable_memory (hfits : FitsBuffers boot) (block : ℕ) :
    (cacheFileTable boot disk loader block).memory =
      store loader.memory fileTable (load disk (512 * boot.fatBlockSector block)) 4096 := by
  rw [cacheFileTable, hfits.sector]
  rfl

/-- A block is loaded; the boot loader loads block 0 before it reads files. -/
theorem ready_cacheFileTable (hfits : FitsBuffers boot)
    (hbehind : ∀ a, fileTable + 4096 ≤ a → a < fileTable + 4 * 4096 →
      loader.memory a = memory a)
    (hlow : fileTable + 4 * 4096 ≤ loader.destination)
    (hhigh : loader.destination + rounds * boot.bpb.clusterSizeBytes < 2 ^ 32)
    (block : ℕ) :
    Ready boot disk memory rounds (cacheFileTable boot disk loader block) := by
  refine ⟨?_, ?_, hlow, hhigh⟩
  · intro k hk
    rw [cacheFileTable_memory hfits, store_inside hk]
    rfl
  · intro a ha ha'
    rw [cacheFileTable_memory hfits, store_outside (.inr ha)]
    exact hbehind a ha ha'

theorem Ready.readU32 (hready : Ready boot disk memory rounds loader)
    (hblock : index / 4096 = loader.loadedFatBlock) :
    ByteStore.readU32 loader.memory (fileTable + 4 * (index % 4096)) =
      foundEntry boot disk memory index := by
  rw [foundEntry, hblock]
  split
  · rename_i hinside
    apply readU32_congr
    intro k hk
    rw [Nat.add_assoc, Nat.add_assoc]
    exact hready.block _ (by omega)
  · rename_i houtside
    apply readU32_congr
    intro k hk
    exact hready.behind _ (by omega) (by omega)

/-- What `read_fat` returns is the word at the place of the entry. -/
theorem Ready.readFat (hfits : FitsBuffers boot)
    (hready : Ready boot disk memory rounds loader) (index : ℕ) :
    Ready boot disk memory rounds (readFat boot disk loader index).1 ∧
      (readFat boot disk loader index).2 = foundEntry boot disk memory index := by
  rw [Bootloader.readFat]
  split
  · rename_i hblock
    exact ⟨hready, hready.readU32 hblock⟩
  · have hcached := @ready_cacheFileTable boot disk memory rounds loader hfits hready.behind
      hready.low hready.high (index / 4096)
    exact ⟨hcached, hcached.readU32 rfl⟩

theorem Ready.advance {count : ℕ} (hready : Ready boot disk memory (rounds + 1) loader)
    (hcount : count = boot.bpb.clusterSizeBytes) :
    Ready boot disk memory rounds (loader.advance count) := by
  have hlow := hready.low
  have hhigh := hready.high
  rw [Nat.succ_mul] at hhigh
  have hdestination : (loader.advance count).destination = loader.destination + count :=
    Nat.mod_eq_of_lt (by omega)
  refine ⟨hready.block, hready.behind, ?_, ?_⟩
  · rw [hdestination]
    exact hlow.trans (Nat.le_add_right _ _)
  · rw [hdestination]
    omega

theorem Ready.readRound (hfits : FitsBuffers boot)
    (hready : Ready boot disk memory (rounds + 1) loader) (cluster : ℕ) :
    Ready boot disk memory rounds
        ((readRound boot disk loader cluster).1.advance boot.bpb.clusterSizeBytes) ∧
      (readRound boot disk loader cluster).2 = foundEntry boot disk memory cluster := by
  obtain ⟨hread, hfound⟩ := (hready.loadCluster hfits cluster).readFat hfits cluster
  exact ⟨hread.advance rfl, hfound⟩

/-- The loader reads a cluster before it looks whether there is a next one. -/
theorem readFile_cons : (∃ rounds, (readFile boot disk rounds loader cluster).map Prod.snd =
      some (first :: rest)) ↔
    first = cluster ∧
      if (readRound boot disk loader cluster).2 = fileEnd then rest = []
      else ∃ rounds, (readFile boot disk rounds
        ((readRound boot disk loader cluster).1.advance boot.bpb.clusterSizeBytes)
        (readRound boot disk loader cluster).2).map Prod.snd = some rest := by
  constructor
  · intro hread
    obtain ⟨rounds, hread⟩ := hread
    cases rounds with
    | zero => cases hread
    | succ rounds =>
        rw [readFile] at hread
        split at hread
        · rename_i hend
          obtain ⟨rfl, rfl⟩ := List.cons.inj (Option.some.inj hread)
          exact ⟨rfl, by rw [if_pos hend]⟩
        · rename_i hmore
          rw [Option.map_map, Option.map_eq_some_iff] at hread
          obtain ⟨read, hread, hcons⟩ := hread
          obtain ⟨rfl, rfl⟩ := List.cons.inj hcons
          refine ⟨rfl, ?_⟩
          rw [if_neg hmore]
          exact ⟨rounds, by rw [hread]; rfl⟩
  · intro hread
    obtain ⟨rfl, hread⟩ := hread
    split at hread
    · rename_i hend
      subst hread
      exact ⟨1, by rw [readFile, if_pos hend]; rfl⟩
    · rename_i hmore
      obtain ⟨rounds, hread⟩ := hread
      obtain ⟨read, hsome, rfl⟩ := Option.map_eq_some_iff.mp hread
      refine ⟨rounds + 1, ?_⟩
      rw [readFile, if_neg hmore, hsome]
      rfl

/-- It reads the clusters along the words that it finds. -/
theorem readFile_iff_linked (hfits : FitsBuffers boot) (hcluster : cluster ≠ fileEnd)
    (hready : Ready boot disk memory visited.length loader) :
    (∃ rounds, (readFile boot disk rounds loader cluster).map Prod.snd = some visited) ↔
      Linked (foundEntry boot disk memory) (fun cluster => decide (cluster ≠ fileEnd))
        cluster visited := by
  induction visited generalizing loader cluster with
  | nil =>
      constructor
      · intro hread
        obtain ⟨rounds, hread⟩ := hread
        cases rounds with
        | zero => cases hread
        | succ rounds =>
            rw [readFile] at hread
            split at hread
            · cases hread
            · rw [Option.map_map, Option.map_eq_some_iff] at hread
              obtain ⟨read, -, hcons⟩ := hread
              cases hcons
      · intro hlinked
        exact absurd hcluster (of_decide_eq_false hlinked)
  | cons first rest ih =>
      obtain ⟨hnext, hfound⟩ := hready.readRound hfits cluster
      rw [readFile_cons, hfound, Linked, decide_eq_true_iff]
      refine and_congr_right fun _ => ?_
      by_cases hend : foundEntry boot disk memory cluster = fileEnd
      · rw [if_pos hend]
        cases rest with
        | nil => simp [Linked, hcluster, hend]
        | cons second rest => simp [Linked, hend]
      · rw [if_neg hend, ih hend hnext]
        exact ⟨fun hlinked => ⟨hcluster, hlinked⟩, fun hlinked => hlinked.2⟩

end Ready

end KimisOS.Bootloader
