import KimisOS.Bootloader.EndOfChain
import KimisOS.Fat32.Accessed

/-!
# The buffer of a directory

`resolve_path` allocates the pages that the size field of a directory asks for, or
8 where it is zero, and `fat32_read_dirent` copies every cluster of the chain there.
The loop counts neither the pages nor the clusters it has seen.
-/

namespace KimisOS.Fat32

open KimisOS.ByteStore
open KimisOS.Bootloader
open KimisOS.Walk

/-- The loop of `fat32_read_dirent` with the ranges of the buffer that it writes;
`none` when it still goes on after that many rounds. -/
def readDirentTraced : ℕ → Volume → (ℕ → UInt8) → ℕ → ℕ →
    Option ((Volume × (ℕ → UInt8)) × List (ℕ × ℕ))
  | rounds, vol, buffer, cluster, clusterNumber =>
      if cluster < fat32EocMin then
        match rounds with
        | 0 => none
        | rounds + 1 =>
            let clusterSizeBytes := vol.mount.bpb.clusterSizeBytes
            let place := clusterNumber * clusterSizeBytes % 2 ^ 32
            let buffer := store buffer place
              (load vol.device (vol.mount.clusterOffsetStart cluster)) clusterSizeBytes
            let get := fat32GetNextCluster vol cluster
            match readDirentTraced rounds get.1 buffer get.2 (clusterNumber + 1) with
            | none => none
            | some (read, writes) => some (read, (place, clusterSizeBytes) :: writes)
      else some ((vol, buffer), [])

/-- The call for a directory ends, and writes only inside the pages for it. -/
def ReadsInside (root : Root) (vol : Volume) (dirent : Dirent) : Prop :=
  ∃ (rounds : ℕ) (read : Volume × (ℕ → UInt8)) (writes : List (ℕ × ℕ)),
    readDirentTraced rounds vol root.stale (root.dirCluster dirent) 0 =
        some (read, writes) ∧
      ∀ write ∈ writes, write.1 + write.2 ≤ sizeToAlloc dirent * 4096

/-- The links from the first cluster of the directory reach an end, and the clusters
up to there fit into the pages. -/
def ChainFits (root : Root) (vol : Volume) (dirent : Dirent) : Prop :=
  ∃ chain : List ℕ,
    Linked (fatEntry vol) (fun cluster => decide (cluster < fat32EocMin))
        (root.dirCluster dirent) chain ∧
      chain.length * vol.mount.bpb.clusterSizeBytes ≤ sizeToAlloc dirent * 4096

/-! ## The writes -/

/-- The writes of a number of clusters, from one of them on. -/
def clusterWrites (clusterSizeBytes number count : ℕ) : List (ℕ × ℕ) :=
  (List.range count).map fun k =>
    ((number + k) * clusterSizeBytes % 2 ^ 32, clusterSizeBytes)

theorem clusterWrites_succ (clusterSizeBytes number count : ℕ) :
    clusterWrites clusterSizeBytes number (count + 1) =
      (number * clusterSizeBytes % 2 ^ 32, clusterSizeBytes) ::
        clusterWrites clusterSizeBytes (number + 1) count := by
  rw [clusterWrites, clusterWrites, List.range_succ_eq_map, List.map_cons, List.map_map,
    Nat.add_zero]
  refine congrArg _ (List.map_congr_left ?_)
  intro k _
  rw [Function.comp_apply, Nat.succ_eq_add_one, Nat.add_right_comm, Nat.add_assoc]

/-- The loop is the walk along the links, with one write for each cluster. -/
theorem readDirentTraced_eq (rounds : ℕ) (vol : Volume) (buffer : ℕ → UInt8)
    (cluster number : ℕ) :
    readDirentTraced rounds vol buffer cluster number =
      (direntWalk rounds (vol, buffer, number) cluster).map fun walked =>
        ((walked.1.1, walked.1.2.1),
          clusterWrites vol.mount.bpb.clusterSizeBytes number walked.2.length) := by
  rw [direntWalk]
  induction rounds generalizing vol buffer cluster number with
  | zero =>
      rw [readDirentTraced, follow]
      by_cases hlt : cluster < fat32EocMin
      · simp [hlt]
      · simp [hlt, clusterWrites]
  | succ rounds ih =>
      rw [readDirentTraced, follow]
      by_cases hlt : cluster < fat32EocMin
      · have hindex : cluster < 2 ^ 28 := by
          unfold fat32EocMin at hlt
          omega
        have hbpb : (fat32GetNextCluster vol cluster).1.mount.bpb = vol.mount.bpb :=
          (Accessed.refl.get hindex).geometry.bpb
        rw [if_pos hlt, if_pos (decide_eq_true hlt), Option.map_map]
        dsimp only
        rw [ih, hbpb]
        change _ = Option.map _ (follow direntRound
          (fun cluster => decide (cluster < fat32EocMin)) rounds _ _)
        rw [direntRound]
        cases follow direntRound (fun cluster => decide (cluster < fat32EocMin)) rounds
            ((fat32GetNextCluster vol cluster).1,
              store buffer (number * vol.mount.bpb.clusterSizeBytes % 2 ^ 32)
                (load vol.device (vol.mount.clusterOffsetStart cluster))
                vol.mount.bpb.clusterSizeBytes, number + 1)
            (fat32GetNextCluster vol cluster).2 with
        | none => rfl
        | some walked =>
            rw [Option.map_some, Option.map_some, Function.comp_apply, List.length_cons,
              clusterWrites_succ]
      · rw [if_neg hlt, if_neg (by simp [hlt])]
        rfl

/-- Without the writes it is the loop that `resolve_path` runs. -/
theorem readDirentTraced_fst (rounds : ℕ) (vol : Volume) (buffer : ℕ → UInt8)
    (cluster number : ℕ) :
    (readDirentTraced rounds vol buffer cluster number).map Prod.fst =
      readDirentFrom rounds vol buffer cluster number := by
  rw [readDirentTraced_eq, readDirentFrom_eq, Option.map_map]
  rfl

/-- The writes end inside a buffer exactly when it has room for the clusters. -/
theorem clusterWrites_inside_iff {clusterSizeBytes count room : ℕ} (hroom : room < 2 ^ 32) :
    (∀ write ∈ clusterWrites clusterSizeBytes 0 count, write.1 + write.2 ≤ room) ↔
      count * clusterSizeBytes ≤ room := by
  constructor
  · intro hinside
    induction count with
    | zero => omega
    | succ count ih =>
        have hbefore : count * clusterSizeBytes ≤ room := by
          apply ih
          intro write hwrite
          obtain ⟨k, hk, rfl⟩ := List.mem_map.mp hwrite
          have hlt := List.mem_range.mp hk
          exact hinside _ (List.mem_map.mpr ⟨k, List.mem_range.mpr (by omega), rfl⟩)
        -- the last write starts where the buffer still has room, so nothing wraps around
        have hlast := hinside ((0 + count) * clusterSizeBytes % 2 ^ 32, clusterSizeBytes)
          (List.mem_map.mpr ⟨count, List.mem_range.mpr (Nat.lt_succ_self count), rfl⟩)
        rw [Nat.zero_add] at hlast
        dsimp only at hlast
        rw [Nat.mod_eq_of_lt (by omega)] at hlast
        rw [Nat.succ_mul]
        exact hlast
  · intro hfits write hwrite
    obtain ⟨k, hk, rfl⟩ := List.mem_map.mp hwrite
    have hstep : (k + 1) * clusterSizeBytes ≤ count * clusterSizeBytes :=
      Nat.mul_le_mul_right _ (List.mem_range.mp hk)
    have hmod := Nat.mod_le ((0 + k) * clusterSizeBytes) (2 ^ 32)
    rw [Nat.succ_mul] at hstep
    rw [Nat.zero_add] at hmod ⊢
    dsimp only
    omega

theorem sizeToAlloc_lt (dirent : Dirent) : sizeToAlloc dirent * 4096 < 2 ^ 32 := by
  have hwrapped := Nat.mod_lt (dirent.size + 4095) (show 0 < 2 ^ 32 by decide)
  rw [sizeToAlloc]
  split_ifs <;> omega

section Call

variable {root : Root} {base vol : Volume} {dirent : Dirent} {chain : List ℕ}

/-- The loop visits the clusters that the table links. -/
theorem direntWalk_visits_iff {buffer : ℕ → UInt8} {head number : ℕ}
    (hcache : CacheInv (2 ^ 28) vol) :
    Visits direntRound (fun cluster => decide (cluster < fat32EocMin))
        (vol, buffer, number) head chain ↔
      Linked (fatEntry vol) (fun cluster => decide (cluster < fat32EocMin)) head chain := by
  have hwalk := @visits_iff_linked DirentRead ℕ direntRound
    (fun cluster => decide (cluster < fat32EocMin)) (vol, buffer, number) head chain
    (fun _ read => Accessed vol read.1) (fatEntry vol)
  refine hwalk ?_ .refl
  intro n read cluster hgoes haccessed
  have hindex : cluster < 2 ^ 28 := lt_of_goesOn (by decide) hgoes
  exact ⟨haccessed.value hcache hindex, haccessed.get hindex⟩

/-- The call for a directory stays inside the pages allocated for it exactly when the
chain ends and fits. -/
theorem readsInside_iff_chainFits (root : Root) (vol : Volume) (dirent : Dirent)
    (hcache : CacheInv (2 ^ 28) vol) :
    ReadsInside root vol dirent ↔ ChainFits root vol dirent := by
  have hroom := sizeToAlloc_lt dirent
  constructor
  · rintro ⟨rounds, read, writes, hread, hinside⟩
    rw [readDirentTraced_eq] at hread
    obtain ⟨walked, hwalked, hresult⟩ := Option.map_eq_some_iff.mp hread
    obtain ⟨-, rfl⟩ := Prod.mk.inj hresult
    refine ⟨walked.2, ?_, (clusterWrites_inside_iff hroom).mp hinside⟩
    rw [← direntWalk_visits_iff hcache]
    refine ⟨rounds, ?_⟩
    rw [direntWalk] at hwalked
    rw [hwalked]
    rfl
  · rintro ⟨chain, hlinked, hfits⟩
    obtain ⟨rounds, hvisits⟩ :=
      (@direntWalk_visits_iff vol chain root.stale (root.dirCluster dirent) 0 hcache).mpr
        hlinked
    obtain ⟨walked, hwalked, rfl⟩ := Option.map_eq_some_iff.mp hvisits
    refine ⟨rounds, (walked.1.1, walked.1.2.1), _, ?_,
      (clusterWrites_inside_iff hroom).mpr hfits⟩
    rw [readDirentTraced_eq, direntWalk, hwalked]
    rfl

end Call

/-- A small volume without a cache on a device. -/
def volumeOn (device : ℕ → UInt8) : Volume := { zeroVolume with device := device }

theorem volumeOn_cache (device : ℕ → UInt8) : CacheInv (2 ^ 28) (volumeOn device) :=
  FreshCache.inv ⟨rfl, rfl⟩ le_rfl rfl

/-- A directory of one cluster. -/
theorem readsInside_one :
    ReadsInside ⟨2, fun _ => 0⟩ (volumeOn fun _ => 0xff) .zero := by
  refine (readsInside_iff_chainFits ⟨2, fun _ => 0⟩ (volumeOn fun _ => 0xff) .zero
    (volumeOn_cache _)).mpr ⟨[2], ⟨rfl, by decide, ?_⟩, by decide⟩
  change decide (fatEntry (volumeOn fun _ => 0xff) 2 < fat32EocMin) = false
  decide

/-- A cluster that is linked to itself is copied again and again. -/
theorem readsInside_cycle :
    ¬ ReadsInside ⟨2, fun _ => 0⟩ (volumeOn fun a => if a % 4 = 0 then 2 else 0)
      .zero := by
  rintro ⟨rounds, read, writes, hread, -⟩
  rw [readDirentTraced_eq] at hread
  obtain ⟨walked, hwalked, -⟩ := Option.map_eq_some_iff.mp hread
  rw [direntWalk] at hwalked
  have hlinked := (direntWalk_visits_iff (volumeOn_cache _)).mp
    ⟨rounds, by rw [hwalked, Option.map_some]⟩
  have hself : fatEntry (volumeOn fun a => if a % 4 = 0 then 2 else 0) 2 = 2 := by
    decide
  generalize walked.2 = visited at hlinked
  change Linked _ _ 2 visited at hlinked
  induction visited with
  | nil => exact absurd (show decide (2 < fat32EocMin) = false from hlinked) (by decide)
  | cons first rest ih =>
      apply ih
      have hrest := hlinked.2.2
      rw [hself] at hrest
      exact hrest

end KimisOS.Fat32
