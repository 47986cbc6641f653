import KimisOS.Fat32.Ends

/-!
# Cluster chains stay whole

Wherever a write stops, the table is well formed, the file has its old clusters
and then some that were free, and all other chains are as before.
-/

namespace KimisOS.Fat32

open KimisOS.ByteStore

/-! ## The whole write -/

section Equations

variable {malloc : ℕ → Bool} {vol vol₁ vol₂ : Volume} {file file₁ : OpenFile}
  {buffer : ℕ → UInt8} {offset count size start clusters current : ℕ}

theorem fat32Write_noCluster (hfirst : firstClusterFor vol file = (vol₁, file₁))
    (hzero : file₁.firstCluster = 0) :
    fat32Write malloc vol file buffer offset count = ⟨vol₁, file₁, some 0⟩ := by
  rw [fat32Write, hfirst, if_pos hzero]

theorem fat32Write_trap (hfirst : firstClusterFor vol file = (vol₁, file₁))
    (hne : file₁.firstCluster ≠ 0) (hsize : vol₁.mount.bpb.clusterSizeBytes = size)
    (htrap : udiv64 offset size = none ∨
      udiv64 ((count + size - 1) % 2 ^ 64) size = none) :
    fat32Write malloc vol file buffer offset count = ⟨vol₁, file₁, none⟩ := by
  subst hsize
  rw [fat32Write, hfirst, if_neg hne]
  rcases htrap with htrap | htrap
  · simp only [htrap]
  · simp only [htrap]
    cases udiv64 offset vol₁.mount.bpb.clusterSizeBytes <;> rfl

theorem fat32Write_stopped (hfirst : firstClusterFor vol file = (vol₁, file₁))
    (hne : file₁.firstCluster ≠ 0) (hsize : vol₁.mount.bpb.clusterSizeBytes = size)
    (hstart : udiv64 offset size = some start)
    (hclusters : udiv64 ((count + size - 1) % 2 ^ 64) size = some clusters)
    (hwalk : walkToOffset malloc start vol₁ file₁.firstCluster = (vol₂, none)) :
    fat32Write malloc vol file buffer offset count = ⟨vol₂, file₁, some 0⟩ := by
  subst hsize
  rw [fat32Write, hfirst, if_neg hne]
  simp only [hstart, hclusters, hwalk]

theorem fat32Write_from (hfirst : firstClusterFor vol file = (vol₁, file₁))
    (hne : file₁.firstCluster ≠ 0) (hsize : vol₁.mount.bpb.clusterSizeBytes = size)
    (hstart : udiv64 offset size = some start)
    (hclusters : udiv64 ((count + size - 1) % 2 ^ 64) size = some clusters)
    (hwalk : walkToOffset malloc start vol₁ file₁.firstCluster = (vol₂, some current)) :
    fat32Write malloc vol file buffer offset count =
      writeFrom vol₂ file₁ buffer offset count current := by
  subst hsize
  rw [fat32Write, hfirst, if_neg hne]
  simp only [hstart, hclusters, hwalk]

theorem udiv64_eq_none {dividend divisor : ℕ} (hdiv : udiv64 dividend divisor = none) :
    2 ^ 32 ≤ dividend / divisor := by
  rw [udiv64] at hdiv
  split at hdiv
  case isTrue => cases hdiv
  case isFalse hge => exact Nat.not_lt.mp hge

theorem udiv64_eq_some {dividend divisor quotient : ℕ}
    (hdiv : udiv64 dividend divisor = some quotient) : dividend / divisor = quotient := by
  rw [udiv64] at hdiv
  split at hdiv
  case isTrue => exact Option.some.inj hdiv
  case isFalse => cases hdiv

end Equations

/-- The state in which the walk has reached the cluster of the offset. -/
structure Reached (bpb : Bpb) (clusters : ℕ) (chain new : List ℕ) (flat flat' : Flat)
    (offset : ℕ) : Prop where
  free : flat'.freeCount clusters + new.length = flat.freeCount clusters
  length : (chain ++ new).length = max chain.length (offset / bpb.clusterSizeBytes + 1)
  data : ∀ a, (∀ c ∈ new, a < bpb.clusterStart c ∨ bpb.clusterStart c + 4096 ≤ a) →
    flat'.data a = flat.data a
  noGap : offset / bpb.clusterSizeBytes < max chain.length 1 → flat'.data = flat.data

/-- A cluster behind that of the offset was there before. -/
theorem Reached.lt_length {bpb : Bpb} {clusters offset : ℕ} {chain new : List ℕ}
    {flat flat' : Flat} (hreached : Reached bpb clusters chain new flat flat' offset)
    (hcross : offset / bpb.clusterSizeBytes + 1 < (chain ++ new).length) :
    offset / bpb.clusterSizeBytes + 1 < chain.length := by
  rw [hreached.length] at hcross
  exact (lt_max_iff.mp hcross).resolve_right (lt_irrefl _)

/-- The part of the cluster behind the offset is inside the chain. -/
theorem Reached.head_le {bpb : Bpb} {clusters offset : ℕ} {chain new : List ℕ}
    {flat flat' : Flat} (hreached : Reached bpb clusters chain new flat flat' offset)
    (hsize : 0 < bpb.clusterSizeBytes) (added : List ℕ) :
    offset + (bpb.clusterSizeBytes - offset % bpb.clusterSizeBytes) ≤
      (chain ++ (new ++ added)).length * bpb.clusterSizeBytes := by
  have hlonger : offset / bpb.clusterSizeBytes + 1 ≤
      (chain ++ (new ++ added)).length := by
    have hlength := hreached.length
    simp only [List.length_append] at hlength ⊢
    omega
  have hmul := Nat.mul_le_mul_right bpb.clusterSizeBytes hlonger
  rw [Nat.succ_mul] at hmul
  have hsplit := Nat.div_add_mod' offset bpb.clusterSizeBytes
  have hmod := Nat.mod_lt offset hsize
  omega

section Write

variable {File : Type*} [DecidableEq File] {heads : File → ℕ} {chains : File → List ℕ}
  {f d : File} {bpb : Bpb} {clusters : ℕ} {vol : Volume} {flat : Flat} {file : OpenFile}
  {malloc : ℕ → Bool} {buffer : ℕ → UInt8} {offset count : ℕ} {out : Outcome}

/-- A write stops before the cluster of the offset, traps in a division, or
reaches that cluster and ends as `Ends` says. -/
theorem fat32Write_spec (hshows : Shows bpb clusters vol flat)
    (hwell : WellFormed flat.table (clusters + 2) heads chains)
    (hfirst : file.firstCluster = heads f) (hentry : EntryIn bpb chains d file)
    (hout : fat32Write malloc vol file buffer offset count = out) :
    ∃ flat' new,
      Holds bpb clusters flat.table heads chains f out.vol flat' out.file.firstCluster new ∧
      ((out.returned = some 0 ∧
          ((∀ i, malloc i = true) → flat.freeCount clusters + (chains f).length ≤
            offset / bpb.clusterSizeBytes)) ∨
        (out.returned = none ∧
          (2 ^ 32 ≤ offset / bpb.clusterSizeBytes ∨
            2 ^ 32 ≤ (count + bpb.clusterSizeBytes - 1) % 2 ^ 64 / bpb.clusterSizeBytes)) ∨
        ∃ flat₁ file₁ first added,
          new = first ++ added ∧
          file₁ = { file with firstCluster := file₁.firstCluster } ∧
          Reached bpb clusters (chains f) first flat flat₁ offset ∧
          Ends bpb clusters (chains d) (chains f ++ first) (chains f ++ new) flat₁ flat'
            file₁ buffer offset count out) := by
  obtain ⟨vol₁, file₁, hfirstFor⟩ : ∃ vol₁ file₁,
      firstClusterFor vol file = (vol₁, file₁) := ⟨_, _, rfl⟩
  obtain ⟨flat₁, first, hholds₁, hfile₁, hdata₁, hfree₁, hstart⟩ :=
    firstClusterFor_spec hshows hwell hfirst hfirstFor
  rcases hstart with ⟨hne, hplace, hlength⟩ | ⟨hzero, hnil, hfull⟩
  · have hsize : vol₁.mount.bpb.clusterSizeBytes = bpb.clusterSizeBytes := by
      rw [hholds₁.shows.mounted.bpb_eq]
    cases hquotient : udiv64 offset bpb.clusterSizeBytes with
    | none =>
        rw [fat32Write_trap hfirstFor hne hsize (.inl hquotient)] at hout
        rw [← hout]
        exact ⟨flat₁, first, hholds₁, .inr (.inl ⟨rfl, .inl (udiv64_eq_none hquotient)⟩)⟩
    | some start =>
        obtain rfl := udiv64_eq_some hquotient
        cases hclusters :
            udiv64 ((count + bpb.clusterSizeBytes - 1) % 2 ^ 64) bpb.clusterSizeBytes with
        | none =>
            rw [fat32Write_trap hfirstFor hne hsize (.inr hclusters)] at hout
            rw [← hout]
            exact ⟨flat₁, first, hholds₁,
              .inr (.inl ⟨rfl, .inr (udiv64_eq_none hclusters)⟩)⟩
        | some clustersToWrite =>
            obtain ⟨vol₂, result, hwalk⟩ : ∃ vol₂ result,
                walkToOffset malloc (offset / bpb.clusterSizeBytes) vol₁
                  file₁.firstCluster = (vol₂, result) := ⟨_, _, rfl⟩
            obtain ⟨flat₂, gap, hholds₂, hfree₂, hdata₂, hsome, hnone⟩ :=
              walkToOffset_spec hholds₁ hplace hwalk
            rw [Nat.zero_add] at hsome hnone
            cases result with
            | none =>
                rw [fat32Write_stopped hfirstFor hne hsize hquotient hclusters hwalk] at hout
                rw [← hout]
                refine ⟨flat₂, first ++ gap, hholds₂, .inl ⟨rfl, ?_⟩⟩
                intro hmalloc
                obtain ⟨hzero, hshort⟩ := hnone rfl hmalloc
                simp only [List.length_append] at hshort
                omega
            | some current =>
                rw [fat32Write_from hfirstFor hne hsize hquotient hclusters hwalk] at hout
                obtain ⟨hcurrent, hlength₂⟩ := hsome current rfl
                have hentry₁ : EntryIn bpb chains d file₁ := by
                  rw [hfile₁]
                  exact ⟨hentry.start, hentry.inside⟩
                obtain ⟨flat', added, hholds', hends⟩ :=
                  writeFrom_spec hholds₂ hentry₁ hcurrent hout
                refine ⟨flat', first ++ gap ++ added, hholds', .inr (.inr ⟨flat₂, file₁,
                  first ++ gap, added, rfl, hfile₁, ⟨?_, ?_, ?_, ?_⟩, hends⟩)⟩
                · rw [List.length_append]
                  omega
                · rw [hlength₂, hlength, max_assoc, max_eq_right (Nat.le_add_left 1 _)]
                · intro a ha
                  rw [hdata₂ a fun c hc => ha c (List.mem_append_right first hc), hdata₁]
                · intro hnoGap
                  have hgap : gap = [] := by
                    rw [hlength, ← List.append_assoc, List.length_append, hlength]
                      at hlength₂
                    exact List.eq_nil_of_length_eq_zero (by omega)
                  subst hgap
                  rw [← hdata₁]
                  funext a
                  exact hdata₂ a fun c hc => absurd hc List.not_mem_nil
  · rw [fat32Write_noCluster hfirstFor hzero] at hout
    rw [← hout]
    refine ⟨flat₁, first, hholds₁, .inl ⟨rfl, ?_⟩⟩
    intro _
    rw [hfull, hnil]
    exact Nat.zero_le _

end Write

/-! ## Integrity -/

/-- A mounted volume with a cache that agrees with its device. -/
structure Consistent (bpb : Bpb) (clusters : ℕ) (vol : Volume) : Prop where
  geometry : Geometry bpb clusters
  mounted : Mounted bpb vol.mount
  cache : CacheInv (clusters + 2) vol

/-- The flat volume that a volume shows. -/
def Volume.flat (vol : Volume) : Flat where
  table := fatEntry vol
  data := vol.device
  search := vol.mount.fatSearchStart

theorem Consistent.shows {bpb : Bpb} {clusters : ℕ} {vol : Volume}
    (hconsistent : Consistent bpb clusters vol) : Shows bpb clusters vol vol.flat :=
  ⟨hconsistent.geometry, hconsistent.mounted, hconsistent.cache, fun _ _ => rfl,
    fun _ _ _ => rfl, rfl⟩

theorem WellFormed.congr {File : Type*} {table table' : ℕ → ℕ} {count : ℕ}
    {heads : File → ℕ} {chains : File → List ℕ}
    (hwell : WellFormed table count heads chains) (htwo : 2 ≤ count)
    (hsame : ∀ index < count, table' index = table index) :
    WellFormed table' count heads chains := by
  refine ⟨?_, ?_, ?_, hwell.disjoint⟩
  · rw [hsame 0 (by omega)]
    exact hwell.first
  · rw [hsame 1 (by omega)]
    exact hwell.second
  · intro x
    apply (hwell.chain x).congr
    intro cluster hmem
    exact hsame cluster ((hwell.chain x).range cluster hmem).2

/-- A write keeps the chains whole, whether it completes, stops short or runs
out of clusters.  The file is followed by its cached first cluster, and its
directory entry is an entry of some directory `d`. -/
theorem fat32Write_keeps_chains {File : Type*} [DecidableEq File] (malloc : ℕ → Bool)
    (bpb : Bpb) (clusters : ℕ) (vol : Volume) (heads : File → ℕ) (chains : File → List ℕ)
    (f d : File) (file : OpenFile) (buffer : ℕ → UInt8) (offset count : ℕ)
    (hconsistent : Consistent bpb clusters vol)
    (hwell : WellFormed (fatEntry vol) (clusters + 2) heads chains)
    (hfirst : file.firstCluster = heads f) (hentry : EntryIn bpb chains d file) :
    Consistent bpb clusters (fat32Write malloc vol file buffer offset count).vol ∧
      ∃ added : List ℕ,
        (∀ cluster ∈ added, fatEntry vol cluster = 0) ∧
        WellFormed (fatEntry (fat32Write malloc vol file buffer offset count).vol)
          (clusters + 2)
          (Function.update heads f
            (fat32Write malloc vol file buffer offset count).file.firstCluster)
          (Function.update chains f (chains f ++ added)) := by
  obtain ⟨out, hout⟩ : ∃ out, fat32Write malloc vol file buffer offset count = out :=
    ⟨_, rfl⟩
  obtain ⟨flat', added, hholds, -⟩ :=
    fat32Write_spec hconsistent.shows hwell hfirst hentry hout
  have hshows := hholds.shows
  rw [hout]
  refine ⟨⟨hshows.geometry, hshows.mounted, hshows.cache⟩, added, hholds.grown.free, ?_⟩
  exact hholds.grown.wellFormed.congr (by omega) hshows.entries

/-- A volume of six clusters of 512 bytes, of which the first is a directory. -/
def smallVolume : Volume where
  mount :=
    { bpb := ⟨512, 1, 1, 1, 8, 1⟩
      blockSizeBytes := 512
      cacheDirty := false
      fatSearchStart := 2
      fatStartSector := 1
      dataStartSector := 2
      fatCacheStart := 0
      fatCacheSize := 0
      fatCacheAllocated := false
      fatCache := fun _ => 0 }
  device := fun a =>
    if 512 ≤ a ∧ a < 524 then if a % 4 = 3 then 0x0F else 0xFF else 0

theorem smallVolume_consistent : Consistent smallVolume.mount.bpb 6 smallVolume := by
  refine ⟨?_, ⟨rfl, rfl, rfl, rfl⟩, FreshCache.inv ⟨rfl, rfl⟩ (by decide) rfl⟩
  exact ⟨by decide, by decide, by decide, by decide, by decide, by decide, by decide,
    by decide, 9, by decide⟩

/-- The directory has the cluster 2, and the file has none. -/
def smallChains : Bool → List ℕ
  | true => [2]
  | false => []

def smallFile : OpenFile where
  firstCluster := 0
  sizeBytes := 0
  fileFlags := 0
  direntCluster := 2
  direntOffset := 0

theorem smallVolume_wellFormed :
    WellFormed (fatEntry smallVolume) 8 (fun x => (smallChains x).headD 0) smallChains := by
  refine ⟨by decide, by decide, ?_, ?_⟩
  · intro x
    refine ⟨rfl, ?_, ?_, ?_, ?_⟩
    · cases x <;> decide
    · cases x <;> decide
    · intro p cluster next _ hnext
      cases x <;> simp [smallChains] at hnext
    · intro last hlast
      cases x with
      | false => cases hlast
      | true =>
          rw [← Option.some.inj hlast]
          decide
  · intro x y hxy cluster hx hy
    cases x with
    | false => cases hx
    | true =>
        cases y with
        | false => cases hy
        | true => exact hxy rfl

end KimisOS.Fat32
