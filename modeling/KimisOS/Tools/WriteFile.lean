import KimisOS.Tools.Diskwrite

/-!
# What writing a file does to the image

The loop of `write_file` follows the chain of the file and links free clusters
behind it, so that it always ends one cluster behind the last one it has
written.  It leaves every other chain and every other cluster alone.
-/

namespace KimisOS.Diskwrite

open KimisOS.ByteStore
open KimisOS.Fat32 (Bpb Geometry IsChain)

/-- A chain with the mark that the tool puts at the end. -/
structure Ended (table : ℕ → ℕ) (count head : ℕ) (chain : List ℕ) : Prop where
  isChain : IsChain table count head chain
  mark : ∀ last, chain.getLast? = some last → table last = fileEnd

/-- The clusters that the tool can find and the image has. -/
def clusterLimit (bpb : Bpb) (clusters : ℕ) : ℕ :=
  min (clusters + 2) (bpb.sectorCount / bpb.sectorsPerCluster)

def usedCount (limit : ℕ) (table : ℕ → ℕ) : ℕ :=
  ((Finset.Ico 2 limit).filter fun c => table c ≠ 0).card

/-- The fields that no write changes. -/
structure Fixed (bpb : Bpb) (clusters root files : ℕ) (info : FatInfo) : Prop where
  geometry : Geometry bpb clusters
  sector : bpb.bytesPerSector = 512
  bpb_eq : info.bpb = bpb
  rootDirCluster : info.rootDirCluster = root
  rootDirEntries : info.rootDirEntries = files
  partitionStart : info.partitionStart = 0
  clusterSearchStart : info.clusterSearchStart = 0

/-! ## Searching -/

theorem firstFrom_spec {found : ℕ → Bool} {rounds i j : ℕ} (hi : i ≤ j)
    (hj : j < i + rounds) (hfound : found j = true) :
    ∃ k ≤ j, firstFrom found rounds i = some k ∧ i ≤ k ∧ found k = true := by
  induction rounds generalizing i with
  | zero => omega
  | succ rounds ih =>
      rw [firstFrom]
      by_cases hhere : found i = true
      · rw [if_pos hhere]
        exact ⟨i, hi, rfl, le_refl i, hhere⟩
      · rw [if_neg hhere]
        have hne : i ≠ j := by
          rintro rfl
          exact hhere hfound
        obtain ⟨k, hk, hfirst, hik, hfoundk⟩ := @ih (i + 1) (by omega) (by omega)
        exact ⟨k, hk, hfirst, by omega, hfoundk⟩

theorem firstFrom_eq {found : ℕ → Bool} {rounds i j : ℕ} (hi : i ≤ j)
    (hj : j < i + rounds) (hfound : found j = true)
    (hbefore : ∀ k, i ≤ k → k < j → found k = false) :
    firstFrom found rounds i = some j := by
  obtain ⟨k, hk, hfirst, hik, hfoundk⟩ := firstFrom_spec hi hj hfound
  rcases Nat.lt_or_eq_of_le hk with hlt | rfl
  · rw [hbefore k hik hlt] at hfoundk
    cases hfoundk
  · exact hfirst

/-- One more entry is taken. -/
theorem usedCount_take {limit cluster : ℕ} {table table' : ℕ → ℕ}
    (hsame : ∀ c < limit, c ≠ cluster → table' c ≠ 0 → table c ≠ 0) :
    usedCount limit table' ≤ usedCount limit table + 1 := by
  have hsub : (Finset.Ico 2 limit).filter (fun c => table' c ≠ 0) ⊆
      insert cluster ((Finset.Ico 2 limit).filter fun c => table c ≠ 0) := by
    intro c hc
    obtain ⟨hmem, htaken⟩ := Finset.mem_filter.mp hc
    by_cases hc' : c = cluster
    · exact Finset.mem_insert.mpr (.inl hc')
    · exact Finset.mem_insert_of_mem (Finset.mem_filter.mpr
        ⟨hmem, hsame c (Finset.mem_Ico.mp hmem).2 hc' htaken⟩)
  calc usedCount limit table'
      ≤ (insert cluster ((Finset.Ico 2 limit).filter fun c => table c ≠ 0)).card :=
        Finset.card_le_card hsub
    _ ≤ usedCount limit table + 1 := Finset.card_insert_le _ _

/-- As long as not every entry is taken there is a free one. -/
theorem exists_free {limit : ℕ} {table : ℕ → ℕ}
    (hroom : usedCount limit table < limit - 2) :
    ∃ c, 2 ≤ c ∧ c < limit ∧ table c = 0 := by
  by_contra hnone
  push Not at hnone
  have hall : (Finset.Ico 2 limit).filter (fun c => table c ≠ 0) = Finset.Ico 2 limit := by
    apply Finset.filter_true_of_mem
    intro c hc
    exact hnone c (Finset.mem_Ico.mp hc).1 (Finset.mem_Ico.mp hc).2
  rw [usedCount, hall, Nat.card_Ico] at hroom
  omega

section Fixed

variable {bpb : Bpb} {clusters root files : ℕ} {info : FatInfo}

theorem Fixed.findFree (hfixed : Fixed bpb clusters root files info)
    (hroom : usedCount (clusterLimit bpb clusters) info.fileTable <
      clusterLimit bpb clusters - 2) :
    ∃ c, findFreeCluster info = some c ∧ 2 ≤ c ∧ c < clusterLimit bpb clusters ∧
      info.fileTable c = 0 := by
  obtain ⟨c, hlow, hlt, hfree⟩ := exists_free hroom
  have hbound : clusterLimit bpb clusters ≤ bpb.sectorCount / bpb.sectorsPerCluster :=
    min_le_right _ _
  obtain ⟨k, hk, hfirst, hlow', hfree'⟩ :=
    @firstFrom_spec (fun i => info.fileTable i == 0)
      (bpb.sectorCount / bpb.sectorsPerCluster - 2) 2 c hlow (by omega)
      (beq_iff_eq.mpr hfree)
  refine ⟨k, ?_, hlow', by omega, beq_iff_eq.mp hfree'⟩
  rw [findFreeCluster, hfixed.clusterSearchStart, if_pos (by decide), hfixed.bpb_eq]
  exact hfirst

/-! ## Single accesses -/

theorem Fixed.sectorOffset_eq (hfixed : Fixed bpb clusters root files info)
    {cluster : ℕ} (hrange : 2 ≤ cluster ∧ cluster < clusters + 2) :
    sectorOffset (info.clusterSector cluster) = bpb.clusterStart cluster := by
  have hclusters := hfixed.geometry.clusters_lt
  have hfits := hfixed.geometry.fits
  have hcount := hfixed.geometry.sectorCount
  have hcs := hfixed.geometry.clusterSize_ge
  obtain ⟨hsectors, hstart, hend⟩ := hfixed.geometry.clusterSector hrange
  have hshift : (cluster + 2 ^ 32 - 2) % 2 ^ 32 = cluster - 2 := by omega
  rw [FatInfo.clusterSector, FatInfo.fileTableSizeSectors, hfixed.bpb_eq,
    hfixed.partitionStart, hshift,
    Nat.mod_eq_of_lt (show bpb.fatCount * bpb.sectorsPerFat < 2 ^ 32 by omega),
    Nat.add_zero, Nat.mod_eq_of_lt hsectors, sectorOffset]
  rw [hfixed.sector] at hstart
  rw [hstart, Nat.mod_eq_of_lt (by omega)]

theorem Fixed.clusterSize_eq (hfixed : Fixed bpb clusters root files info) :
    512 * bpb.sectorsPerCluster = bpb.clusterSizeBytes := by
  rw [Bpb.clusterSizeBytes, hfixed.sector]

theorem Fixed.writeCluster (hfixed : Fixed bpb clusters root files info) {cluster : ℕ}
    (hrange : 2 ≤ cluster ∧ cluster < clusters + 2) (buffer : ℕ → UInt8) :
    Fixed bpb clusters root files (writeCluster info cluster buffer) ∧
      (Diskwrite.writeCluster info cluster buffer).fileTable = info.fileTable ∧
      (Diskwrite.writeCluster info cluster buffer).disk =
        store info.disk (bpb.clusterStart cluster) buffer bpb.clusterSizeBytes := by
  unfold Diskwrite.writeCluster
  refine ⟨⟨hfixed.geometry, hfixed.sector, hfixed.bpb_eq, hfixed.rootDirCluster,
    hfixed.rootDirEntries, hfixed.partitionStart, hfixed.clusterSearchStart⟩, rfl, ?_⟩
  dsimp only
  rw [writeSector, hfixed.sectorOffset_eq hrange, hfixed.bpb_eq, hfixed.clusterSize_eq]

/-- The copies of the table are apart, so an entry is written once in the
first. -/
theorem Fixed.foldl_update (hfixed : Fixed bpb clusters root files info)
    {cluster value : ℕ} (hcluster : cluster < clusters + 2) {copies : ℕ}
    (hcopies : copies ≤ bpb.fatCount) {j : ℕ} (hj : j < clusters + 2) :
    (List.range copies).foldl
      (fun table i => Function.update table
        ((cluster + i * bpb.sectorsPerFat * (bpb.bytesPerSector / 4)) % 2 ^ 32) value)
      info.fileTable j =
      if 1 ≤ copies ∧ j = cluster then value else info.fileTable j := by
  have hsize := hfixed.geometry.fatSize
  have hbelow := hfixed.geometry.below
  have hwords : bpb.bytesPerSector / 4 = 128 := by rw [hfixed.sector]
  rw [hfixed.sector] at hsize
  rw [Bpb.dataOffset, hfixed.sector] at hbelow
  rw [hwords]
  induction copies with
  | zero => rw [List.range_zero, List.foldl_nil, if_neg (by omega)]
  | succ copies ih =>
      rw [List.range_succ, List.foldl_append, List.foldl_cons, List.foldl_nil]
      have hmul : copies * bpb.sectorsPerFat + bpb.sectorsPerFat ≤
          bpb.fatCount * bpb.sectorsPerFat := by
        rw [← Nat.succ_mul]
        exact Nat.mul_le_mul_right _ hcopies
      have hplace : (cluster + copies * bpb.sectorsPerFat * 128) % 2 ^ 32 =
          cluster + copies * bpb.sectorsPerFat * 128 := Nat.mod_eq_of_lt (by omega)
      rw [hplace]
      by_cases hzero : copies = 0
      · subst hzero
        rw [Nat.zero_mul, Nat.zero_mul, Nat.add_zero, Function.update_apply,
          List.range_zero, List.foldl_nil]
        simp
      · have hone : bpb.sectorsPerFat ≤ copies * bpb.sectorsPerFat :=
          Nat.le_mul_of_pos_left _ (Nat.pos_of_ne_zero hzero)
        rw [Function.update_of_ne (by omega), ih (by omega)]
        simp [Nat.one_le_iff_ne_zero, hzero]

theorem Fixed.writeClusterValue (hfixed : Fixed bpb clusters root files info)
    (value : ℕ) {cluster : ℕ} (hcluster : cluster < clusters + 2) :
    Fixed bpb clusters root files (writeClusterValue info value cluster) ∧
      (∀ j < clusters + 2, (Diskwrite.writeClusterValue info value cluster).fileTable j =
        if j = cluster then value else info.fileTable j) ∧
      (Diskwrite.writeClusterValue info value cluster).disk = info.disk := by
  unfold Diskwrite.writeClusterValue
  refine ⟨⟨hfixed.geometry, hfixed.sector, hfixed.bpb_eq, hfixed.rootDirCluster,
    hfixed.rootDirEntries, hfixed.partitionStart, hfixed.clusterSearchStart⟩, ?_, rfl⟩
  intro j hj
  have hall := @Fixed.foldl_update bpb clusters root files info hfixed cluster value
    hcluster bpb.fatCount (le_refl _) j hj
  dsimp only
  rw [hfixed.bpb_eq, hall]
  simp [hfixed.geometry.fatCount]

end Fixed

/-! ## The chain of a file -/

section Ended

variable {table table' : ℕ → ℕ} {count head : ℕ} {chain : List ℕ}

theorem Ended.congr (hended : Ended table count head chain)
    (hsame : ∀ c ∈ chain, table' c = table c) : Ended table' count head chain :=
  ⟨hended.isChain.congr hsame, fun last hlast => by
    rw [hsame last (List.mem_of_getLast? hlast), hended.mark last hlast]⟩

theorem Ended.fileEnd_iff (hended : Ended table count head chain)
    (hcount : count ≤ Fat32.fat32EocMin) {p cluster : ℕ}
    (hp : chain[p]? = some cluster) :
    (table cluster = fileEnd ∧ p + 1 = chain.length) ∨
      (table cluster ≠ fileEnd ∧ chain[p + 1]? = some (table cluster)) := by
  rcases hended.isChain.next hcount hp with ⟨hlt, hnext⟩ | ⟨-, hend⟩
  · right
    refine ⟨?_, hnext⟩
    unfold Fat32.fat32EocMin at hlt
    unfold fileEnd
    omega
  · left
    refine ⟨hended.mark cluster ?_, hend⟩
    rw [List.getLast?_eq_getElem?, ← hend, Nat.add_sub_cancel]
    exact hp

/-- A free cluster is linked behind the last one. -/
theorem Ended.append (hended : Ended table count head chain) {last cluster : ℕ}
    (hlast : chain.getLast? = some last) (hnew : cluster ∉ chain)
    (hrange : 2 ≤ cluster ∧ cluster < count)
    (htable : ∀ c < count, table' c =
      if c = cluster then fileEnd else if c = last then cluster else table c) :
    Ended table' count head (chain ++ [cluster]) := by
  have hmarked : Fat32.fat32EocMin ≤ fileEnd := by decide
  have happend := hended.isChain.append hlast hnew hrange hmarked
  have hsame : ∀ c ∈ chain ++ [cluster], table' c =
      Function.update (Function.update table last cluster) cluster fileEnd c := by
    intro c hc
    rw [htable c (happend.range c hc).2, Function.update_apply, Function.update_apply]
  refine ⟨happend.congr hsame, ?_⟩
  intro c hc
  rw [List.getLast?_concat] at hc
  obtain rfl : cluster = c := Option.some.inj hc
  rw [htable cluster hrange.2, if_pos rfl]

end Ended

/-! ## The loop -/

/-- The loop and what follows it only come to clusters of the image; beyond them there is
neither an entry in the table nor a sector. -/
def StaysInside (clusters : ℕ) (buffer : ℕ → UInt8) : ℕ → FatInfo → ℕ → ℕ → Prop
  | 0, _, cluster, _ => 2 ≤ cluster ∧ cluster < clusters + 2
  | rounds + 1, info, cluster, i =>
      (2 ≤ cluster ∧ cluster < clusters + 2) ∧
        let info := writeCluster info cluster
          (load buffer (i * info.bpb.sectorsPerCluster * info.bpb.bytesPerSector % 2 ^ 32))
        if info.fileTable cluster = fileEnd then
          ∀ next, findFreeCluster info = some next →
            StaysInside clusters buffer rounds
              (writeClusterValue (writeClusterValue info next cluster) fileEnd next)
              next (i + 1)
        else StaysInside clusters buffer rounds info (info.fileTable cluster) (i + 1)

/-- What the loop of `write_file` leaves, from place `start` of the chain on. -/
structure Wrote (bpb : Bpb) (clusters : ℕ) (info info' : FatInfo) (head : ℕ)
    (chain chain' : List ℕ) (buffer : ℕ → UInt8) (start rounds : ℕ) : Prop where
  ended : Ended info'.fileTable (clusters + 2) head chain'
  length : chain'.length = start + rounds + 1
  added : ∃ added, chain' = chain ++ added ∧ ∀ c ∈ added, info.fileTable c = 0
  others : ∀ c < clusters + 2, c ∉ chain' → info'.fileTable c = info.fileTable c
  used : usedCount (clusterLimit bpb clusters) info'.fileTable + chain.length ≤
    usedCount (clusterLimit bpb clusters) info.fileTable + chain'.length
  bytes : ∀ t < rounds * bpb.clusterSizeBytes,
    info'.disk (bpb.fileAddress chain' (start * bpb.clusterSizeBytes + t)) =
      buffer (start * bpb.clusterSizeBytes + t)
  frame : ∀ a, (∀ t < rounds * bpb.clusterSizeBytes,
    a ≠ bpb.fileAddress chain' (start * bpb.clusterSizeBytes + t)) →
    info'.disk a = info.disk a

section Wrote

variable {bpb : Bpb} {clusters root files head : ℕ} {info info₁ info' : FatInfo}
  {chain extra chain' : List ℕ} {buffer : ℕ → UInt8} {start rounds cluster : ℕ}

theorem Wrote.nothing (hended : Ended info.fileTable (clusters + 2) head chain)
    (hlength : chain.length = start + 1) :
    Wrote bpb clusters info info head chain chain buffer start 0 := by
  refine ⟨hended, hlength, ⟨[], (List.append_nil chain).symm, ?_⟩, fun _ _ _ => rfl, le_refl _,
    ?_, fun _ _ => rfl⟩
  · intro c hc
    cases hc
  · intro t ht
    rw [Nat.zero_mul] at ht
    exact absurd ht (Nat.not_lt_zero t)

/-- The rounds from the next place on keep the cluster in front of it. -/
theorem Wrote.keeps_before (hgeo : Geometry bpb clusters)
    (hrest : Wrote bpb clusters info₁ info' head chain chain' buffer (start + 1) rounds)
    (hplace : chain'[start]? = some cluster) {t : ℕ} (ht : t < bpb.clusterSizeBytes) :
    info'.disk (bpb.clusterStart cluster + t) = info₁.disk (bpb.clusterStart cluster + t) := by
  have hlength := hrest.length
  have hinside : ∀ x < (start + 1 + rounds) * bpb.clusterSizeBytes,
      x / bpb.clusterSizeBytes < chain'.length := by
    intro x hx
    have hdiv := (Nat.div_lt_iff_lt_mul (show 0 < bpb.clusterSizeBytes by omega)).mpr hx
    omega
  rw [Nat.add_mul, Nat.succ_mul] at hinside
  apply hrest.frame
  intro t' ht' heq
  rw [← hgeo.fileAddress_eq hplace ht, Nat.succ_mul, Nat.add_assoc] at heq
  have hsame := hgeo.fileAddress_inj hrest.ended.isChain (hinside _ (by omega))
    (hinside _ (by omega)) heq
  omega

/-- One round writes a cluster, and the rounds behind it write the rest. -/
theorem Wrote.step (hgeo : Geometry bpb clusters) (hp : chain[start]? = some cluster)
    (hdisk : info₁.disk = store info.disk (bpb.clusterStart cluster)
      (load buffer (start * bpb.clusterSizeBytes)) bpb.clusterSizeBytes)
    (hextra : ∀ c ∈ extra, info.fileTable c = 0)
    (hothers : ∀ c < clusters + 2, c ∉ chain ++ extra →
      info₁.fileTable c = info.fileTable c)
    (hused : usedCount (clusterLimit bpb clusters) info₁.fileTable ≤
      usedCount (clusterLimit bpb clusters) info.fileTable + extra.length)
    (hrest : Wrote bpb clusters info₁ info' head (chain ++ extra) chain' buffer
      (start + 1) rounds) :
    Wrote bpb clusters info info' head chain chain' buffer start (rounds + 1) := by
  have hcs := hgeo.clusterSize_ge
  obtain ⟨added, hchain', hfresh⟩ := hrest.added
  have hrange := hrest.ended.isChain.range
  have hplace : chain'[start]? = some cluster := by
    have hlt := (List.getElem?_eq_some_iff.mp hp).1
    rw [hchain', List.append_assoc, List.getElem?_append_left hlt]
    exact hp
  -- The bytes of the rest start one cluster later.
  have hlater : ∀ t, (start + 1) * bpb.clusterSizeBytes + t =
      start * bpb.clusterSizeBytes + (bpb.clusterSizeBytes + t) := by
    intro t
    rw [Nat.succ_mul, Nat.add_assoc]
  have hlength := hrest.length
  refine ⟨hrest.ended, by omega, ⟨extra ++ added, ?_, ?_⟩, ?_, ?_, ?_, ?_⟩
  · rw [hchain', List.append_assoc]
  · intro c hc
    rcases List.mem_append.mp hc with hc | hc
    · exact hextra c hc
    · by_cases hmem : c ∈ chain ++ extra
      · have hnodup := hrest.ended.isChain.nodup
        rw [hchain'] at hnodup
        exact absurd hc (List.disjoint_of_nodup_append hnodup hmem)
      · have hlt := (hrange c (hchain' ▸ List.mem_append_right _ hc)).2
        rw [← hothers c hlt hmem]
        exact hfresh c hc
  · intro c hc hout
    have hout' : c ∉ chain ++ extra := by
      intro hmem
      exact hout (hchain' ▸ List.mem_append_left _ hmem)
    rw [hrest.others c hc hout, hothers c hc hout']
  · have hcount := hrest.used
    rw [List.length_append] at hcount
    omega
  · intro t ht
    rw [Nat.succ_mul] at ht
    by_cases hfirst : t < bpb.clusterSizeBytes
    · rw [hgeo.fileAddress_eq hplace hfirst, hrest.keeps_before hgeo hplace hfirst, hdisk,
        store_inside hfirst, load]
    · have hlast := hrest.bytes (t - bpb.clusterSizeBytes) (by omega)
      rw [hlater, Nat.add_sub_of_le (by omega)] at hlast
      exact hlast
  · intro a ha
    have hrestFrame := hrest.frame a fun t ht => by
      rw [hlater]
      apply ha
      rw [Nat.succ_mul]
      omega
    rw [hrestFrame, hdisk]
    apply store_outside
    by_contra hinside
    obtain ⟨k, rfl, hk⟩ : ∃ k, a = bpb.clusterStart cluster + k ∧
        k < bpb.clusterSizeBytes :=
      ⟨a - bpb.clusterStart cluster, by omega, by omega⟩
    apply ha k (by rw [Nat.succ_mul]; omega)
    exact (hgeo.fileAddress_eq hplace hk).symm

/-- The clusters of a chain with one more, `free`, linked behind the last one. -/
structure Linked (bpb : Bpb) (clusters root files head : ℕ) (info info' : FatInfo)
    (chain : List ℕ) (free : ℕ) : Prop where
  fixed : Fixed bpb clusters root files info'
  fresh : info.fileTable free = 0
  ended : Ended info'.fileTable (clusters + 2) head (chain ++ [free])
  others : ∀ c < clusters + 2, c ∉ chain ++ [free] → info'.fileTable c = info.fileTable c
  used : usedCount (clusterLimit bpb clusters) info'.fileTable ≤
    usedCount (clusterLimit bpb clusters) info.fileTable + 1
  disk : info'.disk = info.disk

theorem Fixed.link (hfixed : Fixed bpb clusters root files info)
    (hended : Ended info.fileTable (clusters + 2) head chain)
    (hlast : chain.getLast? = some cluster)
    (hroom : usedCount (clusterLimit bpb clusters) info.fileTable <
      clusterLimit bpb clusters - 2) :
    ∃ free, findFreeCluster info = some free ∧
      Linked bpb clusters root files head info
        (Diskwrite.writeClusterValue (Diskwrite.writeClusterValue info free cluster) fileEnd
          free) chain free := by
  have hgeo := hfixed.geometry
  have hmem := List.mem_of_getLast? hlast
  have hrange := hended.isChain.range cluster hmem
  have hlimit : clusterLimit bpb clusters ≤ clusters + 2 := min_le_left _ _
  obtain ⟨free, hfind, hlow, hless, hfree⟩ := hfixed.findFree hroom
  have hfreeRange : 2 ≤ free ∧ free < clusters + 2 := ⟨hlow, by omega⟩
  have hnew : free ∉ chain :=
    fun hin => hended.isChain.ne_zero hgeo.count_le hin hfree
  obtain ⟨hfixed₁, htable₁, hdisk₁⟩ := hfixed.writeClusterValue free hrange.2
  obtain ⟨hfixed₂, htable₂, hdisk₂⟩ := hfixed₁.writeClusterValue fileEnd hfreeRange.2
  refine ⟨free, hfind, ?_⟩
  generalize Diskwrite.writeClusterValue (Diskwrite.writeClusterValue info free cluster)
    fileEnd free = info₂
    at hfixed₂ htable₂ hdisk₂ ⊢
  have htable : ∀ c < clusters + 2, info₂.fileTable c = if c = free then fileEnd
      else if c = cluster then free else info.fileTable c := by
    intro c hc
    rw [htable₂ c hc, htable₁ c hc]
  refine ⟨hfixed₂, hfree, hended.append hlast hnew hfreeRange htable, ?_, ?_,
    hdisk₂.trans hdisk₁⟩
  · intro c hc hout
    rw [List.mem_append, List.mem_singleton, not_or] at hout
    rw [htable c hc, if_neg hout.2, if_neg]
    rintro rfl
    exact hout.1 hmem
  · apply @usedCount_take _ free
    intro c hc hne htaken hzero
    rw [htable c (by omega), if_neg hne] at htaken
    by_cases hcluster : c = cluster
    · rw [hcluster] at hzero
      exact hended.isChain.ne_zero hgeo.count_le hmem hzero
    · rw [if_neg hcluster] at htaken
      exact htaken hzero

/-- The loop of `write_file`, when there are enough free clusters. -/
theorem writeFileFrom_spec (hfixed : Fixed bpb clusters root files info)
    (hended : Ended info.fileTable (clusters + 2) head chain)
    (hp : chain[start]? = some cluster) (hlength : chain.length ≤ start + rounds + 1)
    (hroom : usedCount (clusterLimit bpb clusters) info.fileTable +
      (start + rounds + 1) ≤ clusterLimit bpb clusters - 2 + chain.length) :
    ∃ info' chain' last,
      writeFileFrom buffer rounds info cluster start = some (info', last) ∧
      Fixed bpb clusters root files info' ∧
      Wrote bpb clusters info info' head chain chain' buffer start rounds ∧
      chain'[start + rounds]? = some last ∧
      StaysInside clusters buffer rounds info cluster start := by
  have hgeo := hfixed.geometry
  induction rounds generalizing info chain start cluster with
  | zero =>
      have hlt := (List.getElem?_eq_some_iff.mp hp).1
      exact ⟨info, chain, cluster, rfl, hfixed, Wrote.nothing hended (by omega), hp,
        hended.isChain.range cluster (List.mem_of_getElem? hp)⟩
  | succ rounds ih =>
      have hlt := (List.getElem?_eq_some_iff.mp hp).1
      have hrange := hended.isChain.range cluster (List.mem_of_getElem? hp)
      have hindex : start * info.bpb.sectorsPerCluster * info.bpb.bytesPerSector % 2 ^ 32 =
          start * bpb.clusterSizeBytes := by
        rw [hfixed.bpb_eq, Nat.mul_assoc, Nat.mul_comm bpb.sectorsPerCluster]
        exact Nat.mod_eq_of_lt (hgeo.place_lt hended.isChain hp)
      obtain ⟨hfixed₁, htable₁, hdisk₁⟩ := hfixed.writeCluster hrange
        (load buffer (start * bpb.clusterSizeBytes))
      rw [writeFileFrom, StaysInside, hindex]
      dsimp only
      generalize writeCluster info cluster (load buffer (start * bpb.clusterSizeBytes)) =
        info₁ at hfixed₁ htable₁ hdisk₁ ⊢
      have hended₁ := hended.congr fun c _ => congrFun htable₁ c
      have hplace : start + (rounds + 1) = start + 1 + rounds := by omega
      rcases hended.fileEnd_iff hgeo.count_le hp with ⟨hmark, hend⟩ | ⟨hmark, hnext⟩
      · rw [htable₁, if_pos hmark]
        have hlast : chain.getLast? = some cluster := by
          rw [List.getLast?_eq_getElem?, ← hend, Nat.add_sub_cancel]
          exact hp
        obtain ⟨free, hfind, hlinked⟩ := hfixed₁.link hended₁ hlast (by
          rw [htable₁]
          omega)
        have hfresh := hlinked.fresh
        have hothers := hlinked.others
        have hused := hlinked.used
        have hp₂ : (chain ++ [free])[start + 1]? = some free := by
          rw [hend]
          exact List.getElem?_concat_length
        rw [htable₁] at hfresh hothers hused
        rw [hfind]
        dsimp only
        obtain ⟨info', chain', last, hloop, hfixed', hwrote, hlast', hinside⟩ :=
          @ih _ (chain ++ [free]) (start + 1) free hlinked.fixed hlinked.ended hp₂
            (by rw [List.length_append, List.length_singleton]; omega)
            (by rw [List.length_append, List.length_singleton]; omega)
        refine ⟨info', chain', last, hloop, hfixed', ?_, hplace ▸ hlast', hrange, ?_⟩
        · refine Wrote.step hgeo hp (hlinked.disk.trans hdisk₁) ?_ hothers hused hwrote
          intro c hc
          rw [List.mem_singleton.mp hc]
          exact hfresh
        · rw [if_pos hmark]
          intro other hother
          obtain rfl : free = other := Option.some.inj hother
          exact hinside
      · rw [htable₁, if_neg hmark]
        obtain ⟨info', chain', last, hloop, hfixed', hwrote, hlast', hinside⟩ :=
          @ih info₁ chain (start + 1) _ hfixed₁ hended₁ hnext (by omega)
            (by rw [htable₁]; omega)
        refine ⟨info', chain', last, hloop, hfixed', ?_, hplace ▸ hlast', hrange, ?_⟩
        · rw [← List.append_nil chain] at hwrote
          refine Wrote.step hgeo hp hdisk₁ ?_ ?_ ?_ hwrote
          · intro c hc
            cases hc
          · intro c _ _
            exact congrFun htable₁ c
          · rw [htable₁]
            exact Nat.le_add_right _ _
        · rw [if_neg hmark]
          exact hinside

/-- Another table that is the same on the clusters. -/
theorem Wrote.retouch
    (hwrote : Wrote bpb clusters info info' head chain chain' buffer start rounds)
    (htable : ∀ c < clusters + 2, info₁.fileTable c = info'.fileTable c)
    (hdisk : info₁.disk = info'.disk) :
    Wrote bpb clusters info info₁ head chain chain' buffer start rounds := by
  have hused : usedCount (clusterLimit bpb clusters) info₁.fileTable =
      usedCount (clusterLimit bpb clusters) info'.fileTable := by
    have hlimit : clusterLimit bpb clusters ≤ clusters + 2 := min_le_left _ _
    rw [usedCount, usedCount]
    congr 1
    apply Finset.filter_congr
    intro c hc
    rw [htable c (by have := (Finset.mem_Ico.mp hc).2; omega)]
  refine ⟨?_, hwrote.length, hwrote.added, ?_, ?_, ?_, ?_⟩
  · exact hwrote.ended.congr fun c hc => htable c (hwrote.ended.isChain.range c hc).2
  · intro c hc hout
    rw [htable c hc]
    exact hwrote.others c hc hout
  · rw [hused]
    exact hwrote.used
  · rw [hdisk]
    exact hwrote.bytes
  · rw [hdisk]
    exact hwrote.frame

/-- The bytes that `write_file` writes. -/
def padded (buffer : ℕ → UInt8) (size : ℕ) : ℕ → UInt8 :=
  fun k => if k < size then buffer k else 0

/-- The call is the loop over the padded buffer, and the end mark on the cluster that the
loop stops at. -/
theorem writeFile_eq {info' : FatInfo} {size last : ℕ}
    (hloop : writeFileFrom (padded buffer size) ((size / info.bpb.clusterSizeBytes + 1) % 2 ^ 32)
      info cluster 0 = some (info', last)) :
    writeFile info cluster buffer size =
      some (Diskwrite.writeClusterValue info' fileEnd last) := by
  rw [writeFile]
  unfold padded at hloop
  rw [hloop]

theorem writeFile_spec (buffer : ℕ → UInt8) {size : ℕ} (hfixed : Fixed bpb clusters root files info)
    (hended : Ended info.fileTable (clusters + 2) head chain)
    (hp : chain[0]? = some cluster)
    (hlength : chain.length ≤ size / bpb.clusterSizeBytes + 2)
    (hsize : size < 2 ^ 32)
    (hroom : usedCount (clusterLimit bpb clusters) info.fileTable +
      (size / bpb.clusterSizeBytes + 2) ≤ clusterLimit bpb clusters - 2 + chain.length) :
    ∃ info' chain', writeFile info cluster buffer size = some info' ∧
      Fixed bpb clusters root files info' ∧
      Wrote bpb clusters info info' head chain chain' (padded buffer size) 0
        (size / bpb.clusterSizeBytes + 1) ∧
      StaysInside clusters (padded buffer size) (size / bpb.clusterSizeBytes + 1) info cluster
        0 := by
  have hcs := hfixed.geometry.clusterSize_ge
  have hrounds : (size / bpb.clusterSizeBytes + 1) % 2 ^ 32 =
      size / bpb.clusterSizeBytes + 1 := by
    have hle : size / bpb.clusterSizeBytes ≤ size / 512 := Nat.div_le_div_left hcs (by decide)
    exact Nat.mod_eq_of_lt (by omega)
  obtain ⟨info', chain', last, hloop, hfixed', hwrote, hlast, hinside⟩ :=
    @writeFileFrom_spec bpb clusters root files head info chain (padded buffer size) 0
      (size / bpb.clusterSizeBytes + 1) cluster hfixed hended hp (by omega) (by omega)
  have hrange := hwrote.ended.isChain.range last (List.mem_of_getElem? hlast)
  have hmark : info'.fileTable last = fileEnd := by
    apply hwrote.ended.mark
    rw [List.getLast?_eq_getElem?, hwrote.length, Nat.add_sub_cancel]
    exact hlast
  obtain ⟨hfixed'', htable, hdisk⟩ := hfixed'.writeClusterValue fileEnd hrange.2
  refine ⟨_, chain', ?_, hfixed'', hwrote.retouch ?_ hdisk, hinside⟩
  · apply writeFile_eq
    rw [hfixed.bpb_eq, hrounds, hloop]
  · intro c hc
    rw [htable c hc]
    split
    case isTrue heq => rw [heq, hmark]
    case isFalse => rfl

/-! ## The other chains -/

/-- A chain beside the one that is written stays where it is, whatever its mark. -/
theorem Wrote.keepsChain {head' : ℕ} {other : List ℕ} (hgeo : Geometry bpb clusters)
    (hwrote : Wrote bpb clusters info info' head chain chain' buffer start rounds)
    (hother : IsChain info.fileTable (clusters + 2) head' other)
    (hdisjoint : other.Disjoint chain) :
    other.Disjoint chain' ∧ (∀ c ∈ other, info'.fileTable c = info.fileTable c) ∧
      ∀ x, x / bpb.clusterSizeBytes < other.length →
        info'.disk (bpb.fileAddress other x) = info.disk (bpb.fileAddress other x) := by
  have hcs := hgeo.clusterSize_ge
  obtain ⟨added, hchain', hfresh⟩ := hwrote.added
  have hapart : other.Disjoint chain' := by
    intro c hc hmem
    rw [hchain'] at hmem
    rcases List.mem_append.mp hmem with hmem | hmem
    · exact hdisjoint hc hmem
    · exact hother.ne_zero hgeo.count_le hc (hfresh c hmem)
  refine ⟨hapart, ?_, ?_⟩
  · intro c hc
    exact hwrote.others c (hother.range c hc).2 fun hmem => hapart hc hmem
  · intro x hx
    apply hwrote.frame
    intro t ht heq
    have hlength := hwrote.length
    have hplace : (start * bpb.clusterSizeBytes + t) / bpb.clusterSizeBytes <
        chain'.length := by
      rw [Nat.div_lt_iff_lt_mul (by omega), hlength, Nat.succ_mul, Nat.add_mul]
      omega
    rw [Bpb.fileAddress, Bpb.fileAddress, List.getD_eq_getElem _ _ hx,
      List.getD_eq_getElem _ _ hplace] at heq
    have hsame := hgeo.clusterStart_inj
      (hother.range _ (List.getElem_mem hx)).1
      (hwrote.ended.isChain.range _ (List.getElem_mem hplace)).1
      (Nat.mod_lt _ (by omega)) (Nat.mod_lt _ (by omega)) heq
    exact hapart (List.getElem_mem hx) (hsame.1 ▸ List.getElem_mem hplace)

/-- A file beside the one that is written stays where it is. -/
theorem Wrote.keeps {head' : ℕ} {other : List ℕ} (hgeo : Geometry bpb clusters)
    (hwrote : Wrote bpb clusters info info' head chain chain' buffer start rounds)
    (hended : Ended info.fileTable (clusters + 2) head' other)
    (hdisjoint : other.Disjoint chain) :
    Ended info'.fileTable (clusters + 2) head' other ∧ other.Disjoint chain' ∧
      ∀ x, x / bpb.clusterSizeBytes < other.length →
        info'.disk (bpb.fileAddress other x) = info.disk (bpb.fileAddress other x) := by
  obtain ⟨hapart, htable, hbytes⟩ := hwrote.keepsChain hgeo hended.isChain hdisjoint
  exact ⟨hended.congr htable, hapart, hbytes⟩

end Wrote

end KimisOS.Diskwrite
