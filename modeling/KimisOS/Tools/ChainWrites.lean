import KimisOS.Tools.RootEntry

/-!
# Writing over chains of others

A chain that another tool has laid may be longer than what is written over it, and it
may end in another mark.  `write_file` cuts it behind the cluster that follows the last
one written, and it takes every mark but its own for a cluster.
-/

namespace KimisOS.Diskwrite

open KimisOS.ByteStore
open KimisOS.Fat32 (Bpb Geometry IsChain)

section ChainWrites

variable {bpb : Bpb} {clusters root files head : ℕ} {info info' : FatInfo}
  {chain chain' : List ℕ} {buffer : ℕ → UInt8} {start rounds cluster : ℕ}

/-- The image after a round. -/
def written (buffer : ℕ → UInt8) (info : FatInfo) (cluster i : ℕ) : FatInfo :=
  writeCluster info cluster
    (load buffer (i * info.bpb.sectorsPerCluster * info.bpb.bytesPerSector % 2 ^ 32))

theorem writeFileFrom_next (hmark : info.fileTable cluster ≠ fileEnd) :
    writeFileFrom buffer (rounds + 1) info cluster start =
      writeFileFrom buffer rounds (written buffer info cluster start) (info.fileTable cluster)
        (start + 1) := by
  rw [writeFileFrom]
  exact if_neg hmark

theorem staysInside_next (hmark : info.fileTable cluster ≠ fileEnd) :
    StaysInside clusters buffer (rounds + 1) info cluster start ↔
      (2 ≤ cluster ∧ cluster < clusters + 2) ∧
        StaysInside clusters buffer rounds (written buffer info cluster start)
          (info.fileTable cluster) (start + 1) := by
  rw [StaysInside]
  exact and_congr_right fun _ => iff_of_eq (if_neg hmark)

theorem written_fileTable (buffer : ℕ → UInt8) (info : FatInfo) (cluster i : ℕ) :
    (written buffer info cluster i).fileTable = info.fileTable := by
  unfold written writeCluster
  rfl

theorem clusterSector_congr {other : FatInfo} (hbpb : other.bpb = info.bpb)
    (hstart : other.partitionStart = info.partitionStart) :
    other.clusterSector cluster = info.clusterSector cluster := by
  rw [FatInfo.clusterSector, FatInfo.clusterSector, FatInfo.fileTableSizeSectors,
    FatInfo.fileTableSizeSectors, hbpb, hstart]

theorem written_retable (buffer : ℕ → UInt8) (info : FatInfo) (cluster i : ℕ)
    (table : ℕ → ℕ) :
    written buffer { info with fileTable := table } cluster i =
      { written buffer info cluster i with fileTable := table } := by
  have hsector : ({ info with fileTable := table } : FatInfo).clusterSector cluster =
      info.clusterSector cluster := clusterSector_congr rfl rfl
  unfold written writeCluster
  rw [hsector]

/-- A cluster that is not the last one of a chain. -/
theorem ne_fileEnd (hlow : info.fileTable cluster < Fat32.fat32EocMin) :
    info.fileTable cluster ≠ fileEnd := by
  unfold Fat32.fat32EocMin at hlow
  unfold fileEnd
  omega

/-- A loop that stays within the chain does not use the entries behind the places that it
comes to. -/
theorem writeFileFrom_retable {table : ℕ → ℕ}
    (hchain : IsChain info.fileTable (clusters + 2) head chain)
    (hcount : clusters + 2 ≤ Fat32.fat32EocMin) (hp : chain[start]? = some cluster)
    (hlength : start + rounds < chain.length)
    (htable : ∀ p, p < start + rounds → ∀ c, chain[p]? = some c →
      table c = info.fileTable c) :
    writeFileFrom buffer rounds { info with fileTable := table } cluster start =
        (writeFileFrom buffer rounds info cluster start).map
          (fun done => ({ done.1 with fileTable := table }, done.2)) ∧
      (StaysInside clusters buffer rounds info cluster start →
        StaysInside clusters buffer rounds { info with fileTable := table } cluster start) := by
  induction rounds generalizing info start cluster with
  | zero => exact ⟨rfl, id⟩
  | succ rounds ih =>
      have hsame := htable start (by omega) cluster hp
      rcases hchain.next hcount hp with ⟨hlow, hnext⟩ | ⟨-, hend⟩
      · have hmark := ne_fileEnd hlow
        have hmark' : ({ info with fileTable := table } : FatInfo).fileTable cluster ≠ fileEnd :=
          fun hend => hmark (hsame.symm.trans hend)
        have hwritten := written_retable buffer info cluster start table
        have hkept := written_fileTable buffer info cluster start
        obtain ⟨hloop, hinside⟩ := @ih (written buffer info cluster start) (start + 1)
          (info.fileTable cluster) (by rwa [hkept]) hnext (by omega)
          (by rw [hkept]; exact fun p hp' => htable p (by omega))
        constructor
        · rw [writeFileFrom_next hmark, writeFileFrom_next hmark', hwritten]
          change writeFileFrom buffer rounds _ (table cluster) (start + 1) = _
          rw [hsame, hloop]
        · rw [staysInside_next hmark, staysInside_next hmark', hwritten]
          rintro ⟨hrange, hrest⟩
          refine ⟨hrange, ?_⟩
          change StaysInside clusters buffer rounds _ (table cluster) (start + 1)
          rw [hsame]
          exact hinside hrest
      · omega

/-- A chain with another mark that is too short leads out of the image. -/
theorem not_staysInside (hchain : IsChain info.fileTable (clusters + 2) head chain)
    (hcount : clusters + 2 ≤ Fat32.fat32EocMin) (hp : chain[start]? = some cluster)
    (hlength : chain.length ≤ start + rounds)
    (hmark : ∀ last, chain.getLast? = some last → info.fileTable last ≠ fileEnd) :
    ¬ StaysInside clusters buffer rounds info cluster start := by
  have hlt := (List.getElem?_eq_some_iff.mp hp).1
  induction rounds generalizing info start cluster with
  | zero => omega
  | succ rounds ih =>
      have hgo : info.fileTable cluster ≠ fileEnd := by
        rcases hchain.next hcount hp with ⟨hlow, -⟩ | ⟨-, hlast⟩
        · exact ne_fileEnd hlow
        · apply hmark
          rw [List.getLast?_eq_getElem?, ← hlast, Nat.add_sub_cancel]
          exact hp
      rw [staysInside_next hgo]
      rintro ⟨-, hinside⟩
      rcases hchain.next hcount hp with ⟨-, hnext⟩ | ⟨hend, -⟩
      · have hlt' := (List.getElem?_eq_some_iff.mp hnext).1
        have hkept := written_fileTable buffer info cluster start
        exact @ih (written buffer info cluster start) (start + 1) _ (by rwa [hkept]) hnext
          (by omega) (by rwa [hkept]) hlt' hinside
      · -- the mark is taken for a cluster
        have hbelow : info.fileTable cluster < clusters + 2 := by
          cases rounds with
          | zero => exact hinside.2
          | succ rounds => exact hinside.1.2
        omega

/-! ## Cutting a chain -/

/-- The chain up to a place behind which it is cut. -/
theorem ended_take {last : ℕ} (hchain : IsChain info.fileTable (clusters + 2) head chain)
    (hlast : chain[rounds]? = some last) :
    Ended (Function.update info.fileTable last fileEnd) (clusters + 2) head
      (chain.take (rounds + 1)) := by
  have hlt := (List.getElem?_eq_some_iff.mp hlast).1
  have hlength : (chain.take (rounds + 1)).length = rounds + 1 := by
    rw [List.length_take]
    omega
  have hend : (chain.take (rounds + 1)).getLast? = some last := by
    rw [List.getLast?_eq_getElem?, hlength, Nat.add_sub_cancel,
      List.getElem?_take_of_lt (Nat.lt_succ_self rounds), hlast]
  refine ⟨⟨?_, ?_, hchain.nodup.take, ?_, ?_⟩, ?_⟩
  · rw [← hchain.starts, List.headD_eq_head?_getD, List.headD_eq_head?_getD, List.head?_take,
      if_neg (Nat.succ_ne_zero rounds)]
  · intro c hc
    exact hchain.range c (List.mem_of_mem_take hc)
  · intro p c next hp hnext
    have hp' : p + 1 < rounds + 1 := hlength ▸ (List.getElem?_eq_some_iff.mp hnext).1
    rw [List.getElem?_take_of_lt (by omega)] at hp
    rw [List.getElem?_take_of_lt hp'] at hnext
    have hne : c ≠ last := by
      rintro rfl
      have hsame := (List.getElem?_inj (by omega) hchain.nodup).mp (hp.trans hlast.symm)
      omega
    rw [Function.update_of_ne hne]
    exact hchain.links p c next hp hnext
  · intro c hc
    obtain rfl := Option.some.inj (hend.symm.trans hc)
    rw [Function.update_self]
    decide
  · intro c hc
    obtain rfl := Option.some.inj (hend.symm.trans hc)
    exact Function.update_self _ _ _

/-- Ending an entry that is taken does not take another one. -/
theorem usedCount_update {limit last value : ℕ} {table : ℕ → ℕ} (htaken : table last ≠ 0)
    (hvalue : value ≠ 0) : usedCount limit (Function.update table last value) =
      usedCount limit table := by
  rw [usedCount, usedCount]
  congr 1
  apply Finset.filter_congr
  intro c _
  by_cases hc : c = last
  · rw [hc, Function.update_self]
    exact iff_of_true hvalue htaken
  · rw [Function.update_of_ne hc]

theorem usedCount_le (limit : ℕ) (table : ℕ → ℕ) : usedCount limit table ≤ limit - 2 := by
  rw [usedCount, ← Nat.card_Ico]
  exact Finset.card_filter_le _ _

/-- The fields stay with another table. -/
theorem Fixed.retable (hfixed : Fixed bpb clusters root files info) (table : ℕ → ℕ) :
    Fixed bpb clusters root files { info with fileTable := table } :=
  ⟨hfixed.geometry, hfixed.sector, hfixed.bpb_eq, hfixed.rootDirCluster,
    hfixed.rootDirEntries, hfixed.partitionStart, hfixed.clusterSearchStart⟩

/-- A chain that is long enough stays. -/
theorem Wrote.chain_eq
    (hwrote : Wrote bpb clusters info info' head chain chain' buffer start rounds)
    (hlength : chain.length = start + rounds + 1) : chain' = chain := by
  obtain ⟨added, hchain', -⟩ := hwrote.added
  have hlength' := hwrote.length
  have hnone : added = [] := by
    rw [hchain', List.length_append] at hlength'
    exact List.eq_nil_of_length_eq_zero (by omega)
  rw [hchain', hnone, List.append_nil]

/-- It does not matter whether an entry of the chain was an end before. -/
theorem Wrote.of_update {last : ℕ} (hmem : last ∈ chain')
    (htaken : info.fileTable last ≠ 0)
    (hwrote : Wrote bpb clusters
      { info with fileTable := Function.update info.fileTable last fileEnd } info' head chain
      chain' buffer start rounds) :
    Wrote bpb clusters info info' head chain chain' buffer start rounds := by
  obtain ⟨added, hchain', hfresh⟩ := hwrote.added
  refine ⟨hwrote.ended, hwrote.length, ⟨added, hchain', ?_⟩, ?_, ?_, hwrote.bytes,
    hwrote.frame⟩
  · intro c hc
    have hfree : Function.update info.fileTable last fileEnd c = 0 := hfresh c hc
    have hne : c ≠ last := by
      rintro rfl
      rw [Function.update_self] at hfree
      exact absurd hfree (by decide)
    rwa [Function.update_of_ne hne] at hfree
  · intro c hc hout
    rw [hwrote.others c hc hout]
    apply Function.update_of_ne
    rintro rfl
    exact hout hmem
  · rw [← @usedCount_update (clusterLimit bpb clusters) last fileEnd info.fileTable htaken
      (by decide)]
    exact hwrote.used

/-- What is written over the front of a longer chain. -/
theorem writeFileFrom_long (hfixed : Fixed bpb clusters root files info)
    (hchain : IsChain info.fileTable (clusters + 2) head chain)
    (hp : chain[0]? = some cluster) (hlong : rounds < chain.length) :
    ∃ info' last, writeFileFrom buffer rounds info cluster 0 = some (info', last) ∧
      Fixed bpb clusters root files (writeClusterValue info' fileEnd last) ∧
      Wrote bpb clusters info (writeClusterValue info' fileEnd last) head
        (chain.take (rounds + 1)) (chain.take (rounds + 1)) buffer 0 rounds ∧
      StaysInside clusters buffer rounds info cluster 0 := by
  have hgeo := hfixed.geometry
  obtain ⟨last, hlast⟩ : ∃ last, chain[rounds]? = some last :=
    ⟨_, List.getElem?_eq_getElem hlong⟩
  set front := chain.take (rounds + 1) with hfront
  have hrange := hchain.range last (List.mem_of_getElem? hlast)
  have htaken := hchain.ne_zero hgeo.count_le (List.mem_of_getElem? hlast)
  have hlength : front.length = rounds + 1 := by
    rw [hfront, List.length_take]
    omega
  have hfrontAt : ∀ p < rounds + 1, front[p]? = chain[p]? :=
    fun p hp' => List.getElem?_take_of_lt hp'
  -- the loop on a table in which the chain ends there
  set table := Function.update info.fileTable last fileEnd with htable
  have hended : Ended table (clusters + 2) head front := ended_take hchain hlast
  obtain ⟨info₁, chain₁, last₁, hloop, hfixed₁, hwrote, hlast₁, hinside⟩ :=
    @writeFileFrom_spec bpb clusters root files head { info with fileTable := table } front
      buffer 0 rounds cluster (hfixed.retable table) hended
      (by rw [hfrontAt 0 (by omega), hp]) (by omega) (by
        have hle := usedCount_le (clusterLimit bpb clusters) table
        change usedCount (clusterLimit bpb clusters) table + _ ≤ _
        omega)
  obtain rfl := hwrote.chain_eq (by omega)
  rw [Nat.zero_add, hfrontAt rounds (by omega), hlast] at hlast₁
  obtain rfl := Option.some.inj hlast₁
  -- it does not see the rest of the table
  have hretable : ∀ other : ℕ → ℕ, (∀ c, c ≠ last → other c = info.fileTable c) →
      writeFileFrom buffer rounds { info with fileTable := other } cluster 0 =
          some ({ info₁ with fileTable := other }, last) ∧
        StaysInside clusters buffer rounds { info with fileTable := other } cluster 0 := by
    intro other hother
    obtain ⟨hsame, hstays⟩ := @writeFileFrom_retable clusters head { info with fileTable := table }
      front buffer 0 rounds cluster other hended.isChain hgeo.count_le
      (by rw [hfrontAt 0 (by omega), hp]) (by omega) (by
        intro p hp' c hc
        rw [hfrontAt p (by omega)] at hc
        have hne : c ≠ last := by
          rintro rfl
          have hsame := (List.getElem?_inj hlong hchain.nodup).mp (hlast.trans hc.symm)
          omega
        rw [hother c hne]
        exact (Function.update_of_ne hne _ _).symm)
    rw [hloop] at hsame
    exact ⟨hsame, hstays hinside⟩
  obtain ⟨hself, -⟩ := hretable table fun c hne => Function.update_of_ne hne _ _
  obtain ⟨hmain, hstays⟩ := hretable info.fileTable fun _ _ => rfl
  have htable₁ : info₁.fileTable = table :=
    congrArg FatInfo.fileTable (Prod.mk.inj (Option.some.inj (hloop.symm.trans hself))).1
  obtain ⟨hfixed', htable', hdisk'⟩ :=
    (hfixed₁.retable info.fileTable).writeClusterValue fileEnd hrange.2
  refine ⟨{ info₁ with fileTable := info.fileTable }, last, hmain, hfixed', ?_, hstays⟩
  have hmem : last ∈ front :=
    List.mem_of_getElem? ((hfrontAt rounds (by omega)).trans hlast)
  refine (hwrote.retouch ?_ hdisk').of_update hmem htaken
  intro c hc
  rw [htable' c hc, htable₁, htable, Function.update_apply]

/-- `write_file` over any chain that ends in the mark of the tool, or that is long
enough. -/
theorem writeFile_chain (buffer : ℕ → UInt8) {size : ℕ}
    (hfixed : Fixed bpb clusters root files info)
    (hchain : IsChain info.fileTable (clusters + 2) head chain) (hp : chain[0]? = some cluster)
    (hends : (∀ last, chain.getLast? = some last → info.fileTable last = fileEnd) ∨
      size / bpb.clusterSizeBytes + 1 < chain.length)
    (hsize : size < 2 ^ 32)
    (hroom : usedCount (clusterLimit bpb clusters) info.fileTable +
      (size / bpb.clusterSizeBytes + 2 - chain.length) ≤ clusterLimit bpb clusters - 2) :
    ∃ info' chain', writeFile info cluster buffer size = some info' ∧
      Fixed bpb clusters root files info' ∧
      Wrote bpb clusters info info' head (chain.take (size / bpb.clusterSizeBytes + 2)) chain'
        (padded buffer size) 0 (size / bpb.clusterSizeBytes + 1) ∧
      StaysInside clusters (padded buffer size) (size / bpb.clusterSizeBytes + 1) info cluster
        0 ∧
      usedCount (clusterLimit bpb clusters) info'.fileTable ≤
        usedCount (clusterLimit bpb clusters) info.fileTable +
          (size / bpb.clusterSizeBytes + 2 - chain.length) := by
  by_cases hlong : size / bpb.clusterSizeBytes + 1 < chain.length
  · obtain ⟨info', last, hloop, hfixed', hwrote, hinside⟩ :=
      @writeFileFrom_long bpb clusters root files head info chain (padded buffer size)
        (size / bpb.clusterSizeBytes + 1) cluster hfixed hchain hp hlong
    have hrounds : (size / bpb.clusterSizeBytes + 1) % 2 ^ 32 =
        size / bpb.clusterSizeBytes + 1 := by
      have hle : size / bpb.clusterSizeBytes ≤ size / 512 :=
        Nat.div_le_div_left hfixed.geometry.clusterSize_ge (by decide)
      exact Nat.mod_eq_of_lt (by omega)
    refine ⟨_, _, ?_, hfixed', hwrote, hinside, ?_⟩
    · apply writeFile_eq
      rw [hfixed.bpb_eq, hrounds, hloop]
    · have hused := hwrote.used
      omega
  · have hended : Ended info.fileTable (clusters + 2) head chain :=
      ⟨hchain, hends.resolve_right hlong⟩
    obtain ⟨info', chain', hwrite, hfixed', hwrote, hinside⟩ :=
      writeFile_spec buffer hfixed hended hp (by omega) hsize (by omega)
    refine ⟨info', chain', hwrite, hfixed', ?_, hinside, ?_⟩
    · rwa [List.take_of_length_le (by omega)]
    · have hused := hwrote.used
      rw [hwrote.length] at hused
      omega

end ChainWrites

end KimisOS.Diskwrite
