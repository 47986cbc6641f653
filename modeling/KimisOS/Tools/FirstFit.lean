import KimisOS.Tools.ExistingFiles

/-!
# The tool takes the first free clusters

Every search for a free cluster starts at cluster 2, and no entry becomes free
again.  So the clusters in use are the first ones, except for the cluster of the
root directory.
-/

namespace KimisOS.Diskwrite

open KimisOS.ByteStore
open KimisOS.Fat32 (Bpb CString Geometry)

section FirstFit

variable {bpb : Bpb} {clusters root : ℕ} {info info' : FatInfo} {cluster free : ℕ}

/-- A cluster of the volume that is in use. -/
def Taken (clusters : ℕ) (info : FatInfo) (cluster : ℕ) : Prop :=
  2 ≤ cluster ∧ cluster < clusters + 2 ∧ info.fileTable cluster ≠ 0

def Full (clusters : ℕ) (info : FatInfo) : Prop :=
  ∀ c, 2 ≤ c → c < clusters + 2 → info.fileTable c ≠ 0

/-- Entries in use lead to entries in use, and no free cluster lies in front of one,
except for that of the root directory. -/
structure Compact (bpb : Bpb) (clusters root : ℕ) (info : FatInfo) : Prop where
  fixed : ∃ files, Fixed bpb clusters root files info
  rootTaken : Taken clusters info root
  links : ∀ c, Taken clusters info c → info.fileTable c = fileEnd ∨
    Taken clusters info (info.fileTable c)
  first : ∀ c, Taken clusters info c → c ≠ root → ∀ c', 2 ≤ c' → c' < c →
    info.fileTable c' ≠ 0

/-- `write_file` stands at a cluster in use, or none is free any more. -/
def StandsAt (bpb : Bpb) (clusters root : ℕ) (info : FatInfo) (cluster : ℕ) : Prop :=
  Full clusters info ∨ (Compact bpb clusters root info ∧ Taken clusters info cluster)

theorem fileEnd_ne_zero : fileEnd ≠ 0 := by decide

theorem findFreeCluster_ge (hfree : findFreeCluster info = some free) : 2 ≤ free := by
  have hge : ∀ {found : ℕ → Bool} {rounds i j : ℕ},
      firstFrom found rounds i = some j → i ≤ j := by
    intro found rounds i j hfirst
    induction rounds generalizing i with
    | zero => cases hfirst
    | succ rounds ih =>
        rw [firstFrom] at hfirst
        split at hfirst
        case isTrue => exact (Option.some.inj hfirst).le
        case isFalse => exact (Nat.le_succ i).trans (ih hfirst)
  have hstart := hge hfree
  split at hstart
  case isTrue => exact hstart
  case isFalse hlow => omega

/-- What is in use stays in use. -/
theorem writeClusterValue_ne_zero {value c : ℕ} (hvalue : value ≠ 0)
    (hc : info.fileTable c ≠ 0) :
    (writeClusterValue info value cluster).fileTable c ≠ 0 := by
  have hfold : ∀ (copies : List ℕ) (table : ℕ → ℕ), table c ≠ 0 →
      copies.foldl (fun table i => Function.update table
        ((cluster + i * info.bpb.sectorsPerFat * (info.bpb.bytesPerSector / 4)) % 2 ^ 32)
        value) table c ≠ 0 := by
    intro copies
    induction copies with
    | nil => exact fun table htable => htable
    | cons i copies ih =>
        intro table htable
        apply ih
        dsimp only
        rw [Function.update_apply]
        split
        case isTrue => exact hvalue
        case isFalse => exact htable
  exact hfold _ _ hc

theorem Full.writeClusterValue {value : ℕ} (hfull : Full clusters info) (hvalue : value ≠ 0) :
    Full clusters (writeClusterValue info value cluster) :=
  fun c hlow hless => writeClusterValue_ne_zero hvalue (hfull c hlow hless)

/-- In front of the cluster that is found none is free. -/
theorem Compact.before_free (hcompact : Compact bpb clusters root info)
    (hfree : findFreeCluster info = some free) :
    ∀ c, 2 ≤ c → c < free → info.fileTable c ≠ 0 := by
  obtain ⟨files, hfixed⟩ := hcompact.fixed
  rw [findFreeCluster, hfixed.clusterSearchStart, if_pos (by decide)] at hfree
  intro c hlow hless
  exact bne_iff_ne.mp (congrArg Bool.not ((firstFrom_first hfree).2 c hlow hless))

theorem Compact.mark (hcompact : Compact bpb clusters root info)
    (htaken : Taken clusters info cluster) :
    Compact bpb clusters root (writeClusterValue info fileEnd cluster) := by
  obtain ⟨files, hfixed⟩ := hcompact.fixed
  obtain ⟨hfixed', htable, -⟩ := hfixed.writeClusterValue fileEnd htaken.2.1
  have hsame : ∀ c, Taken clusters (writeClusterValue info fileEnd cluster) c ↔
      Taken clusters info c := by
    intro c
    refine and_congr_right fun _ => and_congr_right fun hless => ?_
    rw [htable c hless]
    split
    case isTrue heq => exact ⟨fun _ => heq ▸ htaken.2.2, fun _ => fileEnd_ne_zero⟩
    case isFalse => exact Iff.rfl
  refine ⟨⟨files, hfixed'⟩, (hsame root).mpr hcompact.rootTaken, ?_, ?_⟩
  · intro c hc
    rw [hsame, htable c hc.2.1]
    split
    case isTrue => exact .inl rfl
    case isFalse => exact hcompact.links c ((hsame c).mp hc)
  · intro c hc hne c' hlow hless
    exact writeClusterValue_ne_zero fileEnd_ne_zero
      (hcompact.first c ((hsame c).mp hc) hne c' hlow hless)

/-- A free cluster is linked behind the last one of a chain. -/
theorem StandsAt.link (hat : StandsAt bpb clusters root info cluster)
    (hfree : findFreeCluster info = some free) :
    StandsAt bpb clusters root
      (writeClusterValue (writeClusterValue info free cluster) fileEnd free) free := by
  have hpos : free ≠ 0 := by
    have hge := findFreeCluster_ge hfree
    omega
  obtain hfull | ⟨hcompact, htaken⟩ := hat
  · exact .inl ((hfull.writeClusterValue hpos).writeClusterValue fileEnd_ne_zero)
  · have hbefore := hcompact.before_free hfree
    by_cases hinside : free < clusters + 2
    · obtain ⟨files, hfixed⟩ := hcompact.fixed
      obtain ⟨hfixed₁, htable₁, -⟩ := hfixed.writeClusterValue free htaken.2.1
      obtain ⟨hfixed₂, htable₂, -⟩ := hfixed₁.writeClusterValue fileEnd hinside
      generalize writeClusterValue (writeClusterValue info free cluster) fileEnd free = next
        at hfixed₂ htable₂ ⊢
      have htable : ∀ c < clusters + 2, next.fileTable c = if c = free then fileEnd
          else if c = cluster then free else info.fileTable c := by
        intro c hc
        rw [htable₂ c hc, htable₁ c hc]
      have hkept : ∀ c, Taken clusters info c → Taken clusters next c := by
        intro c hc
        refine ⟨hc.1, hc.2.1, ?_⟩
        rw [htable c hc.2.1]
        split
        case isTrue => exact fileEnd_ne_zero
        case isFalse =>
          split
          case isTrue => exact hpos
          case isFalse => exact hc.2.2
      have hfreeTaken : Taken clusters next free := by
        refine ⟨findFreeCluster_ge hfree, hinside, ?_⟩
        rw [htable free hinside, if_pos rfl]
        exact fileEnd_ne_zero
      have hold : ∀ c, Taken clusters next c → c ≠ free → Taken clusters info c := by
        intro c hc hne
        refine ⟨hc.1, hc.2.1, ?_⟩
        have hvalue := hc.2.2
        rw [htable c hc.2.1, if_neg hne] at hvalue
        split at hvalue
        case isTrue heq => exact heq ▸ htaken.2.2
        case isFalse => exact hvalue
      refine .inr ⟨⟨⟨files, hfixed₂⟩, hkept root hcompact.rootTaken, ?_, ?_⟩, hfreeTaken⟩
      · intro c hc
        rw [htable c hc.2.1]
        by_cases hfreeEq : c = free
        · rw [if_pos hfreeEq]
          exact .inl rfl
        · rw [if_neg hfreeEq]
          split
          case isTrue => exact .inr hfreeTaken
          case isFalse =>
            exact (hcompact.links c (hold c hc hfreeEq)).imp id (hkept _)
      · intro c hc hne c' hlow hless
        have hused : info.fileTable c' ≠ 0 := by
          by_cases hfreeEq : c = free
          · exact hbefore c' hlow (hfreeEq ▸ hless)
          · exact hcompact.first c (hold c hc hfreeEq) hne c' hlow hless
        exact (hkept c' ⟨hlow, hless.trans hc.2.1, hused⟩).2.2
    · -- there is no free cluster in the volume
      have hfull : Full clusters info := fun c hlow hless => hbefore c hlow (by omega)
      exact .inl ((hfull.writeClusterValue hpos).writeClusterValue fileEnd_ne_zero)

theorem writeCluster_fileTable (info : FatInfo) (cluster : ℕ) (buffer : ℕ → UInt8) :
    (writeCluster info cluster buffer).fileTable = info.fileTable := by
  unfold writeCluster
  rfl

theorem StandsAt.writeCluster (hat : StandsAt bpb clusters root info cluster)
    (buffer : ℕ → UInt8) :
    StandsAt bpb clusters root (writeCluster info cluster buffer) cluster := by
  have htable := writeCluster_fileTable info cluster buffer
  have htaken : ∀ c, Taken clusters (Diskwrite.writeCluster info cluster buffer) c ↔
      Taken clusters info c := by
    intro c
    rw [Taken, Taken, htable]
  obtain hfull | ⟨hcompact, hcluster⟩ := hat
  · left
    rw [Full, htable]
    exact hfull
  · obtain ⟨files, hfixed⟩ := hcompact.fixed
    have hfixed' := (hfixed.writeCluster ⟨hcluster.1, hcluster.2.1⟩ buffer).1
    refine .inr ⟨⟨⟨files, hfixed'⟩, (htaken root).mpr hcompact.rootTaken, ?_, ?_⟩,
      (htaken cluster).mpr hcluster⟩
    · intro c hc
      rw [htaken, htable]
      exact hcompact.links c ((htaken c).mp hc)
    · intro c hc
      rw [htable]
      exact hcompact.first c ((htaken c).mp hc)

theorem StandsAt.follow (hat : StandsAt bpb clusters root info cluster)
    (hmore : info.fileTable cluster ≠ fileEnd) :
    StandsAt bpb clusters root info (info.fileTable cluster) := by
  obtain hfull | ⟨hcompact, htaken⟩ := hat
  · exact .inl hfull
  · exact .inr ⟨hcompact, (hcompact.links cluster htaken).resolve_left hmore⟩

theorem writeFileFrom_standsAt {buffer : ℕ → UInt8} {rounds i last : ℕ}
    (hat : StandsAt bpb clusters root info cluster)
    (hwrite : writeFileFrom buffer rounds info cluster i = some (info', last)) :
    StandsAt bpb clusters root info' last := by
  induction rounds generalizing info cluster i with
  | zero =>
      cases hwrite
      exact hat
  | succ rounds ih =>
      rw [writeFileFrom] at hwrite
      split at hwrite
      case isTrue =>
        split at hwrite
        · cases hwrite
        · rename_i next hfree
          exact ih ((hat.writeCluster _).link hfree) hwrite
      case isFalse hmore => exact ih ((hat.writeCluster _).follow hmore) hwrite

theorem writeFile_standsAt {buffer : ℕ → UInt8} {size : ℕ}
    (hat : StandsAt bpb clusters root info cluster)
    (hwrite : writeFile info cluster buffer size = some info') :
    StandsAt bpb clusters root info' root := by
  rw [writeFile] at hwrite
  split at hwrite
  · cases hwrite
  · rename_i reached last hloop
    cases hwrite
    obtain hfull | ⟨hcompact, htaken⟩ := writeFileFrom_standsAt hat hloop
    · exact .inl (hfull.writeClusterValue fileEnd_ne_zero)
    · have hmarked := hcompact.mark htaken
      exact .inr ⟨hmarked, hmarked.rootTaken⟩

/-- The cluster that `create_file` marks for a new file. -/
theorem StandsAt.markFree (hat : StandsAt bpb clusters root info cluster)
    (hfree : findFreeCluster info = some free) (counter : ℕ) :
    StandsAt bpb clusters root
      { info with
        fileTable := Function.update info.fileTable free fileEnd
        rootDirEntries := counter } free := by
  generalize hnext : ({ info with
    fileTable := Function.update info.fileTable free fileEnd
    rootDirEntries := counter } : FatInfo) = next
  have htable : next.fileTable = Function.update info.fileTable free fileEnd := by
    rw [← hnext]
  have hgrows : ∀ c, info.fileTable c ≠ 0 → next.fileTable c ≠ 0 := by
    intro c hc
    rw [htable, Function.update_apply]
    split
    case isTrue => exact fileEnd_ne_zero
    case isFalse => exact hc
  obtain hfull | ⟨hcompact, -⟩ := hat
  · exact .inl fun c hlow hless => hgrows c (hfull c hlow hless)
  · have hbefore := hcompact.before_free hfree
    by_cases hinside : free < clusters + 2
    · obtain ⟨files, hfixed⟩ := hcompact.fixed
      have hfixed' : Fixed bpb clusters root counter next := by
        rw [← hnext]
        exact ⟨hfixed.geometry, hfixed.sector, hfixed.bpb_eq, hfixed.rootDirCluster, rfl,
          hfixed.partitionStart, hfixed.clusterSearchStart⟩
      have hkept : ∀ c, Taken clusters info c → Taken clusters next c := fun c hc =>
        ⟨hc.1, hc.2.1, hgrows c hc.2.2⟩
      have hfreeTaken : Taken clusters next free := by
        refine ⟨findFreeCluster_ge hfree, hinside, ?_⟩
        rw [htable, Function.update_self]
        exact fileEnd_ne_zero
      have hold : ∀ c, Taken clusters next c → c ≠ free → Taken clusters info c := by
        intro c hc hne
        have hvalue := hc.2.2
        rw [htable, Function.update_of_ne hne] at hvalue
        exact ⟨hc.1, hc.2.1, hvalue⟩
      refine .inr ⟨⟨⟨counter, hfixed'⟩, hkept root hcompact.rootTaken, ?_, ?_⟩, hfreeTaken⟩
      · intro c hc
        rw [htable]
        by_cases hfreeEq : c = free
        · rw [hfreeEq, Function.update_self]
          exact .inl rfl
        · rw [Function.update_of_ne hfreeEq]
          exact (hcompact.links c (hold c hc hfreeEq)).imp id (hkept _)
      · intro c hc hne c' hlow hless
        apply hgrows
        by_cases hfreeEq : c = free
        · exact hbefore c' hlow (hfreeEq ▸ hless)
        · exact hcompact.first c (hold c hc hfreeEq) hne c' hlow hless
    · exact .inl fun c hlow hless => hgrows c (hbefore c hlow (by omega))

theorem createFile_standsAt {path : CString} {file : List UInt8}
    (hat : StandsAt bpb clusters root info root)
    (hcreate : createFile info path file = some info') :
    StandsAt bpb clusters root info' root := by
  simp only [createFile, Option.bind_eq_bind, Option.bind_eq_some_iff] at hcreate
  obtain ⟨index, -, ext, -, free, hfree, middle, hfile, hdirectory⟩ := hcreate
  have hmarked := hat.markFree hfree ((info.rootDirEntries + 1) % 2 ^ 16)
  have hstart : StandsAt bpb clusters root
      { info with
        fileTable := Function.update info.fileTable free fileEnd
        rootDirEntries := (info.rootDirEntries + 1) % 2 ^ 16 }
      (startCluster (setFile (fun k =>
        if k < info.bpb.sectorsPerCluster * 512 then
          readCluster info info.rootDirCluster k else 0) index
        (path.takeWhile (· != dot)) (ext.take 3) (file.length % 2 ^ 32) free) index) := by
    obtain hfull | ⟨hcompact, htaken⟩ := hmarked
    · exact .inl hfull
    · obtain ⟨files, hfixed⟩ := hcompact.fixed
      have hcount := hfixed.geometry.count_le
      have hword : free < 2 ^ 32 := by
        have hless := htaken.2.1
        unfold Fat32.fat32EocMin at hcount
        omega
      rw [startCluster_setFile hword]
      exact .inr ⟨hcompact, htaken⟩
  have hwritten := writeFile_standsAt hstart hfile
  have hroot : StandsAt bpb clusters root middle middle.rootDirCluster := by
    obtain hfull | ⟨hcompact, htaken⟩ := hwritten
    · exact .inl hfull
    · obtain ⟨files, hfixed⟩ := hcompact.fixed
      rw [hfixed.rootDirCluster]
      exact .inr ⟨hcompact, htaken⟩
  exact writeFile_standsAt hroot hdirectory

theorem createFiles_standsAt {files : List InputFile}
    (hat : StandsAt bpb clusters root info root)
    (hcreate : createFiles info files = some info') :
    StandsAt bpb clusters root info' root := by
  induction files generalizing info with
  | nil =>
      cases hcreate
      exact hat
  | cons file files ih =>
      rw [createFiles] at hcreate
      split at hcreate
      · cases hcreate
      · rename_i next hnext
        exact ih (createFile_standsAt hat hnext) hcreate

/-- So clusters in use have small numbers. -/
theorem StandsAt.lt_of_taken (hat : StandsAt bpb clusters root info root) {needed : ℕ}
    (hused : usedCount (clusterLimit bpb clusters) info.fileTable ≤ needed)
    (hvolume : clusters ≤ clusterLimit bpb clusters)
    (htaken : Taken clusters info cluster) : cluster ≤ needed + 3 ∨ cluster = root := by
  by_cases hroot : cluster = root
  · exact .inr hroot
  left
  have hbefore : ∀ c, 2 ≤ c → c < cluster → info.fileTable c ≠ 0 := by
    obtain hfull | ⟨hcompact, -⟩ := hat
    · exact fun c hlow hless => hfull c hlow (hless.trans htaken.2.1)
    · exact hcompact.first cluster htaken hroot
  have hsub : Finset.Ico 2 (min cluster (clusterLimit bpb clusters)) ⊆
      (Finset.Ico 2 (clusterLimit bpb clusters)).filter fun c => info.fileTable c ≠ 0 := by
    intro c hc
    obtain ⟨hlow, hless⟩ := Finset.mem_Ico.mp hc
    exact Finset.mem_filter.mpr ⟨Finset.mem_Ico.mpr ⟨hlow, hless.trans_le (min_le_right _ _)⟩,
      hbefore c hlow (hless.trans_le (min_le_left _ _))⟩
  have hcard := Finset.card_le_card hsub
  rw [Nat.card_Ico] at hcard
  have hall := hcard.trans hused
  have hless := htaken.2.1
  omega

end FirstFit

section Formatted

variable {boot : BootRecord} {clusters : ℕ} {disk : ℕ → UInt8}

/-- The volume has a cluster for every number up to the limit, or nearly so. -/
theorem Formatted.clusters_le (hformat : Formatted boot clusters disk) :
    clusters ≤ clusterLimit boot.bpb clusters := by
  rw [clusterLimit, hformat.geometry.clusterCount]
  exact le_min (Nat.le_add_right _ 2) (Nat.div_le_div_right (Nat.sub_le _ _))

theorem Formatted.standsAt (hformat : Formatted boot clusters disk) :
    StandsAt boot.bpb clusters boot.rootDirCluster (detectRepairFs boot disk)
      boot.rootDirCluster := by
  have htable : ∀ c, Taken clusters (detectRepairFs boot disk) c → c = boot.rootDirCluster := by
    intro c hc
    have hvalue := hc.2.2
    rw [hformat.fileTable hc.2.1] at hvalue
    by_contra hne
    have hlow := hc.1
    rw [if_neg (by omega)] at hvalue
    exact hvalue rfl
  have hmark : (detectRepairFs boot disk).fileTable boot.rootDirCluster = fileEnd := by
    rw [hformat.fileTable hformat.root.2, if_pos (.inl rfl)]
  have hroot : Taken clusters (detectRepairFs boot disk) boot.rootDirCluster := by
    refine ⟨hformat.root.1, hformat.root.2, ?_⟩
    rw [hmark]
    exact fileEnd_ne_zero
  refine .inr ⟨⟨⟨0, hformat.laid.fixed⟩, hroot, ?_, ?_⟩, hroot⟩
  · intro c hc
    rw [htable c hc]
    exact .inl hmark
  · intro c hc hne
    exact absurd (htable c hc) hne

end Formatted

end KimisOS.Diskwrite
