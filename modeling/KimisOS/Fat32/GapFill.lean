import KimisOS.Fat32.Integrity
import KimisOS.Fat32.TwoHandles
import Mathlib.Order.SymmDiff

/-!
# Filling a gap

A write behind the end of a file first links clusters up to the offset and clears
each of them with one page of zeros.  The page is as large as a cluster of 4 KiB;
it reaches into the clusters behind a smaller one and leaves the rest of a larger
one as it was.
-/

namespace KimisOS.Fat32

open KimisOS.ByteStore

/-! ## The free clusters in order -/

/-- The free clusters from the hint on, in the order in which they are taken. -/
def Flat.freeList (flat : Flat) (clusters : ℕ) : List ℕ :=
  (List.range' flat.search (clusters - flat.search)).filter fun j => flat.table j = 0

section FreeList

variable {flat flat' : Flat} {clusters cluster : ℕ}

theorem Flat.freeList_full (hfull : flat.Full clusters) : flat.freeList clusters = [] := by
  rw [Flat.freeList, List.filter_eq_nil_iff]
  intro j hj
  obtain ⟨i, hi, rfl⟩ := List.mem_range'.mp hj
  rw [decide_eq_true_eq]
  exact hfull _ (by omega) (by omega)

theorem Flat.freeList_next (hnext : flat.IsNextFree clusters cluster)
    (hsearch : flat'.search = cluster) (htaken : flat'.table cluster ≠ 0)
    (hsame : ∀ j, j ≠ cluster → (flat'.table j = 0 ↔ flat.table j = 0)) :
    flat.freeList clusters = cluster :: flat'.freeList clusters := by
  obtain ⟨hge, hlt, hfree, hfirst⟩ := hnext
  have hsplit : List.range' flat.search (clusters - flat.search) =
      List.range' flat.search (cluster - flat.search) ++
        cluster :: List.range' (cluster + 1) (clusters - (cluster + 1)) := by
    have hrest : List.range' flat.search (cluster - flat.search) ++
        List.range' (flat.search + (cluster - flat.search)) (clusters - cluster) =
          List.range' flat.search (cluster - flat.search + (clusters - cluster)) :=
      List.range'_append_1
    rw [show flat.search + (cluster - flat.search) = cluster by omega,
      show cluster - flat.search + (clusters - cluster) = clusters - flat.search by omega]
      at hrest
    rw [← hrest, show clusters - cluster = clusters - (cluster + 1) + 1 by omega,
      List.range'_succ]
  have hbefore : (List.range' flat.search (cluster - flat.search)).filter
      (fun j => flat.table j = 0) = [] := by
    rw [List.filter_eq_nil_iff]
    intro j hj
    obtain ⟨i, hi, rfl⟩ := List.mem_range'.mp hj
    rw [decide_eq_true_eq]
    exact hfirst _ (by omega) (by omega)
  rw [Flat.freeList, hsplit, List.filter_append, hbefore, List.nil_append,
    List.filter_cons_of_pos (by simpa using hfree), Flat.freeList, hsearch,
    show clusters - cluster = clusters - (cluster + 1) + 1 by omega, List.range'_succ,
    List.filter_cons_of_neg (by simpa using htaken)]
  congr 1
  apply List.filter_congr
  intro j hj
  obtain ⟨i, hi, rfl⟩ := List.mem_range'.mp hj
  rw [decide_eq_decide]
  exact (hsame _ (by omega)).symm

@[simp]
theorem Flat.freeList_write (flat : Flat) (bytes : ℕ → UInt8) (offset count : ℕ) :
    (flat.write bytes offset count).freeList clusters = flat.freeList clusters := rfl

theorem Flat.freeList_set (hnext : flat.IsNextFree clusters cluster) :
    flat.freeList clusters = cluster :: (flat.set cluster fat32Eoc).freeList clusters := by
  apply Flat.freeList_next hnext rfl
  · change Function.update flat.table cluster fat32Eoc cluster ≠ 0
    rw [Function.update_self]
    decide
  · intro j hj
    change Function.update flat.table cluster fat32Eoc j = 0 ↔ _
    rw [Function.update_of_ne hj]

theorem Flat.freeList_link {last : ℕ} (hnext : flat.IsNextFree clusters cluster)
    (hne : cluster ≠ 0) (hlast : flat.table last ≠ 0) :
    flat.freeList clusters = cluster :: (flat.link last cluster).freeList clusters := by
  have hentry : (flat.link last cluster).table =
      Function.update (Function.update flat.table last cluster) cluster fat32Eoc := rfl
  apply Flat.freeList_next hnext rfl
  · rw [hentry, Function.update_self]
    decide
  · intro j hj
    rw [hentry, Function.update_of_ne hj]
    by_cases hjlast : j = last
    · rw [hjlast, Function.update_self]
      exact iff_of_false hne hlast
    · rw [Function.update_of_ne hjlast]

end FreeList

/-! ## The cleared pages -/

/-- The first `length` bytes of each of these clusters. -/
def span (bpb : Bpb) (length : ℕ) (list : List ℕ) : Set ℕ :=
  {a | ∃ c ∈ list, bpb.clusterStart c ≤ a ∧ a < bpb.clusterStart c + length}

/-- The bytes of the set have been cleared, and the others are as before. -/
structure Cleared (bytes : Set ℕ) (data data' : ℕ → UInt8) : Prop where
  zero : ∀ a ∈ bytes, data' a = 0
  others : ∀ a, a ∉ bytes → data' a = data a

/-- One more page that is cleared before the others. -/
theorem Cleared.cons {bpb : Bpb} {length cluster : ℕ} {list : List ℕ}
    {data data' : ℕ → UInt8}
    (hcleared : Cleared (span bpb length list)
      (store data (bpb.clusterStart cluster) (fun _ => 0) length) data') :
    Cleared (span bpb length (cluster :: list)) data data' := by
  refine ⟨?_, ?_⟩
  · intro a ha
    by_cases hlater : a ∈ span bpb length list
    · exact hcleared.zero a hlater
    · obtain ⟨c, hc, hge, hlt⟩ := ha
      have hfirst : c = cluster := by
        rcases List.mem_cons.mp hc with heq | hin
        · exact heq
        · exact absurd ⟨c, hin, hge, hlt⟩ hlater
      rw [hcleared.others a hlater, store, if_pos ⟨hfirst ▸ hge, hfirst ▸ hlt⟩]
  · intro a ha
    have hlater : a ∉ span bpb length list := by
      rintro ⟨c, hc, hin⟩
      exact ha ⟨c, List.mem_cons_of_mem _ hc, hin⟩
    rw [hcleared.others a hlater, store, if_neg]
    exact fun hin => ha ⟨cluster, List.mem_cons_self, hin⟩

section Fill

variable {File : Type*} [DecidableEq File] {heads : File → ℕ} {chains : File → List ℕ}
  {f : File} {bpb : Bpb} {clusters : ℕ} {table : ℕ → ℕ} {vol : Volume} {flat : Flat}
  {head : ℕ} {new : List ℕ} {p current : ℕ} {malloc : ℕ → Bool}

/-- The walk takes the next free clusters up to the cluster of the offset and
clears a page of each. -/
theorem walkToOffset_fills {rounds : ℕ} {vol' : Volume} {result : Option ℕ}
    (hholds : Holds bpb clusters table heads chains f vol flat head new)
    (hp : (chains f ++ new)[p]? = some current)
    (henough : p + rounds < (chains f ++ new).length + (flat.freeList clusters).length)
    (hmemory : ∀ i < rounds, malloc i = true)
    (hwalk : walkToOffset malloc rounds vol current = (vol', result)) :
    ∃ flat' added,
      added = (flat.freeList clusters).take (p + rounds + 1 - (chains f ++ new).length) ∧
      Holds bpb clusters table heads chains f vol' flat' head (new ++ added) ∧
      result.isSome = true ∧
      Cleared (span bpb 4096 added) flat.data flat'.data := by
  induction rounds generalizing vol flat new p current with
  | zero =>
      have hlt := (List.getElem?_eq_some_iff.mp hp).1
      rw [walkToOffset] at hwalk
      obtain ⟨rfl, rfl⟩ := Prod.mk.inj hwalk
      rw [show p + 0 + 1 - (chains f ++ new).length = 0 by omega, List.take_zero]
      refine ⟨flat, [], rfl, ?_, rfl, ?_, fun _ _ => rfl⟩
      · rw [List.append_nil]
        exact hholds
      · rintro a ⟨c, hc, -⟩
        cases hc
  | succ rounds ih =>
      obtain ⟨hread, hnext⟩ := hholds.next hp
      have hsum : p + 1 + rounds = p + (rounds + 1) := by omega
      have hmemory' : ∀ i < rounds, malloc i = true := fun i hi => hmemory i (by omega)
      rcases hnext with ⟨hlt, hp'⟩ | ⟨heoc, hend⟩
      · rw [walkToOffset_next hlt] at hwalk
        have hrest := ih hread hp' (by omega) hmemory' hwalk
        rw [hsum] at hrest
        exact hrest
      · have hcurrent := hread.grown.isChain.ne_zero hread.count_le (List.mem_of_getElem? hp)
        rcases hread.linkNew hp hend with
          ⟨cluster, hcluster, hne, hfree, hlinked, hp'⟩ | ⟨-, hfull, -⟩
        · have hnew : (linkNewCluster (fat32GetNextCluster vol current).1 current).2 ≠ 0 := by
            rw [hcluster]
            exact hne
          have hlist := Flat.freeList_link hfree hne hcurrent
          have hlength : (chains f ++ (new ++ [cluster])).length =
              (chains f ++ new).length + 1 := by
            rw [← List.append_assoc, List.length_append, List.length_singleton]
          rw [walkToOffset_clear heoc hnew (hmemory rounds (by omega)), hcluster,
            hlinked.clusterOffset_eq hp'] at hwalk
          have hcleared := hlinked.write (fun _ => 0) 4096
            (bpb.dataOffset_le_clusterStart cluster)
          rw [hlist, List.length_cons] at henough
          obtain ⟨flat', added, hadded, hholds', hsome, hzero⟩ :=
            ih hcleared hp' (by rw [hlength, Flat.freeList_write]; omega) hmemory' hwalk
          rw [Flat.freeList_write] at hadded
          refine ⟨flat', cluster :: added, ?_, ?_, hsome, ?_⟩
          · rw [hlist, hadded, hlength, ← List.take_succ_cons]
            congr 1
            omega
          · rw [List.append_assoc, List.singleton_append] at hholds'
            exact hholds'
          · exact hzero.cons
        · rw [Flat.freeList_full hfull, List.length_nil] at henough
          omega

/-! ## The law -/

/-- `fat32_write` up to the cluster of the offset. -/
def reachOffset (malloc : ℕ → Bool) (vol : Volume) (file : OpenFile) (offset : ℕ) :
    Volume × Option ℕ :=
  let first := firstClusterFor vol file
  walkToOffset malloc (offset / first.1.mount.bpb.clusterSizeBytes) first.1
    first.2.firstCluster

/-- The rest of the write starts from there. -/
theorem fat32Write_reachOffset {file : OpenFile} {buffer : ℕ → UInt8} {offset count : ℕ}
    {vol₁ vol₂ : Volume} {file₁ : OpenFile} {toWrite : ℕ}
    (hfirst : firstClusterFor vol file = (vol₁, file₁)) (hne : file₁.firstCluster ≠ 0)
    (hstart : offset / vol₁.mount.bpb.clusterSizeBytes < 2 ^ 32)
    (hclusters : udiv64 ((count + vol₁.mount.bpb.clusterSizeBytes - 1) % 2 ^ 64)
      vol₁.mount.bpb.clusterSizeBytes = some toWrite)
    (hreach : reachOffset malloc vol file offset = (vol₂, some current)) :
    fat32Write malloc vol file buffer offset count =
      writeFrom vol₂ file₁ buffer offset count current := by
  rw [reachOffset, hfirst] at hreach
  exact fat32Write_from hfirst hne rfl (if_pos hstart) hclusters hreach

/-- The clusters that a file of `length` clusters gets for the offset. -/
def gapClusters (bpb : Bpb) (clusters : ℕ) (flat : Flat) (length offset : ℕ) : List ℕ :=
  (flat.freeList clusters).take (offset / bpb.clusterSizeBytes + 1 - length)

/-- The clusters of them that are cleared: the first cluster of an empty file is not. -/
def clearedClusters (bpb : Bpb) (clusters : ℕ) (flat : Flat) (length offset : ℕ) : List ℕ :=
  (gapClusters bpb clusters flat length offset).drop (1 - length)

/-- The added clusters are zero, and no other byte of the data area changes, as far as
no window of the table reaches. -/
structure GapFilled (bpb : Bpb) (clusters : ℕ) (vol vol' : Volume) (added : List ℕ) :
    Prop where
  zero : ∀ a ∈ span bpb bpb.clusterSizeBytes added, OutOfReach bpb clusters a →
    vol'.device a = 0
  frame : ∀ a, a ∉ span bpb bpb.clusterSizeBytes added → bpb.dataOffset ≤ a →
    OutOfReach bpb clusters a → vol'.device a = vol.device a

/-- The bytes behind the page of a larger cluster and those behind a smaller cluster in
the page are zero already. -/
def GapClean (bpb : Bpb) (clusters : ℕ) (vol : Volume) (added cleared : List ℕ) : Prop :=
  ∀ a ∈ symmDiff (span bpb bpb.clusterSizeBytes added) (span bpb 4096 cleared),
    OutOfReach bpb clusters a → vol.device a = 0

theorem reachOffset_spec {file : OpenFile} {offset : ℕ}
    (hconsistent : Consistent bpb clusters vol)
    (hwell : WellFormed (fatEntry vol) (clusters + 2) heads chains)
    (hfirst : file.firstCluster = heads f)
    (henough : offset / bpb.clusterSizeBytes <
      (chains f).length + (vol.flat.freeList clusters).length)
    (hmemory : ∀ i < offset / bpb.clusterSizeBytes, malloc i = true) :
    ∃ flat',
      Holds bpb clusters (fatEntry vol) heads chains f (reachOffset malloc vol file offset).1
        flat' (firstClusterFor vol file).2.firstCluster
        (gapClusters bpb clusters vol.flat (chains f).length offset) ∧
      (reachOffset malloc vol file offset).2.isSome = true ∧
      Cleared (span bpb 4096 (clearedClusters bpb clusters vol.flat (chains f).length offset))
        vol.device flat'.data := by
  have hshows := hconsistent.shows
  obtain ⟨vol₁, file₁, hkept⟩ : ∃ vol₁ file₁, firstClusterFor vol file = (vol₁, file₁) :=
    ⟨_, _, rfl⟩
  have hsize : ∀ {flat : Flat} {vol : Volume}, Shows bpb clusters vol flat →
      vol.mount.bpb.clusterSizeBytes = bpb.clusterSizeBytes := by
    intro flat vol hshows
    rw [hshows.mounted.bpb_eq]
  by_cases hzero : file.firstCluster = 0
  · have hnil : chains f = [] := by
      by_contra hne
      exact (hwell.chain f).head_ne hne (hfirst ▸ hzero)
    rw [reachOffset, gapClusters, clearedClusters, gapClusters, hnil]
    rw [hnil] at henough
    obtain ⟨cluster, -, hfree, rfl, htaken⟩ | ⟨-, hfull, -⟩ :=
      firstClusterFor_empty hshows hwell hzero hnil hkept
    · have hlist := Flat.freeList_set hfree
      have hlength : (chains f ++ [cluster]).length = 1 := by
        rw [hnil]
        rfl
      obtain ⟨vol', result, hwalk⟩ : ∃ vol' result,
          walkToOffset malloc (offset / bpb.clusterSizeBytes) vol₁ cluster =
            (vol', result) := ⟨_, _, rfl⟩
      rw [hlist, List.length_nil, List.length_cons, Nat.zero_add] at henough
      obtain ⟨flat', added, hadded, hholds, hsome, hcleared⟩ :=
        walkToOffset_fills (p := 0) htaken (by rw [hnil]; rfl)
          (by rw [hlength]; omega) hmemory hwalk
      rw [hlength, Nat.zero_add, Nat.add_sub_cancel] at hadded
      rw [hkept, hsize htaken.shows, hwalk, hlist, List.length_nil, Nat.sub_zero,
        List.take_succ_cons, ← hadded]
      exact ⟨flat', hholds, hsome, hcleared⟩
    · rw [Flat.freeList_full hfull, List.length_nil] at henough
      exact absurd henough (Nat.not_lt_zero _)
  · have hstart : (chains f ++ [])[0]? = some file.firstCluster := by
      rw [List.append_nil, hfirst]
      exact (hwell.chain f).first (hfirst ▸ hzero)
    have hlength : 0 < (chains f ++ []).length := (List.getElem?_eq_some_iff.mp hstart).1
    have hgrown : Holds bpb clusters (fatEntry vol) heads chains f vol vol.flat
        file.firstCluster [] := by
      rw [hfirst]
      exact ⟨hshows, .refl hwell⟩
    obtain ⟨vol', result, hwalk⟩ : ∃ vol' result,
        walkToOffset malloc (offset / bpb.clusterSizeBytes) vol file.firstCluster =
          (vol', result) := ⟨_, _, rfl⟩
    rw [List.append_nil] at hlength
    obtain ⟨flat', added, hadded, hholds, hsome, hcleared⟩ :=
      walkToOffset_fills (p := 0) hgrown hstart
        (by rw [List.append_nil, Nat.zero_add]; exact henough) hmemory hwalk
    rw [List.append_nil, Nat.zero_add] at hadded
    rw [List.nil_append] at hholds
    have hfirstFor : firstClusterFor vol file = (vol, file) := by
      rw [firstClusterFor, if_neg hzero]
    rw [reachOffset, gapClusters, clearedClusters, gapClusters, hfirstFor, hsize hshows,
      hwalk, ← hadded, Nat.sub_eq_zero_of_le (Nat.succ_le_of_lt hlength), List.drop_zero]
    exact ⟨flat', hholds, hsome, hcleared⟩

/-- The clusters that reach the offset are zero and everything else is as before exactly if
the bytes that differ between the clusters and the pages are zero already. -/
theorem gapFilled_iff {flat' : Flat} {vol' : Volume} {added cleared : List ℕ}
    (hholds : Holds bpb clusters (fatEntry vol) heads chains f vol' flat' head added)
    (hcleared : Cleared (span bpb 4096 cleared) vol.device flat'.data) :
    GapFilled bpb clusters vol vol' added ↔ GapClean bpb clusters vol added cleared := by
  have hdata : ∀ {length : ℕ} {list : List ℕ}, ∀ a ∈ span bpb length list,
      bpb.dataOffset ≤ a := by
    rintro length list a ⟨c, -, hge, -⟩
    exact (bpb.dataOffset_le_clusterStart c).trans hge
  have hbytes := hholds.shows.bytes
  constructor
  · rintro hfilled a (⟨hcluster, hpage⟩ | ⟨hpage, hcluster⟩) hreach
    · rw [← hcleared.others a hpage, ← hbytes a (hdata a hcluster) hreach]
      exact hfilled.zero a hcluster hreach
    · rw [← hfilled.frame a hcluster (hdata a hpage) hreach,
        hbytes a (hdata a hpage) hreach]
      exact hcleared.zero a hpage
  · intro hclean
    refine ⟨?_, ?_⟩
    · intro a hcluster hreach
      rw [hbytes a (hdata a hcluster) hreach]
      by_cases hpage : a ∈ span bpb 4096 cleared
      · exact hcleared.zero a hpage
      · rw [hcleared.others a hpage]
        exact hclean a (.inl ⟨hcluster, hpage⟩) hreach
    · intro a hcluster hge hreach
      rw [hbytes a hge hreach]
      by_cases hpage : a ∈ span bpb 4096 cleared
      · rw [hcleared.zero a hpage, hclean a (.inr ⟨hpage, hcluster⟩) hreach]
      · exact hcleared.others a hpage

/-- With clusters of one page nothing but the clusters is cleared. -/
theorem gapClean_of_page {added : List ℕ} (hsize : bpb.clusterSizeBytes = 4096) :
    GapClean bpb clusters vol added added := by
  rw [GapClean, hsize, symmDiff_self]
  intro a ha
  cases ha

end Fill

/-- A write adds the next free clusters up to the cluster of its offset; they are
filled with zeros, and nothing else changes, exactly if the bytes that the clusters
or the cleared pages have alone are zero already. -/
theorem gap_filled_iff {File : Type*} [DecidableEq File] (malloc : ℕ → Bool) (bpb : Bpb)
    (clusters : ℕ) (vol : Volume) (heads : File → ℕ) (chains : File → List ℕ) (f : File)
    (file : OpenFile) (offset : ℕ) (hconsistent : Consistent bpb clusters vol)
    (hwell : WellFormed (fatEntry vol) (clusters + 2) heads chains)
    (hfirst : file.firstCluster = heads f)
    (henough : offset / bpb.clusterSizeBytes <
      (chains f).length + (vol.flat.freeList clusters).length)
    (hmemory : ∀ i < offset / bpb.clusterSizeBytes, malloc i = true) :
    IsChain (fatEntry (reachOffset malloc vol file offset).1) (clusters + 2)
        (firstClusterFor vol file).2.firstCluster
        (chains f ++ gapClusters bpb clusters vol.flat (chains f).length offset) ∧
      (GapFilled bpb clusters vol (reachOffset malloc vol file offset).1
          (gapClusters bpb clusters vol.flat (chains f).length offset) ↔
        GapClean bpb clusters vol
          (gapClusters bpb clusters vol.flat (chains f).length offset)
          (clearedClusters bpb clusters vol.flat (chains f).length offset)) := by
  obtain ⟨flat', hholds, -, hcleared⟩ :=
    reachOffset_spec hconsistent hwell hfirst henough hmemory
  refine ⟨?_, gapFilled_iff hholds hcleared⟩
  apply hholds.grown.isChain.congr
  intro cluster hcluster
  exact hholds.shows.entries cluster (hholds.grown.isChain.range cluster hcluster).2

/-! ## A gap before another file -/

/-- Behind the entry of the file the volume is empty. -/
theorem sharedVolume_empty {a : ℕ} (ha : 1056 ≤ a) : sharedVolume.device a = 0 := by
  change (if 512 ≤ a ∧ a < 528 then _ else if 1024 ≤ a ∧ a < 1056 then _ else 0) = (0 : UInt8)
  rw [if_neg (by omega), if_neg (by omega)]

theorem gap_filled_shared :
    GapFilled sharedVolume.mount.bpb 6 sharedVolume
      (reachOffset (fun _ => true) sharedVolume sharedFile 600).1
      (gapClusters sharedVolume.mount.bpb 6 sharedVolume.flat (sharedChains false).length
        600) := by
  refine (gap_filled_iff (fun _ => true) sharedVolume.mount.bpb 6 sharedVolume
    (fun x => (sharedChains x).headD 0) sharedChains false sharedFile 600
    sharedFile_open.consistent sharedVolume_wellFormed rfl (by decide +kernel)
    fun _ _ => rfl).2.mpr ?_
  have hadded : gapClusters sharedVolume.mount.bpb 6 sharedVolume.flat
      (sharedChains false).length 600 = [4] := by decide +kernel
  have hcleared : clearedClusters sharedVolume.mount.bpb 6 sharedVolume.flat
      (sharedChains false).length 600 = [4] := by decide +kernel
  have hstart : sharedVolume.mount.bpb.clusterStart 4 = 2048 := by decide
  rw [hadded, hcleared]
  have hbehind : ∀ {length a : ℕ}, a ∈ span sharedVolume.mount.bpb length [4] → 1056 ≤ a := by
    rintro length a ⟨c, hc, hge, -⟩
    rw [List.mem_singleton.mp hc, hstart] at hge
    omega
  rintro a (⟨hin, -⟩ | ⟨hin, -⟩) _
  · exact sharedVolume_empty (hbehind hin)
  · exact sharedVolume_empty (hbehind hin)

/-- The same volume with another file in the cluster 5. -/
def crowdedVolume : Volume :=
  { sharedVolume with
    device := fun a =>
      if 532 ≤ a ∧ a < 536 then if a = 535 then 0x0F else 0xFF
      else if 2560 ≤ a ∧ a < 3072 then 7
      else sharedVolume.device a }

def crowdedChains : Option Bool → List ℕ
  | none => [5]
  | some x => sharedChains x

theorem crowdedVolume_wellFormed :
    WellFormed (fatEntry crowdedVolume) 8 (fun x => (crowdedChains x).headD 0)
      crowdedChains := by
  refine ⟨by decide, by decide, ?_, ?_⟩
  · intro x
    refine ⟨rfl, ?_, ?_, ?_, ?_⟩
    · rcases x with _ | _ | _ <;> decide
    · rcases x with _ | _ | _ <;> decide
    · intro p cluster next _ hnext
      rcases x with _ | _ | _ <;> simp [crowdedChains, sharedChains] at hnext
    · intro last hlast
      rcases x with _ | _ | _
      all_goals
        rw [← Option.some.inj hlast]
        decide
  · intro x y hxy cluster hx hy
    rcases x with _ | _ | _ <;> rcases y with _ | _ | _ <;>
      simp_all [crowdedChains, sharedChains]

/-- A write at offset 600 links the cluster 4 and clears the file in the cluster 5. -/
theorem gap_fill_clears_neighbour :
    Consistent crowdedVolume.mount.bpb 6 crowdedVolume ∧
      WellFormed (fatEntry crowdedVolume) 8 (fun x => (crowdedChains x).headD 0)
        crowdedChains ∧
      gapClusters crowdedVolume.mount.bpb 6 crowdedVolume.flat
        (crowdedChains (some false)).length 600 = [4] ∧
      crowdedVolume.device 2560 = 7 ∧
      (reachOffset (fun _ => true) crowdedVolume sharedFile 600).1.device 2560 = 0 ∧
      ¬GapFilled crowdedVolume.mount.bpb 6 crowdedVolume
        (reachOffset (fun _ => true) crowdedVolume sharedFile 600).1 [4] := by
  have hbefore : crowdedVolume.device 2560 = 7 := by decide
  have hafter : (reachOffset (fun _ => true) crowdedVolume sharedFile 600).1.device 2560 =
      0 := by decide +kernel
  refine ⟨⟨smallVolume_consistent.geometry, smallVolume_consistent.mounted,
    FreshCache.inv ⟨rfl, rfl⟩ (by decide) rfl⟩, crowdedVolume_wellFormed, by decide +kernel,
    hbefore, hafter, ?_⟩
  intro hfilled
  have hout : 2560 ∉ span crowdedVolume.mount.bpb
      crowdedVolume.mount.bpb.clusterSizeBytes [4] := by
    rintro ⟨c, hc, -, hlt⟩
    rw [List.mem_singleton.mp hc] at hlt
    exact absurd hlt (by decide)
  have hkept := hfilled.frame 2560 hout (by decide) (.inl (by decide))
  rw [hafter, hbefore] at hkept
  exact absurd hkept (by decide)

end KimisOS.Fat32
