import KimisOS.Fat32.Flat

/-!
# The phases of a write

Every phase of `fat32_write` keeps the table well formed and lets the file grow
by free clusters only.  Beside this each phase accounts for the free clusters
behind the search hint, for the place it reaches in the chain, and for the
bytes of the data area that it changes.
-/

namespace KimisOS.Fat32

open KimisOS.ByteStore

/-- The number of free entries from the hint on, as far as they are searched. -/
def Flat.freeCount (flat : Flat) (clusters : ℕ) : ℕ :=
  ((Finset.Ico flat.search clusters).filter fun j => flat.table j = 0).card

/-- The first byte of a cluster on the device. -/
def Bpb.clusterStart (bpb : Bpb) (cluster : ℕ) : ℕ :=
  bpb.dataOffset + (cluster - 2) * bpb.clusterSizeBytes

section FreeCount

variable {flat : Flat} {clusters : ℕ}

theorem Flat.freeCount_full (hfull : flat.Full clusters) :
    flat.freeCount clusters = 0 := by
  rw [Flat.freeCount, Finset.card_eq_zero, Finset.filter_eq_empty_iff]
  intro j hj
  exact hfull j (Finset.mem_Ico.mp hj).1 (Finset.mem_Ico.mp hj).2

/-- Taking the first free cluster leaves the free ones behind it. -/
theorem Flat.freeCount_take {flat' : Flat} {cluster : ℕ}
    (hnext : flat.IsNextFree clusters cluster) (hsearch' : flat'.search = cluster)
    (htaken : flat'.table cluster ≠ 0)
    (hsame : ∀ j, j ≠ cluster → (flat'.table j = 0 ↔ flat.table j = 0)) :
    flat'.freeCount clusters + 1 = flat.freeCount clusters := by
  obtain ⟨hsearch, hlt, hfree, hfirst⟩ := hnext
  have hinsert : (Finset.Ico flat.search clusters).filter (fun j => flat.table j = 0) =
      insert cluster ((Finset.Ico flat'.search clusters).filter
        fun j => flat'.table j = 0) := by
    ext j
    rw [Finset.mem_insert, Finset.mem_filter, Finset.mem_filter, Finset.mem_Ico,
      Finset.mem_Ico, hsearch']
    by_cases hj : j = cluster
    · subst hj
      simp [hsearch, hlt, hfree]
    · rw [hsame j hj]
      constructor
      · rintro ⟨⟨hge, hjlt⟩, hjfree⟩
        right
        refine ⟨⟨?_, hjlt⟩, hjfree⟩
        by_contra hbefore
        exact hfirst j hge (by omega) hjfree
      · rintro (heq | ⟨⟨hge, hjlt⟩, hjfree⟩)
        · exact absurd heq hj
        · exact ⟨⟨by omega, hjlt⟩, hjfree⟩
  have hout : cluster ∉ (Finset.Ico flat'.search clusters).filter
      fun j => flat'.table j = 0 := by
    rw [Finset.mem_filter]
    exact fun hmem => htaken hmem.2
  rw [Flat.freeCount, Flat.freeCount, hinsert, Finset.card_insert_of_notMem hout]

/-- Linking takes the cluster out of the free ones. -/
theorem Flat.freeCount_link {last cluster : ℕ}
    (hnext : flat.IsNextFree clusters cluster) (hne : cluster ≠ 0)
    (hlast : flat.table last ≠ 0) :
    (flat.link last cluster).freeCount clusters + 1 = flat.freeCount clusters := by
  have hentry : (flat.link last cluster).table =
      Function.update (Function.update flat.table last cluster) cluster fat32Eoc := rfl
  apply Flat.freeCount_take hnext rfl
  · rw [hentry, Function.update_self]
    decide
  · intro j hj
    rw [hentry, Function.update_of_ne hj]
    by_cases hjlast : j = last
    · rw [hjlast, Function.update_self]
      exact iff_of_false hne hlast
    · rw [Function.update_of_ne hjlast]

end FreeCount

section Phases

variable {File : Type*} [DecidableEq File] {heads : File → ℕ} {chains : File → List ℕ}
  {f : File} {bpb : Bpb} {clusters : ℕ} {table : ℕ → ℕ}

/-- The volume shows a flat one in which the file has got the clusters
`new`. -/
structure Holds (bpb : Bpb) (clusters : ℕ) (table : ℕ → ℕ) (heads : File → ℕ)
    (chains : File → List ℕ) (f : File) (vol : Volume) (flat : Flat) (head : ℕ)
    (new : List ℕ) : Prop where
  shows : Shows bpb clusters vol flat
  grown : Grown table flat.table (clusters + 2) heads chains f head new

variable {vol : Volume} {flat : Flat} {head : ℕ} {new : List ℕ} {p current : ℕ}

theorem Holds.count_le (hholds : Holds bpb clusters table heads chains f vol flat head new) :
    clusters + 2 ≤ fat32EocMin := hholds.shows.geometry.count_le

theorem Holds.range (hholds : Holds bpb clusters table heads chains f vol flat head new)
    (hp : (chains f ++ new)[p]? = some current) : 2 ≤ current ∧ current < clusters + 2 :=
  hholds.grown.isChain.range current (List.mem_of_getElem? hp)

/-- Reading the entry of a cluster of the file gives the next one, or the
end. -/
theorem Holds.next (hholds : Holds bpb clusters table heads chains f vol flat head new)
    (hp : (chains f ++ new)[p]? = some current) :
    Holds bpb clusters table heads chains f (fat32GetNextCluster vol current).1 flat
        head new ∧
      (((fat32GetNextCluster vol current).2 < fat32EocMin ∧
          (chains f ++ new)[p + 1]? = some (fat32GetNextCluster vol current).2) ∨
        (fat32EocMin ≤ (fat32GetNextCluster vol current).2 ∧
          p + 1 = (chains f ++ new).length)) := by
  obtain ⟨hshows, hnext⟩ := hholds.shows.next hholds.grown.isChain hp
  exact ⟨⟨hshows, hholds.grown⟩, hnext⟩

theorem Holds.write (hholds : Holds bpb clusters table heads chains f vol flat head new)
    (bytes : ℕ → UInt8) {offset : ℕ} (count : ℕ) (hoffset : bpb.dataOffset ≤ offset) :
    Holds bpb clusters table heads chains f (fwrite vol bytes offset count)
      (flat.write bytes offset count) head new :=
  ⟨hholds.shows.fwrite bytes count hoffset, hholds.grown⟩

/-- At the end of the chain the next free cluster is linked, or there is none. -/
theorem Holds.linkNew (hholds : Holds bpb clusters table heads chains f vol flat head new)
    (hp : (chains f ++ new)[p]? = some current) (hend : p + 1 = (chains f ++ new).length) :
    (∃ cluster, (linkNewCluster vol current).2 = cluster ∧ cluster ≠ 0 ∧
      flat.IsNextFree clusters cluster ∧
      Holds bpb clusters table heads chains f (linkNewCluster vol current).1
        (flat.link current cluster) head (new ++ [cluster]) ∧
      (chains f ++ (new ++ [cluster]))[p + 1]? = some cluster) ∨
    ((linkNewCluster vol current).2 = 0 ∧ flat.Full clusters ∧
      Holds bpb clusters table heads chains f (linkNewCluster vol current).1 flat
        head new) := by
  have hlast : (chains f ++ new).getLast? = some current := by
    rw [List.getLast?_eq_getElem?, ← hend, Nat.add_sub_cancel]
    exact hp
  have hzero := hholds.grown.wellFormed.first
  rcases hholds.shows.linkNew (hholds.range hp).2 hzero with
    ⟨cluster, hcluster, hne, hnext, hshows⟩ | ⟨hnone, hfull, hshows⟩
  · left
    have hlt := hnext.2.1
    refine ⟨cluster, hcluster, hne, hnext, ⟨hshows, ?_⟩, ?_⟩
    · exact hholds.grown.append hholds.count_le hnext.2.2.1 (by omega) hlast
    · rw [← List.append_assoc, hend]
      exact List.getElem?_concat_length
  · right
    exact ⟨hnone, hfull, hshows, hholds.grown⟩

/-- The same with the number of free clusters. -/
theorem Holds.link (hholds : Holds bpb clusters table heads chains f vol flat head new)
    (hp : (chains f ++ new)[p]? = some current) (hend : p + 1 = (chains f ++ new).length) :
    (∃ cluster, (linkNewCluster vol current).2 = cluster ∧ cluster ≠ 0 ∧
      Holds bpb clusters table heads chains f (linkNewCluster vol current).1
        (flat.link current cluster) head (new ++ [cluster]) ∧
      (chains f ++ (new ++ [cluster]))[p + 1]? = some cluster ∧
      (flat.link current cluster).freeCount clusters + 1 = flat.freeCount clusters) ∨
    ((linkNewCluster vol current).2 = 0 ∧ flat.freeCount clusters = 0 ∧
      Holds bpb clusters table heads chains f (linkNewCluster vol current).1 flat
        head new) := by
  have hcurrent := hholds.grown.isChain.ne_zero hholds.count_le (List.mem_of_getElem? hp)
  rcases hholds.linkNew hp hend with
    ⟨cluster, hcluster, hne, hnext, hlinked, hplace⟩ | ⟨hnone, hfull, hsame⟩
  · left
    exact ⟨cluster, hcluster, hne, hlinked, hplace, Flat.freeCount_link hnext hne hcurrent⟩
  · right
    exact ⟨hnone, Flat.freeCount_full hfull, hsame⟩

theorem Holds.clusterOffset_eq
    (hholds : Holds bpb clusters table heads chains f vol flat head new)
    (hp : (chains f ++ new)[p]? = some current) :
    vol.mount.clusterOffset current = bpb.clusterStart current :=
  hholds.shows.clusterOffset_eq (hholds.range hp)

theorem Bpb.dataOffset_le_clusterStart (bpb : Bpb) (cluster : ℕ) :
    bpb.dataOffset ≤ bpb.clusterStart cluster := Nat.le_add_right _ _

/-! ## The first cluster -/

theorem firstClusterFor_taken {file : OpenFile} (hzero : file.firstCluster = 0)
    (hfound : (fat32GetFreeCluster vol).2 ≠ 0) :
    firstClusterFor vol file =
      (fat32SetNextCluster (fat32GetFreeCluster vol).1 (fat32GetFreeCluster vol).2 fat32Eoc,
        { file with firstCluster := (fat32GetFreeCluster vol).2 }) := by
  rw [firstClusterFor, if_pos hzero, if_neg hfound]

theorem firstClusterFor_full {file : OpenFile} (hzero : file.firstCluster = 0)
    (hfull : (fat32GetFreeCluster vol).2 = 0) :
    firstClusterFor vol file = ((fat32GetFreeCluster vol).1, file) := by
  rw [firstClusterFor, if_pos hzero, if_pos hfull]

/-- An empty file gets the next free cluster, if there is one. -/
theorem firstClusterFor_empty {file file' : OpenFile} {vol' : Volume}
    (hshows : Shows bpb clusters vol flat)
    (hwell : WellFormed flat.table (clusters + 2) heads chains)
    (hzero : file.firstCluster = 0) (hnil : chains f = [])
    (hresult : firstClusterFor vol file = (vol', file')) :
    (∃ cluster, cluster ≠ 0 ∧ flat.IsNextFree clusters cluster ∧
      file' = { file with firstCluster := cluster } ∧
      Holds bpb clusters flat.table heads chains f vol' (flat.set cluster fat32Eoc) cluster
        [cluster]) ∨
    (file' = file ∧ flat.Full clusters ∧ Shows bpb clusters vol' flat) := by
  rcases hshows.getFree with ⟨cluster, hcluster, hnext, hfound⟩ | ⟨hnone, hfull, hsame⟩
  · left
    have hne : cluster ≠ 0 := by
      intro heq
      exact hwell.first (heq ▸ hnext.2.2.1)
    have hlt := hnext.2.1
    have hvalue : fat32Eoc < 2 ^ 32 := by decide
    have htaken : (fat32GetFreeCluster vol).2 ≠ 0 := by
      rw [hcluster]
      exact hne
    have hset := hfound.set (show cluster < clusters + 2 by omega) hvalue
    rw [firstClusterFor_taken hzero htaken, hcluster] at hresult
    obtain ⟨hvol, hfile⟩ := Prod.mk.inj hresult
    rw [hvol] at hset
    exact ⟨cluster, hne, hnext, hfile.symm, hset,
      Grown.start hwell hshows.geometry.count_le hnil hnext.2.2.1 (by omega)⟩
  · right
    rw [firstClusterFor_full hzero hnone] at hresult
    obtain ⟨hvol, hfile⟩ := Prod.mk.inj hresult
    rw [hvol] at hsame
    exact ⟨hfile.symm, hfull, hsame⟩

/-- The file has a first cluster afterwards, unless there is no free one. -/
theorem firstClusterFor_spec {file file' : OpenFile} {vol' : Volume}
    (hshows : Shows bpb clusters vol flat)
    (hwell : WellFormed flat.table (clusters + 2) heads chains)
    (hfirst : file.firstCluster = heads f)
    (hresult : firstClusterFor vol file = (vol', file')) :
    ∃ flat' new,
      Holds bpb clusters flat.table heads chains f vol' flat' file'.firstCluster new ∧
      file' = { file with firstCluster := file'.firstCluster } ∧
      flat'.data = flat.data ∧
      flat'.freeCount clusters + new.length = flat.freeCount clusters ∧
      ((file'.firstCluster ≠ 0 ∧ (chains f ++ new)[0]? = some file'.firstCluster ∧
          (chains f ++ new).length = max (chains f).length 1) ∨
        (file'.firstCluster = 0 ∧ chains f = [] ∧ flat.freeCount clusters = 0)) := by
  have hchain := hwell.chain f
  have hgrown : Grown flat.table flat.table (clusters + 2) heads chains f (heads f) [] :=
    Grown.refl hwell
  have hholds : Holds bpb clusters flat.table heads chains f vol flat (heads f) [] :=
    ⟨hshows, hgrown⟩
  by_cases hzero : file.firstCluster = 0
  · have hnil : chains f = [] := by
      by_contra hne
      exact hchain.head_ne hne (hfirst ▸ hzero)
    rcases firstClusterFor_empty hshows hwell hzero hnil hresult with
      ⟨cluster, hne, hnext, rfl, htaken⟩ | ⟨rfl, hfull, hsame⟩
    · refine ⟨_, [cluster], htaken, rfl, rfl, ?_, .inl ⟨hne, ?_, ?_⟩⟩
      · apply Flat.freeCount_take hnext rfl
        · change Function.update flat.table cluster fat32Eoc cluster ≠ 0
          rw [Function.update_self]
          decide
        · intro j hj
          change Function.update flat.table cluster fat32Eoc j = 0 ↔ _
          rw [Function.update_of_ne hj]
      · rw [hnil]
        rfl
      · rw [hnil]
        rfl
    · refine ⟨flat, [], ⟨hsame, ?_⟩, rfl, rfl, rfl,
        .inr ⟨hzero, hnil, Flat.freeCount_full hfull⟩⟩
      rw [hfirst]
      exact hgrown
  · rw [firstClusterFor, if_neg hzero] at hresult
    obtain ⟨rfl, rfl⟩ := Prod.mk.inj hresult
    have hne : chains f ≠ [] := by
      intro hnil
      have hstarts := hchain.starts
      rw [hnil, List.headD_nil] at hstarts
      omega
    obtain ⟨first, rest, hcons⟩ := List.exists_cons_of_ne_nil hne
    have hstarts := hchain.starts
    rw [hcons, List.headD_cons] at hstarts
    refine ⟨flat, [], ?_, rfl, rfl, rfl, .inl ⟨hzero, ?_, ?_⟩⟩
    · rw [hfirst]
      exact hholds
    · rw [hfirst, hcons, ← hstarts]
      rfl
    · rw [List.append_nil, hcons, List.length_cons]
      exact (max_eq_left (by omega)).symm

/-! ## The walk -/

section Walk

variable {malloc : ℕ → Bool} {rounds : ℕ}

theorem walkToOffset_next (hlt : (fat32GetNextCluster vol current).2 < fat32EocMin) :
    walkToOffset malloc (rounds + 1) vol current =
      walkToOffset malloc rounds (fat32GetNextCluster vol current).1
        (fat32GetNextCluster vol current).2 := by
  rw [walkToOffset, if_neg (Nat.not_le.mpr hlt)]

theorem walkToOffset_full (heoc : fat32EocMin ≤ (fat32GetNextCluster vol current).2)
    (hfull : (linkNewCluster (fat32GetNextCluster vol current).1 current).2 = 0) :
    walkToOffset malloc (rounds + 1) vol current =
      ((linkNewCluster (fat32GetNextCluster vol current).1 current).1, none) := by
  rw [walkToOffset, if_pos heoc, if_pos hfull]

theorem walkToOffset_clear (heoc : fat32EocMin ≤ (fat32GetNextCluster vol current).2)
    (hnew : (linkNewCluster (fat32GetNextCluster vol current).1 current).2 ≠ 0)
    (hmalloc : malloc rounds = true) :
    walkToOffset malloc (rounds + 1) vol current =
      walkToOffset malloc rounds
        (fwrite (linkNewCluster (fat32GetNextCluster vol current).1 current).1
          (fun _ => 0)
          ((linkNewCluster (fat32GetNextCluster vol current).1
            current).1.mount.clusterOffset
              (linkNewCluster (fat32GetNextCluster vol current).1 current).2) 4096)
        (linkNewCluster (fat32GetNextCluster vol current).1 current).2 := by
  rw [walkToOffset, if_pos heoc, if_neg hnew, if_pos hmalloc]

theorem walkToOffset_noMemory (heoc : fat32EocMin ≤ (fat32GetNextCluster vol current).2)
    (hnew : (linkNewCluster (fat32GetNextCluster vol current).1 current).2 ≠ 0)
    (hmalloc : malloc rounds ≠ true) :
    walkToOffset malloc (rounds + 1) vol current =
      ((linkNewCluster (fat32GetNextCluster vol current).1 current).1, none) := by
  rw [walkToOffset, if_pos heoc, if_neg hnew, if_neg hmalloc]

end Walk

/-- Where a walk to `place` of the chain ends: in the cluster at that place, or
without a free cluster, if the memory does not run out. -/
structure Walked (bpb : Bpb) (clusters : ℕ) (malloc : ℕ → Bool)
    (chain new added : List ℕ) (flat flat' : Flat) (place : ℕ) (result : Option ℕ) :
    Prop where
  free : flat'.freeCount clusters + added.length = flat.freeCount clusters
  data : ∀ a, (∀ c ∈ added, a < bpb.clusterStart c ∨ bpb.clusterStart c + 4096 ≤ a) →
    flat'.data a = flat.data a
  found : ∀ cluster, result = some cluster →
    (chain ++ (new ++ added))[place]? = some cluster ∧
      (chain ++ (new ++ added)).length = max (chain ++ new).length (place + 1)
  full : result = none → (∀ i, malloc i = true) →
    flat'.freeCount clusters = 0 ∧ (chain ++ (new ++ added)).length ≤ place

section Walked

variable {malloc : ℕ → Bool} {chain added : List ℕ} {middle flat' : Flat}
  {place cluster : ℕ} {result : Option ℕ}

theorem Walked.here (hp : (chain ++ new)[place]? = some cluster) :
    Walked bpb clusters malloc chain new [] flat flat place (some cluster) := by
  refine ⟨rfl, fun _ _ => rfl, ?_, ?_⟩
  · intro reached hreached
    have hlt := (List.getElem?_eq_some_iff.mp hp).1
    rw [List.append_nil, ← Option.some.inj hreached, max_eq_left hlt]
    exact ⟨hp, rfl⟩
  · intro hnone
    cases hnone

/-- A walk that links a cluster and clears its first page goes on from there. -/
theorem Walked.link (hcount : middle.freeCount clusters + 1 = flat.freeCount clusters)
    (hdata : ∀ a, a < bpb.clusterStart cluster ∨ bpb.clusterStart cluster + 4096 ≤ a →
      middle.data a = flat.data a)
    (hend : (chain ++ new).length ≤ place)
    (hwalked : Walked bpb clusters malloc chain (new ++ [cluster]) added middle flat' place
      result) :
    Walked bpb clusters malloc chain new (cluster :: added) flat flat' place result := by
  have happend : new ++ cluster :: added = new ++ [cluster] ++ added := by
    rw [List.append_assoc, List.singleton_append]
  have hfree := hwalked.free
  refine ⟨?_, ?_, ?_, ?_⟩
  · rw [List.length_cons]
    omega
  · intro a ha
    exact (hwalked.data a fun c hc => ha c (List.mem_cons_of_mem cluster hc)).trans
      (hdata a (ha cluster List.mem_cons_self))
  · intro reached hreached
    obtain ⟨hat, hlength⟩ := hwalked.found reached hreached
    rw [happend]
    refine ⟨hat, hlength.trans ?_⟩
    simp only [List.length_append, List.length_singleton] at hend ⊢
    omega
  · rw [happend]
    exact hwalked.full

/-- Without memory for the zeros the new cluster stays linked. -/
theorem Walked.noMemory {i : ℕ} (hmemory : malloc i ≠ true)
    (hcount : middle.freeCount clusters + 1 = flat.freeCount clusters)
    (hdata : middle.data = flat.data) :
    Walked bpb clusters malloc chain new [cluster] flat middle place none := by
  refine ⟨hcount, fun a _ => congrFun hdata a, ?_, ?_⟩
  · intro reached hreached
    cases hreached
  · intro _ hmalloc
    exact absurd (hmalloc i) hmemory

theorem Walked.exhausted (hfull : flat.freeCount clusters = 0)
    (hend : (chain ++ new).length ≤ place) :
    Walked bpb clusters malloc chain new [] flat flat place none := by
  refine ⟨rfl, fun _ _ => rfl, ?_, ?_⟩
  · intro reached hreached
    cases hreached
  · intro _ _
    rw [List.append_nil]
    exact ⟨hfull, hend⟩

end Walked

/-- The walk from place `p` of the chain. -/
theorem walkToOffset_spec {malloc : ℕ → Bool} {rounds : ℕ} {vol' : Volume}
    {result : Option ℕ}
    (hholds : Holds bpb clusters table heads chains f vol flat head new)
    (hp : (chains f ++ new)[p]? = some current)
    (hwalk : walkToOffset malloc rounds vol current = (vol', result)) :
    ∃ flat' added,
      Holds bpb clusters table heads chains f vol' flat' head (new ++ added) ∧
      Walked bpb clusters malloc (chains f) new added flat flat' (p + rounds) result := by
  induction rounds generalizing vol flat new p current with
  | zero =>
      rw [walkToOffset] at hwalk
      obtain ⟨rfl, rfl⟩ := Prod.mk.inj hwalk
      refine ⟨flat, [], ?_, Walked.here hp⟩
      rw [List.append_nil]
      exact hholds
  | succ rounds ih =>
      obtain ⟨hread, hnext⟩ := hholds.next hp
      have hsum : p + 1 + rounds = p + (rounds + 1) := by omega
      rcases hnext with ⟨hlt, hp'⟩ | ⟨heoc, hend⟩
      · rw [walkToOffset_next hlt] at hwalk
        obtain ⟨flat', added, hholds', hwalked⟩ := ih hread hp' hwalk
        exact ⟨flat', added, hholds', hsum ▸ hwalked⟩
      · rcases hread.link hp hend with
          ⟨cluster, hcluster, hne, hlinked, hp', hcount⟩ | ⟨hzero, hfull, hsame⟩
        · have hnew : (linkNewCluster (fat32GetNextCluster vol current).1 current).2 ≠ 0 := by
            rw [hcluster]
            exact hne
          by_cases hmemory : malloc rounds = true
          · rw [walkToOffset_clear heoc hnew hmemory, hcluster,
              hlinked.clusterOffset_eq hp'] at hwalk
            have hcleared := hlinked.write (fun _ => 0) 4096
              (bpb.dataOffset_le_clusterStart cluster)
            obtain ⟨flat', added, hholds', hwalked⟩ := ih hcleared hp' hwalk
            rw [List.append_assoc, List.singleton_append] at hholds'
            rw [hsum] at hwalked
            refine ⟨flat', cluster :: added, hholds', ?_⟩
            refine hwalked.link ?_ ?_ (by omega)
            · exact hcount
            · intro a houtside
              have hkept : store (flat.link current cluster).data
                  (bpb.clusterStart cluster) (fun _ => 0) 4096 a = flat.data a :=
                store_outside houtside
              exact hkept
          · rw [walkToOffset_noMemory heoc hnew hmemory] at hwalk
            obtain ⟨hvol, rfl⟩ := Prod.mk.inj hwalk
            rw [hvol] at hlinked
            exact ⟨flat.link current cluster, [cluster], hlinked,
              Walked.noMemory hmemory hcount rfl⟩
        · rw [walkToOffset_full heoc hzero] at hwalk
          obtain ⟨hvol, rfl⟩ := Prod.mk.inj hwalk
          rw [hvol] at hsame
          refine ⟨flat, [], ?_, Walked.exhausted hfull (by omega)⟩
          rw [List.append_nil]
          exact hsame

end Phases

end KimisOS.Fat32
