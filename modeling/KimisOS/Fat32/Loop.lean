import KimisOS.Fat32.Phases

/-!
# The loop over whole clusters

The bytes of a file lie in the clusters of its chain, one cluster after the
other.  The loop of `fat32_write` stores the buffer in the bytes of the file
from the start of a cluster on.
-/

namespace KimisOS.Fat32

open KimisOS.ByteStore

/-- Where byte `x` of a file with these clusters lies on the device. -/
def Bpb.fileAddress (bpb : Bpb) (chain : List ℕ) (x : ℕ) : ℕ :=
  bpb.clusterStart (chain.getD (x / bpb.clusterSizeBytes) 0) + x % bpb.clusterSizeBytes

/-! ## Addresses -/

section Addresses

variable {bpb : Bpb} {clusters : ℕ}

theorem Geometry.clusterStart_inj (hgeo : Geometry bpb clusters) {c c' r r' : ℕ}
    (hc : 2 ≤ c) (hc' : 2 ≤ c') (hr : r < bpb.clusterSizeBytes)
    (hr' : r' < bpb.clusterSizeBytes)
    (heq : bpb.clusterStart c + r = bpb.clusterStart c' + r') : c = c' ∧ r = r' := by
  have hsize := hgeo.clusterSize_ge
  have hsum : r + (c - 2) * bpb.clusterSizeBytes = r' + (c' - 2) * bpb.clusterSizeBytes := by
    rw [Bpb.clusterStart, Bpb.clusterStart] at heq
    omega
  have hdiv := congrArg (· / bpb.clusterSizeBytes) hsum
  have hmod := congrArg (· % bpb.clusterSizeBytes) hsum
  simp only [Nat.add_mul_div_right _ _ (show 0 < bpb.clusterSizeBytes by omega),
    Nat.div_eq_of_lt hr, Nat.div_eq_of_lt hr', Nat.add_mul_mod_self_right,
    Nat.mod_eq_of_lt hr, Nat.mod_eq_of_lt hr'] at hdiv hmod
  exact ⟨by omega, hmod⟩

/-- The byte `r` of the cluster at place `p` of the chain. -/
theorem Geometry.fileAddress_eq (hgeo : Geometry bpb clusters) {chain : List ℕ}
    {p r cluster : ℕ} (hp : chain[p]? = some cluster) (hr : r < bpb.clusterSizeBytes) :
    bpb.fileAddress chain (p * bpb.clusterSizeBytes + r) =
      bpb.clusterStart cluster + r := by
  have hsize := hgeo.clusterSize_ge
  have hdiv : (p * bpb.clusterSizeBytes + r) / bpb.clusterSizeBytes = p := by
    rw [Nat.mul_comm, Nat.mul_add_div (by omega), Nat.div_eq_of_lt hr, Nat.add_zero]
  have hmod : (p * bpb.clusterSizeBytes + r) % bpb.clusterSizeBytes = r := by
    rw [Nat.mul_comm, Nat.mul_add_mod, Nat.mod_eq_of_lt hr]
  rw [Bpb.fileAddress, hdiv, hmod, List.getD_eq_getElem?_getD, hp, Option.getD_some]

/-- Two different bytes of a file lie apart. -/
theorem Geometry.fileAddress_inj (hgeo : Geometry bpb clusters) {table : ℕ → ℕ}
    {count head : ℕ} {chain : List ℕ} (hchain : IsChain table count head chain) {x y : ℕ}
    (hx : x / bpb.clusterSizeBytes < chain.length)
    (hy : y / bpb.clusterSizeBytes < chain.length)
    (heq : bpb.fileAddress chain x = bpb.fileAddress chain y) : x = y := by
  have hsize := hgeo.clusterSize_ge
  have hpos : 0 < bpb.clusterSizeBytes := by omega
  rw [Bpb.fileAddress, Bpb.fileAddress, List.getD_eq_getElem _ _ hx,
    List.getD_eq_getElem _ _ hy] at heq
  obtain ⟨hcluster, hmod⟩ := hgeo.clusterStart_inj
    (hchain.range _ (List.getElem_mem hx)).1 (hchain.range _ (List.getElem_mem hy)).1
    (Nat.mod_lt x hpos) (Nat.mod_lt y hpos) heq
  have hindex := (List.Nodup.getElem_inj_iff hchain.nodup).mp hcluster
  rw [← Nat.div_add_mod x bpb.clusterSizeBytes, ← Nat.div_add_mod y bpb.clusterSizeBytes,
    hindex, hmod]

/-- A chain is no longer than the volume. -/
theorem Geometry.chain_le (hgeo : Geometry bpb clusters) {table : ℕ → ℕ} {head : ℕ}
    {chain : List ℕ} (hchain : IsChain table (clusters + 2) head chain) :
    chain.length * bpb.clusterSizeBytes + bpb.dataOffset ≤ 2 ^ 32 := by
  have hbelow := hgeo.below
  have hsub : chain.toFinset ⊆ Finset.Ico 2 (clusters + 2) := by
    intro c hc
    exact Finset.mem_Ico.mpr (hchain.range c (List.mem_toFinset.mp hc))
  have hcard := Finset.card_le_card hsub
  rw [List.toFinset_card_of_nodup hchain.nodup, Nat.card_Ico] at hcard
  have hmul : chain.length * bpb.clusterSizeBytes ≤ clusters * bpb.clusterSizeBytes :=
    Nat.mul_le_mul_right _ (by omega)
  omega

theorem Geometry.place_lt (hgeo : Geometry bpb clusters) {table : ℕ → ℕ}
    {head p current : ℕ} {chain : List ℕ}
    (hchain : IsChain table (clusters + 2) head chain) (hp : chain[p]? = some current) :
    p * bpb.clusterSizeBytes < 2 ^ 32 := by
  have hle := hgeo.chain_le hchain
  have hcs := hgeo.clusterSize_ge
  have hlt := (List.getElem?_eq_some_iff.mp hp).1
  have hmul : (p + 1) * bpb.clusterSizeBytes ≤ chain.length * bpb.clusterSizeBytes :=
    Nat.mul_le_mul_right _ hlt
  rw [Nat.succ_mul] at hmul
  omega

/-- A longer chain leaves the bytes of the first clusters where they are. -/
theorem Bpb.fileAddress_append (bpb : Bpb) {chain : List ℕ} (added : List ℕ) {x : ℕ}
    (hx : x / bpb.clusterSizeBytes < chain.length) :
    bpb.fileAddress (chain ++ added) x = bpb.fileAddress chain x := by
  rw [Bpb.fileAddress, Bpb.fileAddress, List.getD_append _ _ _ _ hx]

end Addresses

/-! ## One round -/

section Round

variable {buffer : ℕ → UInt8} {rounds remaining i size : ℕ} {vol written : Volume}
  {current : ℕ}

@[simp]
theorem writeClusters_done (buffer : ℕ → UInt8) (rounds : ℕ) (vol : Volume)
    (current i : ℕ) : writeClusters buffer rounds vol current 0 i = (vol, none) := by
  cases rounds with
  | zero => rw [writeClusters]
  | succ rounds => rw [writeClusters, if_pos rfl]

theorem writeClusters_next (hremaining : remaining ≠ 0)
    (hsize : vol.mount.bpb.clusterSizeBytes = size)
    (hwritten : fwrite vol (load buffer (i * size % 2 ^ 32))
      (vol.mount.clusterOffset current) (min remaining size) = written)
    (hnext : ¬(fat32EocMin ≤ (fat32GetNextCluster written current).2 ∧
      remaining - min remaining size > 0)) :
    writeClusters buffer (rounds + 1) vol current remaining i =
      writeClusters buffer rounds (fat32GetNextCluster written current).1
        (fat32GetNextCluster written current).2 (remaining - min remaining size)
        (i + 1) := by
  subst hsize hwritten
  rw [writeClusters, if_neg hremaining, if_neg hnext]

theorem writeClusters_full (hremaining : remaining ≠ 0)
    (hsize : vol.mount.bpb.clusterSizeBytes = size)
    (hwritten : fwrite vol (load buffer (i * size % 2 ^ 32))
      (vol.mount.clusterOffset current) (min remaining size) = written)
    (hend : fat32EocMin ≤ (fat32GetNextCluster written current).2 ∧
      remaining - min remaining size > 0)
    (hfull : (linkNewCluster (fat32GetNextCluster written current).1 current).2 = 0) :
    writeClusters buffer (rounds + 1) vol current remaining i =
      ((linkNewCluster (fat32GetNextCluster written current).1 current).1,
        some (i * size % 2 ^ 32)) := by
  subst hsize hwritten
  rw [writeClusters, if_neg hremaining, if_pos hend, if_pos hfull]

theorem writeClusters_link (hremaining : remaining ≠ 0)
    (hsize : vol.mount.bpb.clusterSizeBytes = size)
    (hwritten : fwrite vol (load buffer (i * size % 2 ^ 32))
      (vol.mount.clusterOffset current) (min remaining size) = written)
    (hend : fat32EocMin ≤ (fat32GetNextCluster written current).2 ∧
      remaining - min remaining size > 0)
    (hnew : (linkNewCluster (fat32GetNextCluster written current).1 current).2 ≠ 0) :
    writeClusters buffer (rounds + 1) vol current remaining i =
      writeClusters buffer rounds
        (linkNewCluster (fat32GetNextCluster written current).1 current).1
        (linkNewCluster (fat32GetNextCluster written current).1 current).2
        (remaining - min remaining size) (i + 1) := by
  subst hsize hwritten
  rw [writeClusters, if_neg hremaining, if_pos hend, if_neg hnew]

end Round

/-! ## The whole loop -/

/-- The clusters that hold this many bytes. -/
def Bpb.clustersFor (bpb : Bpb) (bytes : ℕ) : ℕ :=
  (bytes + bpb.clusterSizeBytes - 1) / bpb.clusterSizeBytes

/-- What the loop does from place `p` of the chain on: the chain has as many
clusters as the bytes need and holds the bytes, or the clusters run out. -/
structure Stored (bpb : Bpb) (clusters : ℕ) (chain chain' : List ℕ) (flat flat' : Flat)
    (buffer : ℕ → UInt8) (p remaining i : ℕ) (result : Option ℕ) : Prop where
  free : flat'.freeCount clusters + chain'.length =
    flat.freeCount clusters + chain.length
  frame : ∀ a, (∀ t < remaining,
      (p * bpb.clusterSizeBytes + t) / bpb.clusterSizeBytes < chain'.length →
      a ≠ bpb.fileAddress chain' (p * bpb.clusterSizeBytes + t)) →
    flat'.data a = flat.data a
  whole : result = none →
    chain'.length = max chain.length (p + bpb.clustersFor remaining) ∧
      ∀ t < remaining, flat'.data (bpb.fileAddress chain' (p * bpb.clusterSizeBytes + t)) =
        buffer (i * bpb.clusterSizeBytes + t)
  short : ∀ returned, result = some returned →
    flat'.freeCount clusters = 0 ∧ chain'.length < p + bpb.clustersFor remaining ∧
      returned < i * bpb.clusterSizeBytes + remaining

section Stored

variable {bpb : Bpb} {clusters : ℕ} {chain chain' : List ℕ} {flat flat' : Flat}
  {buffer : ℕ → UInt8} {p remaining i : ℕ} {result : Option ℕ}

theorem Geometry.clustersFor_zero (hgeo : Geometry bpb clusters) :
    bpb.clustersFor 0 = 0 := by
  have hsize := hgeo.clusterSize_ge
  rw [Bpb.clustersFor]
  exact Nat.div_eq_of_lt (by omega)

/-- One cluster takes the first bytes. -/
theorem Geometry.clustersFor_step (hgeo : Geometry bpb clusters) (hne : remaining ≠ 0) :
    bpb.clustersFor remaining =
      bpb.clustersFor (remaining - min remaining bpb.clusterSizeBytes) + 1 := by
  have hsize := hgeo.clusterSize_ge
  rw [Bpb.clustersFor, Bpb.clustersFor]
  generalize bpb.clusterSizeBytes = size at *
  rcases Nat.lt_or_ge size remaining with hlt | hle
  · rw [min_eq_right (by omega), ← Nat.add_div_right _ (by omega)]
    congr 1
    omega
  · rw [min_eq_left hle, Nat.sub_self, Nat.zero_add,
      Nat.div_eq_of_lt (show size - 1 < size by omega)]
    exact Nat.div_eq_of_lt_le (by omega) (by omega)

theorem Stored.done (hgeo : Geometry bpb clusters) (hp : p ≤ chain.length) :
    Stored bpb clusters chain chain flat flat buffer p 0 i none := by
  refine ⟨rfl, fun _ _ => rfl, ?_, ?_⟩
  · intro _
    rw [hgeo.clustersFor_zero]
    exact ⟨(max_eq_left hp).symm, fun t ht => absurd ht (Nat.not_lt_zero t)⟩
  · intro returned hreturned
    cases hreturned

/-- Behind the last cluster there is no free one for the rest. -/
theorem Stored.full (buffer : ℕ → UInt8) (hgeo : Geometry bpb clusters) (hp : p = chain.length)
    (hfull : flat.freeCount clusters = 0) (hremaining : remaining ≠ 0) {returned : ℕ}
    (hreturned : returned < i * bpb.clusterSizeBytes + remaining) :
    Stored bpb clusters chain chain flat flat buffer p remaining i (some returned) := by
  have hstep := hgeo.clustersFor_step hremaining
  refine ⟨rfl, fun _ _ => rfl, ?_, ?_⟩
  · intro hnone
    cases hnone
  · intro other hother
    rw [← Option.some.inj hother]
    exact ⟨hfull, by omega, hreturned⟩

/-- One round stores a cluster, and the rounds behind it store the rest. -/
theorem Stored.step {table : ℕ → ℕ} {count head : ℕ} {current : ℕ} (flat : Flat)
    (extra : List ℕ) {added : List ℕ} {next : Flat} (hgeo : Geometry bpb clusters)
    (hchain : IsChain table count head (chain ++ extra ++ added))
    (hp : chain[p]? = some current) (hne : remaining ≠ 0)
    (hextra : (chain ++ extra).length ≤
      max chain.length (p + bpb.clustersFor remaining))
    (hdata : next.data = store flat.data (bpb.clusterStart current)
      (load buffer (i * bpb.clusterSizeBytes)) (min remaining bpb.clusterSizeBytes))
    (hfree : next.freeCount clusters + extra.length = flat.freeCount clusters)
    (hrest : Stored bpb clusters (chain ++ extra) (chain ++ extra ++ added) next flat'
      buffer (p + 1) (remaining - min remaining bpb.clusterSizeBytes) (i + 1) result) :
    Stored bpb clusters chain (chain ++ extra ++ added) flat flat' buffer p remaining i
      result := by
  have hcs := hgeo.clusterSize_ge
  have hstep := hgeo.clustersFor_step hne
  have hplace : (chain ++ extra ++ added)[p]? = some current := by
    have hlt := (List.getElem?_eq_some_iff.mp hp).1
    rw [List.append_assoc, List.getElem?_append_left hlt]
    exact hp
  -- The bytes of the rest start one cluster later.
  have hlater : ∀ t, (p + 1) * bpb.clusterSizeBytes + t =
      p * bpb.clusterSizeBytes + (bpb.clusterSizeBytes + t) := by
    intro t
    rw [Nat.succ_mul, Nat.add_assoc]
  refine ⟨?_, ?_, ?_, ?_⟩
  · have hrestFree := hrest.free
    simp only [List.length_append] at hrestFree ⊢
    omega
  · intro a ha
    have hrestFrame := hrest.frame a fun t ht hlt => by
      rw [hlater] at hlt ⊢
      exact ha _ (by omega) hlt
    rw [hrestFrame, hdata]
    apply store_outside
    by_contra hinside
    obtain ⟨k, hk, hlt⟩ : ∃ k, a = bpb.clusterStart current + k ∧
        k < min remaining bpb.clusterSizeBytes :=
      ⟨a - bpb.clusterStart current, by omega, by omega⟩
    have hat := hgeo.fileAddress_eq hplace (show k < bpb.clusterSizeBytes by omega)
    refine ha k (by omega) ?_ (hk.trans hat.symm)
    rw [Nat.mul_comm, Nat.mul_add_div (by omega), Nat.div_eq_of_lt (by omega)]
    exact (List.getElem?_eq_some_iff.mp hplace).1
  · intro hnone
    obtain ⟨hlength, hbytes⟩ := hrest.whole hnone
    refine ⟨?_, ?_⟩
    · rw [hlength]
      rw [List.length_append] at hextra ⊢
      omega
    · intro t ht
      by_cases hfirst : t < bpb.clusterSizeBytes
      · have hat := hgeo.fileAddress_eq hplace hfirst
        have hkept : flat'.data (bpb.clusterStart current + t) =
            next.data (bpb.clusterStart current + t) := by
          apply hrest.frame
          intro t' _ hlt heq
          rw [← hat] at heq
          have hplaceLt := (List.getElem?_eq_some_iff.mp hplace).1
          have hfirstLt : (p * bpb.clusterSizeBytes + t) / bpb.clusterSizeBytes <
              (chain ++ extra ++ added).length := by
            rw [Nat.mul_comm, Nat.mul_add_div (by omega), Nat.div_eq_of_lt hfirst]
            exact hplaceLt
          have hsame := hgeo.fileAddress_inj hchain hfirstLt hlt heq
          rw [hlater] at hsame
          omega
        rw [hat, hkept, hdata, store_inside (by omega), load]
      · have hlast := hbytes (t - bpb.clusterSizeBytes) (by omega)
        rw [hlater, Nat.succ_mul] at hlast
        rw [show bpb.clusterSizeBytes + (t - bpb.clusterSizeBytes) = t by omega] at hlast
        rw [hlast]
        congr 1
        omega
  · intro returned hreturned
    obtain ⟨hzero, hlength, hless⟩ := hrest.short returned hreturned
    rw [Nat.succ_mul] at hless
    have hcount : bpb.clustersFor (remaining - min remaining bpb.clusterSizeBytes) ≠ 0 := by
      intro hnil
      rw [hnil, List.length_append, List.length_append] at hlength
      have := (List.getElem?_eq_some_iff.mp hp).1
      omega
    have hleft : remaining - min remaining bpb.clusterSizeBytes ≠ 0 := by
      intro hnil
      rw [hnil] at hcount
      exact hcount hgeo.clustersFor_zero
    refine ⟨hzero, by omega, by omega⟩

/-- The same for a round that links no cluster. -/
theorem Stored.step_same {table : ℕ → ℕ} {count head : ℕ} {current : ℕ}
    {added : List ℕ} (hgeo : Geometry bpb clusters)
    (hchain : IsChain table count head (chain ++ added))
    (hp : chain[p]? = some current) (hne : remaining ≠ 0)
    (hrest : Stored bpb clusters chain (chain ++ added)
      (flat.write (load buffer (i * bpb.clusterSizeBytes)) (bpb.clusterStart current)
        (min remaining bpb.clusterSizeBytes)) flat' buffer (p + 1)
      (remaining - min remaining bpb.clusterSizeBytes) (i + 1) result) :
    Stored bpb clusters chain (chain ++ added) flat flat' buffer p remaining i result := by
  have hstep := @Stored.step bpb clusters chain flat' buffer p remaining i result table
    count head current flat [] added (flat.write (load buffer (i * bpb.clusterSizeBytes))
      (bpb.clusterStart current) (min remaining bpb.clusterSizeBytes)) hgeo
  rw [List.append_nil] at hstep
  exact hstep hchain hp hne (le_max_left _ _) rfl rfl hrest

/-- For a round that links a cluster at the end of the chain. -/
theorem Stored.step_link {table : ℕ → ℕ} {count head : ℕ} {current cluster : ℕ}
    {added : List ℕ} {next : Flat} (hgeo : Geometry bpb clusters)
    (hchain : IsChain table count head (chain ++ [cluster] ++ added))
    (hp : chain[p]? = some current) (hend : p + 1 = chain.length)
    (hleft : remaining - min remaining bpb.clusterSizeBytes > 0)
    (hdata : next.data = store flat.data (bpb.clusterStart current)
      (load buffer (i * bpb.clusterSizeBytes)) (min remaining bpb.clusterSizeBytes))
    (hfree : next.freeCount clusters + 1 = flat.freeCount clusters)
    (hrest : Stored bpb clusters (chain ++ [cluster]) (chain ++ [cluster] ++ added) next flat'
      buffer (p + 1) (remaining - min remaining bpb.clusterSizeBytes) (i + 1) result) :
    Stored bpb clusters chain (chain ++ [cluster] ++ added) flat flat' buffer p remaining i
      result := by
  have hremaining : remaining ≠ 0 := by omega
  have hneed := hgeo.clustersFor_step hremaining
  have hagain := hgeo.clustersFor_step (Nat.pos_iff_ne_zero.mp hleft)
  apply Stored.step flat [cluster] hgeo hchain hp hremaining ?_ hdata hfree hrest
  rw [List.length_append, List.length_singleton]
  omega

/-- And for one that finds no cluster to link. -/
theorem Stored.step_full {table : ℕ → ℕ} {count head : ℕ} {current : ℕ}
    (hgeo : Geometry bpb clusters) (hchain : IsChain table count head chain)
    (hp : chain[p]? = some current) (hend : p + 1 = chain.length)
    (hleft : remaining - min remaining bpb.clusterSizeBytes > 0)
    (hfull : flat.freeCount clusters = 0) :
    Stored bpb clusters chain (chain ++ []) flat
      (flat.write (load buffer (i * bpb.clusterSizeBytes)) (bpb.clusterStart current)
        (min remaining bpb.clusterSizeBytes)) buffer p remaining i
      (some (i * bpb.clusterSizeBytes)) := by
  have hless : i * bpb.clusterSizeBytes < (i + 1) * bpb.clusterSizeBytes +
      (remaining - min remaining bpb.clusterSizeBytes) := by
    rw [Nat.succ_mul]
    omega
  have hrest := @Stored.full bpb clusters chain
    (flat.write (load buffer (i * bpb.clusterSizeBytes)) (bpb.clusterStart current)
      (min remaining bpb.clusterSizeBytes)) (p + 1) _ (i + 1) buffer hgeo hend hfull
    (Nat.pos_iff_ne_zero.mp hleft) _ hless
  rw [← List.append_nil chain] at hchain
  apply Stored.step_same hgeo hchain hp (by omega)
  rw [List.append_nil]
  exact hrest

end Stored

section Loop

variable {File : Type*} [DecidableEq File] {heads : File → ℕ} {chains : File → List ℕ}
  {f : File} {bpb : Bpb} {clusters : ℕ} {table : ℕ → ℕ} {vol : Volume} {flat : Flat}
  {head : ℕ} {new : List ℕ} {p current : ℕ}

/-- How a round ends that has written its cluster: with a new cluster at the end of the
chain, without one, or with the next cluster, if there are bytes left for it. -/
inductive WriteRound (bpb : Bpb) (clusters : ℕ) (table : ℕ → ℕ) (heads : File → ℕ)
    (chains : File → List ℕ) (f : File) (flat : Flat) (head : ℕ) (new : List ℕ)
    (p current left : ℕ) (written : Volume) : Prop
  | link (cluster : ℕ) (hmore : fat32EocMin ≤ (fat32GetNextCluster written current).2 ∧ left > 0)
      (hend : p + 1 = (chains f ++ new).length) (hne : cluster ≠ 0)
      (hcluster : (linkNewCluster (fat32GetNextCluster written current).1 current).2 = cluster)
      (hlinked : Holds bpb clusters table heads chains f
        (linkNewCluster (fat32GetNextCluster written current).1 current).1
        (flat.link current cluster) head (new ++ [cluster]))
      (hp : (chains f ++ (new ++ [cluster]))[p + 1]? = some cluster)
      (hcount : (flat.link current cluster).freeCount clusters + 1 = flat.freeCount clusters)
  | full (hmore : fat32EocMin ≤ (fat32GetNextCluster written current).2 ∧ left > 0)
      (hend : p + 1 = (chains f ++ new).length)
      (hzero : (linkNewCluster (fat32GetNextCluster written current).1 current).2 = 0)
      (hfull : flat.freeCount clusters = 0)
      (hsame : Holds bpb clusters table heads chains f
        (linkNewCluster (fat32GetNextCluster written current).1 current).1 flat head new)
  | next (hdone : ¬(fat32EocMin ≤ (fat32GetNextCluster written current).2 ∧ left > 0))
      (hread : Holds bpb clusters table heads chains f
        (fat32GetNextCluster written current).1 flat head new)
      (hp : left ≠ 0 →
        (chains f ++ new)[p + 1]? = some (fat32GetNextCluster written current).2)

/-- One round writes its cluster and ends so. -/
theorem Holds.round {buffer : ℕ → UInt8} {remaining i : ℕ}
    (hholds : Holds bpb clusters table heads chains f vol flat head new)
    (hplace : (chains f ++ new)[p]? = some current) (hi : i ≤ p) :
    i * bpb.clusterSizeBytes % 2 ^ 32 = i * bpb.clusterSizeBytes ∧
      ∃ written, fwrite vol (load buffer (i * bpb.clusterSizeBytes % 2 ^ 32))
          (vol.mount.clusterOffset current) (min remaining bpb.clusterSizeBytes) = written ∧
        WriteRound bpb clusters table heads chains f
          (flat.write (load buffer (i * bpb.clusterSizeBytes)) (bpb.clusterStart current)
            (min remaining bpb.clusterSizeBytes)) head new p current
          (remaining - min remaining bpb.clusterSizeBytes) written := by
  have hgeo := hholds.shows.geometry
  have hindex : i * bpb.clusterSizeBytes % 2 ^ 32 = i * bpb.clusterSizeBytes := by
    have hbound := hgeo.place_lt hholds.grown.isChain hplace
    have hle : i * bpb.clusterSizeBytes ≤ p * bpb.clusterSizeBytes :=
      Nat.mul_le_mul_right _ hi
    exact Nat.mod_eq_of_lt (by omega)
  have hwrite := hholds.write (load buffer (i * bpb.clusterSizeBytes))
    (min remaining bpb.clusterSizeBytes) (bpb.dataOffset_le_clusterStart current)
  refine ⟨hindex, _, rfl, ?_⟩
  rw [hindex, hholds.clusterOffset_eq hplace]
  obtain ⟨hread, hnext⟩ := hwrite.next hplace
  generalize fwrite vol (load buffer (i * bpb.clusterSizeBytes)) (bpb.clusterStart current)
    (min remaining bpb.clusterSizeBytes) = written at hread hnext ⊢
  by_cases hmore : fat32EocMin ≤ (fat32GetNextCluster written current).2 ∧
      remaining - min remaining bpb.clusterSizeBytes > 0
  · have hend : p + 1 = (chains f ++ new).length := by
      rcases hnext with ⟨hlt, -⟩ | ⟨-, hend⟩
      · exact absurd hmore.1 (Nat.not_le.mpr hlt)
      · exact hend
    rcases hread.link hplace hend with
      ⟨cluster, hcluster, hne, hlinked, hp, hcount⟩ | ⟨hzero, hfull, hsame⟩
    · exact .link cluster hmore hend hne hcluster hlinked hp hcount
    · exact .full hmore hend hzero hfull hsame
  · refine .next hmore hread ?_
    intro hleft
    rcases hnext with ⟨-, hp⟩ | ⟨heoc, -⟩
    · exact hp
    · exact absurd ⟨heoc, Nat.pos_of_ne_zero hleft⟩ hmore

theorem Holds.stored_done {buffer : ℕ → UInt8} {rounds i : ℕ} {vol' : Volume}
    {result : Option ℕ} (hholds : Holds bpb clusters table heads chains f vol flat head new)
    (hreached : p ≤ (chains f ++ new).length)
    (hloop : writeClusters buffer rounds vol current 0 i = (vol', result)) :
    ∃ flat' added,
      Holds bpb clusters table heads chains f vol' flat' head (new ++ added) ∧
      Stored bpb clusters (chains f ++ new) (chains f ++ new ++ added) flat flat' buffer
        p 0 i result := by
  rw [writeClusters_done] at hloop
  obtain ⟨rfl, rfl⟩ := Prod.mk.inj hloop
  refine ⟨flat, [], ?_, ?_⟩
  · rw [List.append_nil]
    exact hholds
  · rw [List.append_nil]
    exact Stored.done hholds.shows.geometry hreached

/-- The loop stores the rest of the buffer from place `p` of the chain on. -/
theorem writeClusters_spec {buffer : ℕ → UInt8} {rounds remaining i : ℕ} {vol' : Volume}
    {result : Option ℕ}
    (hholds : Holds bpb clusters table heads chains f vol flat head new)
    (hp : remaining ≠ 0 → (chains f ++ new)[p]? = some current)
    (hreached : p ≤ (chains f ++ new).length) (hi : i ≤ p) (hrounds : remaining ≤ rounds)
    (hloop : writeClusters buffer rounds vol current remaining i = (vol', result)) :
    ∃ flat' added,
      Holds bpb clusters table heads chains f vol' flat' head (new ++ added) ∧
      Stored bpb clusters (chains f ++ new) (chains f ++ new ++ added) flat flat' buffer
        p remaining i result := by
  have hgeo := hholds.shows.geometry
  have hcs := hgeo.clusterSize_ge
  induction rounds generalizing vol flat new p current remaining i with
  | zero =>
      obtain rfl : remaining = 0 := by omega
      exact hholds.stored_done hreached hloop
  | succ rounds ih =>
      by_cases hremaining : remaining = 0
      · subst hremaining
        exact hholds.stored_done hreached hloop
      · have hplace := hp hremaining
        have hsize : vol.mount.bpb.clusterSizeBytes = bpb.clusterSizeBytes := by
          rw [hholds.shows.mounted.bpb_eq]
        obtain ⟨hindex, written, hwritten, hround⟩ :=
          @Holds.round _ _ _ _ _ _ _ _ _ _ _ _ _ _ buffer remaining i hholds hplace hi
        cases hround with
        | link cluster hmore hend hne hcluster hlinked hp' hcount =>
            have hlt := (List.getElem?_eq_some_iff.mp hp').1
            rw [writeClusters_link hremaining hsize hwritten hmore (hcluster ▸ hne), hcluster]
              at hloop
            obtain ⟨flat', added, hholds', hstored⟩ :=
              ih hlinked (fun _ => hp') (by omega) (by omega) (by omega) hloop
            have hchain := hholds'.grown.isChain
            rw [← List.append_assoc] at hstored
            rw [← List.append_assoc, ← List.append_assoc] at hchain
            refine ⟨flat', cluster :: added, ?_, ?_⟩
            · rw [← List.singleton_append, ← List.append_assoc]
              exact hholds'
            · rw [← List.singleton_append, ← List.append_assoc]
              exact Stored.step_link hgeo hchain hplace hend hmore.2 rfl hcount hstored
        | full hmore hend hzero hfull hsame =>
            rw [writeClusters_full hremaining hsize hwritten hmore hzero, hindex] at hloop
            obtain ⟨rfl, rfl⟩ := Prod.mk.inj hloop
            refine ⟨flat.write (load buffer (i * bpb.clusterSizeBytes))
              (bpb.clusterStart current) (min remaining bpb.clusterSizeBytes), [], ?_, ?_⟩
            · rw [List.append_nil]
              exact hsame
            · exact Stored.step_full hgeo hsame.grown.isChain hplace hend hmore.2 hfull
        | next hnext hread hp' =>
            have hlt := (List.getElem?_eq_some_iff.mp hplace).1
            rw [writeClusters_next hremaining hsize hwritten hnext] at hloop
            obtain ⟨flat', added, hholds', hstored⟩ :=
              ih hread hp' (by omega) (by omega) (by omega) hloop
            have hchain := hholds'.grown.isChain
            rw [← List.append_assoc] at hchain
            exact ⟨flat', added, hholds',
              Stored.step_same hgeo hchain hplace hremaining hstored⟩

end Loop

end KimisOS.Fat32
