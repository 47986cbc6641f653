import KimisOS.Fat32.EntryHead
import KimisOS.Fat32.Integrity
import KimisOS.Fat32.ReadBytes
import KimisOS.Fat32.TwoHandles
import KimisOS.Fat32.WriteRead

/-!
# The returned numbers of bytes

`fat32_read` and `fat32_write` return the count, or how far they came.  Behind an
unaligned offset their loops count whole clusters from the second cluster on, so
a short count leaves out the bytes of the first one.
-/

namespace KimisOS.Fat32

open KimisOS.ByteStore

/-! ## What is copied and stored -/

/-- The read puts a byte at this place of the buffer, whatever was there. -/
def Overwritten (vol : Volume) (file : OpenFile) (offset count k : ℕ) : Prop :=
  ∀ buffer buffer', (fat32Read vol file buffer offset count).buffer k =
    (fat32Read vol file buffer' offset count).buffer k

/-- The number of bytes that the loop of `fat32_write` hands to `fwrite`. -/
def storedByClusters (buffer : ℕ → UInt8) : ℕ → Volume → ℕ → ℕ → ℕ → ℕ
  | 0, _, _, _, _ => 0
  | rounds + 1, vol, currentCluster, remainingCount, i =>
      if remainingCount = 0 then 0
      else
        let clusterSizeBytes := vol.mount.bpb.clusterSizeBytes
        let toWrite := min remainingCount clusterSizeBytes
        let written := fwrite vol (load buffer (i * clusterSizeBytes % 2 ^ 32))
          (vol.mount.clusterOffset currentCluster) toWrite
        let get := fat32GetNextCluster written currentCluster
        toWrite +
          if fat32EocMin ≤ get.2 ∧ remainingCount - toWrite > 0 then
            let link := linkNewCluster get.1 currentCluster
            if link.2 = 0 then 0
            else storedByClusters buffer rounds link.1 link.2 (remainingCount - toWrite) (i + 1)
          else storedByClusters buffer rounds get.1 get.2 (remainingCount - toWrite) (i + 1)

/-- The same from the cluster of the offset on. -/
def storedFrom (vol : Volume) (buffer : ℕ → UInt8) (offset count currentCluster : ℕ) : ℕ :=
  let clusterSizeBytes := vol.mount.bpb.clusterSizeBytes
  let offsetInCluster := offset &&& (clusterSizeBytes - 1)
  if offsetInCluster ≠ 0 then
    let toWrite := min count (clusterSizeBytes - offsetInCluster)
    let written := fwrite vol buffer
      (vol.mount.clusterOffset currentCluster + offsetInCluster) toWrite
    if clusterSizeBytes - offsetInCluster > count then toWrite
    else
      let get := fat32GetNextCluster written currentCluster
      let remainingCount := count - (clusterSizeBytes - offsetInCluster)
      if fat32EocMin ≤ get.2 then toWrite
      else
        toWrite + storedByClusters (load buffer (clusterSizeBytes - offsetInCluster))
          remainingCount get.1 get.2 remainingCount 0
  else storedByClusters buffer count vol currentCluster count 0

/-- The number of bytes of the caller's buffer that `fat32_write` stores. -/
def fat32WriteStored (malloc : ℕ → Bool) (vol : Volume) (file : OpenFile)
    (buffer : ℕ → UInt8) (offset count : ℕ) : ℕ :=
  let first := firstClusterFor vol file
  if first.2.firstCluster = 0 then 0
  else
    let clusterSizeBytes := first.1.mount.bpb.clusterSizeBytes
    match udiv64 offset clusterSizeBytes,
        udiv64 ((count + clusterSizeBytes - 1) % 2 ^ 64) clusterSizeBytes with
    | some clustersUntilStart, some _ =>
        let walk := walkToOffset malloc clustersUntilStart first.1 first.2.firstCluster
        match walk.2 with
        | none => 0
        | some currentCluster => storedFrom walk.1 buffer offset count currentCluster
    | _, _ => 0

/-- The divisions of the offset and of the count do not trap. -/
structure NoTrap (bpb : Bpb) (offset count : ℕ) : Prop where
  start : offset / bpb.clusterSizeBytes < 2 ^ 32
  clusters : (count + bpb.clusterSizeBytes - 1) % 2 ^ 64 / bpb.clusterSizeBytes < 2 ^ 32

theorem NoTrap.udiv64_eq {bpb : Bpb} {offset count : ℕ} (hdiv : NoTrap bpb offset count) :
    udiv64 offset bpb.clusterSizeBytes = some (offset / bpb.clusterSizeBytes) ∧
      udiv64 ((count + bpb.clusterSizeBytes - 1) % 2 ^ 64) bpb.clusterSizeBytes =
        some ((count + bpb.clusterSizeBytes - 1) % 2 ^ 64 / bpb.clusterSizeBytes) := by
  rw [udiv64, udiv64, if_pos hdiv.start, if_pos hdiv.clusters]
  exact ⟨rfl, rfl⟩

/-! ## Reads -/

section Read

variable {bpb : Bpb} {clusters : ℕ} {vol : Volume} {head : ℕ} {chain : List ℕ}
  {file : OpenFile} {offset count : ℕ}

/-- A read overwrites the front of the buffer, as far as the chain goes. -/
theorem overwritten_eq (hfollow : Following bpb clusters vol head chain 0 vol)
    (hfirst : chain[0]? = some file.firstCluster) (hword : count < 2 ^ 64)
    (hdiv : NoTrap bpb offset count) :
    {k | Overwritten vol file offset count k} =
      Set.Iio (min count (chain.length * bpb.clusterSizeBytes - offset)) := by
  have hbytes : ∀ buffer, (fat32Read vol file buffer offset count).buffer =
      store buffer 0 (fun t => readByte bpb vol chain (offset + t))
        (min count (chain.length * bpb.clusterSizeBytes - offset)) := by
    intro buffer
    exact (fat32Read_bytes hfollow hfirst hword hdiv.start hdiv.clusters).1
  ext k
  constructor
  · intro hsame
    by_contra hbehind
    have hbehind' : 0 + min count (chain.length * bpb.clusterSizeBytes - offset) ≤ k := by
      rw [Nat.zero_add]
      exact Nat.not_lt.mp hbehind
    have hequal := hsame (fun _ => 0) (fun _ => 1)
    rw [hbytes, hbytes, store_outside (.inr hbehind'), store_outside (.inr hbehind')]
      at hequal
    exact absurd hequal (by decide)
  · intro hk buffer buffer'
    have hinside : ∀ b : ℕ → UInt8, store b 0 (fun t => readByte bpb vol chain (offset + t))
        (min count (chain.length * bpb.clusterSizeBytes - offset)) k =
          readByte bpb vol chain (offset + k) := by
      intro b
      have hstored := @store_inside b 0
        (min count (chain.length * bpb.clusterSizeBytes - offset))
        (fun t => readByte bpb vol chain (offset + t)) k hk
      rw [Nat.zero_add] at hstored
      exact hstored
    rw [hbytes, hbytes, hinside, hinside]

/-- The read is aligned, or ends before the last cluster of the chain or in the
round in which the loop stops by its own count. -/
def PlainRead (bpb : Bpb) (length offset count : ℕ) : Prop :=
  offset % bpb.clusterSizeBytes = 0 ∨
    length ≤ offset / bpb.clusterSizeBytes + 1 ∨
    offset + count ≤ (length - 1) * bpb.clusterSizeBytes ∨
    count ≤ (length - (offset / bpb.clusterSizeBytes + 1)) * bpb.clusterSizeBytes

theorem fat32Read_trap (hsize : vol.mount.bpb.clusterSizeBytes = bpb.clusterSizeBytes)
    (htrap : ¬NoTrap bpb offset count) (buffer : ℕ → UInt8) :
    (fat32Read vol file buffer offset count).returned = none := by
  rw [fat32Read, hsize]
  by_cases hstart : offset / bpb.clusterSizeBytes < 2 ^ 32
  · have hclusters : udiv64 ((count + bpb.clusterSizeBytes - 1) % 2 ^ 64)
        bpb.clusterSizeBytes = none := by
      rw [udiv64, if_neg]
      exact fun hclusters => htrap ⟨hstart, hclusters⟩
    simp only [hclusters]
    cases udiv64 offset bpb.clusterSizeBytes <;> rfl
  · have hnone : udiv64 offset bpb.clusterSizeBytes = none := by
      rw [udiv64, if_neg hstart]
    simp only [hnone]

/-- A read returns the number of bytes it has copied exactly if it is plain and
the number is an `int`. -/
theorem fat32Read_count_iff (hfollow : Following bpb clusters vol head chain 0 vol)
    (hfirst : chain[0]? = some file.firstCluster) (hword : count < 2 ^ 64)
    (buffer : ℕ → UInt8) :
    (fat32Read vol file buffer offset count).returned =
        some ({k | Overwritten vol file offset count k}.ncard : ℤ) ↔
      NoTrap bpb offset count ∧ PlainRead bpb chain.length offset count ∧
        min count (chain.length * bpb.clusterSizeBytes - offset) < 2147483648 := by
  have hgeo := hfollow.geometry
  have hcs := hgeo.clusterSize_ge
  have hbound := hgeo.chain_le hfollow.isChain
  by_cases hdiv : NoTrap bpb offset count
  · obtain ⟨-, hreturned⟩ := @fat32Read_bytes bpb clusters vol head chain file offset count
      buffer hfollow hfirst hword hdiv.start hdiv.clusters
    rw [hreturned, overwritten_eq hfollow hfirst hword hdiv, Set.ncard_Iio_nat,
      Option.some_inj, and_iff_right hdiv]
    by_cases hplain : PlainRead bpb chain.length offset count
    · rw [readNumber_eq_min hplain, toInt_eq_iff, and_iff_right hplain]
    · have hshort : offset % bpb.clusterSizeBytes ≠ 0 ∧
          offset / bpb.clusterSizeBytes + 1 < chain.length ∧
          (chain.length - 1) * bpb.clusterSizeBytes < offset + count ∧
          (chain.length - (offset / bpb.clusterSizeBytes + 1)) * bpb.clusterSizeBytes <
            count := by
        simp only [PlainRead, not_or, Nat.not_le] at hplain
        exact hplain
      obtain ⟨ho, hmore, hlong, hless⟩ := hshort
      rw [readNumber_eq_clusters ho hmore hlong hless]
      apply iff_of_false _ fun hright => hplain hright.1
      -- The bytes behind the offset in its cluster are copied as well.
      have hmod := Nat.mod_lt offset (show 0 < bpb.clusterSizeBytes by omega)
      have hsplit : offset / bpb.clusterSizeBytes * bpb.clusterSizeBytes +
          offset % bpb.clusterSizeBytes = offset := Nat.div_add_mod' offset _
      have hrest : (chain.length - (offset / bpb.clusterSizeBytes + 1)) *
          bpb.clusterSizeBytes < chain.length * bpb.clusterSizeBytes - offset := by
        have hmul : (offset / bpb.clusterSizeBytes + 1) * bpb.clusterSizeBytes ≤
            chain.length * bpb.clusterSizeBytes := Nat.mul_le_mul_right _ hmore.le
        rw [Nat.sub_mul]
        rw [Nat.succ_mul] at hmul ⊢
        omega
      exact toInt_ne_of_lt (lt_min hless hrest)
  · rw [fat32Read_trap hfollow.clusterSizeBytes_eq hdiv]
    exact iff_of_false (Option.some_ne_none _).symm fun hright => hdiv hright.1

end Read

/-! ## The loop of a write -/

section Rounds

variable {buffer : ℕ → UInt8} {rounds remaining i size current : ℕ} {vol written : Volume}

@[simp]
theorem storedByClusters_done (buffer : ℕ → UInt8) (rounds : ℕ) (vol : Volume)
    (current i : ℕ) : storedByClusters buffer rounds vol current 0 i = 0 := by
  cases rounds with
  | zero => rw [storedByClusters]
  | succ rounds => rw [storedByClusters, if_pos rfl]

theorem storedByClusters_next (hremaining : remaining ≠ 0)
    (hsize : vol.mount.bpb.clusterSizeBytes = size)
    (hwritten : fwrite vol (load buffer (i * size % 2 ^ 32))
      (vol.mount.clusterOffset current) (min remaining size) = written)
    (hnext : ¬(fat32EocMin ≤ (fat32GetNextCluster written current).2 ∧
      remaining - min remaining size > 0)) :
    storedByClusters buffer (rounds + 1) vol current remaining i =
      min remaining size + storedByClusters buffer rounds
        (fat32GetNextCluster written current).1 (fat32GetNextCluster written current).2
        (remaining - min remaining size) (i + 1) := by
  subst hsize hwritten
  rw [storedByClusters, if_neg hremaining]
  dsimp only
  rw [if_neg hnext]

theorem storedByClusters_full (hremaining : remaining ≠ 0)
    (hsize : vol.mount.bpb.clusterSizeBytes = size)
    (hwritten : fwrite vol (load buffer (i * size % 2 ^ 32))
      (vol.mount.clusterOffset current) (min remaining size) = written)
    (hend : fat32EocMin ≤ (fat32GetNextCluster written current).2 ∧
      remaining - min remaining size > 0)
    (hfull : (linkNewCluster (fat32GetNextCluster written current).1 current).2 = 0) :
    storedByClusters buffer (rounds + 1) vol current remaining i = min remaining size := by
  subst hsize hwritten
  rw [storedByClusters, if_neg hremaining]
  dsimp only
  rw [if_pos hend, if_pos hfull, Nat.add_zero]

theorem storedByClusters_link (hremaining : remaining ≠ 0)
    (hsize : vol.mount.bpb.clusterSizeBytes = size)
    (hwritten : fwrite vol (load buffer (i * size % 2 ^ 32))
      (vol.mount.clusterOffset current) (min remaining size) = written)
    (hend : fat32EocMin ≤ (fat32GetNextCluster written current).2 ∧
      remaining - min remaining size > 0)
    (hnew : (linkNewCluster (fat32GetNextCluster written current).1 current).2 ≠ 0) :
    storedByClusters buffer (rounds + 1) vol current remaining i =
      min remaining size + storedByClusters buffer rounds
        (linkNewCluster (fat32GetNextCluster written current).1 current).1
        (linkNewCluster (fat32GetNextCluster written current).1 current).2
        (remaining - min remaining size) (i + 1) := by
  subst hsize hwritten
  rw [storedByClusters, if_neg hremaining]
  dsimp only
  rw [if_pos hend, if_neg hnew]

end Rounds

section Write

variable {File : Type*} [DecidableEq File] {heads : File → ℕ} {chains : File → List ℕ}
  {f d : File} {bpb : Bpb} {clusters : ℕ} {table : ℕ → ℕ} {vol : Volume} {flat : Flat}
  {head : ℕ} {new : List ℕ} {p current : ℕ} {file : OpenFile} {buffer : ℕ → UInt8}
  {offset count : ℕ}

/-- What the loop has stored, and how its short count is related to that: it
lacks the cluster of the round in which the clusters run out. -/
structure StoredCount (bpb : Bpb) (remaining i stored : ℕ) (result : Option ℕ) : Prop where
  whole : result = none → stored = remaining
  short : ∀ returned, result = some returned →
    returned + bpb.clusterSizeBytes = i * bpb.clusterSizeBytes + stored ∧
      stored < remaining

/-- A round of the loop, and what is stored behind it. -/
theorem Written.round {flat flat' next : Flat} {chain : List ℕ} {entries remaining i stored : ℕ}
    (hrest : Written bpb chain next flat' (load buffer ((i + 1) * bpb.clusterSizeBytes))
      ((p + 1) * bpb.clusterSizeBytes) stored)
    (hgeo : Geometry bpb clusters) (hchain : IsChain table entries head chain)
    (hplace : chain[p]? = some current)
    (hnext : next.data = (flat.write (load buffer (i * bpb.clusterSizeBytes))
      (bpb.clusterStart current) (min remaining bpb.clusterSizeBytes)).data)
    (hmore : stored ≠ 0 → bpb.clusterSizeBytes < remaining)
    (hroom : (p + 1) * bpb.clusterSizeBytes + stored ≤
      chain.length * bpb.clusterSizeBytes) :
    Written bpb chain flat flat' (load buffer (i * bpb.clusterSizeBytes))
      (p * bpb.clusterSizeBytes) (min remaining bpb.clusterSizeBytes + stored) := by
  have hhead := @Written.head bpb clusters chain (min remaining bpb.clusterSizeBytes) p current
    flat (load buffer (i * bpb.clusterSizeBytes)) hgeo hplace 0 (by omega)
  rw [Nat.add_zero, Nat.add_zero] at hhead
  by_cases hlong : bpb.clusterSizeBytes < remaining
  · rw [min_eq_right hlong.le] at hhead hnext ⊢
    rw [Nat.succ_mul p] at hrest hroom
    have hbytes : load buffer ((i + 1) * bpb.clusterSizeBytes) =
        load (load buffer (i * bpb.clusterSizeBytes)) bpb.clusterSizeBytes := by
      funext t
      rw [load, load, load, Nat.succ_mul i, Nat.add_assoc]
    rw [hbytes] at hrest
    refine hhead.append hgeo hchain (by omega) ⟨hrest.bytes, ?_⟩
    intro a ha
    rw [hrest.frame a ha, hnext]
  · obtain rfl : stored = 0 := by
      by_contra hne
      exact hlong (hmore hne)
    have hsame : flat'.data = (flat.write (load buffer (i * bpb.clusterSizeBytes))
        (bpb.clusterStart current) (min remaining bpb.clusterSizeBytes)).data := by
      rw [← hnext]
      funext a
      exact hrest.frame a fun t ht => absurd ht (Nat.not_lt_zero t)
    refine ⟨?_, ?_⟩
    · intro t ht
      rw [hsame]
      exact hhead.bytes t ht
    · intro a ha
      rw [hsame]
      exact hhead.frame a ha

theorem StoredCount.round {remaining i stored : ℕ} {result : Option ℕ}
    (hrest : StoredCount bpb (remaining - min remaining bpb.clusterSizeBytes) (i + 1) stored
      result) :
    StoredCount bpb remaining i (min remaining bpb.clusterSizeBytes + stored) result := by
  refine ⟨?_, ?_⟩
  · intro hnone
    have hstored := hrest.whole hnone
    omega
  · intro returned hreturned
    obtain ⟨hsum, hless⟩ := hrest.short returned hreturned
    rw [Nat.succ_mul] at hsum
    omega

/-- From place `p` of the file on, this many bytes are stored. -/
def RestWritten (bpb : Bpb) (clusters : ℕ) (table : ℕ → ℕ) (heads : File → ℕ)
    (chains : File → List ℕ) (f : File) (vol' : Volume) (flat : Flat) (head : ℕ)
    (new : List ℕ) (p i : ℕ) (buffer : ℕ → UInt8) (stored : ℕ) : Prop :=
  ∃ flat' added,
    Holds bpb clusters table heads chains f vol' flat' head (new ++ added) ∧
    p * bpb.clusterSizeBytes + stored ≤
      (chains f ++ (new ++ added)).length * bpb.clusterSizeBytes ∧
    Written bpb (chains f ++ (new ++ added)) flat flat'
      (load buffer (i * bpb.clusterSizeBytes)) (p * bpb.clusterSizeBytes) stored

theorem RestWritten.nothing {i : ℕ}
    (hholds : Holds bpb clusters table heads chains f vol flat head new)
    (hreached : p ≤ (chains f ++ new).length) :
    RestWritten bpb clusters table heads chains f vol flat head new p i buffer 0 := by
  refine ⟨flat, [], ?_, ?_, fun t ht => absurd ht (Nat.not_lt_zero t), fun _ _ => rfl⟩
  · rw [List.append_nil]
    exact hholds
  · rw [List.append_nil, Nat.add_zero]
    exact Nat.mul_le_mul_right _ hreached

/-- One cluster, and what is stored behind it. -/
theorem RestWritten.round {remaining i stored : ℕ} {vol' : Volume} {next : Flat}
    {more : List ℕ}
    (hrest : RestWritten bpb clusters table heads chains f vol' next head (new ++ more)
      (p + 1) (i + 1) buffer stored)
    (hgeo : Geometry bpb clusters) (hplace : (chains f ++ new)[p]? = some current)
    (hnext : next.data = (flat.write (load buffer (i * bpb.clusterSizeBytes))
      (bpb.clusterStart current) (min remaining bpb.clusterSizeBytes)).data)
    (hmore : stored ≠ 0 → bpb.clusterSizeBytes < remaining) :
    RestWritten bpb clusters table heads chains f vol' flat head new p i buffer
      (min remaining bpb.clusterSizeBytes + stored) := by
  obtain ⟨flat', added, hholds', hroom, hwritten⟩ := hrest
  rw [List.append_assoc] at hholds' hroom hwritten
  have hlt := (List.getElem?_eq_some_iff.mp hplace).1
  have hplace' : (chains f ++ (new ++ (more ++ added)))[p]? = some current := by
    rw [← List.append_assoc, List.getElem?_append_left hlt]
    exact hplace
  refine ⟨flat', more ++ added, hholds', ?_,
    hwritten.round hgeo hholds'.grown.isChain hplace' hnext hmore hroom⟩
  rw [Nat.succ_mul] at hroom
  omega

/-- The bytes that are stored by the loop are those of the file from place `p`
on. -/
theorem storedByClusters_spec {rounds remaining i : ℕ} {vol' : Volume}
    {result : Option ℕ}
    (hholds : Holds bpb clusters table heads chains f vol flat head new)
    (hp : remaining ≠ 0 → (chains f ++ new)[p]? = some current)
    (hreached : p ≤ (chains f ++ new).length) (hi : i ≤ p) (hrounds : remaining ≤ rounds)
    (hloop : writeClusters buffer rounds vol current remaining i = (vol', result)) :
    StoredCount bpb remaining i (storedByClusters buffer rounds vol current remaining i)
        result ∧
      RestWritten bpb clusters table heads chains f vol' flat head new p i buffer
        (storedByClusters buffer rounds vol current remaining i) := by
  have hgeo := hholds.shows.geometry
  have hcs := hgeo.clusterSize_ge
  have hdone : ∀ j, StoredCount bpb 0 j 0 none := fun j =>
    ⟨fun _ => rfl, fun _ hshort => absurd hshort (Option.some_ne_none _).symm⟩
  induction rounds generalizing vol flat new p current remaining i with
  | zero =>
      obtain rfl : remaining = 0 := by omega
      rw [writeClusters_done] at hloop
      obtain ⟨rfl, rfl⟩ := Prod.mk.inj hloop
      rw [storedByClusters_done]
      exact ⟨hdone i, .nothing hholds hreached⟩
  | succ rounds ih =>
      by_cases hremaining : remaining = 0
      · subst hremaining
        rw [writeClusters_done] at hloop
        obtain ⟨rfl, rfl⟩ := Prod.mk.inj hloop
        rw [storedByClusters_done]
        exact ⟨hdone i, .nothing hholds hreached⟩
      · have hplace := hp hremaining
        have hlt := (List.getElem?_eq_some_iff.mp hplace).1
        have hsize : vol.mount.bpb.clusterSizeBytes = bpb.clusterSizeBytes := by
          rw [hholds.shows.mounted.bpb_eq]
        obtain ⟨hindex, written, hwritten, hround⟩ :=
          @Holds.round _ _ _ _ _ _ _ _ _ _ _ _ _ _ buffer remaining i hholds hplace hi
        cases hround with
        | link cluster hmore hend hne hcluster hlinked hp' =>
            rw [writeClusters_link hremaining hsize hwritten hmore (hcluster ▸ hne)] at hloop
            rw [storedByClusters_link hremaining hsize hwritten hmore (hcluster ▸ hne)]
            rw [hcluster] at hloop ⊢
            have hltNew := (List.getElem?_eq_some_iff.mp hp').1
            obtain ⟨hcount, hrest⟩ :=
              ih hlinked (fun _ => hp') (by omega) (by omega) (by omega) hloop
            exact ⟨hcount.round, hrest.round hgeo hplace rfl fun _ => by omega⟩
        | full hmore hend hzero hfull hsame =>
            rw [writeClusters_full hremaining hsize hwritten hmore hzero, hindex] at hloop
            rw [storedByClusters_full hremaining hsize hwritten hmore hzero]
            obtain ⟨rfl, rfl⟩ := Prod.mk.inj hloop
            have hnothing : RestWritten bpb clusters table heads chains f _ _ head new
                (p + 1) (i + 1) buffer 0 := .nothing hsame (by omega)
            rw [← List.append_nil new] at hnothing
            refine ⟨⟨?_, ?_⟩, hnothing.round hgeo hplace rfl fun h => absurd rfl h⟩
            · intro hnone
              cases hnone
            · intro returned hreturned
              have hvalue := Option.some.inj hreturned
              omega
        | next hnext hread hp' =>
            rw [writeClusters_next hremaining hsize hwritten hnext] at hloop
            rw [storedByClusters_next hremaining hsize hwritten hnext]
            obtain ⟨hcount, hrest⟩ := ih hread hp' (by omega) (by omega) (by omega) hloop
            rw [← List.append_nil new] at hrest
            refine ⟨hcount.round, hrest.round hgeo hplace rfl ?_⟩
            intro hne
            by_contra hshort
            rw [show remaining - min remaining bpb.clusterSizeBytes = 0 by omega,
              storedByClusters_done] at hne
            exact hne rfl

/-! ## The whole write -/

/-- The rest of a write counts its bytes exactly if there are clusters for all of
them and their number is an `int`. -/
theorem writeRest_count_iff {remaining first : ℕ}
    (hholds : Holds bpb clusters table heads chains f vol flat head new)
    (hp : remaining ≠ 0 → (chains f ++ new)[p]? = some current)
    (hreached : p ≤ (chains f ++ new).length) (hcount : first + remaining = count) :
    (writeRest vol file buffer offset count current remaining).returned = some
        ((first + storedByClusters buffer remaining vol current remaining 0 : ℕ) : ℤ) ↔
      p + bpb.clustersFor remaining ≤
          flat.freeCount clusters + (chains f ++ new).length ∧ count < 2147483648 := by
  obtain ⟨vol', result, hloop⟩ : ∃ vol' result,
      writeClusters buffer remaining vol current remaining 0 = (vol', result) :=
    ⟨_, _, rfl⟩
  obtain ⟨flat', added, -, hstored⟩ :=
    writeClusters_spec hholds hp hreached (Nat.zero_le p) le_rfl hloop
  obtain ⟨hcounted, -⟩ :=
    storedByClusters_spec hholds hp hreached (Nat.zero_le p) le_rfl hloop
  have hfree := hstored.free
  cases result with
  | none =>
      obtain ⟨hlength, -⟩ := hstored.whole rfl
      rw [writeRest_whole hloop, hcounted.whole rfl, hcount, Option.some_inj, toInt_eq_iff]
      exact (and_iff_right (by omega)).symm
  | some short =>
      obtain ⟨hzero, hlength, -⟩ := hstored.short short rfl
      obtain ⟨hsum, hless⟩ := hcounted.short short rfl
      have hcs := hholds.shows.geometry.clusterSize_ge
      rw [writeRest_short hloop]
      apply iff_of_false
      · intro hsame
        exact toInt_ne_of_lt (by omega) (Option.some.inj hsame)
      · rintro ⟨hneed, -⟩
        omega

section Equations

variable {size o : ℕ} {written : Volume}

theorem storedFrom_aligned (hsize : vol.mount.bpb.clusterSizeBytes = size)
    (ho : offset &&& (size - 1) = 0) :
    storedFrom vol buffer offset count current =
      storedByClusters buffer count vol current count 0 := by
  subst hsize
  rw [storedFrom, if_neg (not_not.mpr ho)]

theorem storedFrom_inside (hsize : vol.mount.bpb.clusterSizeBytes = size)
    (ho : offset &&& (size - 1) = o) (hne : o ≠ 0) (hcount : size - o > count) :
    storedFrom vol buffer offset count current = min count (size - o) := by
  subst hsize ho
  rw [storedFrom, if_pos hne, if_pos hcount]

theorem storedFrom_atEnd (hsize : vol.mount.bpb.clusterSizeBytes = size)
    (ho : offset &&& (size - 1) = o) (hne : o ≠ 0)
    (hwritten : fwrite vol buffer (vol.mount.clusterOffset current + o)
      (min count (size - o)) = written) (hcount : ¬size - o > count)
    (hend : fat32EocMin ≤ (fat32GetNextCluster written current).2) :
    storedFrom vol buffer offset count current = min count (size - o) := by
  subst hsize ho hwritten
  rw [storedFrom, if_pos hne, if_neg hcount, if_pos hend]

theorem storedFrom_rest (hsize : vol.mount.bpb.clusterSizeBytes = size)
    (ho : offset &&& (size - 1) = o) (hne : o ≠ 0)
    (hwritten : fwrite vol buffer (vol.mount.clusterOffset current + o)
      (min count (size - o)) = written) (hcount : ¬size - o > count)
    (hend : ¬fat32EocMin ≤ (fat32GetNextCluster written current).2) :
    storedFrom vol buffer offset count current =
      min count (size - o) + storedByClusters (load buffer (size - o)) (count - (size - o))
        (fat32GetNextCluster written current).1 (fat32GetNextCluster written current).2
        (count - (size - o)) 0 := by
  subst hsize ho hwritten
  rw [storedFrom, if_pos hne, if_neg hcount, if_neg hend]

end Equations

/-- The clusters of a write that crosses the end of its first one. -/
theorem Geometry.clustersFor_crossing (hgeo : Geometry bpb clusters)
    (hcross : bpb.clusterSizeBytes - offset % bpb.clusterSizeBytes ≤ count) :
    bpb.clustersFor (offset + count) = offset / bpb.clusterSizeBytes + 1 +
      bpb.clustersFor (count - (bpb.clusterSizeBytes - offset % bpb.clusterSizeBytes)) := by
  have hcs := hgeo.clusterSize_ge
  have hmod := Nat.mod_lt offset (show 0 < bpb.clusterSizeBytes by omega)
  have hsplit : offset / bpb.clusterSizeBytes * bpb.clusterSizeBytes +
      offset % bpb.clusterSizeBytes = offset := Nat.div_add_mod' offset _
  have hstart : (offset / bpb.clusterSizeBytes + 1) * bpb.clusterSizeBytes =
      offset + (bpb.clusterSizeBytes - offset % bpb.clusterSizeBytes) := by
    rw [Nat.succ_mul]
    omega
  rw [← hgeo.clustersFor_add, hstart]
  congr 1
  omega

/-- The count of a write that comes to the end of its first cluster. -/
theorem writeFrom_count_crossing
    (hholds : Holds bpb clusters table heads chains f vol flat file.firstCluster new)
    (hp : (chains f ++ new)[offset / bpb.clusterSizeBytes]? = some current)
    (ho : offset % bpb.clusterSizeBytes ≠ 0)
    (hcross : bpb.clusterSizeBytes - offset % bpb.clusterSizeBytes ≤ count) :
    (writeFrom vol file buffer offset count current).returned =
        some (storedFrom vol buffer offset count current : ℤ) ↔
      (chains f ++ new).length ≤ offset / bpb.clusterSizeBytes + 1 ∨
      (bpb.clustersFor (offset + count) ≤
          flat.freeCount clusters + (chains f ++ new).length ∧ count < 2147483648) := by
  have hgeo := hholds.shows.geometry
  have hcs := hgeo.clusterSize_ge
  have hsize : vol.mount.bpb.clusterSizeBytes = bpb.clusterSizeBytes := by
    rw [hholds.shows.mounted.bpb_eq]
  have hand := hgeo.and_eq_mod offset
  have hplace := (List.getElem?_eq_some_iff.mp hp).1
  have hsmall := hgeo.clusterSize_le (List.ne_nil_of_mem (List.mem_of_getElem? hp))
    hholds.grown.isChain
  have hcount := Nat.not_lt.mpr hcross
  have hle := bpb.dataOffset_le_clusterStart current
  obtain ⟨written, hwritten⟩ : ∃ written, fwrite vol buffer
      (vol.mount.clusterOffset current + offset % bpb.clusterSizeBytes)
      (min count (bpb.clusterSizeBytes - offset % bpb.clusterSizeBytes)) = written :=
    ⟨_, rfl⟩
  have hwrite := hholds.write buffer
    (min count (bpb.clusterSizeBytes - offset % bpb.clusterSizeBytes))
    (show bpb.dataOffset ≤ bpb.clusterStart current + offset % bpb.clusterSizeBytes by
      omega)
  rw [← hholds.clusterOffset_eq hp, hwritten] at hwrite
  have hfree := flat.freeCount_write buffer
    (vol.mount.clusterOffset current + offset % bpb.clusterSizeBytes)
    (min count (bpb.clusterSizeBytes - offset % bpb.clusterSizeBytes)) clusters
  obtain ⟨hread, hnext⟩ := hwrite.next hp
  by_cases hend : fat32EocMin ≤ (fat32GetNextCluster written current).2
  · have hlast : offset / bpb.clusterSizeBytes + 1 = (chains f ++ new).length := by
      obtain ⟨hless, -⟩ | ⟨-, hlast⟩ := hnext
      · omega
      · exact hlast
    rw [writeFrom_atEnd hsize hand ho hwritten hcount hend,
      storedFrom_atEnd hsize hand ho hwritten hcount hend, min_eq_right hcross,
      show count - (count - (bpb.clusterSizeBytes - offset % bpb.clusterSizeBytes)) =
        bpb.clusterSizeBytes - offset % bpb.clusterSizeBytes by omega, Option.some_inj,
      toInt_eq_iff]
    exact iff_of_true (by omega) (.inl hlast.symm.le)
  · have hp' : (chains f ++ new)[offset / bpb.clusterSizeBytes + 1]? =
        some (fat32GetNextCluster written current).2 := by
      obtain ⟨-, hp'⟩ | ⟨heoc, -⟩ := hnext
      · exact hp'
      · exact absurd heoc hend
    have hmore := (List.getElem?_eq_some_iff.mp hp').1
    rw [writeFrom_rest hsize hand ho hwritten hcount hend,
      storedFrom_rest hsize hand ho hwritten hcount hend, hgeo.clustersFor_crossing hcross,
      or_iff_right (Nat.not_le.mpr hmore), ← hfree]
    exact writeRest_count_iff hread (fun _ => hp') hmore.le (by omega)

/-- From the cluster of the offset on, a write counts its bytes exactly if it ends
in that cluster, or if there are clusters for all of them and their number is
an `int`. -/
theorem writeFrom_count_iff
    (hholds : Holds bpb clusters table heads chains f vol flat file.firstCluster new)
    (hp : (chains f ++ new)[offset / bpb.clusterSizeBytes]? = some current) :
    (writeFrom vol file buffer offset count current).returned =
        some (storedFrom vol buffer offset count current : ℤ) ↔
      (offset % bpb.clusterSizeBytes ≠ 0 ∧
        (count < bpb.clusterSizeBytes - offset % bpb.clusterSizeBytes ∨
          (chains f ++ new).length ≤ offset / bpb.clusterSizeBytes + 1)) ∨
      (bpb.clustersFor (offset + count) ≤
          flat.freeCount clusters + (chains f ++ new).length ∧ count < 2147483648) := by
  have hgeo := hholds.shows.geometry
  have hsize : vol.mount.bpb.clusterSizeBytes = bpb.clusterSizeBytes := by
    rw [hholds.shows.mounted.bpb_eq]
  have hand := hgeo.and_eq_mod offset
  have hplace := (List.getElem?_eq_some_iff.mp hp).1
  by_cases ho : offset % bpb.clusterSizeBytes = 0
  · have hstart : offset / bpb.clusterSizeBytes * bpb.clusterSizeBytes = offset := by
      have hsplit := Nat.div_add_mod' offset bpb.clusterSizeBytes
      omega
    have hneed : bpb.clustersFor (offset + count) =
        offset / bpb.clusterSizeBytes + bpb.clustersFor count := by
      rw [← hgeo.clustersFor_add, hstart]
    rw [writeFrom_aligned hsize (hand.trans ho), storedFrom_aligned hsize (hand.trans ho),
      hneed, or_iff_right fun h => h.1 ho]
    rw [← Nat.zero_add (storedByClusters buffer count vol current count 0)]
    exact writeRest_count_iff hholds (fun _ => hp) hplace.le (Nat.zero_add count)
  · by_cases hcount : bpb.clusterSizeBytes - offset % bpb.clusterSizeBytes > count
    · have hsmall := hgeo.clusterSize_le (List.ne_nil_of_mem (List.mem_of_getElem? hp))
        hholds.grown.isChain
      rw [writeFrom_inside hsize hand ho rfl hcount,
        storedFrom_inside hsize hand ho hcount, min_eq_left (by omega), Option.some_inj,
        toInt_eq_iff]
      exact iff_of_true (by omega) (.inl ⟨ho, .inl hcount⟩)
    · rw [writeFrom_count_crossing hholds hp ho (not_lt.mp hcount), and_iff_right ho,
        or_iff_right hcount]

/-- The walk comes to the cluster of the offset if there are clusters enough and
memory to clear each new one. -/
theorem walkToOffset_isSome_iff {malloc : ℕ → Bool} {rounds : ℕ}
    (hholds : Holds bpb clusters table heads chains f vol flat head new)
    (hp : (chains f ++ new)[p]? = some current) :
    (walkToOffset malloc rounds vol current).2.isSome = true ↔
      p + rounds < flat.freeCount clusters + (chains f ++ new).length ∧
        ∀ i, (chains f ++ new).length + i ≤ p + rounds → malloc i = true := by
  have hlt := (List.getElem?_eq_some_iff.mp hp).1
  induction rounds generalizing vol flat new p current with
  | zero =>
      rw [walkToOffset]
      exact iff_of_true rfl ⟨by omega, fun i hi => by omega⟩
  | succ rounds ih =>
      obtain ⟨hread, ⟨hless, hp'⟩ | ⟨heoc, hend⟩⟩ := hholds.next hp
      · have hrest := ih hread hp' (List.getElem?_eq_some_iff.mp hp').1
        rw [show p + 1 + rounds = p + (rounds + 1) by omega] at hrest
        rw [walkToOffset_next hless]
        exact hrest
      · obtain ⟨cluster, hcluster, hne, hlinked, hp', hcount⟩ | ⟨hzero, hfull, -⟩ :=
          hread.link hp hend
        · have hnew : (linkNewCluster (fat32GetNextCluster vol current).1 current).2 ≠ 0 := by
            rw [hcluster]
            exact hne
          by_cases hmemory : malloc rounds = true
          · have hcleared := hlinked.write (fun _ => 0) 4096
              (bpb.dataOffset_le_clusterStart cluster)
            have hrest := ih hcleared hp' (List.getElem?_eq_some_iff.mp hp').1
            have hlength : (chains f ++ (new ++ [cluster])).length =
                (chains f ++ new).length + 1 := by
              rw [← List.append_assoc, List.length_append, List.length_singleton]
            rw [Flat.freeCount_write, hlength] at hrest
            rw [walkToOffset_clear heoc hnew hmemory, hcluster,
              hlinked.clusterOffset_eq hp']
            refine hrest.trans (and_congr (by omega) ⟨?_, ?_⟩)
            · intro hall i hi
              obtain rfl | hlt := Nat.eq_or_lt_of_le (show i ≤ rounds by omega)
              · exact hmemory
              · exact hall i (by omega)
            · intro hall i hi
              exact hall i (by omega)
          · rw [walkToOffset_noMemory heoc hnew hmemory]
            apply iff_of_false Bool.false_ne_true
            rintro ⟨-, hall⟩
            exact hmemory (hall rounds (by omega))
        · rw [walkToOffset_full heoc hzero]
          apply iff_of_false Bool.false_ne_true
          rintro ⟨hroom, -⟩
          omega

end Write

/-- The walk to the cluster of the offset runs out of clusters or of memory. -/
def WalkStops (bpb : Bpb) (length freeCount : ℕ) (malloc : ℕ → Bool) (offset : ℕ) : Prop :=
  freeCount + length ≤ offset / bpb.clusterSizeBytes ∨
    ∃ i, length + i ≤ offset / bpb.clusterSizeBytes ∧ malloc i = false

/-- The write stops before it stores a byte, or ends in the cluster of the offset, or
finds clusters for all of its bytes. -/
def PlainWrite (bpb : Bpb) (length freeCount : ℕ) (malloc : ℕ → Bool)
    (offset count : ℕ) : Prop :=
  WalkStops bpb length freeCount malloc offset ∨
    (offset % bpb.clusterSizeBytes ≠ 0 ∧
      (count < bpb.clusterSizeBytes - offset % bpb.clusterSizeBytes ∨
        length ≤ offset / bpb.clusterSizeBytes + 1)) ∨
    (bpb.clustersFor (offset + count) ≤ freeCount + length ∧ count < 2147483648)

section WholeWrite

variable {File : Type*} [DecidableEq File] {heads : File → ℕ} {chains : File → List ℕ}
  {f : File} {bpb : Bpb} {clusters : ℕ} {vol : Volume} {file : OpenFile}
  {buffer : ℕ → UInt8} {offset count : ℕ} {malloc : ℕ → Bool}

theorem firstClusterFor_kept (hne : file.firstCluster ≠ 0) :
    firstClusterFor vol file = (vol, file) := by
  rw [firstClusterFor, if_neg hne]

theorem fat32WriteStored_from {size start toWrite : ℕ} {result : Option ℕ} {walked : Volume}
    (hne : file.firstCluster ≠ 0) (hsize : vol.mount.bpb.clusterSizeBytes = size)
    (hstart : udiv64 offset size = some start)
    (htoWrite : udiv64 ((count + size - 1) % 2 ^ 64) size = some toWrite)
    (hwalk : walkToOffset malloc start vol file.firstCluster = (walked, result)) :
    fat32WriteStored malloc vol file buffer offset count =
      match result with
      | none => 0
      | some current => storedFrom walked buffer offset count current := by
  subst hsize
  rw [fat32WriteStored, firstClusterFor_kept hne, if_neg hne]
  simp only [hstart, htoWrite, hwalk]
  cases result <;> rfl

/-- A write returns the number of bytes it has stored exactly if it is plain. -/
theorem fat32Write_count_iff (hconsistent : Consistent bpb clusters vol)
    (hwell : WellFormed (fatEntry vol) (clusters + 2) heads chains)
    (hfirst : file.firstCluster = heads f) (hne : file.firstCluster ≠ 0) :
    (fat32Write malloc vol file buffer offset count).returned =
        some (fat32WriteStored malloc vol file buffer offset count : ℤ) ↔
      NoTrap bpb offset count ∧
        PlainWrite bpb (chains f).length (vol.flat.freeCount clusters) malloc offset count := by
  have hkept := @firstClusterFor_kept vol file hne
  have hsize : vol.mount.bpb.clusterSizeBytes = bpb.clusterSizeBytes := by
    rw [hconsistent.mounted.bpb_eq]
  by_cases hdiv : NoTrap bpb offset count
  · obtain ⟨hstart, htoWrite⟩ := hdiv.udiv64_eq
    have hgrown : Holds bpb clusters (fatEntry vol) heads chains f vol vol.flat
        file.firstCluster [] := by
      rw [hfirst]
      exact ⟨hconsistent.shows, .refl hwell⟩
    have hp : (chains f ++ [])[0]? = some file.firstCluster := by
      rw [List.append_nil, hfirst]
      exact (hwell.chain f).first (hfirst ▸ hne)
    obtain ⟨walked, result, hwalk⟩ : ∃ walked result,
        walkToOffset malloc (offset / bpb.clusterSizeBytes) vol file.firstCluster =
          (walked, result) := ⟨_, _, rfl⟩
    have hsome : (walkToOffset malloc (offset / bpb.clusterSizeBytes) vol
        file.firstCluster).2.isSome = true ↔ _ := walkToOffset_isSome_iff hgrown hp
    obtain ⟨flat', added, hholds, hfree, -, hplace, -⟩ := walkToOffset_spec hgrown hp hwalk
    rw [List.append_nil, Nat.zero_add, hwalk] at hsome
    rw [List.nil_append, List.append_nil, Nat.zero_add] at hplace
    rw [List.nil_append] at hholds
    rw [fat32WriteStored_from hne hsize hstart htoWrite hwalk, and_iff_right hdiv]
    cases result with
    | none =>
        rw [fat32Write_stopped hkept hne hsize hstart htoWrite hwalk]
        refine iff_of_true rfl (.inl ?_)
        by_contra hgoes
        rw [WalkStops, not_or, Nat.not_le, not_exists] at hgoes
        apply Bool.false_ne_true
        apply hsome.mpr
        refine ⟨hgoes.1, ?_⟩
        intro i hi
        have hmemory := hgoes.2 i
        rw [not_and, Bool.not_eq_false] at hmemory
        exact hmemory hi
    | some current =>
        have hgoes := hsome.mp rfl
        have hreached : ¬WalkStops bpb (chains f).length (vol.flat.freeCount clusters)
            malloc offset := by
          rintro (hshort | ⟨i, hi, hmemory⟩)
          · omega
          · rw [hgoes.2 i hi] at hmemory
            exact absurd hmemory (by decide)
        obtain ⟨hat, hlength⟩ := hplace current rfl
        rw [fat32Write_from hkept hne hsize hstart htoWrite hwalk]
        have hiff := @writeFrom_count_iff _ _ _ _ _ _ _ _ _ _ _ _ file buffer offset count
          hholds hat
        rw [PlainWrite, or_iff_right hreached]
        refine hiff.trans (or_congr ?_ ?_)
        · apply and_congr_right
          intro ho
          apply or_congr_right
          omega
        · apply and_congr_left
          intro hint
          rw [List.length_append] at *
          omega
  · rw [fat32Write_trap hkept hne hsize]
    · exact iff_of_false (Option.some_ne_none _).symm fun hright => hdiv hright.1
    · by_contra hnone
      rw [not_or] at hnone
      apply hdiv
      refine ⟨?_, ?_⟩
      · by_contra hlarge
        exact hnone.1 (if_neg hlarge)
      · by_contra hlarge
        exact hnone.2 (if_neg hlarge)

end WholeWrite

/-- The numbers that `fat32_read` and `fat32_write` return are those of the bytes
copied and stored exactly if no division traps and the read and the write are
plain. -/
theorem counts_honest_iff {File : Type*} [DecidableEq File] (malloc : ℕ → Bool)
    (bpb : Bpb) (clusters : ℕ) (vol : Volume) (heads : File → ℕ) (chains : File → List ℕ)
    (f : File) (file : OpenFile) (buffer : ℕ → UInt8) (offset count : ℕ)
    (hconsistent : Consistent bpb clusters vol)
    (hwell : WellFormed (fatEntry vol) (clusters + 2) heads chains)
    (hfirst : file.firstCluster = heads f) (hchain : chains f ≠ [])
    (hword : count < 2 ^ 64) :
    ((fat32Read vol file buffer offset count).returned =
          some ({k | Overwritten vol file offset count k}.ncard : ℤ) ↔
        NoTrap bpb offset count ∧ PlainRead bpb (chains f).length offset count ∧
          min count ((chains f).length * bpb.clusterSizeBytes - offset) < 2147483648) ∧
      ((fat32Write malloc vol file buffer offset count).returned =
          some (fat32WriteStored malloc vol file buffer offset count : ℤ) ↔
        NoTrap bpb offset count ∧
          PlainWrite bpb (chains f).length (vol.flat.freeCount clusters) malloc offset
            count) := by
  have hstarts := hwell.chain f
  have hne : file.firstCluster ≠ 0 := by
    rw [hfirst]
    exact hstarts.head_ne hchain
  refine ⟨?_, fat32Write_count_iff hconsistent hwell hfirst hne⟩
  have hfollow : Following bpb clusters vol (heads f) (chains f) 0 vol :=
    ⟨hconsistent.geometry, hconsistent.mounted, hstarts, .refl hconsistent.cache⟩
  apply fat32Read_count_iff hfollow _ hword
  rw [hfirst]
  exact hstarts.first (hfirst ▸ hne)

theorem counts_honest_shared :
    ((fat32Read sharedVolume sharedFile (fun _ => 7) 100 1000).returned =
        some ({k | Overwritten sharedVolume sharedFile 100 1000 k}.ncard : ℤ)) ∧
      (fat32Write (fun _ => true) sharedVolume sharedFile (fun _ => 7) 100 1000).returned =
        some (fat32WriteStored (fun _ => true) sharedVolume sharedFile (fun _ => 7) 100
          1000 : ℤ) := by
  have hiff := counts_honest_iff (fun _ => true) sharedVolume.mount.bpb 6 sharedVolume
    (fun x => (sharedChains x).headD 0) sharedChains false sharedFile (fun _ => 7) 100 1000
    sharedFile_open.consistent sharedVolume_wellFormed rfl (by decide) (by decide)
  exact ⟨hiff.1.mpr ⟨⟨by decide, by decide⟩, .inr (.inl (by decide)), by decide⟩,
    hiff.2.mpr ⟨⟨by decide, by decide⟩, .inr (.inl ⟨by decide, .inr (by decide)⟩)⟩⟩

/-- A read behind the end of a file of two clusters returns 512 of 924 bytes, and
a write that fills the volume returns 1024 of 1536. -/
theorem counts_lose_cluster :
    IsChain (fatEntry twoWindowVolume) (16384 + 2) 2 [2, 3] ∧
      {k | Overwritten twoWindowVolume twoWindowFile 100 2000 k}.ncard = 924 ∧
      (fat32Read twoWindowVolume twoWindowFile (fun _ => 7) 100 2000).returned = some 512 ∧
      fat32WriteStored (fun _ => true) sharedVolume sharedFile (fun _ => 7) 0 4000 = 1536 ∧
      (fat32Write (fun _ => true) sharedVolume sharedFile (fun _ => 7) 0 4000).returned =
        some 1024 := by
  refine ⟨twoWindowVolume_chain, ?_, by decide +kernel, by decide +kernel,
    by decide +kernel⟩
  have hfollow : Following twoWindowVolume.mount.bpb 16384 twoWindowVolume 2 [2, 3] 0
      twoWindowVolume :=
    ⟨twoWindowVolume_consistent.geometry, twoWindowVolume_consistent.mounted,
      twoWindowVolume_chain, .refl twoWindowVolume_consistent.cache⟩
  rw [overwritten_eq hfollow rfl (by decide) ⟨by decide, by decide⟩, Set.ncard_Iio_nat]
  decide

end KimisOS.Fat32
