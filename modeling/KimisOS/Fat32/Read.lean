import KimisOS.Fat32.Ends

/-!
# What a read returns

`fat32_read` follows the chain as `fat32_write` does.  Inside the clusters of
the file it puts the bytes of the file into the buffer, also where it returns
early.
-/

namespace KimisOS.Fat32

open KimisOS.ByteStore

/-! ## Rounds of the loops -/

section Equations

variable {buffer : ℕ → UInt8} {clustersToRead count start rounds remaining i size : ℕ}
  {vol : Volume} {current : ℕ}

@[simp]
theorem readClusters_done (clustersToRead count start rounds : ℕ) (vol : Volume)
    (buffer : ℕ → UInt8) (current i : ℕ) :
    readClusters clustersToRead count start rounds vol buffer current 0 i =
      ⟨vol, buffer, some (toInt count)⟩ := by
  cases rounds with
  | zero => rw [readClusters]
  | succ rounds => rw [readClusters, if_pos rfl]

theorem readClusters_last (hremaining : remaining ≠ 0)
    (hsize : vol.mount.bpb.clusterSizeBytes = size)
    (hend : fat32EocMin ≤ (fat32GetNextCluster vol current).2 ∧
      i < (clustersToRead + 2 ^ 32 - 1) % 2 ^ 32) :
    readClusters clustersToRead count start (rounds + 1) vol buffer current remaining i =
      ⟨(fat32GetNextCluster vol current).1,
        store buffer (start + i * size % 2 ^ 32)
          (load vol.device (vol.mount.clusterOffset current)) (min remaining size),
        some (toInt ((i + 1) * size))⟩ := by
  subst hsize
  rw [readClusters, if_neg hremaining, if_pos hend]

theorem readClusters_next (hremaining : remaining ≠ 0)
    (hsize : vol.mount.bpb.clusterSizeBytes = size)
    (hend : ¬(fat32EocMin ≤ (fat32GetNextCluster vol current).2 ∧
      i < (clustersToRead + 2 ^ 32 - 1) % 2 ^ 32)) :
    readClusters clustersToRead count start (rounds + 1) vol buffer current remaining i =
      readClusters clustersToRead count start rounds (fat32GetNextCluster vol current).1
        (store buffer (start + i * size % 2 ^ 32)
          (load vol.device (vol.mount.clusterOffset current)) (min remaining size))
        (fat32GetNextCluster vol current).2 (remaining - min remaining size) (i + 1) := by
  subst hsize
  rw [readClusters, if_neg hremaining, if_neg hend]

end Equations

/-- From `start` on, the buffer holds the bytes of the file from `offset` on. -/
structure Loaded (bpb : Bpb) (chain : List ℕ) (data buffer buffer' : ℕ → UInt8)
    (start offset count : ℕ) : Prop where
  bytes : ∀ t < count, buffer' (start + t) = data (bpb.fileAddress chain (offset + t))
  before : ∀ k < start, buffer' k = buffer k

section Loaded

variable {bpb : Bpb} {clusters : ℕ} {chain : List ℕ} {data buffer buffer₁ buffer' : ℕ → UInt8}
  {start offset count more p current : ℕ}

/-- A piece of one cluster. -/
theorem Loaded.piece (hgeo : Geometry bpb clusters) {device : ℕ → UInt8}
    (hdevice : ∀ a, bpb.dataOffset ≤ a → device a = data a)
    (hp : chain[p]? = some current) {o : ℕ} (hin : o + count ≤ bpb.clusterSizeBytes) :
    Loaded bpb chain data buffer
      (store buffer start (load device (bpb.clusterStart current + o)) count) start
      (p * bpb.clusterSizeBytes + o) count := by
  refine ⟨?_, ?_⟩
  · intro t ht
    have hle := bpb.dataOffset_le_clusterStart current
    rw [store_inside ht, load, hdevice _ (by omega), Nat.add_assoc, Nat.add_assoc,
      hgeo.fileAddress_eq hp (by omega)]
  · intro k hk
    exact store_outside (.inl hk)

theorem Loaded.append (hfirst : Loaded bpb chain data buffer buffer₁ start offset count)
    (hsecond : Loaded bpb chain data buffer₁ buffer' (start + count) (offset + count) more) :
    Loaded bpb chain data buffer buffer' start offset (count + more) := by
  refine ⟨?_, ?_⟩
  · intro t ht
    by_cases hlt : t < count
    · rw [hsecond.before _ (by omega), hfirst.bytes t hlt]
    · have hlater := hsecond.bytes (t - count) (by omega)
      rw [show start + count + (t - count) = start + t by omega,
        show offset + count + (t - count) = offset + t by omega] at hlater
      exact hlater
  · intro k hk
    rw [hsecond.before k (by omega), hfirst.before k hk]

end Loaded

section Read

variable {bpb : Bpb} {clusters : ℕ} {vol : Volume} {flat : Flat} {head : ℕ}
  {chain : List ℕ} {p current : ℕ}

/-- The loop loads the rest of the bytes, and stops at the end of the chain when
there is nothing left to load. -/
theorem readClusters_spec {clustersToRead count start rounds remaining i : ℕ}
    {buffer : ℕ → UInt8} {out : ReadOutcome} (hshows : Shows bpb clusters vol flat)
    (hchain : IsChain flat.table (clusters + 2) head chain)
    (hreach : OutOfReach bpb clusters bpb.dataOffset)
    (hp : remaining ≠ 0 → chain[p]? = some current) (hi : i ≤ p)
    (hroom : p * bpb.clusterSizeBytes + remaining ≤ chain.length * bpb.clusterSizeBytes)
    (hrounds : remaining ≤ rounds)
    (hout : readClusters clustersToRead count start rounds vol buffer current remaining i =
      out) :
    Loaded bpb chain flat.data buffer out.buffer (start + i * bpb.clusterSizeBytes)
      (p * bpb.clusterSizeBytes) remaining := by
  have hgeo := hshows.geometry
  have hcs := hgeo.clusterSize_ge
  induction rounds generalizing vol buffer p current remaining i with
  | zero =>
      obtain rfl : remaining = 0 := by omega
      rw [readClusters_done] at hout
      rw [← hout]
      exact ⟨fun t ht => absurd ht (Nat.not_lt_zero t), fun _ _ => rfl⟩
  | succ rounds ih =>
      by_cases hremaining : remaining = 0
      · subst hremaining
        rw [readClusters_done] at hout
        rw [← hout]
        exact ⟨fun t ht => absurd ht (Nat.not_lt_zero t), fun _ _ => rfl⟩
      · have hplace := hp hremaining
        have hsize : vol.mount.bpb.clusterSizeBytes = bpb.clusterSizeBytes := by
          rw [hshows.mounted.bpb_eq]
        have hindex : i * bpb.clusterSizeBytes % 2 ^ 32 = i * bpb.clusterSizeBytes := by
          have hbound := hgeo.place_lt hchain hplace
          have hle : i * bpb.clusterSizeBytes ≤ p * bpb.clusterSizeBytes :=
            Nat.mul_le_mul_right _ hi
          exact Nat.mod_eq_of_lt (by omega)
        have hoffset : vol.mount.clusterOffset current = bpb.clusterStart current :=
          hshows.clusterOffset_eq (hchain.range current (List.mem_of_getElem? hplace))
        have hdevice : ∀ a, bpb.dataOffset ≤ a → vol.device a = flat.data a := by
          intro a ha
          exact hshows.bytes a ha (hreach.mono ha)
        have hpiece := @Loaded.piece bpb clusters chain flat.data buffer
          (start + i * bpb.clusterSizeBytes) (min remaining bpb.clusterSizeBytes) p current
          hgeo vol.device hdevice hplace 0 (by omega)
        rw [Nat.add_zero, Nat.add_zero] at hpiece
        obtain ⟨hread, hnext⟩ := hshows.next hchain hplace
        by_cases hend : fat32EocMin ≤ (fat32GetNextCluster vol current).2 ∧
            i < (clustersToRead + 2 ^ 32 - 1) % 2 ^ 32
        · rw [readClusters_last hremaining hsize hend, hindex, hoffset] at hout
          have hlast : p + 1 = chain.length := by
            rcases hnext with ⟨hlt, -⟩ | ⟨-, hlast⟩
            · omega
            · exact hlast
          rw [← hlast, Nat.succ_mul] at hroom
          rw [min_eq_left (by omega)] at hpiece hout
          rw [← hout]
          exact hpiece
        · rw [readClusters_next hremaining hsize hend, hindex, hoffset] at hout
          by_cases hmore : remaining ≤ bpb.clusterSizeBytes
          · rw [min_eq_left hmore] at hpiece
            rw [min_eq_left hmore, Nat.sub_self, readClusters_done] at hout
            rw [← hout]
            exact hpiece
          · rw [min_eq_right (by omega)] at hpiece hout
            have hp' : chain[p + 1]? = some (fat32GetNextCluster vol current).2 := by
              rcases hnext with ⟨-, hp'⟩ | ⟨-, hlast⟩
              · exact hp'
              · rw [← hlast, Nat.succ_mul] at hroom
                omega
            have hrest := ih hread (fun _ => hp') (by omega)
              (by rw [Nat.succ_mul]; omega) (by omega) hout
            rw [Nat.succ_mul, Nat.succ_mul, ← Nat.add_assoc] at hrest
            have hall := hpiece.append hrest
            rw [Nat.add_sub_of_le (by omega)] at hall
            exact hall

theorem readWalk_spec {rounds target : ℕ} {vol' : Volume} {result : Option ℕ}
    (hshows : Shows bpb clusters vol flat)
    (hchain : IsChain flat.table (clusters + 2) head chain)
    (hp : chain[p]? = some current) (htarget : chain[p + rounds]? = some target)
    (hwalk : readWalk rounds vol current = (vol', result)) :
    Shows bpb clusters vol' flat ∧ result = some target := by
  induction rounds generalizing vol p current with
  | zero =>
      rw [readWalk] at hwalk
      obtain ⟨rfl, rfl⟩ := Prod.mk.inj hwalk
      rw [Nat.add_zero, hp] at htarget
      exact ⟨hshows, htarget⟩
  | succ rounds ih =>
      have hlt := (List.getElem?_eq_some_iff.mp htarget).1
      obtain ⟨hread, ⟨hnext, hp'⟩ | ⟨-, hlast⟩⟩ := hshows.next hchain hp
      · rw [readWalk, if_neg (Nat.not_le.mpr hnext)] at hwalk
        apply ih hread hp' ?_ hwalk
        rw [← htarget]
        congr 1
        omega
      · omega

section Head

variable {buffer : ℕ → UInt8} {clustersToRead offset count size o : ℕ}

theorem readFrom_aligned (hsize : vol.mount.bpb.clusterSizeBytes = size)
    (ho : offset &&& (size - 1) = 0) :
    readFrom vol buffer clustersToRead offset count current =
      readClusters clustersToRead count 0 count vol buffer current count 0 := by
  subst hsize
  rw [readFrom, if_neg (not_not.mpr ho)]

theorem readFrom_inside (hsize : vol.mount.bpb.clusterSizeBytes = size)
    (ho : offset &&& (size - 1) = o) (hne : o ≠ 0) (hcount : size - o > count) :
    readFrom vol buffer clustersToRead offset count current =
      ⟨vol, store buffer 0 (load vol.device (vol.mount.clusterOffset current + o))
        (min count (size - o)), some (toInt count)⟩ := by
  subst hsize ho
  rw [readFrom, if_pos hne, if_pos hcount]

theorem readFrom_atEnd (hsize : vol.mount.bpb.clusterSizeBytes = size)
    (ho : offset &&& (size - 1) = o) (hne : o ≠ 0) (hcount : ¬size - o > count)
    (hend : fat32EocMin ≤ (fat32GetNextCluster vol current).2) :
    readFrom vol buffer clustersToRead offset count current =
      ⟨(fat32GetNextCluster vol current).1,
        store buffer 0 (load vol.device (vol.mount.clusterOffset current + o))
          (min count (size - o)), some (toInt (count - (count - (size - o))))⟩ := by
  subst hsize ho
  rw [readFrom, if_pos hne, if_neg hcount, if_pos hend]

theorem readFrom_rest (hsize : vol.mount.bpb.clusterSizeBytes = size)
    (ho : offset &&& (size - 1) = o) (hne : o ≠ 0) (hcount : ¬size - o > count)
    (hend : ¬fat32EocMin ≤ (fat32GetNextCluster vol current).2) :
    readFrom vol buffer clustersToRead offset count current =
      readClusters clustersToRead count (size - o) (count - (size - o))
        (fat32GetNextCluster vol current).1
        (store buffer 0 (load vol.device (vol.mount.clusterOffset current + o))
          (min count (size - o)))
        (fat32GetNextCluster vol current).2 (count - (size - o)) 0 := by
  subst hsize ho
  rw [readFrom, if_pos hne, if_neg hcount, if_neg hend]

end Head

theorem readFrom_spec {clustersToRead offset count : ℕ} {buffer : ℕ → UInt8}
    {out : ReadOutcome} (hshows : Shows bpb clusters vol flat)
    (hchain : IsChain flat.table (clusters + 2) head chain)
    (hreach : OutOfReach bpb clusters bpb.dataOffset)
    (hp : chain[offset / bpb.clusterSizeBytes]? = some current)
    (hroom : offset + count ≤ chain.length * bpb.clusterSizeBytes)
    (hout : readFrom vol buffer clustersToRead offset count current = out) :
    Loaded bpb chain flat.data buffer out.buffer 0 offset count := by
  have hgeo := hshows.geometry
  have hcs := hgeo.clusterSize_ge
  have hsize : vol.mount.bpb.clusterSizeBytes = bpb.clusterSizeBytes := by
    rw [hshows.mounted.bpb_eq]
  have hand := hgeo.and_eq_mod offset
  have hlt := Nat.mod_lt offset (show 0 < bpb.clusterSizeBytes by omega)
  have hsplit : offset / bpb.clusterSizeBytes * bpb.clusterSizeBytes +
      offset % bpb.clusterSizeBytes = offset := Nat.div_add_mod' offset _
  by_cases ho : offset % bpb.clusterSizeBytes = 0
  · rw [readFrom_aligned hsize (hand.trans ho)] at hout
    rw [ho, Nat.add_zero] at hsplit
    have hall := readClusters_spec hshows hchain hreach (fun _ => hp) (Nat.zero_le _)
      (by rw [hsplit]; exact hroom) (le_refl count) hout
    rw [hsplit, Nat.zero_mul] at hall
    exact hall
  · have hoffset : vol.mount.clusterOffset current = bpb.clusterStart current :=
      hshows.clusterOffset_eq (hchain.range current (List.mem_of_getElem? hp))
    have hdevice : ∀ a, bpb.dataOffset ≤ a → vol.device a = flat.data a := by
      intro a ha
      exact hshows.bytes a ha (hreach.mono ha)
    have hpiece := @Loaded.piece bpb clusters chain flat.data buffer 0
      (min count (bpb.clusterSizeBytes - offset % bpb.clusterSizeBytes)) _ current
      hgeo vol.device hdevice hp (offset % bpb.clusterSizeBytes) (by omega)
    rw [hsplit] at hpiece
    by_cases hcount : bpb.clusterSizeBytes - offset % bpb.clusterSizeBytes > count
    · rw [readFrom_inside hsize hand ho hcount, hoffset] at hout
      rw [min_eq_left (by omega)] at hpiece hout
      rw [← hout]
      exact hpiece
    · obtain ⟨hread, hnext⟩ := hshows.next hchain hp
      by_cases hend : fat32EocMin ≤ (fat32GetNextCluster vol current).2
      · rw [readFrom_atEnd hsize hand ho hcount hend, hoffset] at hout
        have hlast : offset / bpb.clusterSizeBytes + 1 = chain.length := by
          rcases hnext with ⟨hltEoc, -⟩ | ⟨-, hlast⟩
          · omega
          · exact hlast
        rw [← hlast, Nat.succ_mul] at hroom
        rw [min_eq_left (by omega)] at hpiece hout
        rw [← hout]
        exact hpiece
      · rw [readFrom_rest hsize hand ho hcount hend, hoffset] at hout
        have hp' : chain[offset / bpb.clusterSizeBytes + 1]? =
            some (fat32GetNextCluster vol current).2 := by
          rcases hnext with ⟨-, hp'⟩ | ⟨heoc, -⟩
          · exact hp'
          · exact absurd heoc hend
        have hstart : (offset / bpb.clusterSizeBytes + 1) * bpb.clusterSizeBytes =
            offset + (bpb.clusterSizeBytes - offset % bpb.clusterSizeBytes) := by
          rw [Nat.succ_mul]
          omega
        rw [min_eq_right (by omega)] at hpiece hout
        have hrest := readClusters_spec hread hchain hreach (fun _ => hp') (Nat.zero_le _)
          (by rw [hstart]; omega) (le_refl _) hout
        rw [hstart, Nat.zero_mul, Nat.add_zero] at hrest
        have hall : Loaded bpb chain flat.data buffer out.buffer 0 offset
            (bpb.clusterSizeBytes - offset % bpb.clusterSizeBytes +
              (count - (bpb.clusterSizeBytes - offset % bpb.clusterSizeBytes))) := by
          apply hpiece.append
          rw [Nat.zero_add]
          exact hrest
        rw [Nat.add_sub_of_le (by omega)] at hall
        exact hall

theorem Geometry.udiv64_eq (hgeo : Geometry bpb clusters) {n : ℕ} (hn : n < 2 ^ 41) :
    udiv64 n bpb.clusterSizeBytes = some (n / bpb.clusterSizeBytes) := by
  have hcs := hgeo.clusterSize_ge
  rw [udiv64, if_pos]
  apply Nat.div_lt_of_lt_mul
  calc n < 512 * 2 ^ 32 := hn
    _ ≤ bpb.clusterSizeBytes * 2 ^ 32 := Nat.mul_le_mul_right _ hcs

theorem fat32Read_from {file : OpenFile} {buffer : ℕ → UInt8} {vol' : Volume}
    {offset count size start toRead : ℕ} (hsize : vol.mount.bpb.clusterSizeBytes = size)
    (hstart : udiv64 offset size = some start)
    (htoRead : udiv64 ((count + size - 1) % 2 ^ 64) size = some toRead)
    (hwalk : readWalk start vol file.firstCluster = (vol', some current)) :
    fat32Read vol file buffer offset count =
      readFrom vol' buffer toRead offset count current := by
  subst hsize
  rw [fat32Read]
  simp only [hstart, htoRead, hwalk]

/-- Inside the clusters of the file, a read loads the bytes of the file. -/
theorem fat32Read_spec {offset count : ℕ} {file : OpenFile} (buffer : ℕ → UInt8)
    (hshows : Shows bpb clusters vol flat)
    (hchain : IsChain flat.table (clusters + 2) head chain)
    (hreach : OutOfReach bpb clusters bpb.dataOffset)
    (hfirst : chain[0]? = some file.firstCluster) (hcount : 1 ≤ count)
    (hroom : offset + count ≤ chain.length * bpb.clusterSizeBytes) :
    Loaded bpb chain flat.data buffer (fat32Read vol file buffer offset count).buffer 0
      offset count := by
  have hgeo := hshows.geometry
  have hcs := hgeo.clusterSize_ge
  have hsize : vol.mount.bpb.clusterSizeBytes = bpb.clusterSizeBytes := by
    rw [hshows.mounted.bpb_eq]
  have hbound := hgeo.chain_le hchain
  have hplace : offset / bpb.clusterSizeBytes < chain.length := hgeo.div_lt (by omega)
  have hcluster : bpb.clusterSizeBytes ≤ chain.length * bpb.clusterSizeBytes :=
    Nat.le_mul_of_pos_left _ (Nat.zero_lt_of_lt hplace)
  have hstart := hgeo.udiv64_eq (show offset < 2 ^ 41 by omega)
  have htoRead := hgeo.udiv64_eq
    (show (count + bpb.clusterSizeBytes - 1) % 2 ^ 64 < 2 ^ 41 by omega)
  obtain ⟨vol', result, hwalk⟩ : ∃ vol' result,
      readWalk (offset / bpb.clusterSizeBytes) vol file.firstCluster = (vol', result) :=
    ⟨_, _, rfl⟩
  obtain ⟨target, htarget⟩ : ∃ target,
      chain[offset / bpb.clusterSizeBytes]? = some target :=
    ⟨_, List.getElem?_eq_getElem hplace⟩
  have hsum := htarget
  rw [← Nat.zero_add (offset / bpb.clusterSizeBytes)] at hsum
  obtain ⟨hwalked, rfl⟩ := readWalk_spec hshows hchain hfirst hsum hwalk
  rw [fat32Read_from hsize hstart htoRead hwalk]
  exact readFrom_spec hwalked hchain hreach htarget hroom rfl

end Read

end KimisOS.Fat32
