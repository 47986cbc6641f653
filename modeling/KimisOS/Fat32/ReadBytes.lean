import KimisOS.Fat32.Lookups
import KimisOS.Fat32.Integrity
import KimisOS.Fat32.Read

/-!
# The bytes and the number that a read returns

`fat32_read` copies the bytes of the chain from the offset on, as far as the
chain goes.  A byte behind an entry that had to be loaded is read after the
write-back of the window that was there before.  The number that is returned
is the count, or counts whole clusters when the loop meets the end of the chain.
-/

namespace KimisOS.Fat32

open KimisOS.ByteStore

/-- The byte of the file as it is on the device once the chain has been followed
to its cluster. -/
def readByte (bpb : Bpb) (vol : Volume) (chain : List ℕ) (x : ℕ) : UInt8 :=
  deviceAfter vol (chain.take (x / bpb.clusterSizeBytes)) (bpb.fileAddress chain x)

/-- The chain of a file has been followed to place `p`. -/
structure Following (bpb : Bpb) (clusters : ℕ) (vol : Volume) (head : ℕ) (chain : List ℕ)
    (p : ℕ) (reached : Volume) : Prop where
  geometry : Geometry bpb clusters
  mounted : Mounted bpb vol.mount
  isChain : IsChain (fatEntry vol) (clusters + 2) head chain
  looked : LookedUp (clusters + 2) vol (chain.take p) reached

section Following

variable {bpb : Bpb} {clusters : ℕ} {vol reached : Volume} {head p current : ℕ}
  {chain : List ℕ}

theorem Following.clusterSizeBytes_eq
    (hfollow : Following bpb clusters vol head chain p reached) :
    reached.mount.bpb.clusterSizeBytes = bpb.clusterSizeBytes := by
  rw [hfollow.looked.geometry.bpb, hfollow.mounted.bpb_eq]

theorem Following.next (hfollow : Following bpb clusters vol head chain p reached)
    (hp : chain[p]? = some current) :
    Following bpb clusters vol head chain (p + 1) (fat32GetNextCluster reached current).1 ∧
      (((fat32GetNextCluster reached current).2 < fat32EocMin ∧
          chain[p + 1]? = some (fat32GetNextCluster reached current).2) ∨
        (fat32EocMin ≤ (fat32GetNextCluster reached current).2 ∧
          p + 1 = chain.length)) := by
  have hrange := hfollow.isChain.range current (List.mem_of_getElem? hp)
  obtain ⟨hlooked, hvalue⟩ := hfollow.looked.get hrange.2
  have htake : chain.take (p + 1) = chain.take p ++ [current] := by
    rw [List.take_add_one, hp, Option.toList_some]
  rw [← htake] at hlooked
  rw [hvalue]
  exact ⟨⟨hfollow.geometry, hfollow.mounted, hfollow.isChain, hlooked⟩,
    hfollow.isChain.next hfollow.geometry.count_le hp⟩

theorem Following.clusterOffset_eq
    (hfollow : Following bpb clusters vol head chain p reached)
    (hp : chain[p]? = some current) :
    reached.mount.clusterOffset current = bpb.clusterStart current := by
  have hsame := hfollow.looked.geometry
  have hrange := hfollow.isChain.range current (List.mem_of_getElem? hp)
  have hmounted : Mounted bpb reached.mount := hfollow.mounted.congr hsame
  exact hmounted.clusterOffset_eq hfollow.geometry hrange

/-- What is loaded from the cluster at the place that has been reached. -/
theorem Following.load_eq (hfollow : Following bpb clusters vol head chain p reached)
    (hp : chain[p]? = some current) {r t : ℕ} (hin : r + t < bpb.clusterSizeBytes) :
    load reached.device (reached.mount.clusterOffset current + r) t =
      readByte bpb vol chain (p * bpb.clusterSizeBytes + r + t) := by
  have hcs := hfollow.geometry.clusterSize_ge
  have hdiv : (p * bpb.clusterSizeBytes + r + t) / bpb.clusterSizeBytes = p := by
    rw [Nat.add_assoc, Nat.mul_comm, Nat.mul_add_div (by omega), Nat.div_eq_of_lt hin,
      Nat.add_zero]
  rw [load, readByte, hdiv, Nat.add_assoc (p * _),
    hfollow.geometry.fileAddress_eq hp hin, hfollow.clusterOffset_eq hp,
    hfollow.looked.device, Nat.add_assoc]

/-- What is copied from there. -/
theorem Following.store_eq (hfollow : Following bpb clusters vol head chain p reached)
    (hp : chain[p]? = some current) {r m : ℕ} (hm : r + m ≤ bpb.clusterSizeBytes)
    (buffer : ℕ → UInt8) (start : ℕ) :
    store buffer start (load reached.device (reached.mount.clusterOffset current + r)) m =
      store buffer start (fun t => readByte bpb vol chain (p * bpb.clusterSizeBytes + r + t))
        m := by
  apply store_congr
  intro t ht
  exact hfollow.load_eq hp (by omega)

/-- The walk to the cluster of the offset. -/
theorem readWalk_follows {rounds : ℕ}
    (hfollow : Following bpb clusters vol head chain p reached)
    (hp : chain[p]? = some current) :
    (p + rounds < chain.length ∧ ∃ target, chain[p + rounds]? = some target ∧
      (readWalk rounds reached current).2 = some target ∧
      Following bpb clusters vol head chain (p + rounds)
        (readWalk rounds reached current).1) ∨
    (chain.length ≤ p + rounds ∧ (readWalk rounds reached current).2 = none) := by
  induction rounds generalizing reached p current with
  | zero => exact .inl ⟨(List.getElem?_eq_some_iff.mp hp).1, current, hp, rfl, hfollow⟩
  | succ rounds ih =>
      obtain ⟨hnext, ⟨hlt, hp'⟩ | ⟨hend, hlast⟩⟩ := hfollow.next hp
      · rw [readWalk, if_neg (Nat.not_le.mpr hlt),
          show p + (rounds + 1) = p + 1 + rounds by omega]
        exact ih hnext hp'
      · rw [readWalk, if_pos hend]
        exact .inr ⟨by omega, rfl⟩

/-- The number after one round is that of the rounds that are left: where the chain
ends with this round, the loop does not end early. -/
theorem earlyNumber_succ {more remaining size i bound count : ℕ}
    (hlast : more = 0 → remaining ≤ size ∧ bound ≤ i) :
    (if (more - 1) * size < remaining - min remaining size ∧ i + 1 + more ≤ bound
      then (i + 1 + more) * size else count) =
    if (more + 1 - 1) * size < remaining ∧ i + (more + 1) ≤ bound
      then (i + (more + 1)) * size else count := by
  cases more with
  | zero =>
      obtain ⟨hshort, hlate⟩ := hlast rfl
      rw [if_neg (by omega), if_neg (by omega)]
  | succ more =>
      have hsame : (more + 1 - 1) * size < remaining - min remaining size ↔
          (more + 1 + 1 - 1) * size < remaining := by
        rw [Nat.add_sub_cancel, Nat.add_sub_cancel, Nat.succ_mul]
        omega
      have hrounds : i + 1 + (more + 1) = i + (more + 1 + 1) := by omega
      simp only [hsame, hrounds]

/-- The bytes of a round are the first of those that are left. -/
theorem Following.store_round {remaining : ℕ}
    (hfollow : Following bpb clusters vol head chain p reached)
    (hp : chain[p]? = some current) (buffer : ℕ → UInt8) (start : ℕ) :
    store buffer start (load reached.device (reached.mount.clusterOffset current))
        (min remaining bpb.clusterSizeBytes) =
      store buffer start (fun t => readByte bpb vol chain (p * bpb.clusterSizeBytes + t))
        (min remaining bpb.clusterSizeBytes) := by
  have hcs := hfollow.geometry.clusterSize_ge
  exact hfollow.store_eq hp (r := 0) (by omega) buffer start

/-- A round at the last cluster that does not end the loop copies all that is left. -/
theorem Following.round_ends {remaining i bound : ℕ}
    (hfollow : Following bpb clusters vol head chain p reached)
    (hp : chain[p]? = some current)
    (hcounted : (chain.length - p) * bpb.clusterSizeBytes < remaining →
      i + (chain.length - p) ≤ bound)
    (hgoes : ¬(fat32EocMin ≤ (fat32GetNextCluster reached current).2 ∧ i < bound))
    (heoc : fat32EocMin ≤ (fat32GetNextCluster reached current).2) :
    remaining ≤ bpb.clusterSizeBytes ∧ bound ≤ i := by
  have hlate : bound ≤ i := not_lt.mp fun hless => hgoes ⟨heoc, hless⟩
  have hlast : chain.length - p = 1 := by
    obtain ⟨-, ⟨hless, -⟩ | ⟨-, hlast⟩⟩ := hfollow.next hp
    · omega
    · omega
  rw [hlast, Nat.one_mul] at hcounted
  refine ⟨?_, hlate⟩
  by_contra hlong
  have hearly := hcounted (Nat.not_le.mp hlong)
  omega

/-- With bytes left after such a round, the loop is at the next cluster. -/
theorem Following.round_next {remaining i bound : ℕ}
    (hfollow : Following bpb clusters vol head chain p reached)
    (hp : chain[p]? = some current)
    (hcounted : (chain.length - p) * bpb.clusterSizeBytes < remaining →
      i + (chain.length - p) ≤ bound)
    (hgoes : ¬(fat32EocMin ≤ (fat32GetNextCluster reached current).2 ∧ i < bound))
    (hleft : remaining - min remaining bpb.clusterSizeBytes ≠ 0) :
    chain[p + 1]? = some (fat32GetNextCluster reached current).2 := by
  obtain ⟨-, ⟨-, hp'⟩ | ⟨heoc, -⟩⟩ := hfollow.next hp
  · exact hp'
  · have hshort := hfollow.round_ends hp hcounted hgoes heoc
    omega

/-- The loop copies the rest of the bytes, or the rest of the chain.  It stops
early in the round of the last cluster, unless this is the last round it counts. -/
theorem readClusters_bytes {clustersToRead count start rounds remaining i : ℕ}
    {buffer : ℕ → UInt8} {out : ReadOutcome}
    (hfollow : Following bpb clusters vol head chain p reached)
    (hp : remaining ≠ 0 → chain[p]? = some current) (hplace : p ≤ chain.length)
    (hi : i ≤ p) (hrounds : remaining ≤ rounds)
    (hcounted : (chain.length - p) * bpb.clusterSizeBytes < remaining →
      i + (chain.length - p) ≤ (clustersToRead + 2 ^ 32 - 1) % 2 ^ 32)
    (hout : readClusters clustersToRead count start rounds reached buffer current remaining
      i = out) :
    out.buffer = store buffer (start + i * bpb.clusterSizeBytes)
        (fun t => readByte bpb vol chain (p * bpb.clusterSizeBytes + t))
        (min remaining ((chain.length - p) * bpb.clusterSizeBytes)) ∧
      out.returned = some (toInt
        (if (chain.length - p - 1) * bpb.clusterSizeBytes < remaining ∧
            i + (chain.length - p) ≤ (clustersToRead + 2 ^ 32 - 1) % 2 ^ 32
          then (i + (chain.length - p)) * bpb.clusterSizeBytes else count)) := by
  have hgeo := hfollow.geometry
  have hcs := hgeo.clusterSize_ge
  generalize hbound : (clustersToRead + 2 ^ 32 - 1) % 2 ^ 32 = bound at *
  induction rounds generalizing reached buffer p current remaining i with
  | zero =>
      obtain rfl : remaining = 0 := by omega
      rw [readClusters_done] at hout
      rw [← hout, Nat.zero_min, store_zero, if_neg (by omega)]
      exact ⟨rfl, rfl⟩
  | succ rounds ih =>
      by_cases hremaining : remaining = 0
      · subst hremaining
        rw [readClusters_done] at hout
        rw [← hout, Nat.zero_min, store_zero, if_neg (by omega)]
        exact ⟨rfl, rfl⟩
      · have hcurrent := hp hremaining
        have hlt := (List.getElem?_eq_some_iff.mp hcurrent).1
        have hsize := hfollow.clusterSizeBytes_eq
        have hindex : i * bpb.clusterSizeBytes % 2 ^ 32 = i * bpb.clusterSizeBytes := by
          have hplaceLt := hgeo.place_lt hfollow.isChain hcurrent
          have hle : i * bpb.clusterSizeBytes ≤ p * bpb.clusterSizeBytes :=
            Nat.mul_le_mul_right _ hi
          exact Nat.mod_eq_of_lt (by omega)
        obtain ⟨hnext, hwhere⟩ := hfollow.next hcurrent
        by_cases hend : fat32EocMin ≤ (fat32GetNextCluster reached current).2 ∧ i < bound
        · have hlast : p + 1 = chain.length := by
            obtain ⟨hless, -⟩ | ⟨-, hlast⟩ := hwhere
            · omega
            · exact hlast
          rw [readClusters_last hremaining hsize (hbound ▸ hend)] at hout
          rw [← hout, show chain.length - p = 1 by omega, Nat.one_mul, Nat.sub_self,
            Nat.zero_mul, if_pos ⟨by omega, hend.2⟩, hindex,
            hfollow.store_round hcurrent]
          exact ⟨rfl, rfl⟩
        · have hround := hfollow.round_ends hcurrent hcounted hend
          have hp' := hfollow.round_next hcurrent hcounted hend
          rw [readClusters_next hremaining hsize (hbound ▸ hend), hindex,
            hfollow.store_round hcurrent] at hout
          obtain ⟨more, hmore⟩ : ∃ more, chain.length - p = more + 1 :=
            ⟨chain.length - p - 1, by omega⟩
          have hmore' : chain.length - (p + 1) = more := by omega
          rw [hmore, Nat.succ_mul] at hcounted
          have hrest := ih (i := i + 1) hnext hp' (by omega) (by omega) (by omega) hout
            (by rw [hmore']; omega)
          rw [hmore'] at hrest
          obtain ⟨hbuffer, hreturned⟩ := hrest
          rw [hbuffer, hreturned, hmore]
          constructor
          · have hlater : (fun t => readByte bpb vol chain ((p + 1) * bpb.clusterSizeBytes + t)) =
                load (fun t => readByte bpb vol chain (p * bpb.clusterSizeBytes + t))
                  bpb.clusterSizeBytes := by
              funext t
              rw [load, Nat.succ_mul, Nat.add_assoc]
            rw [hlater, Nat.succ_mul i, ← Nat.add_assoc start, store_round]
          · rw [earlyNumber_succ]
            rintro rfl
            have heoc : fat32EocMin ≤ (fat32GetNextCluster reached current).2 := by
              obtain ⟨-, hp'⟩ | ⟨heoc, -⟩ := hwhere
              · have := (List.getElem?_eq_some_iff.mp hp').1
                omega
              · exact heoc
            exact hround heoc

/-! ## The whole read -/

/-- The rounds of the loop that may end early, in 32 bits. -/
theorem Geometry.rounds_iff (hgeo : Geometry bpb clusters) {count m : ℕ}
    (hcount : 1 ≤ count) (hword : count < 2 ^ 64) (hm : m * bpb.clusterSizeBytes ≤ 2 ^ 32)
    (hquotient : (count + bpb.clusterSizeBytes - 1) % 2 ^ 64 / bpb.clusterSizeBytes <
      2 ^ 32) :
    m ≤ ((count + bpb.clusterSizeBytes - 1) % 2 ^ 64 / bpb.clusterSizeBytes + 2 ^ 32 - 1) %
        2 ^ 32 ↔ m * bpb.clusterSizeBytes < count := by
  have hcs := hgeo.clusterSize_ge
  have hmul : m * 512 ≤ m * bpb.clusterSizeBytes := Nat.mul_le_mul_left _ hcs
  obtain hsmall | hwraps := Nat.lt_or_ge (count + bpb.clusterSizeBytes - 1) (2 ^ 64)
  · rw [Nat.mod_eq_of_lt hsmall] at hquotient ⊢
    have hpos : 1 ≤ (count + bpb.clusterSizeBytes - 1) / bpb.clusterSizeBytes :=
      (Nat.one_le_div_iff (by omega)).mpr (by omega)
    have hround : m + 1 ≤ (count + bpb.clusterSizeBytes - 1) / bpb.clusterSizeBytes ↔
        m * bpb.clusterSizeBytes < count := by
      rw [Nat.le_div_iff_mul_le (by omega), Nat.succ_mul]
      omega
    rw [← hround]
    omega
  · cases m with
    | zero => exact iff_of_true (Nat.zero_le _) (by omega)
    | succ m =>
        have hsize : bpb.clusterSizeBytes ≤ (m + 1) * bpb.clusterSizeBytes :=
          Nat.le_mul_of_pos_left _ (Nat.succ_pos m)
        have hzero : (count + bpb.clusterSizeBytes - 1) % 2 ^ 64 / bpb.clusterSizeBytes =
            0 := Nat.div_eq_of_lt (by omega)
        rw [hzero]
        exact iff_of_true (by omega) (by omega)

/-- The number that `fat32_read` returns, before it becomes an `int`: behind an
unaligned offset the loop counts neither the first bytes nor the cluster it ends
in. -/
def readNumber (bpb : Bpb) (length offset count : ℕ) : ℕ :=
  let size := bpb.clusterSizeBytes
  let start := offset / size
  if offset % size ≠ 0 ∧ start + 1 < length ∧ (length - 1) * size < offset + count ∧
      (length - (start + 1)) * size < count then
    (length - (start + 1)) * size
  else min count (length * size - offset)

/-- The loop behind the bytes of the first cluster, or from an aligned offset
on. -/
theorem readClusters_number {count start toRead remaining : ℕ} {buffer : ℕ → UInt8}
    {out : ReadOutcome} (hfollow : Following bpb clusters vol head chain p reached)
    (hp : chain[p]? = some current) (hword : count < 2 ^ 64)
    (hless : remaining ≤ count) (hcount : 1 ≤ count)
    (hquotient : (count + bpb.clusterSizeBytes - 1) % 2 ^ 64 / bpb.clusterSizeBytes <
      2 ^ 32)
    (htoRead : (count + bpb.clusterSizeBytes - 1) % 2 ^ 64 / bpb.clusterSizeBytes = toRead)
    (hout : readClusters toRead count start remaining reached buffer current remaining 0 =
      out) :
    out.buffer = store buffer start
        (fun t => readByte bpb vol chain (p * bpb.clusterSizeBytes + t))
        (min remaining ((chain.length - p) * bpb.clusterSizeBytes)) ∧
      out.returned = some (toInt
        (if (chain.length - p - 1) * bpb.clusterSizeBytes < remaining ∧
            (chain.length - p) * bpb.clusterSizeBytes < count
          then (chain.length - p) * bpb.clusterSizeBytes else count)) := by
  have hgeo := hfollow.geometry
  have hlt := (List.getElem?_eq_some_iff.mp hp).1
  have hbound := hgeo.chain_le hfollow.isChain
  have hrest : (chain.length - p) * bpb.clusterSizeBytes ≤
      chain.length * bpb.clusterSizeBytes := Nat.mul_le_mul_right _ (Nat.sub_le _ _)
  have hrounds := hgeo.rounds_iff hcount hword (m := chain.length - p) (by omega) hquotient
  rw [htoRead] at hrounds
  have hloop := readClusters_bytes hfollow (fun _ => hp) hlt.le (Nat.zero_le p) le_rfl
    (fun hlong => by rw [Nat.zero_add, hrounds]; omega) hout
  rw [Nat.zero_mul, Nat.add_zero] at hloop
  simp only [Nat.zero_add, hrounds] at hloop
  exact hloop

section Numbers

variable {place o more count : ℕ}

/-- The number where the chain goes on or the offset is aligned. -/
theorem readNumber_eq_min {length offset : ℕ}
    (hplain : offset % bpb.clusterSizeBytes = 0 ∨
      length ≤ offset / bpb.clusterSizeBytes + 1 ∨
      offset + count ≤ (length - 1) * bpb.clusterSizeBytes ∨
      count ≤ (length - (offset / bpb.clusterSizeBytes + 1)) * bpb.clusterSizeBytes) :
    readNumber bpb length offset count = min count (length * bpb.clusterSizeBytes - offset) := by
  rw [readNumber, if_neg]
  rintro ⟨haligned, hmore, hlong, hcount⟩
  omega

theorem readNumber_eq_clusters {length offset : ℕ}
    (ho : offset % bpb.clusterSizeBytes ≠ 0)
    (hmore : offset / bpb.clusterSizeBytes + 1 < length)
    (hlong : (length - 1) * bpb.clusterSizeBytes < offset + count)
    (hcount : (length - (offset / bpb.clusterSizeBytes + 1)) * bpb.clusterSizeBytes <
      count) :
    readNumber bpb length offset count =
      (length - (offset / bpb.clusterSizeBytes + 1)) * bpb.clusterSizeBytes := by
  rw [readNumber, if_pos ⟨ho, hmore, hlong, hcount⟩]

end Numbers

section From

variable {offset count toRead : ℕ} {buffer : ℕ → UInt8}

/-- The bytes that a read copies and the number it returns. -/
structure ReadsBytes (bpb : Bpb) (vol : Volume) (chain : List ℕ) (buffer : ℕ → UInt8)
    (offset count : ℕ) (out : ReadOutcome) : Prop where
  bytes : out.buffer = store buffer 0 (fun t => readByte bpb vol chain (offset + t))
    (min count (chain.length * bpb.clusterSizeBytes - offset))
  number : out.returned = some (toInt (readNumber bpb chain.length offset count))

/-- The bytes in the cluster of the offset. -/
theorem Following.store_head
    (hfollow : Following bpb clusters vol head chain (offset / bpb.clusterSizeBytes) reached)
    (hp : chain[offset / bpb.clusterSizeBytes]? = some current) {m : ℕ}
    (hm : m ≤ bpb.clusterSizeBytes - offset % bpb.clusterSizeBytes) :
    store buffer 0 (load reached.device (reached.mount.clusterOffset current +
        offset % bpb.clusterSizeBytes)) m =
      store buffer 0 (fun t => readByte bpb vol chain (offset + t)) m := by
  have hcs := hfollow.geometry.clusterSize_ge
  have hmod := Nat.mod_lt offset (show 0 < bpb.clusterSizeBytes by omega)
  rw [hfollow.store_eq hp (by omega), Nat.div_add_mod']

/-- From an aligned offset on, the loop reads everything. -/
theorem Following.reads_aligned
    (hfollow : Following bpb clusters vol head chain (offset / bpb.clusterSizeBytes) reached)
    (hp : chain[offset / bpb.clusterSizeBytes]? = some current) (hword : count < 2 ^ 64)
    (hquotient : (count + bpb.clusterSizeBytes - 1) % 2 ^ 64 / bpb.clusterSizeBytes <
      2 ^ 32)
    (htoRead : (count + bpb.clusterSizeBytes - 1) % 2 ^ 64 / bpb.clusterSizeBytes =
      toRead) (ho : offset % bpb.clusterSizeBytes = 0) :
    ReadsBytes bpb vol chain buffer offset count
      (readFrom reached buffer toRead offset count current) := by
  have hand := hfollow.geometry.and_eq_mod offset
  have hsplit : offset / bpb.clusterSizeBytes * bpb.clusterSizeBytes +
      offset % bpb.clusterSizeBytes = offset := Nat.div_add_mod' offset _
  rw [readFrom_aligned hfollow.clusterSizeBytes_eq (hand.trans ho)]
  by_cases hzero : count = 0
  · subst hzero
    rw [readClusters_done]
    refine ⟨?_, ?_⟩
    · rw [Nat.zero_min, store_zero]
    · rw [readNumber_eq_min (.inl ho), Nat.zero_min]
  · obtain ⟨out, hout⟩ : ∃ out, readClusters toRead count 0 count reached buffer current
        count 0 = out := ⟨_, rfl⟩
    obtain ⟨hbuffer, hreturned⟩ := readClusters_number hfollow hp hword le_rfl
      (Nat.one_le_iff_ne_zero.mpr hzero) hquotient htoRead hout
    have hstart : offset / bpb.clusterSizeBytes * bpb.clusterSizeBytes = offset := by omega
    have hrest : (chain.length - offset / bpb.clusterSizeBytes) * bpb.clusterSizeBytes =
        chain.length * bpb.clusterSizeBytes - offset := by
      rw [Nat.sub_mul, hstart]
    have hlast : (chain.length - offset / bpb.clusterSizeBytes - 1) *
        bpb.clusterSizeBytes ≤ chain.length * bpb.clusterSizeBytes - offset := by
      rw [← hrest]
      exact Nat.mul_le_mul_right _ (Nat.sub_le _ _)
    rw [hrest, hstart] at hbuffer
    rw [hrest] at hreturned
    rw [hout]
    refine ⟨hbuffer, ?_⟩
    rw [hreturned, readNumber_eq_min (.inl ho)]
    split
    case isTrue hless => rw [min_eq_right (by omega)]
    case isFalse hless => rw [min_eq_left (by omega)]

/-- A read that ends in the cluster of the offset. -/
theorem Following.reads_inside
    (hfollow : Following bpb clusters vol head chain (offset / bpb.clusterSizeBytes) reached)
    (hp : chain[offset / bpb.clusterSizeBytes]? = some current)
    (ho : offset % bpb.clusterSizeBytes ≠ 0)
    (hcount : bpb.clusterSizeBytes - offset % bpb.clusterSizeBytes > count) :
    ReadsBytes bpb vol chain buffer offset count
      (readFrom reached buffer toRead offset count current) := by
  have hand := hfollow.geometry.and_eq_mod offset
  have hsplit : offset / bpb.clusterSizeBytes * bpb.clusterSizeBytes +
      offset % bpb.clusterSizeBytes = offset := Nat.div_add_mod' offset _
  have hlt := (List.getElem?_eq_some_iff.mp hp).1
  have hrest : (offset / bpb.clusterSizeBytes + 1) * bpb.clusterSizeBytes ≤
      chain.length * bpb.clusterSizeBytes := Nat.mul_le_mul_right _ hlt
  have hplain : chain.length ≤ offset / bpb.clusterSizeBytes + 1 ∨
      offset + count ≤ (chain.length - 1) * bpb.clusterSizeBytes := by
    obtain hlast | hmore := le_or_gt chain.length (offset / bpb.clusterSizeBytes + 1)
    · exact .inl hlast
    · have hbefore : (offset / bpb.clusterSizeBytes + 1) * bpb.clusterSizeBytes ≤
          (chain.length - 1) * bpb.clusterSizeBytes := Nat.mul_le_mul_right _ (by omega)
      rw [Nat.succ_mul] at hbefore
      exact .inr (by omega)
  rw [Nat.succ_mul] at hrest
  have hwhole : min count (chain.length * bpb.clusterSizeBytes - offset) = count :=
    min_eq_left (by omega)
  rw [readFrom_inside hfollow.clusterSizeBytes_eq hand ho hcount]
  refine ⟨?_, ?_⟩
  · rw [hwhole, min_eq_left hcount.le]
    exact hfollow.store_head hp hcount.le
  · rw [readNumber_eq_min (.inr (hplain.imp id .inl)), hwhole]

/-- A read that begins in the last cluster of the chain and would go on behind it. -/
theorem Following.reads_atEnd
    (hfollow : Following bpb clusters vol head chain (offset / bpb.clusterSizeBytes) reached)
    (hp : chain[offset / bpb.clusterSizeBytes]? = some current)
    (ho : offset % bpb.clusterSizeBytes ≠ 0)
    (hcount : ¬ bpb.clusterSizeBytes - offset % bpb.clusterSizeBytes > count)
    (hend : fat32EocMin ≤ (fat32GetNextCluster reached current).2)
    (hlast : offset / bpb.clusterSizeBytes + 1 = chain.length) :
    ReadsBytes bpb vol chain buffer offset count
      (readFrom reached buffer toRead offset count current) := by
  have hand := hfollow.geometry.and_eq_mod offset
  have hsplit : offset / bpb.clusterSizeBytes * bpb.clusterSizeBytes +
      offset % bpb.clusterSizeBytes = offset := Nat.div_add_mod' offset _
  have hleft : min count (chain.length * bpb.clusterSizeBytes - offset) =
      bpb.clusterSizeBytes - offset % bpb.clusterSizeBytes := by
    rw [← hlast, Nat.succ_mul]
    omega
  rw [readFrom_atEnd hfollow.clusterSizeBytes_eq hand ho hcount hend]
  refine ⟨?_, ?_⟩
  · rw [hleft, min_eq_right (by omega), hfollow.store_head hp le_rfl]
  · rw [readNumber_eq_min (.inr (.inl hlast.symm.le)), hleft]
    dsimp only
    rw [Nat.sub_sub_self (by omega)]

/-- A read that goes on in the next cluster, by the loop. -/
theorem Following.reads_rest
    (hfollow : Following bpb clusters vol head chain (offset / bpb.clusterSizeBytes) reached)
    (hp : chain[offset / bpb.clusterSizeBytes]? = some current) (hword : count < 2 ^ 64)
    (hquotient : (count + bpb.clusterSizeBytes - 1) % 2 ^ 64 / bpb.clusterSizeBytes <
      2 ^ 32)
    (htoRead : (count + bpb.clusterSizeBytes - 1) % 2 ^ 64 / bpb.clusterSizeBytes =
      toRead) (ho : offset % bpb.clusterSizeBytes ≠ 0)
    (hcount : ¬ bpb.clusterSizeBytes - offset % bpb.clusterSizeBytes > count)
    (hend : ¬ fat32EocMin ≤ (fat32GetNextCluster reached current).2) :
    ReadsBytes bpb vol chain buffer offset count
      (readFrom reached buffer toRead offset count current) := by
  have hcs := hfollow.geometry.clusterSize_ge
  have hand := hfollow.geometry.and_eq_mod offset
  have hsplit : offset / bpb.clusterSizeBytes * bpb.clusterSizeBytes +
      offset % bpb.clusterSizeBytes = offset := Nat.div_add_mod' offset _
  have hmod := Nat.mod_lt offset (show 0 < bpb.clusterSizeBytes by omega)
  obtain ⟨hnext, hwhere⟩ := hfollow.next hp
  have hp' : chain[offset / bpb.clusterSizeBytes + 1]? =
      some (fat32GetNextCluster reached current).2 := by
    obtain ⟨-, hp'⟩ | ⟨heoc, -⟩ := hwhere
    · exact hp'
    · exact absurd heoc hend
  have hmore := (List.getElem?_eq_some_iff.mp hp').1
  obtain ⟨last, hlength⟩ : ∃ last,
      chain.length = offset / bpb.clusterSizeBytes + 1 + (last + 1) :=
    ⟨chain.length - (offset / bpb.clusterSizeBytes + 2), by omega⟩
  -- All clusters, and those before the last.
  have hall : chain.length * bpb.clusterSizeBytes =
      offset / bpb.clusterSizeBytes * bpb.clusterSizeBytes + bpb.clusterSizeBytes +
        (last + 1) * bpb.clusterSizeBytes := by
    rw [hlength, Nat.add_mul, Nat.succ_mul]
  have hbeforeLast : (chain.length - 1) * bpb.clusterSizeBytes =
      offset / bpb.clusterSizeBytes * bpb.clusterSizeBytes + bpb.clusterSizeBytes +
        last * bpb.clusterSizeBytes := by
    rw [hlength, ← Nat.add_assoc, Nat.add_sub_cancel, Nat.add_mul, Nat.succ_mul]
  have hleft : chain.length - (offset / bpb.clusterSizeBytes + 1) = last + 1 := by omega
  obtain ⟨out, hout⟩ : ∃ out, readClusters toRead count
      (bpb.clusterSizeBytes - offset % bpb.clusterSizeBytes)
      (count - (bpb.clusterSizeBytes - offset % bpb.clusterSizeBytes))
      (fat32GetNextCluster reached current).1
      (store buffer 0 (fun t => readByte bpb vol chain (offset + t))
        (bpb.clusterSizeBytes - offset % bpb.clusterSizeBytes))
      (fat32GetNextCluster reached current).2
      (count - (bpb.clusterSizeBytes - offset % bpb.clusterSizeBytes)) 0 = out :=
    ⟨_, rfl⟩
  obtain ⟨hbuffer, hreturned⟩ := readClusters_number hnext hp' hword (Nat.sub_le _ _)
    (by omega) hquotient htoRead hout
  rw [readFrom_rest hfollow.clusterSizeBytes_eq hand ho hcount hend,
    min_eq_right (by omega), hfollow.store_head hp le_rfl, hout]
  refine ⟨?_, ?_⟩
  · have hlater : (fun t => readByte bpb vol chain
        ((offset / bpb.clusterSizeBytes + 1) * bpb.clusterSizeBytes + t)) =
          load (fun t => readByte bpb vol chain (offset + t))
            (bpb.clusterSizeBytes - offset % bpb.clusterSizeBytes) := by
      funext t
      rw [load, Nat.succ_mul]
      congr 1
      omega
    have happend := @store_append buffer 0
      (bpb.clusterSizeBytes - offset % bpb.clusterSizeBytes)
      (fun t => readByte bpb vol chain (offset + t))
    rw [Nat.zero_add] at happend
    rw [hbuffer, hlater, happend, hleft, hall]
    congr 1
    omega
  · rw [hreturned, hleft, Nat.add_sub_cancel]
    rw [Nat.succ_mul] at hall
    split
    case isTrue hearly =>
      rw [readNumber_eq_clusters ho hmore (by omega) (hleft ▸ hearly.2), hleft]
    case isFalse hlate =>
      have hplain : offset + count ≤ (chain.length - 1) * bpb.clusterSizeBytes ∨
          count ≤ (last + 1) * bpb.clusterSizeBytes := by
        by_contra hboth
        obtain ⟨hlong, hless⟩ := not_or.mp hboth
        exact hlate ⟨by omega, by omega⟩
      have hinside : count ≤ chain.length * bpb.clusterSizeBytes - offset := by
        rw [Nat.succ_mul] at hplain
        omega
      rw [readNumber_eq_min (.inr (.inr (hleft ▸ hplain))), min_eq_left hinside]

/-- What is copied and returned from the cluster of the offset on. -/
theorem readFrom_bytes (buffer : ℕ → UInt8)
    (hfollow : Following bpb clusters vol head chain (offset / bpb.clusterSizeBytes) reached)
    (hp : chain[offset / bpb.clusterSizeBytes]? = some current) (hword : count < 2 ^ 64)
    (hquotient : (count + bpb.clusterSizeBytes - 1) % 2 ^ 64 / bpb.clusterSizeBytes <
      2 ^ 32)
    (htoRead : (count + bpb.clusterSizeBytes - 1) % 2 ^ 64 / bpb.clusterSizeBytes =
      toRead) :
    ReadsBytes bpb vol chain buffer offset count
      (readFrom reached buffer toRead offset count current) := by
  by_cases ho : offset % bpb.clusterSizeBytes = 0
  · exact hfollow.reads_aligned hp hword hquotient htoRead ho
  · by_cases hcount : bpb.clusterSizeBytes - offset % bpb.clusterSizeBytes > count
    · exact hfollow.reads_inside hp ho hcount
    · by_cases hend : fat32EocMin ≤ (fat32GetNextCluster reached current).2
      · obtain ⟨-, ⟨hless, -⟩ | ⟨-, hlast⟩⟩ := hfollow.next hp
        · exact absurd hend (Nat.not_le.mpr hless)
        · exact hfollow.reads_atEnd hp ho hcount hend hlast
      · exact hfollow.reads_rest hp hword hquotient htoRead ho hcount hend

end From

theorem fat32Read_behind {file : OpenFile} {buffer : ℕ → UInt8} {vol' : Volume}
    {offset count size start toRead : ℕ} (hsize : vol.mount.bpb.clusterSizeBytes = size)
    (hstart : udiv64 offset size = some start)
    (htoRead : udiv64 ((count + size - 1) % 2 ^ 64) size = some toRead)
    (hwalk : readWalk start vol file.firstCluster = (vol', none)) :
    fat32Read vol file buffer offset count = ⟨vol', buffer, some 0⟩ := by
  subst hsize
  rw [fat32Read]
  simp only [hstart, htoRead, hwalk]

/-- What `fat32_read` copies and what it returns. -/
theorem fat32Read_bytes {file : OpenFile} {offset count : ℕ} {buffer : ℕ → UInt8}
    (hfollow : Following bpb clusters vol head chain 0 vol)
    (hfirst : chain[0]? = some file.firstCluster) (hword : count < 2 ^ 64)
    (hstart : offset / bpb.clusterSizeBytes < 2 ^ 32)
    (hquotient : (count + bpb.clusterSizeBytes - 1) % 2 ^ 64 / bpb.clusterSizeBytes <
      2 ^ 32) :
    (fat32Read vol file buffer offset count).buffer =
        store buffer 0 (fun t => readByte bpb vol chain (offset + t))
          (min count (chain.length * bpb.clusterSizeBytes - offset)) ∧
      (fat32Read vol file buffer offset count).returned =
        some (toInt (readNumber bpb chain.length offset count)) := by
  have hsize := hfollow.clusterSizeBytes_eq
  obtain ⟨walked, result, hwalk⟩ : ∃ walked result,
      readWalk (offset / bpb.clusterSizeBytes) vol file.firstCluster = (walked, result) :=
    ⟨_, _, rfl⟩
  have hudiv : udiv64 offset bpb.clusterSizeBytes = some (offset / bpb.clusterSizeBytes) := by
    rw [udiv64, if_pos hstart]
  have hudiv' : udiv64 ((count + bpb.clusterSizeBytes - 1) % 2 ^ 64) bpb.clusterSizeBytes =
      some ((count + bpb.clusterSizeBytes - 1) % 2 ^ 64 / bpb.clusterSizeBytes) := by
    rw [udiv64, if_pos hquotient]
  have hplaces := @readWalk_follows bpb clusters vol vol head 0 file.firstCluster chain
    (offset / bpb.clusterSizeBytes) hfollow hfirst
  rw [hwalk, Nat.zero_add] at hplaces
  obtain ⟨-, target, htarget, rfl, hreached⟩ | ⟨hshort, rfl⟩ := hplaces
  · rw [fat32Read_from hsize hudiv hudiv' hwalk]
    have hreads := readFrom_bytes buffer hreached htarget hword hquotient rfl
    exact ⟨hreads.bytes, hreads.number⟩
  · have hnone : chain.length * bpb.clusterSizeBytes ≤ offset := by
      calc chain.length * bpb.clusterSizeBytes
          ≤ offset / bpb.clusterSizeBytes * bpb.clusterSizeBytes :=
            Nat.mul_le_mul_right _ hshort
        _ ≤ offset := Nat.div_mul_le_self _ _
    rw [readNumber_eq_min (.inr (.inl (by omega))), Nat.sub_eq_zero_of_le hnone,
      Nat.min_zero, store_zero, fat32Read_behind hsize hudiv hudiv' hwalk]
    exact ⟨rfl, rfl⟩

end Following

/-! ## The bytes of the file -/

/-- The bytes of the chain from the offset on are copied to the front of the
buffer, and no other byte of the buffer is written. -/
structure CopiesFile (bpb : Bpb) (chain : List ℕ) (vol : Volume) (buffer : ℕ → UInt8)
    (offset count : ℕ) (out : ReadOutcome) : Prop where
  inside : ∀ k < min count (chain.length * bpb.clusterSizeBytes - offset),
    out.buffer k = vol.device (bpb.fileAddress chain (offset + k))
  outside : ∀ k, min count (chain.length * bpb.clusterSizeBytes - offset) ≤ k →
    out.buffer k = buffer k

/-- The entries before the cluster of this byte are cached, or the byte is the
same after the write-back of the cached window. -/
def Unaffected (bpb : Bpb) (vol : Volume) (chain : List ℕ) (x : ℕ) : Prop :=
  (∀ cluster ∈ chain.take (x / bpb.clusterSizeBytes),
    fat32CheckBounds vol.mount cluster = true) ∨
  writtenBack vol (bpb.fileAddress chain x) = vol.device (bpb.fileAddress chain x)

theorem readByte_eq_iff {bpb : Bpb} {vol : Volume} {chain : List ℕ} {x : ℕ} :
    readByte bpb vol chain x = vol.device (bpb.fileAddress chain x) ↔
      Unaffected bpb vol chain x := by
  rw [readByte, deviceAfter, Unaffected]
  split
  case isTrue hcached => exact iff_of_true rfl (.inl hcached)
  case isFalse hloads => exact (or_iff_right hloads).symm

/-- A read copies the right bytes exactly if none of them is changed by the
write-back that the read causes before it comes to the byte. -/
theorem fat32Read_copies_iff (bpb : Bpb) (clusters : ℕ) (vol : Volume) (head : ℕ)
    (chain : List ℕ) (file : OpenFile) (buffer : ℕ → UInt8) (offset count : ℕ)
    (hconsistent : Consistent bpb clusters vol)
    (hchain : IsChain (fatEntry vol) (clusters + 2) head chain)
    (hfirst : chain[0]? = some file.firstCluster) (hoffset : offset < 2 ^ 31)
    (hcount : count < 2 ^ 31) :
    CopiesFile bpb chain vol buffer offset count (fat32Read vol file buffer offset count) ↔
      ∀ k < count, offset + k < chain.length * bpb.clusterSizeBytes →
        Unaffected bpb vol chain (offset + k) := by
  have hgeo := hconsistent.geometry
  have hcs := hgeo.clusterSize_ge
  have hbound := hgeo.chain_le hchain
  have hsize : bpb.clusterSizeBytes ≤ chain.length * bpb.clusterSizeBytes :=
    Nat.le_mul_of_pos_left _ (List.getElem?_eq_some_iff.mp hfirst).1
  have hstart : offset / bpb.clusterSizeBytes < 2 ^ 32 :=
    lt_of_le_of_lt (Nat.div_le_self _ _) (by omega)
  have hquotient : (count + bpb.clusterSizeBytes - 1) % 2 ^ 64 / bpb.clusterSizeBytes <
      2 ^ 32 := by
    rw [Nat.mod_eq_of_lt (by omega)]
    exact Nat.div_lt_of_lt_mul (lt_of_lt_of_le (show _ < 512 * 2 ^ 32 by omega)
      (Nat.mul_le_mul_right _ hcs))
  obtain ⟨hbuffer, -⟩ := @fat32Read_bytes bpb clusters vol head chain file offset count
    buffer ⟨hgeo, hconsistent.mounted, hchain, .refl hconsistent.cache⟩ hfirst (by omega)
    hstart hquotient
  have hbyte : ∀ k < min count (chain.length * bpb.clusterSizeBytes - offset),
      (fat32Read vol file buffer offset count).buffer k =
        readByte bpb vol chain (offset + k) := by
    intro k hk
    rw [hbuffer]
    have hstored := @store_inside buffer 0
      (min count (chain.length * bpb.clusterSizeBytes - offset))
      (fun t => readByte bpb vol chain (offset + t)) k hk
    rw [Nat.zero_add] at hstored
    exact hstored
  constructor
  · intro hcopies k hk hinside
    have hin : k < min count (chain.length * bpb.clusterSizeBytes - offset) := by omega
    rw [← readByte_eq_iff, ← hbyte k hin]
    exact hcopies.inside k hin
  · intro hunaffected
    refine ⟨?_, ?_⟩
    · intro k hk
      rw [hbyte k hk, readByte_eq_iff]
      exact hunaffected k (by omega) (by omega)
    · intro k hk
      rw [hbuffer]
      exact store_outside (.inr (by omega))

/-! ## A window behind its table -/

/-- A volume of 16384 clusters, whose table goes on in a second window that also
covers the first clusters.  A file has the clusters 2 and 3. -/
def twoWindowVolume : Volume where
  mount :=
    { bpb := ⟨512, 1, 1, 1, 16514, 129⟩
      blockSizeBytes := 512
      cacheDirty := false
      fatSearchStart := 2
      fatStartSector := 1
      dataStartSector := 130
      fatCacheStart := 0
      fatCacheSize := 0
      fatCacheAllocated := false
      fatCache := fun _ => 0 }
  device := fun a =>
    if a = 520 then 3
    else if 512 ≤ a ∧ a < 528 ∧ (a < 520 ∨ 524 ≤ a) then if a % 4 = 3 then 0x0F else 0xFF
    else 0

theorem twoWindowVolume_consistent : Consistent twoWindowVolume.mount.bpb 16384
    twoWindowVolume := by
  refine ⟨?_, ⟨rfl, rfl, rfl, rfl⟩, FreshCache.inv ⟨rfl, rfl⟩ (by decide) rfl⟩
  exact ⟨by decide, by decide, by decide, by decide, by decide, by decide, by decide,
    by decide, 9, by decide⟩

theorem twoWindowVolume_chain :
    IsChain (fatEntry twoWindowVolume) (16384 + 2) 2 [2, 3] := by
  refine ⟨rfl, by decide, by decide, ?_, ?_⟩
  · intro p cluster next hcluster hnext
    match p with
    | 0 =>
        rw [← Option.some.inj hcluster, ← Option.some.inj hnext]
        decide +kernel
    | 1 => cases hnext
    | p + 2 => cases hcluster
  · intro last hlast
    rw [← Option.some.inj hlast]
    decide +kernel

def twoWindowFile : OpenFile where
  firstCluster := 2
  sizeBytes := 1024
  fileFlags := 0x20
  direntCluster := 100
  direntOffset := 0

/-- The file is read from a fresh mount. -/
theorem fat32Read_copies_fresh :
    CopiesFile twoWindowVolume.mount.bpb [2, 3] twoWindowVolume (fun _ => 7) 100 1000
      (fat32Read twoWindowVolume twoWindowFile (fun _ => 7) 100 1000) :=
  (fat32Read_copies_iff twoWindowVolume.mount.bpb 16384 twoWindowVolume 2 [2, 3]
    twoWindowFile (fun _ => 7) 100 1000 twoWindowVolume_consistent twoWindowVolume_chain
    rfl (by decide) (by decide)).mpr fun _ _ _ => .inr rfl

/-- An entry of the second window is set, and then the second cluster of the file
is written. -/
def staleVolume : Volume :=
  fwrite (fat32SetNextCluster twoWindowVolume 16384 fat32Eoc) (fun _ => 1) 67072 512

theorem staleVolume_consistent : Consistent twoWindowVolume.mount.bpb 16384 staleVolume := by
  have hset := twoWindowVolume_consistent.shows.set (show 16384 < 16384 + 2 by decide)
    (show fat32Eoc < 2 ^ 32 by decide)
  have hwritten := hset.fwrite (fun _ => 1) 512
    (show twoWindowVolume.mount.bpb.dataOffset ≤ 67072 by decide)
  exact ⟨hwritten.geometry, hwritten.mounted, hwritten.cache⟩

theorem staleVolume_chain : IsChain (fatEntry staleVolume) (16384 + 2) 2 [2, 3] := by
  apply twoWindowVolume_chain.congr
  intro cluster hcluster
  fin_cases hcluster <;> decide +kernel

/-- The walk to the second cluster writes the window back, and the read returns
the old byte. -/
theorem fat32Read_copies_stale :
    Consistent twoWindowVolume.mount.bpb 16384 staleVolume ∧
    IsChain (fatEntry staleVolume) (16384 + 2) 2 [2, 3] ∧
    ¬CopiesFile twoWindowVolume.mount.bpb [2, 3] staleVolume (fun _ => 7) 512 1
      (fat32Read staleVolume twoWindowFile (fun _ => 7) 512 1) := by
  refine ⟨staleVolume_consistent, staleVolume_chain, ?_⟩
  intro hcopies
  have hread : (fat32Read staleVolume twoWindowFile (fun _ => 7) 512 1).buffer 0 = 0 := by
    decide +kernel
  have hbyte : staleVolume.device
      (twoWindowVolume.mount.bpb.fileAddress [2, 3] (512 + 0)) = 1 := by decide +kernel
  have hsame := hcopies.inside 0 (by decide)
  rw [hread, hbyte] at hsame
  exact absurd hsame (by decide)

end KimisOS.Fat32
