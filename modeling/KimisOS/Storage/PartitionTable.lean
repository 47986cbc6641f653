import KimisOS.Storage.Partition

/-!
# Accepted partition tables

`detect_partitions` compares every two entries, empty ones included, and ends of
partitions wrap at `2 ^ 32` sectors.
-/

namespace KimisOS.Partition

/-- The sectors of a partition. -/
def Partent.sectors (partent : Partent) : Set ℕ :=
  Set.Ico partent.startLba.toNat (partent.startLba.toNat + partent.sectorCount.toNat)

/-- What is recorded of an entry. -/
def PartitionTableEntry.partent (entry : PartitionTableEntry) : Partent :=
  ⟨entry.lbaAddress, entry.sectorCount⟩

/-- The first sector behind an entry. -/
def PartitionTableEntry.sectorEnd (entry : PartitionTableEntry) : ℕ :=
  entry.lbaAddress.toNat + entry.sectorCount.toNat

/-- The entries that become partitions, in the order of the table. -/
def Mbr.nonEmpty (mbr : Mbr) : List PartitionTableEntry :=
  ((List.finRange 4).map mbr.partitionTable).filter fun entry => entry.sectorCount ≠ 0

/-- The tables that the comparisons of `detect_partitions` let pass. -/
structure Accepted (mbr : Mbr) : Prop where
  sig : mbr.sig = 0xaa55
  type : ∀ i, (mbr.partitionTable i).type ≠ 0xee
  flags : ∀ i, (mbr.partitionTable i).flags = 0 ∨ (mbr.partitionTable i).flags = mbrBootable
  apart : ∀ i j, i ≠ j → overlaps (mbr.partitionTable i) (mbr.partitionTable j) = false
  found : ∃ i, (mbr.partitionTable i).sectorCount ≠ 0 ∧ (mbr.partitionTable i).lbaAddress ≠ 0

/-- No partition ends behind sector `2 ^ 32`, and one that ends there is the last. -/
structure EndsFit (mbr : Mbr) : Prop where
  below : ∀ i, (mbr.partitionTable i).sectorCount ≠ 0 →
    (mbr.partitionTable i).sectorEnd ≤ 2 ^ 32
  last : ∀ i j, i ≠ j → (mbr.partitionTable i).sectorCount ≠ 0 →
    (mbr.partitionTable j).sectorCount ≠ 0 → (mbr.partitionTable i).sectorEnd = 2 ^ 32 →
      (mbr.partitionTable j).sectorEnd ≤ (mbr.partitionTable i).lbaAddress.toNat

/-- What a table with partition files should have. -/
structure Sound (mbr : Mbr) (partitions : List Partent) : Prop where
  sig : mbr.sig = 0xaa55
  type : ∀ i, (mbr.partitionTable i).type ≠ 0xee
  flags : ∀ i, (mbr.partitionTable i).flags = 0 ∨ (mbr.partitionTable i).flags = 0x80
  disjoint : partitions.Pairwise fun first second => Disjoint first.sectors second.sectors
  below : ∀ partent ∈ partitions,
    partent.startLba.toNat + partent.sectorCount.toNat ≤ 2 ^ 32
  recorded : ∀ k : ℕ, partitions[k]? = mbr.nonEmpty[k]?.map PartitionTableEntry.partent

section Detect

variable {mbr : Mbr} {found : Bool} {indices : List (Fin 4)} {i j : Fin 4}

/-- What the loop checks of an entry. -/
structure Checked (mbr : Mbr) (i : Fin 4) : Prop where
  type : (mbr.partitionTable i).type ≠ 0xee
  flags : (mbr.partitionTable i).flags = 0 ∨ (mbr.partitionTable i).flags = mbrBootable
  apart : ∀ j, i ≠ j → overlaps (mbr.partitionTable i) (mbr.partitionTable j) = false

theorem any_overlaps_iff : ((List.finRange 4).any fun j =>
      overlaps (mbr.partitionTable i) (mbr.partitionTable j) && i != j) = false ↔
    ∀ j, i ≠ j → overlaps (mbr.partitionTable i) (mbr.partitionTable j) = false := by
  rw [List.any_eq_false]
  constructor
  · intro hnone j hne
    have hpair := hnone j (List.mem_finRange j)
    simpa [hne] using hpair
  · intro hapart j _
    by_cases hne : i = j
    · simp [hne]
    · simp [hapart j hne]

/-- The loop comes to its end exactly when every entry passes. -/
theorem scanMbr_iff : ((scanMbr mbr found indices).useGpt = false ∧
      (scanMbr mbr found indices).mbrIsValid = true ∧
      (scanMbr mbr found indices).foundValidPartition = true) ↔
    (∀ i ∈ indices, Checked mbr i) ∧
      (found = true ∨ ∃ i ∈ indices, (mbr.partitionTable i).sectorCount ≠ 0 ∧
        (mbr.partitionTable i).lbaAddress ≠ 0) := by
  induction indices generalizing found with
  | nil => simp [scanMbr]
  | cons i indices ih =>
      rw [scanMbr]
      by_cases htype : (mbr.partitionTable i).type = 0xee
      · rw [if_pos htype]
        simp only [Bool.true_eq_false, false_and, false_iff]
        exact fun hchecked => (hchecked.1 i List.mem_cons_self).type htype
      · rw [if_neg htype]
        by_cases hflags : (mbr.partitionTable i).flags ≠ 0 ∧
            (mbr.partitionTable i).flags ≠ mbrBootable
        · rw [if_pos hflags]
          simp only [Bool.false_eq_true, false_and, and_false, false_iff]
          intro hchecked
          obtain hzero | hboot := (hchecked.1 i List.mem_cons_self).flags
          · exact hflags.1 hzero
          · exact hflags.2 hboot
        · rw [if_neg hflags]
          dsimp only
          cases hany : (List.finRange 4).any fun j =>
              overlaps (mbr.partitionTable i) (mbr.partitionTable j) && i != j with
          | true =>
              rw [if_pos rfl]
              simp only [Bool.false_eq_true, false_and, and_false, false_iff]
              intro hchecked
              rw [any_overlaps_iff.mpr (hchecked.1 i List.mem_cons_self).apart] at hany
              cases hany
          | false =>
              have hchecked : Checked mbr i := by
                refine ⟨htype, ?_, any_overlaps_iff.mp hany⟩
                by_contra hnone
                exact hflags (not_or.mp hnone)
              rw [if_neg Bool.false_ne_true, ih, List.forall_mem_cons]
              refine and_congr ⟨fun hrest => ⟨hchecked, hrest⟩, fun hall => hall.2⟩ ?_
              simp only [Bool.or_eq_true, Bool.and_eq_true, bne_iff_ne, List.exists_mem_cons_iff,
                or_assoc]

theorem accepted_iff : Accepted mbr ↔ (detectPartitions mbr).status = 0 := by
  have hscan := @scanMbr_iff mbr false (List.finRange 4)
  rw [detectPartitions]
  by_cases hsig : mbr.sig = 0xaa55
  · rw [if_neg (not_not.mpr hsig)]
    dsimp only
    constructor
    · intro haccepted
      obtain ⟨hgpt, hvalid, hfound⟩ := hscan.mpr
        ⟨fun i _ => ⟨haccepted.type i, haccepted.flags i, haccepted.apart i⟩,
          .inr (haccepted.found.imp fun i hi => ⟨List.mem_finRange i, hi⟩)⟩
      rw [hgpt, hvalid, hfound]
      rfl
    · intro hstatus
      have hflags : (scanMbr mbr false (List.finRange 4)).useGpt = false ∧
          (scanMbr mbr false (List.finRange 4)).mbrIsValid = true ∧
          (scanMbr mbr false (List.finRange 4)).foundValidPartition = true := by
        revert hstatus
        cases (scanMbr mbr false (List.finRange 4)).useGpt <;>
          cases (scanMbr mbr false (List.finRange 4)).mbrIsValid <;>
            cases (scanMbr mbr false (List.finRange 4)).foundValidPartition <;> simp
      obtain ⟨hchecked, hfound⟩ := hscan.mp hflags
      have hentry : ∀ i, Checked mbr i := fun i => hchecked i (List.mem_finRange i)
      refine ⟨hsig, fun i => (hentry i).type, fun i => (hentry i).flags,
        fun i => (hentry i).apart, ?_⟩
      obtain hfalse | ⟨i, -, hi⟩ := hfound
      · cases hfalse
      · exact ⟨i, hi⟩
  · rw [if_pos hsig]
    exact iff_of_false (fun haccepted => hsig haccepted.sig) (by simp)

/-- The second loop keeps the entries that are not empty. -/
theorem filterMap_partent : (indices.filterMap fun i =>
      if (mbr.partitionTable i).sectorCount ≠ 0 then
        some ((mbr.partitionTable i).partent)
      else none) =
    ((indices.map mbr.partitionTable).filter fun entry => entry.sectorCount ≠ 0).map
      PartitionTableEntry.partent := by
  induction indices with
  | nil => rfl
  | cons i indices ih =>
      rw [List.filterMap_cons, List.map_cons, List.filter_cons, ih]
      by_cases hempty : (mbr.partitionTable i).sectorCount = 0
      · simp [hempty]
      · simp [hempty]

theorem partitions_eq (haccepted : Accepted mbr) : (detectPartitions mbr).partitions =
    mbr.nonEmpty.map PartitionTableEntry.partent := by
  have hstatus := accepted_iff.mp haccepted
  rw [detectPartitions] at hstatus ⊢
  rw [if_neg (not_not.mpr haccepted.sig)] at hstatus ⊢
  dsimp only at hstatus ⊢
  split at hstatus
  · simp at hstatus
  · rename_i hvalid
    rw [if_neg hvalid]
    split at hstatus
    · simp at hstatus
    · rename_i hgpt
      rw [if_neg hgpt]
      exact filterMap_partent

theorem mem_nonEmpty {entry : PartitionTableEntry} : entry ∈ mbr.nonEmpty ↔
    ∃ i, entry = mbr.partitionTable i ∧ entry.sectorCount ≠ 0 := by
  rw [Mbr.nonEmpty, List.mem_filter, List.mem_map, decide_eq_true_iff]
  constructor
  · rintro ⟨⟨i, -, hi⟩, hcount⟩
    exact ⟨i, hi.symm, hcount⟩
  · rintro ⟨i, hi, hcount⟩
    exact ⟨⟨i, List.mem_finRange i, hi.symm⟩, hcount⟩

/-- The partitions are pairwise disjoint when those of different entries are. -/
theorem pairwise_disjoint_iff : ((mbr.nonEmpty.map PartitionTableEntry.partent).Pairwise
      fun first second => Disjoint first.sectors second.sectors) ↔
    ∀ i j, i ≠ j → (mbr.partitionTable i).sectorCount ≠ 0 →
      (mbr.partitionTable j).sectorCount ≠ 0 →
        Disjoint (mbr.partitionTable i).partent.sectors
          (mbr.partitionTable j).partent.sectors := by
  rw [List.pairwise_map, Mbr.nonEmpty, List.pairwise_filter, List.pairwise_map]
  simp only [decide_eq_true_iff]
  constructor
  · intro hpairwise i j hne hi hj
    have hsymm : Std.Symm fun i j : Fin 4 => (mbr.partitionTable i).sectorCount ≠ 0 →
        (mbr.partitionTable j).sectorCount ≠ 0 →
          Disjoint (mbr.partitionTable i).partent.sectors
            (mbr.partitionTable j).partent.sectors :=
      ⟨fun i j hdisjoint hj hi => (hdisjoint hi hj).symm⟩
    exact hpairwise.forall (List.mem_finRange i) (List.mem_finRange j) hne hi hj
  · intro hdisjoint
    exact (List.nodup_finRange 4).pairwise_of_forall_ne fun i _ j _ hne => hdisjoint i j hne

theorem disjoint_sectors_iff {first second : PartitionTableEntry} :
    Disjoint first.partent.sectors second.partent.sectors ↔
      min first.sectorEnd second.sectorEnd ≤
        max first.lbaAddress.toNat second.lbaAddress.toNat :=
  Set.Ico_disjoint_Ico

theorem overlaps_eq_false_iff {first second : PartitionTableEntry} :
    overlaps first second = false ↔
      ¬(first.lbaAddress.toNat < second.sectorEnd % 2 ^ 32 ∧
        second.lbaAddress.toNat < first.sectorEnd % 2 ^ 32) := by
  rw [overlaps, Bool.eq_false_iff, ne_eq, Bool.and_eq_true, decide_eq_true_iff,
    decide_eq_true_iff, UInt32.lt_iff_toNat_lt, UInt32.lt_iff_toNat_lt, UInt32.toNat_add,
    UInt32.toNat_add]
  rfl

theorem sectorCount_pos {entry : PartitionTableEntry} (hcount : entry.sectorCount ≠ 0) :
    entry.lbaAddress.toNat < entry.sectorEnd := by
  have hpositive : entry.sectorCount.toNat ≠ 0 := fun hzero =>
    hcount (UInt32.toNat_inj.mp hzero)
  rw [PartitionTableEntry.sectorEnd]
  omega

/-- Entries that the comparison lets pass are disjoint, unless an end wraps. -/
theorem Accepted.disjoint (haccepted : Accepted mbr) (hfit : EndsFit mbr) (hne : i ≠ j)
    (hi : (mbr.partitionTable i).sectorCount ≠ 0)
    (hj : (mbr.partitionTable j).sectorCount ≠ 0) :
    Disjoint (mbr.partitionTable i).partent.sectors
      (mbr.partitionTable j).partent.sectors := by
  have hapart := overlaps_eq_false_iff.mp (haccepted.apart i j hne)
  have hbelow := hfit.below i hi
  have hbelow' := hfit.below j hj
  rw [disjoint_sectors_iff]
  by_cases hlast : (mbr.partitionTable i).sectorEnd = 2 ^ 32
  · have hend := hfit.last i j hne hi hj hlast
    omega
  · by_cases hlast' : (mbr.partitionTable j).sectorEnd = 2 ^ 32
    · have hend := hfit.last j i hne.symm hj hi hlast'
      omega
    · rw [Nat.mod_eq_of_lt (by omega), Nat.mod_eq_of_lt (by omega)] at hapart
      omega

/-- A table that is accepted is sound exactly when the ends of its partitions fit. -/
theorem detectPartitions_sound_iff :
    ((detectPartitions mbr).status = 0 → Sound mbr (detectPartitions mbr).partitions) ↔
      (Accepted mbr → EndsFit mbr) := by
  rw [← accepted_iff]
  refine forall_congr' fun haccepted => ?_
  rw [partitions_eq haccepted]
  constructor
  · intro hsound
    have hbelow : ∀ i, (mbr.partitionTable i).sectorCount ≠ 0 →
        (mbr.partitionTable i).sectorEnd ≤ 2 ^ 32 := fun i hi =>
      hsound.below _ (List.mem_map_of_mem (mem_nonEmpty.mpr ⟨i, rfl, hi⟩))
    refine ⟨hbelow, ?_⟩
    intro i j hne hi hj hlast
    have hdisjoint := disjoint_sectors_iff.mp
      (pairwise_disjoint_iff.mp hsound.disjoint i j hne hi hj)
    have hend := hbelow j hj
    have hpositive := sectorCount_pos hj
    omega
  · intro hfit
    refine ⟨haccepted.sig, haccepted.type, haccepted.flags, ?_, ?_, ?_⟩
    · exact pairwise_disjoint_iff.mpr fun i j hne hi hj => haccepted.disjoint hfit hne hi hj
    · intro partent hmem
      obtain ⟨entry, hentry, rfl⟩ := List.mem_map.mp hmem
      obtain ⟨i, rfl, hi⟩ := mem_nonEmpty.mp hentry
      exact hfit.below i hi
    · intro k
      exact List.getElem?_map

end Detect

/-- Two partitions from sector `2 ^ 31` on: the first has `2 ^ 31` sectors, and the
end that is compared is 0. -/
def wrappingMbr : Mbr where
  partitionTable i :=
    if i.val = 0 then ⟨0x80, 0x0c, 0x80000000, 0x80000000⟩
    else if i.val = 1 then ⟨0, 0x0c, 0x80000000, 16⟩
    else ⟨0, 0, 0, 0⟩
  sig := 0xaa55

theorem wrappingMbr_accepted :
    detectPartitions wrappingMbr = ⟨0, [⟨0x80000000, 0x80000000⟩, ⟨0x80000000, 16⟩]⟩ := by
  decide

theorem wrappingMbr_unsound : ¬((detectPartitions wrappingMbr).status = 0 →
    Sound wrappingMbr (detectPartitions wrappingMbr).partitions) := by
  rw [wrappingMbr_accepted]
  intro hsound
  have hdisjoint := List.rel_of_pairwise_cons (hsound rfl).disjoint List.mem_cons_self
  have hfirst : 0x80000000 ∈ (⟨0x80000000, 0x80000000⟩ : Partent).sectors := by
    constructor
    · decide
    · decide
  have hsecond : 0x80000000 ∈ (⟨0x80000000, 16⟩ : Partent).sectors := by
    constructor
    · decide
    · decide
  exact Set.disjoint_left.mp hdisjoint hfirst hsecond

end KimisOS.Partition
