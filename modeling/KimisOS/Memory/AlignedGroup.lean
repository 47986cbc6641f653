import KimisOS.Memory.FirstFree

/-!
# Groups of sixteen frames

`pm_alloc_64kaligned` looks for two free bytes of the map, the first at an even
index.  Its counter says how many free bytes it has just passed; a used byte
sets it to -1, the increment behind it makes that 0, and with a counter of 0
odd bytes are skipped.  So the counter is 0 again at every even byte.
-/

namespace KimisOS.Frames

/-- The frames of a group, which starts at a multiple of 64 KiB, are free. -/
def GroupFree (map : FrameMap) (group : ℕ) : Prop :=
  ∀ k < 16, map.used (16 * group + k) = false

/-- Both bytes of a group are zero. -/
def PairClear (map : FrameMap) (group : ℕ) : Prop :=
  map.pmMap (2 * group) = 0 ∧ map.pmMap (2 * group + 1) = 0

instance (map : FrameMap) (group : ℕ) : Decidable (PairClear map group) :=
  inferInstanceAs (Decidable (_ ∧ _))

theorem byte_eq_zero_iff (map : FrameMap) (i : ℕ) :
    map.pmMap i = 0 ↔ ∀ j < 8, map.used (8 * i + j) = false := by
  have hbyte : ∀ j < 8, map.used (8 * i + j) = (map.pmMap i).getLsbD j := by
    intro j hj
    rw [FrameMap.used, show (8 * i + j) / 8 = i by omega,
      show (8 * i + j) % 8 = j by omega]
  constructor
  · intro hzero j hj
    rw [hbyte j hj, hzero]
    exact BitVec.getLsbD_zero
  · intro hall
    apply BitVec.eq_of_getLsbD_eq
    intro j hj
    rw [← hbyte j hj, hall j hj]
    exact BitVec.getLsbD_zero.symm

theorem groupFree_iff (map : FrameMap) (group : ℕ) :
    GroupFree map group ↔ PairClear map group := by
  rw [PairClear, byte_eq_zero_iff, byte_eq_zero_iff]
  constructor
  · intro hfree
    constructor
    · intro j hj
      have hframe := hfree j (by omega)
      rwa [show 16 * group + j = 8 * (2 * group) + j by omega] at hframe
    · intro j hj
      have hframe := hfree (8 + j) (by omega)
      rwa [show 16 * group + (8 + j) = 8 * (2 * group + 1) + j by omega] at hframe
  · rintro ⟨hlow, hhigh⟩ k hk
    by_cases hfirst : k < 8
    · have hframe := hlow k hfirst
      rwa [show 8 * (2 * group) + k = 16 * group + k by omega] at hframe
    · have hframe := hhigh (k - 8) (by omega)
      rwa [show 8 * (2 * group + 1) + (k - 8) = 16 * group + k by omega] at hframe

/-! ## The scan -/

/-- Two rounds of the scan: it ends with the group, or has a counter of 0 at the
next one. -/
theorem findGroup_pair (map : FrameMap) (rounds group current : ℕ) :
    (PairClear map group ∧
      findGroup map (rounds + 2) (2 * group) 0 current = some (2 * group)) ∨
    (¬ PairClear map group ∧ ∃ current',
      findGroup map (rounds + 2) (2 * group) 0 current =
        findGroup map rounds (2 * (group + 1)) 0 current') := by
  have heven : ¬ (2 * group &&& 1 ≠ 0 ∧ 0 < 1) := by
    rw [Nat.and_one_is_mod]
    omega
  have hodd : 2 * group + 1 &&& 1 ≠ 0 := by
    rw [Nat.and_one_is_mod]
    omega
  have hnext : 2 * group + 1 + 1 = 2 * (group + 1) := by omega
  rw [findGroup, if_neg heven]
  by_cases hlow : map.pmMap (2 * group) = 0
  · -- the counter is 1, so the odd byte is looked at
    simp only [if_pos hlow, show ¬ (0 : ℕ) = 1 by decide, if_false, Nat.zero_add,
      show 1 % 2 ^ 32 = 1 by decide]
    rw [findGroup, if_neg (fun h => absurd h.2 (by decide))]
    by_cases hhigh : map.pmMap (2 * group + 1) = 0
    · left
      refine ⟨⟨hlow, hhigh⟩, ?_⟩
      simp only [if_pos hhigh, if_true]
    · right
      refine ⟨fun hclear => hhigh hclear.2, 2 * group + 1, ?_⟩
      simp only [if_neg hhigh, show ¬ 2 ^ 32 - 1 = 1 by decide, if_false,
        show (2 ^ 32 - 1 + 1) % 2 ^ 32 = 0 by decide, hnext]
  · -- the counter is 0, so the odd byte is skipped
    right
    refine ⟨fun hclear => hlow hclear.1, 2 * group, ?_⟩
    simp only [if_neg hlow, show ¬ 2 ^ 32 - 1 = 1 by decide, if_false,
      show (2 ^ 32 - 1 + 1) % 2 ^ 32 = 0 by decide]
    rw [findGroup, if_pos ⟨hodd, by decide⟩, hnext]

/-- The scan finds the lowest of the next groups, if there is one. -/
theorem findGroup_spec (map : FrameMap) (count group current : ℕ) :
    (∃ found, group ≤ found ∧ found < group + count ∧ PairClear map found ∧
      (∀ lower, group ≤ lower → lower < found → ¬ PairClear map lower) ∧
      findGroup map (2 * count) (2 * group) 0 current = some (2 * found)) ∨
    ((∀ other, group ≤ other → other < group + count → ¬ PairClear map other) ∧
      findGroup map (2 * count) (2 * group) 0 current = none) := by
  induction count generalizing group current with
  | zero => exact .inr ⟨fun other hlow hhigh => by omega, rfl⟩
  | succ count ih =>
      rcases findGroup_pair map (2 * count) group current with
        ⟨hclear, hscan⟩ | ⟨hused, current', hscan⟩
      · left
        exact ⟨group, le_rfl, by omega, hclear, fun lower hlow hlt => by omega, hscan⟩
      · rcases ih (group + 1) current' with
          ⟨found, hlow, hhigh, hclear, hlowest, hrest⟩ | ⟨hnone, hrest⟩
        · left
          refine ⟨found, by omega, by omega, hclear, ?_, hscan.trans hrest⟩
          intro lower hge hlt
          by_cases hhere : lower = group
          · rw [hhere]
            exact hused
          · exact hlowest lower (by omega) hlt
        · right
          refine ⟨?_, hscan.trans hrest⟩
          intro other hge hlt
          by_cases hhere : other = group
          · rw [hhere]
            exact hused
          · exact hnone other (by omega) (by omega)

/-- The address of a group. -/
def groupAddress (group : ℕ) : ℕ := group * 0x10000

/-- The scan is exact.  With a used frame in the first group, the call takes the
lowest free group, and no other frame, or fails and changes nothing when there
is none. -/
theorem pmAlloc64kAligned_exact (map : FrameMap)
    (hfirst : ∃ frame < 16, map.used frame = true) :
    ((∃ group < 2 ^ 16, GroupFree map group) →
      ∃ group < 2 ^ 16, GroupFree map group ∧
        (∀ lower < group, ¬ GroupFree map lower) ∧
        (pmAlloc64kAligned map).2 = groupAddress group ∧ groupAddress group ≠ 0 ∧
        (pmAlloc64kAligned map).1.pmFirstFree = map.pmFirstFree ∧
        ∀ frame, (pmAlloc64kAligned map).1.used frame =
          (map.used frame || decide (16 * group ≤ frame ∧ frame < 16 * group + 16))) ∧
    ((∀ group < 2 ^ 16, ¬ GroupFree map group) → pmAlloc64kAligned map = (map, 0)) := by
  have hscan := findGroup_spec map (2 ^ 16) 0 0
  have hsearch : pmAlloc64kAlignedSearch map = findGroup map (2 * 2 ^ 16) (2 * 0) 0 0 :=
    rfl
  rw [← hsearch] at hscan
  rcases hscan with ⟨found, -, hhigh, hclear, hlowest, hresult⟩ | ⟨hnone, hresult⟩
  · have hfree := (groupFree_iff map found).mpr hclear
    have hbound : found < 2 ^ 16 := by omega
    have hpos : found ≠ 0 := by
      rintro rfl
      obtain ⟨frame, hframe, hused⟩ := hfirst
      have hclear' := hfree frame hframe
      rw [show 16 * 0 + frame = frame by omega, hused] at hclear'
      cases hclear'
    constructor
    · intro _
      refine ⟨found, hbound, hfree, ?_, ?_, ?_, ?_, ?_⟩
      · intro lower hlt hlower
        exact hlowest lower (Nat.zero_le _) hlt ((groupFree_iff map lower).mp hlower)
      · simp only [pmAlloc64kAligned, hresult, pmAllocIndex, groupAddress,
          Nat.shiftLeft_eq]
        omega
      · rw [groupAddress]
        omega
      · simp only [pmAlloc64kAligned, hresult, pmAllocIndex]
      · intro frame
        simp only [pmAlloc64kAligned, hresult]
        rw [used_pmAllocIndex, show 8 * (2 * found) = 16 * found by omega]
    · intro hall
      exact absurd hfree (hall found hbound)
  · constructor
    · rintro ⟨group, hgroup, hfree⟩
      exact absurd ((groupFree_iff map group).mp hfree)
        (hnone group (Nat.zero_le _) (by omega))
    · intro _
      simp only [pmAlloc64kAligned, hresult]

/-- The first group is used, the second one free. -/
theorem pmAlloc64kAligned_exact_second :
    (pmAlloc64kAligned ⟨fun i => if i < 2 then 0xff else 0, 0⟩).2 = 0x10000 := by
  have hexact := pmAlloc64kAligned_exact ⟨fun i => if i < 2 then 0xff else 0, 0⟩
    ⟨0, by decide, by decide⟩
  obtain ⟨group, -, hfree, hlowest, haddress, -⟩ := hexact.1 ⟨1, by decide, by
    intro k hk
    interval_cases k <;> decide⟩
  have hone : group = 1 := by
    have hnot : ¬ GroupFree ⟨fun i => if i < 2 then 0xff else 0, 0⟩ 0 := by
      intro hzero
      exact absurd (hzero 0 (by decide)) (by decide)
    have hle : ¬ 1 < group := by
      intro hlt
      apply hlowest 1 hlt
      intro k hk
      interval_cases k <;> decide
    have hne : group ≠ 0 := by
      rintro rfl
      exact hnot hfree
    omega
  rw [haddress, hone]
  rfl

end KimisOS.Frames
