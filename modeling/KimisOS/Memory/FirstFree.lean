import KimisOS.Memory.Frames

/-!
# The hint of the frame allocator

`pm_alloc` searches from the byte `pm_first_free` on.  It finds every free frame
as long as all bytes below the hint are full.  Allocating raises the hint past
full bytes and freeing lowers it; `pm_reserve` sets it to the byte of its
address, whatever is free below.
-/

namespace KimisOS.Frames

open KimisOS.Run

/-- `pm_alloc_64kaligned` without a thread in between. -/
def pmAlloc64kAligned (map : FrameMap) : FrameMap × ℕ :=
  match pmAlloc64kAlignedSearch map with
  | none => (map, 0)
  | some index => pmAllocIndex map index

inductive PmCall where
  | alloc
  | free (address : UInt32)
  | reserve (address : UInt32)
  | alloc64kAligned

def pmCall (map : FrameMap) : PmCall → Option FrameMap
  | .alloc => some (pmAlloc map).1
  | .free address => some (pmFree map address.toNat)
  | .reserve address => some (pmReserve map address.toNat)
  | .alloc64kAligned => some (pmAlloc64kAligned map).1

/-- `pm_alloc` returns 0 only if every frame but the first is taken. -/
def Complete (map : FrameMap) : Prop :=
  (pmAlloc map).2 = 0 → ∀ frame, 1 ≤ frame → frame < 8 * mmapCount → map.used frame = true

/-- Every byte below the hint is full. -/
def HintOk (map : FrameMap) : Prop :=
  ∀ frame, frame / 8 < map.pmFirstFree → map.used frame = true

/-- A frame is reserved only where every byte below its own is full. -/
def ReservesInOrder (map : FrameMap) : PmCall → Prop
  | .reserve address => ∀ frame, frame / 8 < address.toNat >>> 15 → map.used frame = true
  | _ => True

/-! ## The search -/

theorem and_bitMask_eq_zero {byte : BitVec 8} {j : ℕ} (hclear : byte.getLsbD j = false) :
    byte &&& bitMask j = 0 := by
  ext k hk
  rw [← BitVec.getLsbD_eq_getElem, ← BitVec.getLsbD_eq_getElem, BitVec.getLsbD_and,
    getLsbD_bitMask hk]
  by_cases hsame : k = j
  · subst hsame
    rw [hclear, Bool.false_and]
    exact BitVec.getLsbD_zero.symm
  · rw [decide_eq_false hsame, Bool.and_false]
    exact BitVec.getLsbD_zero.symm

theorem clearBit_eq_none {byte : BitVec 8} (hnone : clearBit byte = none) {j : ℕ}
    (hj : j < 8) : byte.getLsbD j = true := by
  have hbit := List.find?_eq_none.mp hnone j (List.mem_range.mpr hj)
  by_contra hclear
  rw [Bool.not_eq_true] at hclear
  exact hbit (beq_iff_eq.mpr (and_bitMask_eq_zero hclear))

theorem FrameMap.used_of_clearBit {map : FrameMap} {frame : ℕ}
    (hnone : clearBit (map.pmMap (frame / 8)) = none) : map.used frame = true :=
  clearBit_eq_none hnone (Nat.mod_lt _ (by decide))

/-- The bytes that the search passes are full. -/
theorem findClear_passed {map : FrameMap} {rounds start k : ℕ} (hlow : start ≤ k)
    (hhigh : k < start + rounds)
    (hpassed : ∀ i j, findClear map rounds start = some (i, j) → k < i) :
    clearBit (map.pmMap k) = none := by
  induction rounds generalizing start with
  | zero => omega
  | succ rounds ih =>
      rw [findClear] at hpassed
      cases hbit : clearBit (map.pmMap start) with
      | some j =>
          rw [hbit] at hpassed
          have := hpassed start j rfl
          omega
      | none =>
          rw [hbit] at hpassed
          rcases Nat.lt_or_eq_of_le hlow with hlt | rfl
          · exact ih hlt (by omega) hpassed
          · exact hbit

/-! ## The calls -/

/-- With every byte below the hint full, `pm_alloc` returns 0 for the first
frame, or without a free frame. -/
theorem complete_iff {map : FrameMap} (hhint : HintOk map) :
    Complete map ↔ map.used 0 = true ∨
      ∀ frame, 1 ≤ frame → frame < 8 * mmapCount → map.used frame = true := by
  constructor
  · intro hcomplete
    by_contra hneither
    rw [not_or, Bool.not_eq_true] at hneither
    obtain ⟨hfirst, hsome⟩ := hneither
    apply hsome
    apply hcomplete
    have hzero : map.pmFirstFree = 0 := by
      by_contra hne
      have := hhint 0 (by omega)
      rw [hfirst] at this
      cases this
    have hfound : clearBit (map.pmMap 0) = some 0 := by
      have hbit : (map.pmMap 0).getLsbD 0 = false := hfirst
      rw [clearBit, List.range_succ_eq_map, List.find?_cons_of_pos]
      exact beq_iff_eq.mpr (and_bitMask_eq_zero hbit)
    have hsearch : findClear map (mmapCount - map.pmFirstFree) map.pmFirstFree =
        some (0, 0) := by
      rw [hzero, mmapCount, findClear, hfound]
    rw [pmAlloc, hsearch]
    rfl
  · rintro (hfirst | hall) hnull frame hlow hhigh
    · by_cases hbelow : frame / 8 < map.pmFirstFree
      · exact hhint frame hbelow
      · apply FrameMap.used_of_clearBit
        refine @findClear_passed map (mmapCount - map.pmFirstFree) map.pmFirstFree _
          (Nat.le_of_not_lt hbelow) (by omega) ?_
        intro i j hfound
        obtain ⟨-, -, hj, hclear⟩ := findClear_eq_some hfound
        rw [pmAlloc, hfound] at hnull
        have haddress : (8 * i + j) * 4096 = 0 := (frameAddress_eq hj).symm.trans hnull
        obtain ⟨rfl, rfl⟩ : i = 0 ∧ j = 0 := by omega
        rw [FrameMap.used, hclear] at hfirst
        cases hfirst
    · exact hall frame hlow hhigh

theorem hintOk_alloc {map : FrameMap} (hhint : HintOk map) : HintOk (pmAlloc map).1 := by
  unfold pmAlloc
  cases hfound : findClear map (mmapCount - map.pmFirstFree) map.pmFirstFree with
  | none => exact hhint
  | some found =>
      obtain ⟨i, j⟩ := found
      obtain ⟨hlow, hhigh, hj, -⟩ := findClear_eq_some hfound
      intro frame hframe
      rw [used_setBit map hj]
      have hbelow : frame / 8 < i := by
        change frame / 8 < if i > map.pmFirstFree then i else map.pmFirstFree at hframe
        split at hframe <;> omega
      have hused : map.used frame = true := by
        by_cases hold : frame / 8 < map.pmFirstFree
        · exact hhint frame hold
        · apply FrameMap.used_of_clearBit
          refine @findClear_passed map (mmapCount - map.pmFirstFree) map.pmFirstFree _
            (Nat.le_of_not_lt hold) (by omega) ?_
          intro i' j' hfound'
          rw [hfound] at hfound'
          cases hfound'
          exact hbelow
      rw [hused, Bool.true_or]

theorem hintOk_free {map : FrameMap} (hhint : HintOk map) (address : ℕ) :
    HintOk (pmFree map address) := by
  intro frame hframe
  change frame / 8 < if address >>> 15 < map.pmFirstFree then address >>> 15
    else map.pmFirstFree at hframe
  have hold : frame / 8 < map.pmFirstFree := by
    split at hframe <;> omega
  have hne : frame ≠ address / 4096 := by
    have hbyte : address >>> 15 = address / 4096 / 8 := by
      rw [Nat.shiftRight_eq_div_pow, Nat.div_div_eq_div_mul]
    rintro rfl
    split at hframe <;> omega
  rw [used_pmFree, hhint frame hold, decide_eq_false hne]
  rfl

theorem hintOk_reserve {map : FrameMap} {address : ℕ}
    (hbelow : ∀ frame, frame / 8 < address >>> 15 → map.used frame = true) :
    HintOk (pmReserve map address) := by
  intro frame hframe
  rw [used_pmReserve, hbelow frame hframe, Bool.true_or]

theorem hintOk_alloc64kAligned {map : FrameMap} (hhint : HintOk map) :
    HintOk (pmAlloc64kAligned map).1 := by
  unfold pmAlloc64kAligned
  cases pmAlloc64kAlignedSearch map with
  | none => exact hhint
  | some index =>
      intro frame hframe
      rw [used_pmAllocIndex, hhint frame hframe, Bool.true_or]

theorem hintOk_call (map : FrameMap) (call : PmCall) (next : FrameMap)
    (hhint : HintOk map) (horder : ReservesInOrder map call)
    (hcall : pmCall map call = some next) : HintOk next := by
  cases call with
  | alloc =>
      obtain rfl := Option.some.inj hcall
      exact hintOk_alloc hhint
  | free address =>
      obtain rfl := Option.some.inj hcall
      exact hintOk_free hhint address.toNat
  | reserve address =>
      obtain rfl := Option.some.inj hcall
      exact hintOk_reserve horder
  | alloc64kAligned =>
      obtain rfl := Option.some.inj hcall
      exact hintOk_alloc64kAligned hhint

/-- Completeness.  In every state that is reached from a hint of 0 by calls that
reserve in order, `pm_alloc` returns 0 only if every frame but the first is
taken, provided that the first one is. -/
theorem pmAlloc_complete (map : FrameMap) (calls : List PmCall) (reached : FrameMap)
    (hinit : map.pmFirstFree = 0) (horder : Meets pmCall ReservesInOrder map calls)
    (hrun : exec pmCall map calls = some reached) :
    Complete reached ↔ reached.used 0 = true ∨
      ∀ frame, 1 ≤ frame → frame < 8 * mmapCount → reached.used frame = true := by
  apply complete_iff
  refine exec_invariant hintOk_call ?_ horder hrun
  intro frame hframe
  rw [hinit] at hframe
  exact absurd hframe (Nat.not_lt_zero _)

/-- Only frame 8 is free. -/
def oneFrameFree : FrameMap := ⟨fun i => if i = 1 then 0xfe else 0xff, 0⟩

/-- The frame is taken, given back, and taken again. -/
theorem pmAlloc_complete_again :
    ∃ reached, exec pmCall oneFrameFree [.alloc, .free 0x8000, .alloc] = some reached ∧
      Complete reached := by
  refine ⟨_, rfl, ?_⟩
  refine (pmAlloc_complete oneFrameFree [.alloc, .free 0x8000, .alloc] _ rfl
    ⟨trivial, trivial, trivial, trivial⟩ rfl).mpr (.inl ?_)
  decide +kernel

/-- Reserving a frame of the last byte hides the free frame 8. -/
theorem pmReserve_hides_free :
    ∃ reached, exec pmCall oneFrameFree [.reserve 0xffff8000] = some reached ∧
      (pmAlloc reached).2 = 0 ∧ reached.used 8 = false := by
  refine ⟨_, rfl, ?_, ?_⟩
  · decide +kernel
  · decide +kernel

end KimisOS.Frames
