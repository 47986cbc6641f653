import KimisOS.Core.Run

/-!
# The physical frame allocator

`pm_map` has one bit for each of the `2 ^ 20` frames, eight to a byte; a set
bit means the frame is taken.  `pm_alloc` takes the lowest free frame at or
above a hint.  `pm_alloc_64kaligned` looks for two free bytes at an even index
and then calls `pm_alloc_index` to mark them.  The two take the lock one after
the other, not once around both, so each is a step of its own below.
-/

namespace KimisOS.Frames

open KimisOS.Run

def mmapCount : ℕ := 0x20000

structure FrameMap where
  pmMap : ℕ → BitVec 8
  pmFirstFree : ℕ

/-- The bit of a frame. -/
def FrameMap.used (map : FrameMap) (frame : ℕ) : Bool :=
  (map.pmMap (frame / 8)).getLsbD (frame % 8)

/-- `1 << j`, as it meets a byte. -/
def bitMask (j : ℕ) : BitVec 8 := 1#8 <<< j

/-! ## The critical sections -/

/-- The inner loop of `pm_alloc`: the lowest clear bit of a byte. -/
def clearBit (byte : BitVec 8) : Option ℕ :=
  (List.range 8).find? fun j => byte &&& bitMask j == 0

/-- The outer loop of `pm_alloc` from byte `i`. -/
def findClear (map : FrameMap) : ℕ → ℕ → Option (ℕ × ℕ)
  | 0, _ => none
  | rounds + 1, i =>
      match clearBit (map.pmMap i) with
      | some j => some (i, j)
      | none => findClear map rounds (i + 1)

/-- `pm_alloc`: the new map and the address returned, 0 on failure. -/
def pmAlloc (map : FrameMap) : FrameMap × ℕ :=
  match findClear map (mmapCount - map.pmFirstFree) map.pmFirstFree with
  | none => (map, 0)
  | some (i, j) =>
      ({ pmMap := Function.update map.pmMap i (map.pmMap i ||| bitMask j)
         pmFirstFree := if i > map.pmFirstFree then i else map.pmFirstFree },
        (i <<< 3 ||| j) <<< 12)

def pmFree (map : FrameMap) (address : ℕ) : FrameMap :=
  let byte := address >>> 15
  { pmMap := Function.update map.pmMap byte
      (map.pmMap byte &&& ~~~bitMask ((address >>> 12) &&& 7))
    pmFirstFree := if byte < map.pmFirstFree then byte else map.pmFirstFree }

def pmReserve (map : FrameMap) (address : ℕ) : FrameMap :=
  let byte := address >>> 15
  { pmMap := Function.update map.pmMap byte
      (map.pmMap byte ||| bitMask ((address >>> 12) &&& 7))
    pmFirstFree := byte }

/-- The search of `pm_alloc_64kaligned` from byte `i`; `cont` is unsigned, so
`-1` is its largest value and the increment that follows makes it 0. -/
def findGroup (map : FrameMap) : ℕ → ℕ → ℕ → ℕ → Option ℕ
  | 0, _, _, _ => none
  | rounds + 1, i, cont, current =>
      if i &&& 1 ≠ 0 ∧ cont < 1 then findGroup map rounds (i + 1) cont current
      else
        let cont := if map.pmMap i = 0 then cont else 2 ^ 32 - 1
        if cont = 1 then some current
        else findGroup map rounds (i + 1) ((cont + 1) % 2 ^ 32) i

def pmAlloc64kAlignedSearch (map : FrameMap) : Option ℕ :=
  findGroup map mmapCount 0 0 0

/-- The eight bits of a byte are set one after the other. -/
def setAllBits (byte : BitVec 8) : BitVec 8 :=
  (List.range 8).foldl (fun acc j => acc ||| bitMask j) byte

/-- `pm_alloc_index`: the new map and the address returned. -/
def pmAllocIndex (map : FrameMap) (index : ℕ) : FrameMap × ℕ :=
  let first := Function.update map.pmMap index (setAllBits (map.pmMap index))
  ({ map with
      pmMap := Function.update first (1 + index) (setAllBits (first (1 + index))) },
    (index <<< 3) <<< 12)

/-! ## What they do to the bits -/

theorem getLsbD_bitMask {j k : ℕ} (hk : k < 8) :
    (bitMask j).getLsbD k = decide (k = j) := by
  rw [bitMask, ← BitVec.twoPow_eq, BitVec.getLsbD_twoPow]
  by_cases hsame : k = j
  · subst hsame
    simp [hk]
  · simp [hsame, Ne.symm hsame]

theorem setAllBits_eq (byte : BitVec 8) : setAllBits byte = BitVec.allOnes 8 := by
  ext bit hbit
  interval_cases bit <;> simp [setAllBits, bitMask, List.range, List.range.loop]

theorem clearBit_eq_some {byte : BitVec 8} {j : ℕ}
    (hfound : clearBit byte = some j) : j < 8 ∧ byte.getLsbD j = false := by
  have hmem := List.mem_of_find?_eq_some hfound
  have hclear := List.find?_some hfound
  rw [List.mem_range] at hmem
  refine ⟨hmem, ?_⟩
  have hzero : byte &&& bitMask j = 0 := by simpa using hclear
  have hbit := congrArg (fun word : BitVec 8 => word.getLsbD j) hzero
  simpa only [BitVec.getLsbD_and, getLsbD_bitMask hmem, decide_true,
    Bool.and_true, BitVec.ofNat_eq_ofNat, BitVec.getLsbD_zero] using hbit

theorem findClear_eq_some {map : FrameMap} {i j : ℕ} :
    ∀ {rounds start}, findClear map rounds start = some (i, j) →
      start ≤ i ∧ i < start + rounds ∧ j < 8 ∧
        (map.pmMap i).getLsbD j = false := by
  intro rounds
  induction rounds with
  | zero => intro start hfound; simp [findClear] at hfound
  | succ rounds ih =>
      intro start hfound
      rw [findClear] at hfound
      cases hbit : clearBit (map.pmMap start) with
      | some k =>
          obtain ⟨rfl, rfl⟩ : start = i ∧ k = j := by simpa [hbit] using hfound
          obtain ⟨hlt, hclear⟩ := clearBit_eq_some hbit
          exact ⟨le_rfl, by omega, hlt, hclear⟩
      | none =>
          rw [hbit] at hfound
          obtain ⟨hlow, hhigh, hrest⟩ := ih hfound
          exact ⟨by omega, by omega, hrest⟩

theorem frameAddress_eq {i j : ℕ} (hj : j < 8) :
    (i <<< 3 ||| j) <<< 12 = (8 * i + j) * 4096 := by
  rw [← Nat.shiftLeft_add_eq_or_of_lt (by simpa using hj), Nat.shiftLeft_eq,
    Nat.shiftLeft_eq]
  omega

/-- Setting one bit of one byte sets the bit of one frame. -/
theorem used_setBit (map : FrameMap) {i j hint : ℕ} (hj : j < 8) (frame : ℕ) :
    FrameMap.used ⟨Function.update map.pmMap i (map.pmMap i ||| bitMask j), hint⟩
        frame = (map.used frame || decide (frame = 8 * i + j)) := by
  simp only [FrameMap.used]
  by_cases hbyte : frame / 8 = i
  · subst hbyte
    have hlt : frame % 8 < 8 := Nat.mod_lt _ (by decide)
    have hbits : frame % 8 = j ↔ frame = 8 * (frame / 8) + j := by omega
    rw [Function.update_self, BitVec.getLsbD_or, getLsbD_bitMask hlt,
      decide_eq_decide.mpr hbits]
  · rw [Function.update_of_ne hbyte]
    have : frame ≠ 8 * i + j := by omega
    simp [this]

theorem used_clearBit (map : FrameMap) {i j hint : ℕ} (hj : j < 8) (frame : ℕ) :
    FrameMap.used
        ⟨Function.update map.pmMap i (map.pmMap i &&& ~~~bitMask j), hint⟩ frame =
      (map.used frame && !decide (frame = 8 * i + j)) := by
  simp only [FrameMap.used]
  by_cases hbyte : frame / 8 = i
  · subst hbyte
    have hlt : frame % 8 < 8 := Nat.mod_lt _ (by decide)
    have hbits : frame % 8 = j ↔ frame = 8 * (frame / 8) + j := by omega
    rw [Function.update_self, BitVec.getLsbD_and, BitVec.getLsbD_not,
      getLsbD_bitMask hlt, decide_eq_true hlt, Bool.true_and,
      show decide (frame % 8 = j) = decide (frame = 8 * (frame / 8) + j) from
        decide_eq_decide.mpr hbits]
  · rw [Function.update_of_ne hbyte]
    have : frame ≠ 8 * i + j := by omega
    simp [this]

theorem frame_of_address (address : ℕ) :
    8 * (address >>> 15) + ((address >>> 12) &&& 7) = address / 4096 := by
  have hmask : (address >>> 12) &&& 7 = (address >>> 12) % 8 :=
    Nat.and_two_pow_sub_one_eq_mod _ 3
  rw [hmask, Nat.shiftRight_eq_div_pow, Nat.shiftRight_eq_div_pow]
  omega

theorem bitIndex_lt (address : ℕ) : (address >>> 12) &&& 7 < 8 :=
  Nat.lt_succ_of_le Nat.and_le_right

theorem used_pmFree (map : FrameMap) (address frame : ℕ) :
    (pmFree map address).used frame =
      (map.used frame && !decide (frame = address / 4096)) := by
  rw [← frame_of_address]
  exact used_clearBit map (bitIndex_lt address) frame

theorem used_pmReserve (map : FrameMap) (address frame : ℕ) :
    (pmReserve map address).used frame =
      (map.used frame || decide (frame = address / 4096)) := by
  rw [← frame_of_address]
  exact used_setBit map (bitIndex_lt address) frame

/-- `pm_alloc` fails and changes nothing, or takes one frame that was free. -/
theorem pmAlloc_cases (map : FrameMap) :
    pmAlloc map = (map, 0) ∨
      ∃ frame, (pmAlloc map).2 = frame * 4096 ∧ map.used frame = false ∧
        frame / 8 < mmapCount ∧
        ∀ other, (pmAlloc map).1.used other =
          (map.used other || decide (other = frame)) := by
  unfold pmAlloc
  cases hfound : findClear map (mmapCount - map.pmFirstFree) map.pmFirstFree with
  | none => exact .inl rfl
  | some found =>
      obtain ⟨i, j⟩ := found
      obtain ⟨hlow, hhigh, hj, hclear⟩ := findClear_eq_some hfound
      refine .inr ⟨8 * i + j, frameAddress_eq hj, ?_, by omega, ?_⟩
      · simpa [FrameMap.used, Nat.mul_add_div, Nat.mul_add_mod,
          Nat.div_eq_of_lt hj, Nat.mod_eq_of_lt hj] using hclear
      · intro other
        exact used_setBit map hj other

theorem used_pmAllocIndex (map : FrameMap) (index frame : ℕ) :
    (pmAllocIndex map index).1.used frame =
      (map.used frame || decide (8 * index ≤ frame ∧ frame < 8 * index + 16)) := by
  have hlt : frame % 8 < 8 := Nat.mod_lt _ (by decide)
  simp only [pmAllocIndex, FrameMap.used, setAllBits_eq]
  by_cases hsecond : frame / 8 = 1 + index
  · have hin : 8 * index ≤ frame ∧ frame < 8 * index + 16 := by omega
    rw [hsecond, Function.update_self, BitVec.getLsbD_allOnes,
      decide_eq_true hlt, decide_eq_true hin, Bool.or_true]
  · rw [Function.update_of_ne hsecond]
    by_cases hfirst : frame / 8 = index
    · have hin : 8 * index ≤ frame ∧ frame < 8 * index + 16 := by omega
      rw [hfirst, Function.update_self, BitVec.getLsbD_allOnes,
        decide_eq_true hlt, decide_eq_true hin, Bool.or_true]
    · have hout : ¬ (8 * index ≤ frame ∧ frame < 8 * index + 16) := by omega
      rw [Function.update_of_ne hfirst, decide_eq_false hout, Bool.or_false]

/-! ## Threads -/

/-- The allocator with the threads that use it.  `pending` holds the group a
thread has found and not yet marked; `owned` the frames each thread has been
handed and has not given back. -/
structure PmState where
  frames : FrameMap
  pending : ℕ → Option ℕ
  owned : List (ℕ × ℕ)

/-- The atomic steps: one critical section each. -/
inductive Event where
  | alloc (thread : ℕ)
  | free (thread address : ℕ)
  | reserve (thread address : ℕ)
  | search (thread : ℕ)
  | mark (thread : ℕ)
  deriving DecidableEq

/-- The frames a caller of `pm_alloc_64kaligned` gets: 16 from the group, or
none when the address returned is the null address. -/
def groupFrames (index : ℕ) : List ℕ :=
  if index = 0 then [] else (List.range 16).map (8 * index + ·)

/-- One critical section of one thread.  A thread that has found a group is
inside `pm_alloc_64kaligned` and can only go on to mark it; `pm_free` is only
called by the owner of the frame, on a 32-bit address. -/
def step (state : PmState) : Event → Option PmState
  | .alloc thread =>
      if state.pending thread ≠ none then none
      else
        let (frames, address) := pmAlloc state.frames
        some { state with
          frames := frames
          owned := if address = 0 then state.owned
            else (thread, address / 4096) :: state.owned }
  | .free thread address =>
      if state.pending thread = none ∧ address < 2 ^ 32 ∧
          (thread, address / 4096) ∈ state.owned then
        some { state with
          frames := pmFree state.frames address
          owned := state.owned.erase (thread, address / 4096) }
      else none
  | .reserve thread address =>
      if state.pending thread = none ∧ address < 2 ^ 32 then
        some { state with frames := pmReserve state.frames address }
      else none
  | .search thread =>
      if state.pending thread ≠ none then none
      else
        match pmAlloc64kAlignedSearch state.frames with
        | none => some state
        | some index =>
            some { state with
              pending := Function.update state.pending thread (some index) }
  | .mark thread =>
      match state.pending thread with
      | none => none
      | some index =>
          some
            { frames := (pmAllocIndex state.frames index).1
              pending := Function.update state.pending thread none
              owned := (groupFrames index).map (thread, ·) ++ state.owned }

/-- No frame has two owners, and every owned frame has its bit set. -/
def Exclusive (state : PmState) : Prop :=
  (state.owned.map Prod.snd).Nodup ∧
    ∀ frame ∈ state.owned.map Prod.snd, state.frames.used frame = true

/-- A thread marks the group it found only while no frame of the group is in
anyone's hands. -/
def Undisturbed (state : PmState) : Event → Prop
  | .mark thread => ∀ index, state.pending thread = some index →
      ∀ frame ∈ groupFrames index, frame ∉ state.owned.map Prod.snd
  | _ => True

theorem mem_groupFrames {index frame : ℕ} (hmem : frame ∈ groupFrames index) :
    8 * index ≤ frame ∧ frame < 8 * index + 16 := by
  unfold groupFrames at hmem
  split at hmem
  · simp at hmem
  · obtain ⟨k, hk, rfl⟩ := List.mem_map.mp hmem
    rw [List.mem_range] at hk
    omega

theorem nodup_groupFrames (index : ℕ) : (groupFrames index).Nodup := by
  unfold groupFrames
  split
  · exact List.nodup_nil
  · exact List.nodup_range.map (add_right_injective _)

theorem map_snd_owned (thread index : ℕ) (owned : List (ℕ × ℕ)) :
    ((groupFrames index).map (thread, ·) ++ owned).map Prod.snd =
      groupFrames index ++ owned.map Prod.snd := by
  simp

theorem exclusive_alloc {state : PmState} (thread : ℕ)
    (hexclusive : Exclusive state) :
    Exclusive { state with
      frames := (pmAlloc state.frames).1
      owned := if (pmAlloc state.frames).2 = 0 then state.owned
        else (thread, (pmAlloc state.frames).2 / 4096) :: state.owned } := by
  obtain ⟨hnodup, hused⟩ := hexclusive
  rcases pmAlloc_cases state.frames with hfail | ⟨frame, haddress, hfree, -, hbits⟩
  · rw [hfail]
    exact ⟨hnodup, hused⟩
  have hkept : ∀ other ∈ state.owned.map Prod.snd,
      (pmAlloc state.frames).1.used other = true := by
    intro other hother
    rw [hbits, hused other hother, Bool.true_or]
  by_cases hnull : (pmAlloc state.frames).2 = 0
  · simp only [Exclusive, if_pos hnull]
    exact ⟨hnodup, hkept⟩
  · have hnew : frame ∉ state.owned.map Prod.snd := by
      intro hmem
      rw [hused frame hmem] at hfree
      cases hfree
    rw [haddress] at hnull
    simp only [Exclusive, haddress, if_neg hnull, List.map_cons,
      Nat.mul_div_cancel _ (show 0 < 4096 by decide)]
    refine ⟨List.nodup_cons.mpr ⟨hnew, hnodup⟩, ?_⟩
    intro other hother
    rcases List.mem_cons.mp hother with rfl | hold
    · rw [hbits]
      simp
    · exact hkept other hold

theorem exclusive_free {state : PmState} {thread address : ℕ}
    (hexclusive : Exclusive state)
    (howner : (thread, address / 4096) ∈ state.owned) :
    Exclusive { state with
      frames := pmFree state.frames address
      owned := state.owned.erase (thread, address / 4096) } := by
  obtain ⟨hnodup, hused⟩ := hexclusive
  have hperm := (List.perm_cons_erase howner).map Prod.snd
  rw [List.map_cons] at hperm
  obtain ⟨hgone, hrest⟩ := List.nodup_cons.mp (hperm.nodup_iff.mp hnodup)
  refine ⟨hrest, ?_⟩
  intro frame hframe
  have hne : frame ≠ address / 4096 := by
    intro heq
    exact hgone (heq ▸ hframe)
  have hold : frame ∈ state.owned.map Prod.snd :=
    hperm.mem_iff.mpr (List.mem_cons_of_mem _ hframe)
  rw [used_pmFree, hused frame hold, decide_eq_false hne]
  rfl

theorem exclusive_reserve {state : PmState} (address : ℕ)
    (hexclusive : Exclusive state) :
    Exclusive { state with frames := pmReserve state.frames address } := by
  refine ⟨hexclusive.1, ?_⟩
  intro frame hframe
  rw [used_pmReserve, hexclusive.2 frame hframe, Bool.true_or]

/-- Marking a group keeps the owners apart exactly when none of its frames is
owned. -/
theorem exclusive_mark_iff {state : PmState} {thread index : ℕ}
    (hexclusive : Exclusive state) :
    (∀ frame ∈ groupFrames index, frame ∉ state.owned.map Prod.snd) ↔
      Exclusive
        { frames := (pmAllocIndex state.frames index).1
          pending := Function.update state.pending thread none
          owned := (groupFrames index).map (thread, ·) ++ state.owned } := by
  obtain ⟨hnodup, hused⟩ := hexclusive
  simp only [Exclusive, map_snd_owned]
  constructor
  · intro hclear
    refine ⟨List.nodup_append.mpr ⟨nodup_groupFrames index, hnodup, ?_⟩, ?_⟩
    · intro frame hframe other hother heq
      exact hclear frame hframe (heq ▸ hother)
    · intro frame hframe
      rw [used_pmAllocIndex]
      rcases List.mem_append.mp hframe with hgroup | hold
      · rw [decide_eq_true (mem_groupFrames hgroup), Bool.or_true]
      · rw [hused frame hold, Bool.true_or]
  · rintro ⟨happend, -⟩ frame hframe hold
    exact (List.nodup_append.mp happend).2.2 frame hframe frame hold rfl

theorem undisturbed_iff (state : PmState) (event : Event) (next : PmState)
    (hexclusive : Exclusive state) (hstep : step state event = some next) :
    Undisturbed state event ↔ Exclusive next := by
  cases event with
  | alloc thread =>
      simp only [step] at hstep
      split at hstep
      · cases hstep
      · cases hstep
        exact iff_of_true trivial (exclusive_alloc thread hexclusive)
  | free thread address =>
      simp only [step] at hstep
      split at hstep
      · next hguard =>
          cases hstep
          exact iff_of_true trivial (exclusive_free hexclusive hguard.2.2)
      · cases hstep
  | reserve thread address =>
      simp only [step] at hstep
      split at hstep
      · cases hstep
        exact iff_of_true trivial (exclusive_reserve address hexclusive)
      · cases hstep
  | search thread =>
      simp only [step] at hstep
      split at hstep
      · cases hstep
      · split at hstep
        · cases hstep
          exact iff_of_true trivial hexclusive
        · cases hstep
          exact iff_of_true trivial hexclusive
  | mark thread =>
      simp only [step] at hstep
      cases hpending : state.pending thread with
      | none => simp [hpending] at hstep
      | some index =>
          simp only [hpending, Option.some.injEq] at hstep
          subst hstep
          rw [← exclusive_mark_iff hexclusive]
          simp [Undisturbed, hpending]

/-- Frame ownership.  For any number of threads and any interleaving of their
critical sections, no frame ever has two owners, and every owned frame has its
bit set, exactly when every group is still untouched when it is marked. -/
theorem frames_exclusive_iff (frames : FrameMap) (events : List Event)
    (final : PmState)
    (hrun : exec step ⟨frames, fun _ => none, []⟩ events = some final) :
    Meets step Undisturbed ⟨frames, fun _ => none, []⟩ events ↔
      ∀ n reached,
        exec step ⟨frames, fun _ => none, []⟩ (events.take n) = some reached →
          Exclusive reached := by
  refine meets_iff_forall_prefix undisturbed_iff ⟨?_, ?_⟩ hrun
  · exact List.nodup_nil
  · intro frame hframe
    simp at hframe

/-- The first 16 frames are taken, every other frame is free. -/
def lowFramesTaken : FrameMap := ⟨fun i => if i < 2 then 0xff else 0, 0⟩

/-- Thread 0 takes a group, and thread 1 a frame after it. -/
theorem frames_exclusive_sequential :
    Meets step Undisturbed ⟨lowFramesTaken, fun _ => none, []⟩ [.search 0, .mark 0, .alloc 1] ∧
      ∀ n reached, exec step ⟨lowFramesTaken, fun _ => none, []⟩
        ([.search 0, .mark 0, .alloc 1].take n) = some reached → Exclusive reached := by
  have hmeets : Meets step Undisturbed ⟨lowFramesTaken, fun _ => none, []⟩
      [.search 0, .mark 0, .alloc 1] := by
    refine ⟨trivial, ?_, trivial, trivial⟩
    intro index _ frame _
    simp
  exact ⟨hmeets, (frames_exclusive_iff lowFramesTaken _ _ rfl).mp hmeets⟩

/-- Thread 1 is handed frame 16 after thread 0 has found the group of frame 16
and before it marks the group. -/
theorem frames_shared_after_race :
    ∃ final, exec step ⟨lowFramesTaken, fun _ => none, []⟩
      [.search 0, .alloc 1, .mark 0] = some final ∧ ¬ Exclusive final := by
  refine ⟨_, rfl, ?_⟩
  rintro ⟨hnodup, -⟩
  revert hnodup
  decide

end KimisOS.Frames
