import KimisOS.Core.Run

/-!
# The vector of the modules

`vector_push` is to append an element to a vector that grows by pages.  The new
block is allocated for the pages that the old elements fill, so at the first page
crossing it has no page, and the bytes of the old elements are counted with eight
bits while they are copied.
-/

namespace KimisOS.Modules

open KimisOS.Run

/-! ## The functions -/

/-- `vector_t`. -/
structure VectorT where
  ptr : ℕ
  size : ℕ
  sizeofElements : ℕ
  deriving DecidableEq

/-- The pages that a vector has got from `kmalloc`. -/
structure Block where
  start : ℕ
  pages : ℕ
  deriving DecidableEq

def Block.Contains (block : Block) (address : ℕ) : Prop :=
  block.start ≤ address ∧ address < block.start + 4096 * block.pages

/-- A vector and the memory, with the addresses that were written so far, each with
the block that the vector had then. -/
structure VectorState where
  vector : VectorT
  block : Block
  bytes : ℕ → UInt8
  written : List (ℕ × Block)

def VectorState.put (state : VectorState) (address : ℕ) (byte : UInt8) : VectorState :=
  { state with
    bytes := Function.update state.bytes (address % 2 ^ 32) byte
    written := state.written ++ [(address % 2 ^ 32, state.block)] }

/-- `init_vector` for a new vector without elements; `ptr` is the page that `kmalloc`
returns. -/
def initVector (ptr sizeofElements : ℕ) (bytes : ℕ → UInt8) : VectorState where
  vector := ⟨ptr, 0, sizeofElements⟩
  block := ⟨ptr, 0 * sizeofElements / 4096 + 1⟩
  bytes := bytes
  written := []

/-- `vector_get`. -/
def vectorGet (pos : ℕ) (vector : VectorT) : ℕ :=
  if pos > (vector.size + 2 ^ 32 - 1) % 2 ^ 32 then 0
  else (vector.ptr + pos * vector.sizeofElements) % 2 ^ 32

/-- The loop that copies the old elements, whose counter has eight bits; `none` when
the fuel runs out. -/
def copyOld (bound stride old newptr : ℕ) : ℕ → VectorState → ℕ → Option VectorState
  | 0, state, i => if i < bound then none else some state
  | fuel + 1, state, i =>
      if i < bound then
        copyOld bound stride old newptr fuel
          (state.put (newptr + i) (state.bytes ((old + i * stride) % 2 ^ 32)))
          ((i + 1) % 256)
      else some state

/-- The loop that copies the new element. -/
def storeElement (element : ℕ → UInt8) (address : ℕ) : ℕ → ℕ → VectorState → VectorState
  | 0, _, state => state
  | left + 1, i, state =>
      storeElement element address left (i + 1) (state.put (address + i) (element i))

/-- The arguments of a push, with the address that `kmalloc` returns if it is called. -/
structure Push where
  element : ℕ → UInt8
  newptr : ℕ

/-- The end of a push: the element is stored, and counted. -/
def pushElement (state : VectorState) (element : ℕ → UInt8) : VectorState :=
  let vector := state.vector
  let stored := storeElement element (vector.ptr + vector.size * vector.sizeofElements)
    vector.sizeofElements 0 state
  { stored with vector := { vector with size := (vector.size + 1) % 2 ^ 32 } }

/-- `vector_push`. -/
def vectorPush (fuel : ℕ) (state : VectorState) (push : Push) : Option VectorState :=
  let vector := state.vector
  if (vector.size + 1) % 2 ^ 32 * vector.sizeofElements % 2 ^ 32 / 4096 ≠
      vector.size * vector.sizeofElements % 2 ^ 32 / 4096 then
    let allocated :=
      { state with
        block := ⟨push.newptr, vector.size * vector.sizeofElements % 2 ^ 32 / 4096⟩ }
    let copied :=
      if vector.ptr ≠ 0 then
        copyOld ((vector.size + 2 ^ 32 - 1) % 2 ^ 32 * vector.sizeofElements % 2 ^ 32)
          vector.size vector.ptr push.newptr fuel allocated 0
      else some allocated
    copied.map fun copied =>
      pushElement { copied with vector := { vector with ptr := push.newptr } } push.element
  else some (pushElement state push.element)

/-! ## The law -/

/-- All bytes are written to the block that the vector has at the time. -/
def Owned (state : VectorState) : Prop := ∀ write ∈ state.written, write.2.Contains write.1

/-- `vector_get` leads to the pushed elements, and to nothing behind them. -/
structure Lists (state : VectorState) (pushes : List Push) : Prop where
  elements : ∀ k push, pushes[k]? = some push → ∀ i < state.vector.sizeofElements,
    state.bytes (vectorGet k state.vector + i) = push.element i
  bounded : ∀ k, pushes.length ≤ k → k < 2 ^ 32 → vectorGet k state.vector = 0

/-- The pushes come to an end, write to the vector's own pages, and append. -/
def GrowingList (ptr sizeofElements : ℕ) (bytes : ℕ → UInt8) (pushes : List Push) : Prop :=
  ∃ fuel final, exec (vectorPush fuel) (initVector ptr sizeofElements bytes) pushes =
    some final ∧ Owned final ∧ Lists final pushes

/-! ## Stores -/

section Store

variable {state state' : VectorState} {element : ℕ → UInt8} {address left i fuel : ℕ}
  {push : Push}

@[simp]
theorem VectorState.put_bytes (state : VectorState) (address : ℕ) (byte : UInt8) :
    (state.put address byte).bytes =
      Function.update state.bytes (address % 2 ^ 32) byte := rfl

@[simp]
theorem VectorState.put_written (state : VectorState) (address : ℕ) (byte : UInt8) :
    (state.put address byte).written =
      state.written ++ [(address % 2 ^ 32, state.block)] := rfl

/-- What is written stays in the record of the writes. -/
theorem mem_written_storeElement {write : ℕ × Block} (hwrite : write ∈ state.written) :
    write ∈ (storeElement element address left i state).written := by
  induction left generalizing state i with
  | zero => exact hwrite
  | succ left ih => exact ih (List.mem_append_left _ hwrite)

theorem mem_written_copyOld {bound stride old newptr : ℕ} {write : ℕ × Block}
    (hwrite : write ∈ state.written)
    (hcopy : copyOld bound stride old newptr fuel state i = some state') :
    write ∈ state'.written := by
  induction fuel generalizing state i with
  | zero =>
      rw [copyOld] at hcopy
      split at hcopy
      case isTrue => cases hcopy
      case isFalse => exact Option.some.inj hcopy ▸ hwrite
  | succ fuel ih =>
      rw [copyOld] at hcopy
      split at hcopy
      case isTrue => exact ih (List.mem_append_left _ hwrite) hcopy
      case isFalse => exact Option.some.inj hcopy ▸ hwrite

theorem mem_written_push {write : ℕ × Block} (hwrite : write ∈ state.written)
    (hpush : vectorPush fuel state push = some state') : write ∈ state'.written := by
  unfold vectorPush at hpush
  dsimp only at hpush
  split at hpush
  case isTrue =>
    obtain ⟨copied, hcopied, rfl⟩ := Option.map_eq_some_iff.mp hpush
    have hkept : write ∈ copied.written := by
      split at hcopied
      case isTrue =>
        refine mem_written_copyOld ?_ hcopied
        exact hwrite
      case isFalse => exact Option.some.inj hcopied ▸ hwrite
    exact mem_written_storeElement hkept
  case isFalse =>
    rw [← Option.some.inj hpush]
    exact mem_written_storeElement hwrite

theorem mem_written_first (hsome : 1 ≤ left) :
    ((address + i) % 2 ^ 32, state.block) ∈
      (storeElement element address left i state).written := by
  cases left with
  | zero => omega
  | succ left =>
      rw [storeElement]
      apply mem_written_storeElement
      rw [VectorState.put_written]
      exact List.mem_append_right _ List.mem_cons_self

theorem copyOld_block {bound stride old newptr : ℕ}
    (hcopy : copyOld bound stride old newptr fuel state i = some state') :
    state'.block = state.block := by
  induction fuel generalizing state i with
  | zero =>
      rw [copyOld] at hcopy
      split at hcopy
      case isTrue => cases hcopy
      case isFalse => rw [← Option.some.inj hcopy]
  | succ fuel ih =>
      rw [copyOld] at hcopy
      split at hcopy
      case isTrue =>
        have hkept := ih hcopy
        exact hkept
      case isFalse => rw [← Option.some.inj hcopy]

/-- With more than 255 bytes to copy the counter never gets to the end. -/
theorem copyOld_diverges {bound stride old newptr : ℕ} (hbound : 255 < bound)
    (hi : i < 256) : copyOld bound stride old newptr fuel state i = none := by
  induction fuel generalizing state i with
  | zero => rw [copyOld, if_pos (by omega)]
  | succ fuel ih =>
      rw [copyOld, if_pos (by omega)]
      exact ih (Nat.mod_lt _ (by decide))

/-- The state after the element is stored. -/
structure Stored (element : ℕ → UInt8) (address left i : ℕ) (state state' : VectorState) :
    Prop where
  vector : state'.vector = state.vector
  block : state'.block = state.block
  inside : ∀ k, i ≤ k → k < i + left → state'.bytes (address + k) = element k
  outside : ∀ a, a < address + i ∨ address + i + left ≤ a → state'.bytes a = state.bytes a
  written : ∀ write ∈ state'.written, write ∈ state.written ∨
    ∃ k, i ≤ k ∧ k < i + left ∧ write = (address + k, state.block)

theorem storeElement_spec (hword : address + i + left ≤ 2 ^ 32) :
    Stored element address left i state (storeElement element address left i state) := by
  induction left generalizing state i with
  | zero =>
      refine ⟨rfl, rfl, ?_, fun _ _ => rfl, fun _ hwrite => .inl hwrite⟩
      intro k hge hlt
      omega
  | succ left ih =>
      have hmod : (address + i) % 2 ^ 32 = address + i := Nat.mod_eq_of_lt (by omega)
      have hrest := @ih (state.put (address + i) (element i)) (i + 1) (by omega)
      rw [storeElement]
      refine ⟨hrest.vector, hrest.block, ?_, ?_, ?_⟩
      · intro k hge hlt
        by_cases hk : k = i
        · rw [hrest.outside _ (.inl (by omega)), VectorState.put_bytes, hmod, hk,
            Function.update_self]
        · exact hrest.inside k (by omega) (by omega)
      · intro a ha
        rw [hrest.outside a (by omega), VectorState.put_bytes, hmod,
          Function.update_of_ne (by omega)]
      · intro write hwrite
        rcases hrest.written write hwrite with hbefore | ⟨k, hge, hlt, heq⟩
        · rw [VectorState.put_written, List.mem_append, List.mem_singleton, hmod] at hbefore
          exact hbefore.imp id fun heq => ⟨i, le_rfl, by omega, heq⟩
        · exact .inr ⟨k, by omega, by omega, heq⟩

end Store

/-! ## Runs -/

section Run

variable {ptr sizeofElements fuel : ℕ} {bytes : ℕ → UInt8} {done pushes : List Push}
  {state state' : VectorState} {push : Push}

/-- The state after pushes that stay in the first page. -/
structure InPage (ptr sizeofElements : ℕ) (done : List Push) (state : VectorState) :
    Prop where
  vector : state.vector = ⟨ptr, done.length, sizeofElements⟩
  block : state.block = ⟨ptr, 1⟩
  owned : Owned state
  elements : ∀ k push, done[k]? = some push → ∀ i < sizeofElements,
    state.bytes (ptr + (k * sizeofElements + i)) = push.element i

theorem InPage.init : InPage ptr sizeofElements [] (initVector ptr sizeofElements bytes) := by
  refine ⟨rfl, ?_, ?_, ?_⟩
  · rw [initVector, Nat.zero_mul, Nat.zero_div]
  · intro write hwrite
    cases hwrite
  · intro k push hk
    cases hk

/-- A push that stays in the page appends its element. -/
theorem InPage.step (hpage : InPage ptr sizeofElements done state)
    (hptr : ptr + 4096 ≤ 2 ^ 32) (hone : 1 ≤ sizeofElements)
    (hfits : (done.length + 1) * sizeofElements < 4096) (push : Push) :
    ∃ state', vectorPush fuel state push = some state' ∧
      InPage ptr sizeofElements (done ++ [push]) state' := by
  have hcount : done.length + 1 ≤ (done.length + 1) * sizeofElements :=
    Nat.le_mul_of_pos_right _ hone
  have hend : (done.length + 1) * sizeofElements =
      done.length * sizeofElements + sizeofElements := Nat.succ_mul _ _
  have hsize : (done.length + 1) % 2 ^ 32 = done.length + 1 := Nat.mod_eq_of_lt (by omega)
  have hstored := @storeElement_spec state push.element
    (ptr + done.length * sizeofElements) sizeofElements 0 (by omega)
  refine ⟨pushElement state push.element, ?_, ?_⟩
  · unfold vectorPush
    rw [hpage.vector]
    dsimp only
    rw [hsize, if_neg]
    omega
  · unfold pushElement
    rw [hpage.vector]
    dsimp only
    refine ⟨?_, ?_, ?_, ?_⟩
    · rw [hsize, List.length_append, List.length_singleton]
    · exact hstored.block.trans hpage.block
    · intro write hwrite
      rcases hstored.written write hwrite with hbefore | ⟨k, -, hlt, rfl⟩
      · exact hpage.owned write hbefore
      · rw [hpage.block, Block.Contains]
        dsimp only
        omega
    · intro k other hk i hi
      by_cases hnew : k < done.length
      · rw [List.getElem?_append_left hnew] at hk
        have hbefore : (k + 1) * sizeofElements ≤ done.length * sizeofElements :=
          Nat.mul_le_mul_right _ hnew
        rw [Nat.succ_mul] at hbefore
        dsimp only
        rw [hstored.outside _ (.inl (by omega))]
        exact hpage.elements k other hk i hi
      · have hlast : k = done.length := by
          have hlt := (List.getElem?_eq_some_iff.mp hk).1
          rw [List.length_append, List.length_singleton] at hlt
          omega
        rw [hlast, List.getElem?_concat_length] at hk
        dsimp only
        rw [hlast, ← Nat.add_assoc, hstored.inside i (Nat.zero_le i) (by omega),
          ← Option.some.inj hk]

theorem InPage.run (hpage : InPage ptr sizeofElements done state)
    (hptr : ptr + 4096 ≤ 2 ^ 32) (hone : 1 ≤ sizeofElements)
    (hfits : (done.length + pushes.length) * sizeofElements < 4096) :
    ∃ final, exec (vectorPush fuel) state pushes = some final ∧
      InPage ptr sizeofElements (done ++ pushes) final := by
  induction pushes generalizing done state with
  | nil =>
      rw [List.append_nil]
      exact ⟨state, rfl, hpage⟩
  | cons push pushes ih =>
      rw [List.length_cons] at hfits
      have hfirst : (done.length + 1) * sizeofElements < 4096 := by
        refine lt_of_le_of_lt (Nat.mul_le_mul_right _ ?_) hfits
        omega
      obtain ⟨next, hstep, hnext⟩ := hpage.step hptr hone hfirst push
      have hlength : (done ++ [push]).length + pushes.length =
          done.length + (pushes.length + 1) := by
        rw [List.length_append, List.length_singleton]
        omega
      obtain ⟨final, hrun, hfinal⟩ := ih hnext (hlength ▸ hfits)
      rw [List.append_assoc, List.singleton_append] at hfinal
      exact ⟨final, exec_cons_eq_some.mpr ⟨next, hstep, hrun⟩, hfinal⟩

/-- `vector_get` on a vector in its first page. -/
theorem InPage.lists (hpage : InPage ptr sizeofElements done state)
    (hptr : ptr + 4096 ≤ 2 ^ 32) (hsome : 1 ≤ done.length)
    (hfits : done.length * sizeofElements < 4096) (hone : 1 ≤ sizeofElements) :
    Lists state done := by
  have hcount : done.length ≤ done.length * sizeofElements := Nat.le_mul_of_pos_right _ hone
  have hlast : (done.length + 2 ^ 32 - 1) % 2 ^ 32 = done.length - 1 := by omega
  have hget : ∀ k, vectorGet k state.vector =
      if k > done.length - 1 then 0 else (ptr + k * sizeofElements) % 2 ^ 32 := by
    intro k
    rw [hpage.vector, vectorGet]
    dsimp only
    rw [hlast]
  refine ⟨?_, ?_⟩
  · intro k push hk i hi
    have hlt := (List.getElem?_eq_some_iff.mp hk).1
    have hend : k * sizeofElements ≤ done.length * sizeofElements :=
      Nat.mul_le_mul_right _ hlt.le
    rw [hpage.vector] at hi
    rw [hget, if_neg (by omega), Nat.mod_eq_of_lt (by omega), Nat.add_assoc]
    exact hpage.elements k push hk i hi
  · intro k hk _
    rw [hget, if_pos (by omega)]

/-- A push that would reach the end of the first page writes to a block without
pages. -/
theorem InPage.crosses (hpage : InPage ptr sizeofElements done state)
    (hone : 1 ≤ sizeofElements) (hmax : sizeofElements ≤ 4096)
    (hinside : done.length * sizeofElements < 4096)
    (hcross : 4096 ≤ (done.length + 1) * sizeofElements)
    (hpush : vectorPush fuel state push = some state') :
    ∃ write ∈ state'.written, ¬write.2.Contains write.1 := by
  have hcount : done.length ≤ done.length * sizeofElements := Nat.le_mul_of_pos_right _ hone
  have hend : (done.length + 1) * sizeofElements =
      done.length * sizeofElements + sizeofElements := Nat.succ_mul _ _
  have hsize : (done.length + 1) % 2 ^ 32 = done.length + 1 := Nat.mod_eq_of_lt (by omega)
  have hpages : done.length * sizeofElements % 2 ^ 32 / 4096 = 0 := by omega
  unfold vectorPush at hpush
  rw [hpage.vector] at hpush
  dsimp only at hpush
  rw [hsize, hpages, if_pos (by omega)] at hpush
  obtain ⟨copied, hcopied, rfl⟩ := Option.map_eq_some_iff.mp hpush
  have hblock : copied.block = ⟨push.newptr, 0⟩ := by
    split at hcopied
    case isTrue => exact copyOld_block hcopied
    case isFalse => rw [← Option.some.inj hcopied]
  refine ⟨_, mem_written_first hone, ?_⟩
  dsimp only
  rw [hblock, Block.Contains]
  dsimp only
  omega

/-- With 256 old bytes or more such a push does not come to an end. -/
theorem InPage.diverges (hpage : InPage ptr sizeofElements done state) (hptr : ptr ≠ 0)
    (hone : 1 ≤ sizeofElements) (hsome : 1 ≤ done.length)
    (hinside : done.length * sizeofElements < 4096)
    (hcross : 4096 ≤ (done.length + 1) * sizeofElements)
    (hlong : 255 < (done.length - 1) * sizeofElements) :
    vectorPush fuel state push = none := by
  have hcount : done.length ≤ done.length * sizeofElements := Nat.le_mul_of_pos_right _ hone
  have hend : (done.length + 1) * sizeofElements =
      done.length * sizeofElements + sizeofElements := Nat.succ_mul _ _
  have hold : (done.length - 1) * sizeofElements ≤ done.length * sizeofElements :=
    Nat.mul_le_mul_right _ (Nat.sub_le _ _)
  have hless : sizeofElements ≤ done.length * sizeofElements :=
    Nat.le_mul_of_pos_left _ hsome
  have hsize : (done.length + 1) % 2 ^ 32 = done.length + 1 := Nat.mod_eq_of_lt (by omega)
  have hlast : (done.length + 2 ^ 32 - 1) % 2 ^ 32 = done.length - 1 := by omega
  unfold vectorPush
  rw [hpage.vector]
  dsimp only
  rw [hsize, hlast, if_pos (by omega), if_pos hptr,
    copyOld_diverges (by rw [Nat.mod_eq_of_lt (by omega)]; exact hlong) (by decide)]
  rfl

/-- A run with enough elements comes to the end of the first page. -/
theorem exec_crosses (hpage : ptr + 4096 ≤ 2 ^ 32) (hone : 1 ≤ sizeofElements)
    (hmax : sizeofElements ≤ 4096) (hlong : 4096 ≤ pushes.length * sizeofElements)
    (hrun : exec (vectorPush fuel) (initVector ptr sizeofElements bytes) pushes =
      some state) : ¬Owned state := by
  have hdiv : 4095 / sizeofElements * sizeofElements ≤ 4095 := Nat.div_mul_le_self _ _
  have hcross : 4096 ≤ (4095 / sizeofElements + 1) * sizeofElements := by
    rw [Nat.mul_comm]
    exact Nat.lt_mul_div_succ 4095 hone
  have hless : 4095 / sizeofElements < pushes.length := by
    by_contra hle
    have hshort : pushes.length * sizeofElements ≤ 4095 / sizeofElements * sizeofElements :=
      Nat.mul_le_mul_right _ (Nat.not_lt.mp hle)
    omega
  have hlength : (pushes.take (4095 / sizeofElements)).length = 4095 / sizeofElements :=
    List.length_take_of_le hless.le
  rw [← List.take_append_drop (4095 / sizeofElements) pushes,
    List.drop_eq_getElem_cons hless] at hrun
  obtain ⟨middle, hbefore, hrest⟩ := exec_append_eq_some.mp hrun
  obtain ⟨next, hstep, hafter⟩ := exec_cons_eq_some.mp hrest
  obtain ⟨reached, hreached, hin⟩ := @InPage.run ptr sizeofElements fuel []
    (pushes.take (4095 / sizeofElements)) (initVector ptr sizeofElements bytes) .init hpage
    hone (by rw [List.length_nil, Nat.zero_add, hlength]; omega)
  obtain rfl : reached = middle := Option.some.inj (hreached.symm.trans hbefore)
  rw [List.nil_append] at hin
  obtain ⟨write, hwrite, hstray⟩ := hin.crosses hone hmax (by rw [hlength]; omega)
    (by rw [hlength]; exact hcross) hstep
  intro howned
  have hkept : write ∈ state.written := exec_preserves
    (fun _ _ _ hmem hpush => mem_written_push hmem hpush) hwrite hafter
  exact hstray (howned write hkept)

end Run

/-- A vector grows as a list exactly as long as it has an element, and all its elements
end before the last byte of the first page. -/
theorem growing_list_iff (ptr sizeofElements : ℕ) (bytes : ℕ → UInt8) (pushes : List Push)
    (hptr : ptr ≠ 0) (hpage : ptr + 4096 ≤ 2 ^ 32) (hone : 1 ≤ sizeofElements)
    (hmax : sizeofElements ≤ 4096) :
    GrowingList ptr sizeofElements bytes pushes ↔
      1 ≤ pushes.length ∧ pushes.length * sizeofElements < 4096 := by
  constructor
  · rintro ⟨fuel, final, hrun, howned, hlists⟩
    have hfits : pushes.length * sizeofElements < 4096 := by
      by_contra hlong
      exact exec_crosses hpage hone hmax (Nat.not_lt.mp hlong) hrun howned
    refine ⟨?_, hfits⟩
    by_contra hempty
    obtain rfl : pushes = [] := List.eq_nil_of_length_eq_zero (by omega)
    rw [exec_nil] at hrun
    have hnull := hlists.bounded 0 (Nat.zero_le 0) (by decide)
    rw [← Option.some.inj hrun] at hnull
    change (ptr + 0 * sizeofElements) % 2 ^ 32 = 0 at hnull
    omega
  · rintro ⟨hsome, hfits⟩
    obtain ⟨final, hrun, hfinal⟩ := @InPage.run ptr sizeofElements 0 [] pushes
      (initVector ptr sizeofElements bytes) .init hpage hone
      (by rw [List.length_nil, Nat.zero_add]; exact hfits)
    rw [List.nil_append] at hfinal
    exact ⟨0, final, hrun, hfinal.owned, hfinal.lists hpage hsome hfits hone⟩

theorem growing_list_short :
    GrowingList 0xc0001000 40 (fun _ => 0) (List.replicate 102 ⟨fun _ => 7, 0⟩) :=
  (growing_list_iff 0xc0001000 40 (fun _ => 0) (List.replicate 102 ⟨fun _ => 7, 0⟩)
    (by decide) (by decide) (by decide) (by decide)).mpr
    (by rw [List.length_replicate]; decide)

/-- An element that is pushed; its page would follow the first one. -/
def sevens : Push := ⟨fun _ => 7, 0xc0002000⟩

/-- `vector_get` finds an element in an empty vector, and the push of the 64th element
of 64 bytes does not come to an end. -/
theorem growing_list_fails :
    vectorGet 0 (initVector 0xc0001000 64 fun _ => 0).vector = 0xc0001000 ∧
      ¬GrowingList 0xc0001000 64 (fun _ => 0) [] ∧
      (∀ fuel, exec (vectorPush fuel) (initVector 0xc0001000 64 fun _ => 0)
        (List.replicate 64 sevens) = none) ∧
      ¬GrowingList 0xc0001000 64 (fun _ => 0)
        (List.replicate 64 sevens) := by
  have hdiverges : ∀ fuel, exec (vectorPush fuel) (initVector 0xc0001000 64 fun _ => 0)
      (List.replicate 64 sevens) = none := by
    intro fuel
    by_contra hsome
    obtain ⟨final, hrun⟩ := Option.ne_none_iff_exists'.mp hsome
    have hsplit : List.replicate 64 sevens = List.replicate 63 sevens ++ [sevens] :=
      List.replicate_succ'
    rw [hsplit] at hrun
    obtain ⟨middle, hbefore, hrest⟩ := exec_append_eq_some.mp hrun
    obtain ⟨next, hstep, -⟩ := exec_cons_eq_some.mp hrest
    obtain ⟨reached, hreached, hin⟩ := @InPage.run 0xc0001000 64 fuel []
      (List.replicate 63 sevens) (initVector 0xc0001000 64 fun _ => 0)
      .init (by decide) (by decide) (by rw [List.length_replicate]; decide)
    obtain rfl : reached = middle := Option.some.inj (hreached.symm.trans hbefore)
    have hlength : (([] : List Push) ++ List.replicate 63 sevens).length = 63 := by
      rw [List.nil_append, List.length_replicate]
    have hnone : vectorPush fuel reached sevens = none := hin.diverges (by decide) (by decide)
      (by rw [hlength]; decide) (by rw [hlength]; decide) (by rw [hlength])
      (by rw [hlength]; decide)
    exact Option.some_ne_none next (hstep.symm.trans hnone)
  refine ⟨by decide, ?_, hdiverges, ?_⟩
  · rintro ⟨fuel, final, hrun, -, hlists⟩
    have hnull := hlists.bounded 0 (Nat.zero_le 0) (by decide)
    rw [exec_nil, Option.some.injEq] at hrun
    subst hrun
    exact absurd hnull (by decide)
  · rintro ⟨fuel, final, hrun, -, -⟩
    exact Option.some_ne_none final (hrun.symm.trans (hdiverges fuel))

end KimisOS.Modules
