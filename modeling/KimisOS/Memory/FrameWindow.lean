import KimisOS.Memory.PageBlocks

/-!
# Loops through a window

The kernel writes a frame that is no part of its address space through a page
of its own.  While the page shows the frame, a loop of stores replaces a range
of the frame's words and nothing else, so its result can be written down.
-/

namespace KimisOS.FrameWindow

open KimisOS.Frames
open KimisOS.Paging
open KimisOS.Kmalloc
open KimisOS.Fork
open KimisOS.Effects

/-! ## Ranges of words -/

/-- The words of a table, with `count` of them from `low` on taken from another
one. -/
def overlay (low count : ℕ) (table old : BitVec 10 → BitVec 32) :
    BitVec 10 → BitVec 32 :=
  fun index => if low ≤ index.toNat ∧ index.toNat < low + count then table index
    else old index

variable {low count : ℕ} {table old : BitVec 10 → BitVec 32}

theorem overlay_inside {index : BitVec 10} (hlow : low ≤ index.toNat)
    (hhigh : index.toNat < low + count) : overlay low count table old index = table index :=
  if_pos ⟨hlow, hhigh⟩

theorem overlay_outside {index : BitVec 10}
    (hout : ¬ (low ≤ index.toNat ∧ index.toNat < low + count)) :
    overlay low count table old index = old index :=
  if_neg hout

@[simp]
theorem overlay_zero (low : ℕ) (table old : BitVec 10 → BitVec 32) :
    overlay low 0 table old = old := by
  funext index
  apply overlay_outside
  omega

@[simp]
theorem overlay_all (table old : BitVec 10 → BitVec 32) :
    overlay 0 1024 table old = table := by
  funext index
  have hindex := index.isLt
  apply overlay_inside
  · omega
  · omega

theorem ofNat_toNat {index : ℕ} (hindex : index < 1024) :
    (BitVec.ofNat 10 index).toNat = index := by
  rw [BitVec.toNat_ofNat]
  exact Nat.mod_eq_of_lt hindex

theorem overlay_succ (hbound : low + count < 1024) :
    Function.update (overlay low count table old) (BitVec.ofNat 10 (low + count))
      (table (BitVec.ofNat 10 (low + count))) = overlay low (count + 1) table old := by
  have hvalue := ofNat_toNat hbound
  funext index
  by_cases hindex : index = BitVec.ofNat 10 (low + count)
  · subst hindex
    rw [Function.update_self, overlay_inside (by omega) (by omega)]
  · have hne : index.toNat ≠ low + count := by
      intro heq
      apply hindex
      apply BitVec.eq_of_toNat_eq
      rw [heq, hvalue]
    rw [Function.update_of_ne hindex]
    unfold overlay
    congr 1
    simp only [eq_iff_iff]
    omega

/-! ## Windows -/

theorem setTable_setWord (m : Machine) (frame : BitVec 20)
    (table : BitVec 10 → BitVec 32) (index : BitVec 10) (word : BitVec 32) :
    (m.setTable frame table).setWord frame index word =
      m.setTable frame (Function.update table index word) := by
  simp only [Machine.setTable, Machine.setWord, Function.update_self,
    Function.update_idem]

@[simp]
theorem setTable_self (m : Machine) (frame : BitVec 20) :
    m.setTable frame (m.mem frame) = m := by
  simp only [Machine.setTable, Function.update_eq_self]

@[simp]
theorem setTable_mem_self (m : Machine) (frame : BitVec 20)
    (table : BitVec 10 → BitVec 32) : (m.setTable frame table).mem frame = table := by
  funext index
  rw [setTable_mem, if_pos rfl]

/-- A kernel page that shows a frame outside the kernel's address space. -/
structure Shows (m : Machine) (page : ℕ) (frame : BitVec 20) : Prop where
  tables : KernelTables m
  kernelPage : KernelPage page
  present : present (pageEntry m page) = true
  shown : frameOf (pageEntry m page) = frame
  plain : Plain m frame

variable {m : Machine} {page : ℕ} {frame : BitVec 20}

/-- Whatever is written to a plain frame, the page keeps showing its own. -/
theorem Shows.setTable (hshows : Shows m page frame) {other : BitVec 20}
    (hother : Plain m other) (table : BitVec 10 → BitVec 32) :
    Shows (m.setTable other table) page frame := by
  obtain ⟨htables, hsame⟩ := hshows.tables.setTable hother table
  have heffect : Effect {other} m (m.setTable other table) :=
    effect_setTable hother.notDirectory (Set.mem_singleton _) table
  refine ⟨htables, hshows.kernelPage, ?_, ?_, heffect.plain hshows.plain⟩
  · rw [hsame.entry page hshows.kernelPage]
    exact hshows.present
  · rw [hsame.entry page hshows.kernelPage]
    exact hshows.shown

theorem Shows.load (hshows : Shows m page frame) {index : ℕ} (hindex : index < 1024) :
    m.load (wordAt (pageAt page) index) = some (m.mem frame (BitVec.ofNat 10 index)) := by
  rw [load_page hshows.tables.addressable hshows.kernelPage rfl hshows.present hindex,
    hshows.shown]

theorem Shows.store (hshows : Shows m page frame) {index : ℕ} (hindex : index < 1024)
    (word : BitVec 32) : m.store (wordAt (pageAt page) index) word =
      some (m.setWord frame (BitVec.ofNat 10 index) word) := by
  rw [store_page hshows.tables.addressable hshows.kernelPage rfl hshows.present hindex,
    hshows.shown]

/-- One more word of the range. -/
theorem Shows.store_overlay (hshows : Shows m page frame) (hbound : low + count < 1024) :
    (m.setTable frame (overlay low count table (m.mem frame))).store
        (wordAt (pageAt page) (low + count)) (table (BitVec.ofNat 10 (low + count))) =
      some (m.setTable frame (overlay low (count + 1) table (m.mem frame))) := by
  have hnext := hshows.setTable hshows.plain (overlay low count table (m.mem frame))
  rw [hnext.store hbound, setTable_setWord, overlay_succ hbound]

/-! ## The loops -/

theorem Shows.clearWords (hshows : Shows m page frame) (hcount : count ≤ 1024) :
    Fork.clearWords m (pageAt page) count =
      some (m.setTable frame (overlay 0 count (fun _ => 0) (m.mem frame))) := by
  induction count with
  | zero => simp [Fork.clearWords]
  | succ count ih =>
      have hstore : (m.setTable frame (overlay 0 count (fun _ => 0) (m.mem frame))).store
          (wordAt (pageAt page) (0 + count)) 0 = _ :=
        hshows.store_overlay (show 0 + count < 1024 by omega)
      rw [Nat.zero_add count] at hstore
      simp only [Fork.clearWords, ih (by omega), Option.bind_eq_bind, Option.bind_some,
        hstore]

/-- `memcpy` from a pointer behind which the same words are read whatever the
frame holds. -/
theorem Shows.copyWords (hshows : Shows m page frame) {src : BitVec 32}
    {source : BitVec 10 → BitVec 32}
    (hsource : ∀ table, ∀ index < 1024, (m.setTable frame table).load (wordAt src index) =
      some (source (BitVec.ofNat 10 index)))
    (hcount : count ≤ 1024) :
    Fork.copyWords m src (pageAt page) count =
      some (m.setTable frame (overlay 0 count source (m.mem frame))) := by
  induction count with
  | zero => simp [Fork.copyWords]
  | succ count ih =>
      have hstore : (m.setTable frame (overlay 0 count source (m.mem frame))).store
          (wordAt (pageAt page) (0 + count)) (source (BitVec.ofNat 10 (0 + count))) = _ :=
        hshows.store_overlay (show 0 + count < 1024 by omega)
      rw [Nat.zero_add count] at hstore
      simp only [Fork.copyWords, ih (by omega), Option.bind_eq_bind, Option.bind_some,
        hsource _ count (by omega), hstore]

theorem Shows.copyKernel (hshows : Shows m page frame) (hcount : count ≤ 256) :
    Fork.copyKernel m (pageAt page) count =
      some (m.setTable frame (overlay 768 count m.pde (m.mem frame))) := by
  induction count with
  | zero => simp [Fork.copyKernel]
  | succ count ih =>
      have hpde : ∀ table slot, (m.setTable frame table).pde slot = m.pde slot :=
        setTable_pde hshows.plain.notDirectory
      have hload : ∀ table slot, (m.setTable frame table).load (pdAddress slot) =
          some (m.pde slot) := by
        intro table slot
        have hnext := (hshows.setTable hshows.plain table).tables.addressable.recursive
        rw [load_pdAddress hnext, hpde]
      have hstore : (m.setTable frame (overlay 768 count m.pde (m.mem frame))).store
          (wordAt (pageAt page) (768 + count)) (m.pde (BitVec.ofNat 10 (768 + count))) = _ :=
        hshows.store_overlay (show 768 + count < 1024 by omega)
      simp only [Fork.copyKernel, ih (by omega), hload, hstore, Option.bind_eq_bind,
        Option.bind_some]

end KimisOS.FrameWindow
