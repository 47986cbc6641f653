import Mathlib

/-!
# The DMA descriptor table

`ata_read` and `ata_write` hand the bus master a table of physical regions for
the pages of a buffer.  Pages that follow each other in physical memory are
merged, at most 16 of them, and a region that passes a 64 KiB boundary is cut
there.  The loop looks one page ahead for the boundary and never forgets that
it has seen one; when the resulting table is right depends on the layout of the
whole buffer.
-/

namespace KimisOS.Prdt

/-- `PRD_T`.  A byte count of 0 stands for 64 KiB, and the top bit of the
reserved field marks the end of the table. -/
structure Prd where
  address : ℕ
  byteCount : ℕ
  reserved : ℕ
  deriving DecidableEq

/-- `MODULE_API_PADDR`, for the frames that the page tables assign to the
virtual pages. -/
def getPaddr (frames : ℕ → Fin (2 ^ 20)) (vaddr : ℕ) : ℕ :=
  4096 * (frames (vaddr / 4096)).val

section Table

variable (frames : ℕ → Fin (2 ^ 20)) (ptr : ℕ)

/-- The physical address of the page of `ptr + (k << 12)`. -/
def pagePaddr (k : ℕ) : ℕ := getPaddr frames ((ptr + 4096 * k) % 2 ^ 32)

/-- The inner loop, with `rounds` iterations left to the limit of 16 pages.  It
returns `ccount` and `boundary_page`. -/
def consecutive (pages i : ℕ) : ℕ → ℕ → ℕ → ℕ × ℕ
  | 0, ccount, boundaryPage => (ccount, boundaryPage)
  | rounds + 1, ccount, boundaryPage =>
      if i + ccount < pages ∧ pagePaddr frames ptr (i + ccount) =
          (pagePaddr frames ptr i + ccount * 4096) % 2 ^ 32 then
        let nextPaddr :=
          (pagePaddr frames ptr (i + ccount + 1) + ptr % 4096) % 2 ^ 32
        consecutive pages i rounds (ccount + 1)
          (if nextPaddr % 0x10000 + 4096 ≥ 0x10000 then ccount + 1
           else boundaryPage)
      else (ccount, boundaryPage)

/-- The entries for one run of pages, one or two of them. -/
def runEntries (pages i ccount boundaryPage : ℕ) : List Prd :=
  let paddrOffset := ptr % 4096
  let paddr := pagePaddr frames ptr i
  let address := (paddr + paddrOffset) % 2 ^ 32
  let newPaddr := pagePaddr frames ptr (i + ccount - 1)
  let reserved := if i + ccount ≥ pages - 1 then 0x8000 else 0
  if (newPaddr + paddrOffset) % 2 ^ 32 % 0x10000 + 4096 ≥ 0x10000 ∨
      boundaryPage ≠ 0 then
    let prdOffset := paddr % 0x10000 + paddrOffset
    let bytesToBoundary := (0x10000 + 2 ^ 32 - prdOffset) % 2 ^ 32
    let secondCount := (ccount * 4096 + 2 ^ 32 - bytesToBoundary) % 2 ^ 32
    [{ address := address
       byteCount := bytesToBoundary % 2 ^ 16
       reserved := 0 },
     { address := (paddr + paddrOffset + bytesToBoundary) % 2 ^ 32
       byteCount := secondCount % 2 ^ 16
       reserved := reserved }]
  else
    [{ address := address
       byteCount := 4096 * ccount % 2 ^ 16
       reserved := reserved }]

/-- The outer loop from page `i` on. -/
def prdtFrom (pages : ℕ) : ℕ → ℕ → ℕ → List Prd
  | 0, _, _ => []
  | rounds + 1, i, boundaryPage =>
      if i < pages then
        let (ccount, boundaryPage) :=
          consecutive frames ptr pages i 16 0 boundaryPage
        runEntries frames ptr pages i ccount boundaryPage ++
          prdtFrom pages rounds (i + ccount) boundaryPage
      else []

def pageCount (count : ℕ) : ℕ := (count + 4095) % 2 ^ 64 / 4096 % 2 ^ 32

/-- The table of a transfer, or `none` when the driver returns `-1` before it
builds one. -/
def ataPrdt (count : ℕ) : Option (List Prd) :=
  if count = 0 then none
  else if pageCount count * 8 % 2 ^ 32 = 0 then none
  else some (prdtFrom frames ptr (pageCount count) (pageCount count) 0 0)

def ataReadPrdt (count : ℕ) : Option (List Prd) := ataPrdt frames ptr count

def ataWritePrdt (count : ℕ) : Option (List Prd) := ataPrdt frames ptr count

end Table

/-! ## What a table describes -/

def Prd.length (entry : Prd) : ℕ :=
  if entry.byteCount = 0 then 0x10000 else entry.byteCount

def Prd.bytes (entry : Prd) : List ℕ :=
  (List.range entry.length).map fun k => entry.address + k

def Prd.isLast (entry : Prd) : Prop := entry.reserved.testBit 15 = true

instance (entry : Prd) : Decidable entry.isLast :=
  inferInstanceAs (Decidable (_ = _))

/-- The entries that the bus master reads. -/
def upToEnd : List Prd → List Prd
  | [] => []
  | entry :: rest => if entry.isLast then [entry] else entry :: upToEnd rest

/-- The physical address of one byte of the buffer. -/
def physByte (frames : ℕ → Fin (2 ^ 20)) (ptr j : ℕ) : ℕ :=
  getPaddr frames ((ptr + j) % 2 ^ 32) + (ptr + j) % 4096

/-- Only the last entry carries the end bit. -/
def EndsOnce (prdt : List Prd) : Prop :=
  ∃ body last, prdt = body ++ [last] ∧ last.isLast ∧
    ∀ entry ∈ body, ¬ entry.isLast

/-- The table lists the bytes of the pages in order and nothing else, no entry
crosses a 64 KiB boundary, and the table ends with its last entry. -/
structure Describes (frames : ℕ → Fin (2 ^ 20)) (ptr pages : ℕ)
    (prdt : List Prd) : Prop where
  bytes : (upToEnd prdt).flatMap Prd.bytes =
    (List.range (4096 * pages)).map (physByte frames ptr)
  inside : ∀ entry ∈ upToEnd prdt,
    entry.address % 0x10000 + entry.length ≤ 0x10000
  ends : EndsOnce prdt

/-! ## The layout of the buffer -/

section Layout

variable (frames : ℕ → Fin (2 ^ 20)) (ptr : ℕ)

/-- Page `i + k` follows page `i` at distance `k` in physical memory. -/
def Follows (i k : ℕ) : Prop :=
  pagePaddr frames ptr (i + k) = (pagePaddr frames ptr i + k * 4096) % 2 ^ 32

/-- The page is the last one of a 64 KiB block. -/
def LastOfBlock (k : ℕ) : Prop := pagePaddr frames ptr k % 0x10000 = 0xf000

instance (i k : ℕ) : Decidable (Follows frames ptr i k) :=
  inferInstanceAs (Decidable (_ = _))

instance (k : ℕ) : Decidable (LastOfBlock frames ptr k) :=
  inferInstanceAs (Decidable (_ = _))

/-- `ccount` pages from `i` on form a longest run of at most 16 pages. -/
structure IsRun (pages i ccount : ℕ) : Prop where
  pos : 0 < ccount
  le : ccount ≤ 16
  bound : i + ccount ≤ pages
  follows : ∀ k < ccount, Follows frames ptr i k
  maximal : ccount = 16 ∨ i + ccount = pages ∨ ¬ Follows frames ptr i ccount

/-- Cutting the pages into runs from page `i` on, a run starts at page `j`. -/
inductive RunFrom (pages : ℕ) : ℕ → ℕ → Prop
  | refl (i : ℕ) : RunFrom pages i i
  | step {i ccount j : ℕ} : IsRun frames ptr pages i ccount →
      RunFrom pages (i + ccount) j → RunFrom pages i j

/-- The bytes of the run pass a 64 KiB boundary. -/
def Crosses (i ccount : ℕ) : Prop :=
  0x10000 < pagePaddr frames ptr i % 0x10000 + ptr % 4096 + 4096 * ccount

/-- One of the pages that the loop has looked at when it is through with
`done` pages ends a 64 KiB block: the last of them, or one of the pages after
the first, with the page behind them. -/
def SeesBoundary (done : ℕ) : Prop :=
  LastOfBlock frames ptr (done - 1) ∨
    ∃ k, 1 ≤ k ∧ k ≤ done ∧ LastOfBlock frames ptr k

/-- What the loop needs of a run. -/
structure RunOk (pages i ccount : ℕ) : Prop where
  split : SeesBoundary frames ptr (i + ccount) ↔ Crosses frames ptr i ccount
  behind : ptr % 4096 ≠ 0 → Follows frames ptr i ccount
  notEarly : i + ccount + 1 ≠ pages

end Layout

section Facts

variable (frames : ℕ → Fin (2 ^ 20)) (ptr : ℕ)

theorem pagePaddr_mod (k : ℕ) : pagePaddr frames ptr k % 4096 = 0 :=
  Nat.mul_mod_right 4096 _

theorem pagePaddr_lt (k : ℕ) : pagePaddr frames ptr k < 2 ^ 32 := by
  have hframe := (frames ((ptr + 4096 * k) % 2 ^ 32 / 4096)).isLt
  simp only [pagePaddr, getPaddr]
  omega

/-- The test of the loop for the last page of a block does not depend on the
offset of the buffer in its page. -/
theorem boundary_test_iff (k : ℕ) :
    (pagePaddr frames ptr k + ptr % 4096) % 2 ^ 32 % 0x10000 + 4096 ≥ 0x10000 ↔
      LastOfBlock frames ptr k := by
  have haligned := pagePaddr_mod frames ptr k
  unfold LastOfBlock
  omega

/-- The byte at a distance from the start of the buffer is in the page at that
distance. -/
theorem physByte_eq (j : ℕ) :
    physByte frames ptr j =
      pagePaddr frames ptr ((ptr % 4096 + j) / 4096) + (ptr % 4096 + j) % 4096 := by
  have hpage : (ptr + j) % 2 ^ 32 / 4096 =
      (ptr + 4096 * ((ptr % 4096 + j) / 4096)) % 2 ^ 32 / 4096 := by omega
  have hbyte : (ptr + j) % 4096 = (ptr % 4096 + j) % 4096 := by omega
  simp only [physByte, pagePaddr, getPaddr, hpage, hbyte]

end Facts

/-! ## Runs -/

section Run

variable {frames : ℕ → Fin (2 ^ 20)} {ptr pages : ℕ}

/-- The runs of a layout are determined by where they start. -/
theorem IsRun.unique {i ccount ccount' : ℕ} (hrun : IsRun frames ptr pages i ccount)
    (hrun' : IsRun frames ptr pages i ccount') : ccount = ccount' := by
  have hle : ∀ {a b : ℕ}, IsRun frames ptr pages i a →
      IsRun frames ptr pages i b → a ≤ b := by
    intro a b ha hb
    by_contra hlt
    rcases hb.maximal with hfull | hend | hbreak
    · have := ha.le
      omega
    · have := ha.bound
      omega
    · exact hbreak (ha.follows b (by omega))
  exact Nat.le_antisymm (hle hrun hrun') (hle hrun' hrun)

theorem consecutive_more {i rounds ccount boundaryPage : ℕ}
    (hmore : i + ccount < pages ∧ Follows frames ptr i ccount) :
    consecutive frames ptr pages i (rounds + 1) ccount boundaryPage =
      consecutive frames ptr pages i rounds (ccount + 1)
        (if LastOfBlock frames ptr (i + ccount + 1) then ccount + 1
         else boundaryPage) := by
  have hguard : i + ccount < pages ∧ pagePaddr frames ptr (i + ccount) =
      (pagePaddr frames ptr i + ccount * 4096) % 2 ^ 32 := hmore
  rw [consecutive, if_pos hguard]
  simp only [boundary_test_iff]

theorem consecutive_done {i rounds ccount boundaryPage : ℕ}
    (hdone : ¬(i + ccount < pages ∧ Follows frames ptr i ccount)) :
    consecutive frames ptr pages i (rounds + 1) ccount boundaryPage =
      (ccount, boundaryPage) := by
  have hguard : ¬(i + ccount < pages ∧ pagePaddr frames ptr (i + ccount) =
      (pagePaddr frames ptr i + ccount * 4096) % 2 ^ 32) := hdone
  rw [consecutive, if_neg hguard]

/-- The inner loop finds a run, and remembers a boundary page among those it
has looked ahead to. -/
theorem consecutive_spec {i rounds ccount boundaryPage : ℕ}
    (hrounds : ccount + rounds = 16) (hbound : i + ccount ≤ pages)
    (hpos : 0 < ccount ∨ i < pages)
    (hfollows : ∀ k < ccount, Follows frames ptr i k) :
    ∃ total boundaryPage',
      consecutive frames ptr pages i rounds ccount boundaryPage =
        (total, boundaryPage') ∧
      ccount ≤ total ∧ IsRun frames ptr pages i total ∧
      (boundaryPage' ≠ 0 ↔ boundaryPage ≠ 0 ∨
        ∃ k, i + ccount < k ∧ k ≤ i + total ∧ LastOfBlock frames ptr k) := by
  induction rounds generalizing ccount boundaryPage with
  | zero =>
      refine ⟨ccount, boundaryPage, rfl, le_refl _,
        ⟨by omega, by omega, hbound, hfollows, .inl hrounds⟩, ?_⟩
      refine ⟨.inl, fun hor => hor.resolve_right ?_⟩
      rintro ⟨k, hlt, hle, -⟩
      omega
  | succ rounds ih =>
      by_cases hmore : i + ccount < pages ∧ Follows frames ptr i ccount
      · rw [consecutive_more hmore]
        have hfollows' : ∀ k < ccount + 1, Follows frames ptr i k := by
          intro k hk
          rcases Nat.lt_succ_iff_lt_or_eq.mp hk with hlt | rfl
          · exact hfollows k hlt
          · exact hmore.2
        obtain ⟨total, boundaryPage', heq, hle, hrun, hboundary⟩ :=
          ih (by omega) (by omega) (.inl (Nat.succ_pos _)) hfollows'
        refine ⟨total, boundaryPage', heq, by omega, hrun, hboundary.trans ?_⟩
        constructor
        · rintro (hnow | ⟨k, hlt, hle, hlast⟩)
          · split at hnow
            case isTrue hlast =>
              exact .inr ⟨i + ccount + 1, by omega, by omega, hlast⟩
            case isFalse => exact .inl hnow
          · exact .inr ⟨k, by omega, hle, hlast⟩
        · rintro (hold | ⟨k, hlt, hle, hlast⟩)
          · left
            split
            · exact Nat.succ_ne_zero _
            · exact hold
          · by_cases hk : k = i + ccount + 1
            · left
              rw [if_pos (hk ▸ hlast)]
              exact Nat.succ_ne_zero _
            · exact .inr ⟨k, by omega, hle, hlast⟩
      · rw [consecutive_done hmore]
        have hzero : Follows frames ptr i 0 := by
          have hlt := pagePaddr_lt frames ptr i
          simp only [Follows, Nat.add_zero, Nat.zero_mul]
          exact (Nat.mod_eq_of_lt hlt).symm
        have hccount : 0 < ccount := by
          by_contra hnot
          obtain rfl : ccount = 0 := by omega
          exact hmore ⟨by omega, hzero⟩
        refine ⟨ccount, boundaryPage, rfl, le_refl _,
          ⟨hccount, by omega, hbound, hfollows, ?_⟩, ?_⟩
        · by_cases hend : i + ccount = pages
          · exact .inr (.inl hend)
          · exact .inr (.inr fun hnext => hmore ⟨by omega, hnext⟩)
        · refine ⟨.inl, fun hor => hor.resolve_right ?_⟩
          rintro ⟨k, hlt, hle, -⟩
          omega

end Run

/-! ## The entries of a run -/

section RunEntries

variable {frames : ℕ → Fin (2 ^ 20)} {ptr pages i ccount boundaryPage : ℕ}

/-- The flag that the loop carries speaks of the pages from 1 to `done`. -/
def BoundaryFlag (frames : ℕ → Fin (2 ^ 20)) (ptr boundaryPage done : ℕ) : Prop :=
  boundaryPage ≠ 0 ↔ ∃ k, 1 ≤ k ∧ k ≤ done ∧ LastOfBlock frames ptr k

theorem runEntries_of_sees (hflag : BoundaryFlag frames ptr boundaryPage (i + ccount))
    (hsees : SeesBoundary frames ptr (i + ccount)) :
    runEntries frames ptr pages i ccount boundaryPage =
      [{ address := (pagePaddr frames ptr i + ptr % 4096) % 2 ^ 32
         byteCount := (0x10000 -
           (pagePaddr frames ptr i % 0x10000 + ptr % 4096)) % 2 ^ 16
         reserved := 0 },
       { address := (pagePaddr frames ptr i + ptr % 4096 + (0x10000 -
           (pagePaddr frames ptr i % 0x10000 + ptr % 4096))) % 2 ^ 32
         byteCount := (ccount * 4096 + 2 ^ 32 - (0x10000 -
           (pagePaddr frames ptr i % 0x10000 + ptr % 4096))) % 2 ^ 32 % 2 ^ 16
         reserved := if i + ccount ≥ pages - 1 then 0x8000 else 0 }] := by
  have haligned := pagePaddr_mod frames ptr i
  have hboundary : (0x10000 + 2 ^ 32 -
        (pagePaddr frames ptr i % 0x10000 + ptr % 4096)) % 2 ^ 32 =
      0x10000 - (pagePaddr frames ptr i % 0x10000 + ptr % 4096) := by omega
  have htest : LastOfBlock frames ptr (i + ccount - 1) ∨ boundaryPage ≠ 0 :=
    hsees.imp id hflag.mpr
  simp only [runEntries, boundary_test_iff, if_pos htest, hboundary]

theorem runEntries_of_not_sees
    (hflag : BoundaryFlag frames ptr boundaryPage (i + ccount))
    (hsees : ¬ SeesBoundary frames ptr (i + ccount)) :
    runEntries frames ptr pages i ccount boundaryPage =
      [{ address := (pagePaddr frames ptr i + ptr % 4096) % 2 ^ 32
         byteCount := 4096 * ccount % 2 ^ 16
         reserved := if i + ccount ≥ pages - 1 then 0x8000 else 0 }] := by
  have htest : ¬(LastOfBlock frames ptr (i + ccount - 1) ∨ boundaryPage ≠ 0) :=
    fun hor => hsees (hor.imp id hflag.mp)
  simp only [runEntries, boundary_test_iff, if_neg htest]

/-- The physical bytes from the start of a run on. -/
def byteRun (frames : ℕ → Fin (2 ^ 20)) (ptr i length : ℕ) : List ℕ :=
  (List.range length).map fun j =>
    (pagePaddr frames ptr i + ptr % 4096 + j) % 2 ^ 32

theorem bytes_of_eq {entry : Prd} {length : ℕ} (start : ℕ)
    (hlength : entry.length = length)
    (haddress : ∀ k < length, entry.address + k = (start + k) % 2 ^ 32) :
    entry.bytes = (List.range length).map fun k => (start + k) % 2 ^ 32 := by
  rw [Prd.bytes, hlength]
  apply List.map_congr_left
  intro k hk
  exact haddress k (List.mem_range.mp hk)

/-- When the run is cut exactly if it passes a boundary, its entries list its
bytes and stay inside their blocks. -/
theorem runEntries_bytes (hpos : 0 < ccount) (hle : ccount ≤ 16)
    (hflag : BoundaryFlag frames ptr boundaryPage (i + ccount))
    (hsplit : SeesBoundary frames ptr (i + ccount) ↔ Crosses frames ptr i ccount) :
    (runEntries frames ptr pages i ccount boundaryPage).flatMap Prd.bytes =
        byteRun frames ptr i (4096 * ccount) ∧
      ∀ entry ∈ runEntries frames ptr pages i ccount boundaryPage,
        entry.address % 0x10000 + entry.length ≤ 0x10000 := by
  have haligned := pagePaddr_mod frames ptr i
  have hlt := pagePaddr_lt frames ptr i
  by_cases hsees : SeesBoundary frames ptr (i + ccount)
  · have hcrosses := hsplit.mp hsees
    unfold Crosses at hcrosses
    rw [runEntries_of_sees hflag hsees]
    unfold byteRun
    generalize hpaddr : pagePaddr frames ptr i = paddr at *
    generalize hoff : ptr % 4096 = offset at *
    have hofflt : offset < 4096 := by omega
    obtain ⟨first, hfirst⟩ : ∃ first, first = 0x10000 - (paddr % 0x10000 + offset) :=
      ⟨_, rfl⟩
    obtain ⟨second, hsecond⟩ : ∃ second, 4096 * ccount = first + second :=
      ⟨4096 * ccount - first, by omega⟩
    rw [← hfirst, hsecond, List.range_add, List.map_append, List.map_map]
    have hcount : (ccount * 4096 + 2 ^ 32 - first) % 2 ^ 32 % 2 ^ 16 = second := by
      omega
    rw [hcount]
    have hlength₁ : Prd.length ⟨(paddr + offset) % 2 ^ 32, first % 2 ^ 16, 0⟩ =
        first := by
      simp only [Prd.length]
      split <;> omega
    have hlength₂ : ∀ reserved, Prd.length
        ⟨(paddr + offset + first) % 2 ^ 32, second, reserved⟩ = second := by
      intro reserved
      simp only [Prd.length]
      split <;> omega
    constructor
    · rw [List.flatMap_cons, List.flatMap_singleton]
      congr 1
      · apply bytes_of_eq _ hlength₁
        intro k hk
        dsimp only
        omega
      · have htail := bytes_of_eq (paddr + offset + first)
          (hlength₂ (if i + ccount ≥ pages - 1 then 0x8000 else 0)) (by
            intro k hk
            dsimp only
            omega)
        rw [htail]
        apply List.map_congr_left
        intro k hk
        simp only [Function.comp_apply, Nat.add_assoc]
    · intro entry hentry
      rcases List.mem_cons.mp hentry with rfl | hentry
      · rw [hlength₁]
        dsimp only
        omega
      · rw [List.mem_singleton.mp hentry, hlength₂]
        dsimp only
        omega
  · have hcrosses := mt hsplit.mpr hsees
    unfold Crosses at hcrosses
    rw [runEntries_of_not_sees hflag hsees]
    have hlength : ∀ address reserved, Prd.length
        ⟨address, 4096 * ccount % 2 ^ 16, reserved⟩ = 4096 * ccount := by
      intro address reserved
      simp only [Prd.length]
      split <;> omega
    constructor
    · rw [List.flatMap_singleton]
      apply bytes_of_eq _ (hlength _ _)
      intro k hk
      dsimp only
      omega
    · intro entry hentry
      rw [List.mem_singleton.mp hentry, hlength]
      dsimp only
      omega

/-- A cut that is not needed lists 64 KiB too much. -/
theorem length_runEntries_of_needless (hpos : 0 < ccount)
    (hflag : BoundaryFlag frames ptr boundaryPage (i + ccount))
    (hsees : SeesBoundary frames ptr (i + ccount))
    (hnot : ¬ Crosses frames ptr i ccount) :
    ((runEntries frames ptr pages i ccount boundaryPage).flatMap Prd.bytes).length =
      4096 * ccount + 0x10000 := by
  have haligned := pagePaddr_mod frames ptr i
  unfold Crosses at hnot
  rw [runEntries_of_sees hflag hsees]
  simp only [List.flatMap_cons, List.flatMap_nil, List.length_append, Prd.bytes,
    List.length_map, List.length_range, List.length_nil, Prd.length]
  split <;> split <;> omega

theorem le_length_runEntries (hpos : 0 < ccount) (hle : ccount ≤ 16)
    (hflag : BoundaryFlag frames ptr boundaryPage (i + ccount)) :
    4096 * ccount ≤
      ((runEntries frames ptr pages i ccount boundaryPage).flatMap
        Prd.bytes).length := by
  by_cases hneedless : SeesBoundary frames ptr (i + ccount) ∧
      ¬ Crosses frames ptr i ccount
  · rw [length_runEntries_of_needless hpos hflag hneedless.1 hneedless.2]
    exact Nat.le_add_right _ _
  · by_cases hsees : SeesBoundary frames ptr (i + ccount)
    · have hsplit : SeesBoundary frames ptr (i + ccount) ↔
          Crosses frames ptr i ccount :=
        iff_of_true hsees (by_contra fun hnot => hneedless ⟨hsees, hnot⟩)
      rw [(runEntries_bytes hpos hle hflag hsplit).1]
      simp [byteRun]
    · rw [runEntries_of_not_sees hflag hsees, List.flatMap_singleton, Prd.bytes,
        List.length_map, List.length_range, Prd.length]
      dsimp only
      split <;> omega

/-- Without a cut, a run that passes a boundary is one entry that crosses
it. -/
theorem runEntries_crossing (hle : ccount ≤ 16)
    (hflag : BoundaryFlag frames ptr boundaryPage (i + ccount))
    (hsees : ¬ SeesBoundary frames ptr (i + ccount))
    (hcrosses : Crosses frames ptr i ccount) :
    ∃ entry ∈ runEntries frames ptr pages i ccount boundaryPage,
      0x10000 < entry.address % 0x10000 + entry.length := by
  have haligned := pagePaddr_mod frames ptr i
  unfold Crosses at hcrosses
  rw [runEntries_of_not_sees hflag hsees]
  refine ⟨_, List.mem_singleton_self _, ?_⟩
  simp only [Prd.length]
  split <;> omega

/-- The entries of a run carry the end bit on the last of them, when at most
one page is left. -/
theorem runEntries_flags (boundaryPage : ℕ) :
    ∃ body last, runEntries frames ptr pages i ccount boundaryPage = body ++ [last] ∧
      (last.isLast ↔ pages ≤ i + ccount + 1) ∧
      ∀ entry ∈ body, ¬ entry.isLast := by
  have hflag : ∀ address byteCount, (Prd.isLast ⟨address, byteCount,
      if i + ccount ≥ pages - 1 then 0x8000 else 0⟩ ↔ pages ≤ i + ccount + 1) := by
    intro address byteCount
    simp only [Prd.isLast]
    split
    · exact iff_of_true (by decide) (by omega)
    · exact iff_of_false (by decide) (by omega)
  simp only [runEntries]
  split
  · refine ⟨[_], _, rfl, hflag _ _, ?_⟩
    intro entry hentry
    rw [List.mem_singleton.mp hentry]
    simp [Prd.isLast]
  · refine ⟨[], _, rfl, hflag _ _, ?_⟩
    intro entry hentry
    cases hentry

/-- The bytes of the run are those of the buffer, if the buffer starts on a
page or the page behind the run follows too. -/
theorem byteRun_eq_iff (hrun : IsRun frames ptr pages i ccount) :
    byteRun frames ptr i (4096 * ccount) =
        (List.range (4096 * ccount)).map (fun j => physByte frames ptr (4096 * i + j)) ↔
      (ptr % 4096 ≠ 0 → Follows frames ptr i ccount) := by
  have hbyte : ∀ j k, (ptr % 4096 + j) / 4096 = k → Follows frames ptr i k →
      (pagePaddr frames ptr i + ptr % 4096 + j) % 2 ^ 32 =
        physByte frames ptr (4096 * i + j) := by
    intro j k hk hfollows
    have hpage : (ptr % 4096 + (4096 * i + j)) / 4096 = i + k := by omega
    have haligned := pagePaddr_mod frames ptr i
    unfold Follows at hfollows
    rw [physByte_eq, hpage, hfollows]
    omega
  constructor
  · intro heq hoff
    -- The last byte of the run lies in the page behind it.
    have hlast : 4096 * ccount - 1 < 4096 * ccount := by
      have := hrun.pos
      omega
    have hat := congrArg (fun bytes => bytes[4096 * ccount - 1]?) heq
    simp only [byteRun, List.getElem?_map, List.getElem?_range hlast,
      Option.map_some, Option.some.injEq] at hat
    have hpage : (ptr % 4096 + (4096 * i + (4096 * ccount - 1))) / 4096 =
        i + ccount := by omega
    have haligned := pagePaddr_mod frames ptr i
    have haligned' := pagePaddr_mod frames ptr (i + ccount)
    rw [physByte_eq, hpage] at hat
    unfold Follows
    omega
  · intro hbehind
    apply List.map_congr_left
    intro j hj
    have hjlt := List.mem_range.mp hj
    refine hbyte j _ rfl ?_
    by_cases hinside : (ptr % 4096 + j) / 4096 < ccount
    · exact hrun.follows _ hinside
    · have hk : (ptr % 4096 + j) / 4096 = ccount := by omega
      rw [hk]
      exact hbehind (by omega)

end RunEntries

/-! ## The whole table -/

section Whole

variable {frames : ℕ → Fin (2 ^ 20)} {ptr pages : ℕ}

/-- The bytes of the buffer from page `i` to its end. -/
def bufferFrom (frames : ℕ → Fin (2 ^ 20)) (ptr pages i : ℕ) : List ℕ :=
  (List.range (4096 * (pages - i))).map fun j => physByte frames ptr (4096 * i + j)

/-- A part of the table is right for the pages from `i` on. -/
structure TableOk (frames : ℕ → Fin (2 ^ 20)) (ptr pages i : ℕ)
    (prdt : List Prd) : Prop where
  bytes : prdt.flatMap Prd.bytes = bufferFrom frames ptr pages i
  inside : ∀ entry ∈ prdt, entry.address % 0x10000 + entry.length ≤ 0x10000
  ends : EndsOnce prdt

theorem upToEnd_of_not_last {body rest : List Prd}
    (hbody : ∀ entry ∈ body, ¬ entry.isLast) :
    upToEnd (body ++ rest) = body ++ upToEnd rest := by
  induction body with
  | nil => rfl
  | cons entry body ih =>
      rw [List.cons_append, upToEnd, if_neg (hbody entry List.mem_cons_self),
        ih fun other hother => hbody other (List.mem_cons_of_mem entry hother),
        List.cons_append]

theorem EndsOnce.upToEnd_eq {prdt : List Prd} (hends : EndsOnce prdt) :
    upToEnd prdt = prdt := by
  obtain ⟨body, last, rfl, hlast, hbody⟩ := hends
  rw [upToEnd_of_not_last hbody, upToEnd, if_pos hlast]

theorem describes_iff_tableOk {prdt : List Prd} :
    Describes frames ptr pages prdt ↔ TableOk frames ptr pages 0 prdt := by
  have hbuffer : bufferFrom frames ptr pages 0 =
      (List.range (4096 * pages)).map (physByte frames ptr) := by
    simp [bufferFrom]
  constructor
  · intro hdescribes
    have hall := hdescribes.ends.upToEnd_eq
    have hbytes := hdescribes.bytes
    have hinside := hdescribes.inside
    rw [hall] at hbytes hinside
    exact ⟨hbytes.trans hbuffer.symm, hinside, hdescribes.ends⟩
  · intro htable
    have hall := htable.ends.upToEnd_eq
    refine ⟨?_, ?_, htable.ends⟩
    · rw [hall]
      exact htable.bytes.trans hbuffer
    · rw [hall]
      exact htable.inside

/-- Behind entries without the end bit the rest must end the table. -/
theorem endsOnce_append {body rest : List Prd} (hrest : rest ≠ []) :
    EndsOnce (body ++ rest) ↔
      (∀ entry ∈ body, ¬ entry.isLast) ∧ EndsOnce rest := by
  constructor
  · rintro ⟨init, last, heq, hlast, hinit⟩
    have hsnoc := List.dropLast_append_getLast hrest
    rw [← hsnoc, ← List.append_assoc] at heq
    obtain ⟨hbody, hend⟩ := List.append_inj' heq rfl
    refine ⟨?_, rest.dropLast, last, ?_, hlast, ?_⟩
    · intro entry hentry
      exact hinit entry (hbody ▸ List.mem_append_left _ hentry)
    · rw [← hend, hsnoc]
    · intro entry hentry
      exact hinit entry (hbody ▸ List.mem_append_right _ hentry)
  · rintro ⟨hbody, init, last, rfl, hlast, hinit⟩
    refine ⟨body ++ init, last, (List.append_assoc _ _ _).symm, hlast, ?_⟩
    intro entry hentry
    rcases List.mem_append.mp hentry with hmem | hmem
    · exact hbody entry hmem
    · exact hinit entry hmem

theorem bufferFrom_append {i ccount : ℕ} (hbound : i + ccount ≤ pages) :
    bufferFrom frames ptr pages i =
      (List.range (4096 * ccount)).map (fun j => physByte frames ptr (4096 * i + j)) ++
        bufferFrom frames ptr pages (i + ccount) := by
  have hlength : 4096 * (pages - i) =
      4096 * ccount + 4096 * (pages - (i + ccount)) := by omega
  rw [bufferFrom, hlength, List.range_add, List.map_append, List.map_map, bufferFrom]
  congr 1
  apply List.map_congr_left
  intro j _
  simp only [Function.comp_apply]
  congr 1
  omega

theorem length_bufferFrom (i : ℕ) :
    (bufferFrom frames ptr pages i).length = 4096 * (pages - i) := by
  simp [bufferFrom]

/-- One turn of the outer loop. -/
theorem prdtFrom_step {i boundaryPage : ℕ} (rounds : ℕ) (hi : i < pages)
    (hflag : BoundaryFlag frames ptr boundaryPage i) :
    ∃ ccount boundaryPage', IsRun frames ptr pages i ccount ∧
      BoundaryFlag frames ptr boundaryPage' (i + ccount) ∧
      prdtFrom frames ptr pages (rounds + 1) i boundaryPage =
        runEntries frames ptr pages i ccount boundaryPage' ++
          prdtFrom frames ptr pages rounds (i + ccount) boundaryPage' := by
  obtain ⟨ccount, boundaryPage', heq, -, hrun, hboundary⟩ :=
    @consecutive_spec frames ptr pages i 16 0 boundaryPage rfl (Nat.le_of_lt hi)
      (.inr hi) (fun k hk => absurd hk (Nat.not_lt_zero k))
  refine ⟨ccount, boundaryPage', hrun, ?_, ?_⟩
  · have hold : boundaryPage ≠ 0 ↔ _ := hflag
    refine hboundary.trans ?_
    rw [hold]
    constructor
    · rintro (⟨k, hk, hle, hlast⟩ | ⟨k, hk, hle, hlast⟩)
      · exact ⟨k, hk, by omega, hlast⟩
      · exact ⟨k, by omega, hle, hlast⟩
    · rintro ⟨k, hk, hle, hlast⟩
      by_cases hold : k ≤ i
      · exact .inl ⟨k, hk, hold, hlast⟩
      · exact .inr ⟨k, by omega, hle, hlast⟩
  · rw [prdtFrom, if_pos hi, heq]

theorem prdtFrom_end (rounds boundaryPage : ℕ) :
    prdtFrom frames ptr pages rounds pages boundaryPage = [] := by
  cases rounds with
  | zero => rfl
  | succ rounds => rw [prdtFrom, if_neg (lt_irrefl pages)]

/-- The table never lists too few bytes. -/
theorem le_length_prdtFrom {i boundaryPage : ℕ} (rounds : ℕ) (hi : i ≤ pages)
    (hrounds : pages - i ≤ rounds) (hflag : BoundaryFlag frames ptr boundaryPage i) :
    4096 * (pages - i) ≤
      ((prdtFrom frames ptr pages rounds i boundaryPage).flatMap Prd.bytes).length := by
  induction rounds generalizing i boundaryPage with
  | zero =>
      have hzero : 4096 * (pages - i) = 0 := by omega
      rw [hzero]
      exact Nat.zero_le _
  | succ rounds ih =>
      rcases Nat.lt_or_eq_of_le hi with hlt | rfl
      · obtain ⟨ccount, boundaryPage', hrun, hflag', heq⟩ :=
          prdtFrom_step rounds hlt hflag
        have hpos := hrun.pos
        have hbound := hrun.bound
        have hhead : 4096 * ccount ≤
            ((runEntries frames ptr pages i ccount boundaryPage').flatMap
              Prd.bytes).length :=
          le_length_runEntries hrun.pos hrun.le hflag'
        have htail := ih hbound (by omega) hflag'
        rw [heq, List.flatMap_append, List.length_append]
        omega
      · simp

/-- A right table consists of the entries of a run that the loop gets right,
and of a right table for the pages behind it. -/
theorem tableOk_append_iff {i ccount boundaryPage : ℕ} {rest : List Prd}
    (hrun : IsRun frames ptr pages i ccount)
    (hflag : BoundaryFlag frames ptr boundaryPage (i + ccount))
    (hlength : 4096 * (pages - (i + ccount)) ≤ (rest.flatMap Prd.bytes).length)
    (hrest : rest = [] ↔ i + ccount = pages) :
    TableOk frames ptr pages i
        (runEntries frames ptr pages i ccount boundaryPage ++ rest) ↔
      RunOk frames ptr pages i ccount ∧
        (i + ccount = pages ∨ TableOk frames ptr pages (i + ccount) rest) := by
  have hpos := hrun.pos
  have hbound := hrun.bound
  obtain ⟨body, last, hbody, hlast, hnotLast⟩ :=
    @runEntries_flags frames ptr pages i ccount boundaryPage
  constructor
  · intro htable
    have hbytes := htable.bytes
    rw [List.flatMap_append, bufferFrom_append hbound] at hbytes
    have hsplit : SeesBoundary frames ptr (i + ccount) ↔
        Crosses frames ptr i ccount := by
      by_contra hwrong
      by_cases hsees : SeesBoundary frames ptr (i + ccount)
      · have hnot : ¬ Crosses frames ptr i ccount :=
          fun hcrosses => hwrong (iff_of_true hsees hcrosses)
        have htotal := congrArg List.length hbytes
        rw [List.length_append, List.length_append, length_bufferFrom,
          length_runEntries_of_needless hpos hflag hsees hnot, List.length_map,
          List.length_range] at htotal
        omega
      · have hcrosses : Crosses frames ptr i ccount := by
          by_contra hnot
          exact hwrong (iff_of_false hsees hnot)
        obtain ⟨entry, hentry, houtside⟩ :=
          @runEntries_crossing _ _ pages _ _ _ hrun.le hflag hsees hcrosses
        have hinside := htable.inside entry (List.mem_append_left _ hentry)
        omega
    obtain ⟨hrunBytes, hinside⟩ :=
      @runEntries_bytes _ _ pages _ _ _ hpos hrun.le hflag hsplit
    rw [hrunBytes] at hbytes
    obtain ⟨hhead, htail⟩ := List.append_inj hbytes (by simp [byteRun])
    have hends := htable.ends
    by_cases hend : i + ccount = pages
    · exact ⟨⟨hsplit, (byteRun_eq_iff hrun).mp hhead, by omega⟩, .inl hend⟩
    · rw [endsOnce_append (mt hrest.mp hend)] at hends
      refine ⟨⟨hsplit, (byteRun_eq_iff hrun).mp hhead, ?_⟩, .inr ⟨htail, ?_, hends.2⟩⟩
      · intro hearly
        have hmem : last ∈ runEntries frames ptr pages i ccount boundaryPage := by
          rw [hbody]
          exact List.mem_append_right _ (List.mem_singleton_self last)
        exact hends.1 last hmem (hlast.mpr (Nat.le_of_eq hearly.symm))
      · intro entry hentry
        exact htable.inside entry (List.mem_append_right _ hentry)
  · rintro ⟨hok, htail⟩
    obtain ⟨hrunBytes, hinside⟩ :=
      @runEntries_bytes _ _ pages _ _ _ hpos hrun.le hflag hok.split
    have hhead := hrunBytes.trans ((byteRun_eq_iff hrun).mpr hok.behind)
    by_cases hend : i + ccount = pages
    · obtain rfl := hrest.mpr hend
      rw [List.append_nil]
      refine ⟨?_, hinside, body, last, hbody, hlast.mpr (by omega), hnotLast⟩
      have hnone : bufferFrom frames ptr pages (i + ccount) = [] := by
        simp [bufferFrom, hend]
      rw [hhead, bufferFrom_append hbound, hnone, List.append_nil]
    · have htable := htail.resolve_left hend
      refine ⟨?_, ?_, (endsOnce_append (mt hrest.mp hend)).mpr ⟨?_, htable.ends⟩⟩
      · rw [List.flatMap_append, hhead, htable.bytes, ← bufferFrom_append hbound]
      · intro entry hentry
        rcases List.mem_append.mp hentry with hmem | hmem
        · exact hinside entry hmem
        · exact htable.inside entry hmem
      · intro entry hentry
        rw [hbody] at hentry
        rcases List.mem_append.mp hentry with hmem | hmem
        · exact hnotLast entry hmem
        · rw [List.mem_singleton.mp hmem, hlast]
          have hnotEarly := hok.notEarly
          omega

/-- No run starts behind the last page. -/
theorem not_isRun_of_runFrom_end {j ccount : ℕ}
    (hfrom : RunFrom frames ptr pages pages j) : ¬ IsRun frames ptr pages j ccount := by
  have hnone : ∀ count, ¬ IsRun frames ptr pages pages count := by
    intro count hrun
    have hpos := hrun.pos
    have hbound := hrun.bound
    omega
  cases hfrom with
  | refl => exact hnone ccount
  | step hrun _ => exact absurd hrun (hnone _)

/-- The loop builds a right table exactly if it gets every run right. -/
theorem tableOk_prdtFrom_iff {rounds i boundaryPage : ℕ} (hi : i < pages)
    (hrounds : pages - i ≤ rounds) (hflag : BoundaryFlag frames ptr boundaryPage i) :
    TableOk frames ptr pages i (prdtFrom frames ptr pages rounds i boundaryPage) ↔
      ∀ j ccount, RunFrom frames ptr pages i j → IsRun frames ptr pages j ccount →
        RunOk frames ptr pages j ccount := by
  induction rounds generalizing i boundaryPage with
  | zero => omega
  | succ rounds ih =>
      obtain ⟨ccount, boundaryPage', hrun, hflag', heq⟩ :=
        prdtFrom_step rounds hi hflag
      have hpos := hrun.pos
      have hbound := hrun.bound
      have hlength := le_length_prdtFrom rounds hbound (by omega) hflag'
      have hrest : prdtFrom frames ptr pages rounds (i + ccount) boundaryPage' = [] ↔
          i + ccount = pages := by
        constructor
        · intro hempty
          rw [hempty] at hlength
          simp only [List.flatMap_nil, List.length_nil] at hlength
          omega
        · intro hend
          rw [hend]
          exact prdtFrom_end rounds boundaryPage'
      have htail : (i + ccount = pages ∨ TableOk frames ptr pages (i + ccount)
            (prdtFrom frames ptr pages rounds (i + ccount) boundaryPage')) ↔
          ∀ j count, RunFrom frames ptr pages (i + ccount) j →
            IsRun frames ptr pages j count → RunOk frames ptr pages j count := by
        by_cases hend : i + ccount = pages
        · refine iff_of_true (.inl hend) ?_
          rw [hend]
          intro j count hfrom hrun'
          exact absurd hrun' (not_isRun_of_runFrom_end hfrom)
        · rw [or_iff_right hend]
          exact ih (by omega) (by omega) hflag'
      rw [heq, tableOk_append_iff hrun hflag' hlength hrest, htail]
      constructor
      · rintro ⟨hok, hbehind⟩ j count hfrom hrun'
        cases hfrom with
        | refl =>
            rw [hrun'.unique hrun]
            exact hok
        | step hfirst hrest' =>
            rw [hfirst.unique hrun] at hrest'
            exact hbehind j count hrest' hrun'
      · intro hall
        refine ⟨hall i ccount (.refl i) hrun, ?_⟩
        intro j count hfrom hrun'
        exact hall j count (.step hrun hfrom) hrun'

end Whole

/-- The table of a transfer describes its buffer exactly if every run of pages
is cut where it passes a 64 KiB boundary and nowhere else, no run leaves a
single page behind it, and with an unaligned pointer the page behind each run
follows it. -/
theorem prdt_describes_iff (frames : ℕ → Fin (2 ^ 20)) (ptr count : ℕ)
    (hcount : 1 ≤ count) (hmax : count ≤ 0x20000) :
    (∃ prdt, ataReadPrdt frames ptr count = some prdt ∧
        ataWritePrdt frames ptr count = some prdt ∧
        Describes frames ptr ((count + 4095) / 4096) prdt) ↔
      ∀ i ccount, RunFrom frames ptr ((count + 4095) / 4096) 0 i →
        IsRun frames ptr ((count + 4095) / 4096) i ccount →
        RunOk frames ptr ((count + 4095) / 4096) i ccount := by
  have hpages : pageCount count = (count + 4095) / 4096 := by
    unfold pageCount
    omega
  have htable : ataPrdt frames ptr count =
      some (prdtFrom frames ptr ((count + 4095) / 4096) ((count + 4095) / 4096) 0 0) := by
    rw [ataPrdt, hpages, if_neg (by omega), if_neg (by omega)]
  have hflag : BoundaryFlag frames ptr 0 0 := by
    refine iff_of_false (fun hne => hne rfl) ?_
    rintro ⟨k, hk, hle, -⟩
    omega
  have hloop := tableOk_prdtFrom_iff (show 0 < (count + 4095) / 4096 by omega)
    (Nat.sub_le _ _) hflag
  rw [← hloop, ← describes_iff_tableOk]
  simp only [ataReadPrdt, ataWritePrdt, htable, Option.some.injEq]
  constructor
  · rintro ⟨prdt, rfl, -, hdescribes⟩
    exact hdescribes
  · intro hdescribes
    exact ⟨_, rfl, rfl, hdescribes⟩

/-- Every page in the frame of its own number. -/
def identityFrames : ℕ → Fin (2 ^ 20) := Fin.ofNat (2 ^ 20)

/-- Two pages in neighbouring frames are described by one entry. -/
theorem prdt_describes_two_pages :
    ∃ prdt, ataReadPrdt identityFrames 0 8192 = some prdt ∧
      ataWritePrdt identityFrames 0 8192 = some prdt ∧
      Describes identityFrames 0 2 prdt := by
  refine (prdt_describes_iff identityFrames 0 8192 (by decide) (by decide)).mpr ?_
  have hrun : IsRun identityFrames 0 2 0 2 := by
    refine ⟨by decide, by decide, by decide, ?_, .inr (.inl rfl)⟩
    intro k hk
    interval_cases k <;> decide
  intro i ccount hfrom hrun'
  cases hfrom with
  | refl =>
      rw [hrun'.unique hrun]
      refine ⟨?_, fun hne => absurd rfl hne, by decide⟩
      refine iff_of_false ?_ (by unfold Crosses; decide)
      rintro (hlast | ⟨k, hk, hle, hlast⟩)
      · exact absurd hlast (by decide)
      · interval_cases k <;> exact absurd hlast (by decide)
  | step hfirst hrest =>
      rw [hfirst.unique hrun] at hrest
      exact absurd hrun' (not_isRun_of_runFrom_end hrest)

/-- The first page in frame 1, every other page in frame 5. -/
def scatteredFrames : ℕ → Fin (2 ^ 20) := fun page => if page = 0 then 1 else 5

/-- With two pages in separate frames, the entry of the first page already
carries the end bit. -/
theorem prdt_ends_early :
    ∃ prdt, ataReadPrdt scatteredFrames 0 8192 = some prdt ∧
      ¬ Describes scatteredFrames 0 2 prdt := by
  refine ⟨[⟨0x1000, 0x1000, 0x8000⟩, ⟨0x5000, 0x1000, 0x8000⟩], by decide, ?_⟩
  intro hdescribes
  have hall := hdescribes.ends.upToEnd_eq
  revert hall
  decide

end KimisOS.Prdt
