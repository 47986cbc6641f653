import KimisOS.Memory.UserBytes

/-!
# Images of programs

`load_elf` goes through the program headers and gives each segment pages of its own:
as many as its size in memory asks for, from the page of its address on, each cleared
from the address on.  A segment that does not start on a page boundary is cleared
beyond its last page, and a page that two segments share is mapped twice.
-/

namespace KimisOS.StaticImage

open KimisOS.Frames
open KimisOS.Paging
open KimisOS.Kmalloc
open KimisOS.Fork
open KimisOS.PageBlocks
open KimisOS.Exec
open KimisOS.UserBytes

/-! ## `load_elf` -/

/-- The `read` of a file system: what the file has of the bytes that are asked for. -/
def fileOf (bytes : List (BitVec 8)) : Vfile where
  read := some fun kernel byteArray offset count => do
    let machine ← copyBytes kernel.machine byteArray ((bytes.drop offset).take count)
    some { kernel with machine := machine }

/-- The bytes of a field, the lowest first. -/
def field (bytes : List (BitVec 8)) (offset size : ℕ) : ℕ :=
  ((bytes.drop offset).take size).foldr (fun byte high => byte.toNat + 256 * high) 0

def readHeader (bytes : List (BitVec 8)) : ElfHeader where
  magic := BitVec.ofNat 32 (field bytes 0 4)
  bits := BitVec.ofNat 8 (field bytes 4 1)
  endianness := BitVec.ofNat 8 (field bytes 5 1)
  type := BitVec.ofNat 16 (field bytes 16 2)
  entryOffset := BitVec.ofNat 32 (field bytes 24 4)
  programHeaderOffset := BitVec.ofNat 32 (field bytes 28 4)
  programEntrySize := BitVec.ofNat 16 (field bytes 42 2)
  programEntryCount := BitVec.ofNat 16 (field bytes 44 2)

def readEntry (bytes : List (BitVec 8)) (offset : ℕ) : ProgramEntry where
  type := BitVec.ofNat 32 (field bytes offset 4)
  dataOffset := BitVec.ofNat 32 (field bytes (offset + 4) 4)
  vaddr := BitVec.ofNat 32 (field bytes (offset + 8) 4)
  fsize := BitVec.ofNat 32 (field bytes (offset + 16) 4)
  msize := BitVec.ofNat 32 (field bytes (offset + 20) 4)
  flags := BitVec.ofNat 32 (field bytes (offset + 24) 4)

/-- `sizeof(program_entry_t)`. -/
def programEntrySize : ℕ := 32

/-- The entries that the loop of `load_elf` goes through. -/
def programHeaders (bytes : List (BitVec 8)) : List ProgramEntry :=
  (List.range (readHeader bytes).programEntryCount.toNat).map fun i =>
    readEntry bytes ((readHeader bytes).programHeaderOffset.toNat + programEntrySize * i)

/-- The loop over the entries. -/
def loadSegments (file : Vfile) : Kernel → List ProgramEntry → Option Kernel
  | kernel, [] => some kernel
  | kernel, entry :: entries => do
      let loaded ← loadSegmentStatic kernel file entry
      loadSegments file loaded entries

/-- The bytes of a word. -/
def readWord (m : Machine) (a : ℕ) : Option (List (BitVec 8)) := do
  let first ← byteAt m a
  let second ← byteAt m (a + 1)
  let third ← byteAt m (a + 2)
  let fourth ← byteAt m (a + 3)
  some [first, second, third, fourth]

/-- `load_elf` of a file.  What it keeps in its two kernel buffers are the headers of
the file, and `kernel` is the one in which they have been filled; the word at the entry
point is read for a message. -/
def loadElf (kernel : Kernel) (bytes : List (BitVec 8)) : Option (Kernel × BitVec 32) :=
  let header := readHeader bytes
  if header.Rejected then some (kernel, 0)
  else do
    let loaded ← loadSegments (fileOf bytes) kernel (programHeaders bytes)
    let _ ← readWord loaded.machine header.entryOffset.toNat
    some (loaded, header.entryOffset)

/-! ## Segments -/

/-- A segment: its place in memory, and its bytes in the file. -/
structure Segment where
  vaddr : ℕ
  msize : ℕ
  file : List (BitVec 8)

def ProgLoad (entry : ProgramEntry) : Prop := entry.type = 1

instance (entry : ProgramEntry) : Decidable (ProgLoad entry) :=
  inferInstanceAs (Decidable (_ = _))

def segmentOf (bytes : List (BitVec 8)) (entry : ProgramEntry) : Segment where
  vaddr := entry.vaddr.toNat
  msize := entry.msize.toNat
  file := (bytes.drop entry.dataOffset.toNat).take entry.fsize.toNat

/-- The segments among some entries. -/
def segmentsOf (bytes : List (BitVec 8)) (entries : List ProgramEntry) : List Segment :=
  (entries.filter fun entry => decide (ProgLoad entry)).map (segmentOf bytes)

/-- The segments that are loaded. -/
def segments (bytes : List (BitVec 8)) : List Segment := segmentsOf bytes (programHeaders bytes)

/-! ## What a segment leaves at an address -/

/-- The page has been given a new frame by a loop of `n` rounds from `v` on. -/
def Renewed (v n a : ℕ) : Prop := v / 4096 ≤ a / 4096 ∧ a / 4096 < v / 4096 + n

/-- It is cleared by such a loop. -/
def Cleared (v n a : ℕ) : Prop := v ≤ a ∧ a < v + 4096 * n

/-- It is in the part of a page in front of the place from which it is cleared. -/
def Ahead (v a : ℕ) : Prop := a % 4096 < v % 4096

instance (v n a : ℕ) : Decidable (Renewed v n a) := inferInstanceAs (Decidable (_ ∧ _))
instance (v n a : ℕ) : Decidable (Cleared v n a) := inferInstanceAs (Decidable (_ ∧ _))
instance (v a : ℕ) : Decidable (Ahead v a) := inferInstanceAs (Decidable (_ < _))

/-- What is known of an address: nothing is mapped, its frame was used by someone else
before, or the byte. -/
inductive Cell where
  | unmapped
  | leftover
  | holds (byte : BitVec 8)
deriving DecidableEq

/-- A loop of `n` rounds over pages: each gets a frame, which is cleared from its part
behind `v` on; what is cleared beyond it is on the page that follows. -/
def afterPages (v n a : ℕ) (cell : Cell) : Cell :=
  if Renewed v n a ∧ Ahead v a then .leftover
  else if Renewed v n a ∨ Cleared v n a then .holds 0
  else cell

def Segment.pageCount (segment : Segment) : ℕ := (segment.msize + 4095) / 4096

/-- `fread` does not read into a null pointer. -/
def Segment.copied (segment : Segment) (a : ℕ) : Option (BitVec 8) :=
  if segment.vaddr ≠ 0 ∧ segment.vaddr ≤ a then segment.file[a - segment.vaddr]? else none

def Segment.after (segment : Segment) (a : ℕ) (cell : Cell) : Cell :=
  match segment.copied a with
  | some byte => .holds byte
  | none => afterPages segment.vaddr segment.pageCount a cell

/-- The image, address by address. -/
def image (loaded : List Segment) (a : ℕ) : Cell :=
  loaded.foldl (fun cell segment => segment.after a cell) .unmapped

/-- The pages that got frames. -/
def pagesOf (loaded : List Segment) : Set ℕ :=
  {q | ∃ segment ∈ loaded, segment.vaddr / 4096 ≤ q ∧
    q < segment.vaddr / 4096 + segment.pageCount}

/-- The pages beyond the first one up to the one in which the clearing ends. -/
def Beyond (v n q : ℕ) : Prop := v % 4096 ≠ 0 ∧ v / 4096 < q ∧ q ≤ v / 4096 + n

/-- What is known is so. -/
def Matches (start : Start) (byte : Option (BitVec 8)) : Cell → Prop
  | .unmapped => False
  | .leftover => ∃ value, byte = some value ∧ start.garbage value
  | .holds value => byte = some value

/-- The pages, with what is known of the bytes on them. -/
structure Shows (start : Start) (room : ℕ) (pages : Set ℕ) (cells : ℕ → Cell)
    (m : Machine) : Prop where
  loading : Loading start room pages m
  matching : ∀ a, a / 4096 ∈ pages → Matches start (byteAt m a) (cells a)

variable {start : Start} {room : ℕ} {pages : Set ℕ} {cells : ℕ → Cell} {m : Machine}
  {v n : ℕ} {flags : BitVec 32}

/-- The pages of a loop of `n` rounds. -/
def pageRange (v n : ℕ) : Set ℕ := {q | v / 4096 ≤ q ∧ q < v / 4096 + n}

theorem pageRange_succ (v n : ℕ) :
    pageRange v (n + 1) = insert (v / 4096 + n) (pageRange v n) := by
  ext q
  simp only [pageRange, Set.mem_ofPred_eq, Set.mem_insert_iff]
  omega

@[simp]
theorem afterPages_zero (v a : ℕ) (cell : Cell) : afterPages v 0 a cell = cell := by
  have hrenewed : ¬ Renewed v 0 a := by
    rintro ⟨hlow, hhigh⟩
    omega
  have hcleared : ¬ Cleared v 0 a := by
    rintro ⟨hlow, hhigh⟩
    omega
  simp [afterPages, hrenewed, hcleared]

/-- The last round maps a page and clears one page length. -/
theorem afterPages_succ (v n a : ℕ) (cell : Cell) :
    afterPages v (n + 1) a cell =
      if v + 4096 * n ≤ a ∧ a < v + 4096 * n + 4096 then .holds 0
      else if a / 4096 = v / 4096 + n then .leftover
      else afterPages v n a cell := by
  have hrenewed : ∀ count, Renewed v count a ↔
      v / 4096 ≤ a / 4096 ∧ a / 4096 < v / 4096 + count := fun _ => Iff.rfl
  have hcleared : ∀ count, Cleared v count a ↔ v ≤ a ∧ a < v + 4096 * count :=
    fun _ => Iff.rfl
  have hahead : Ahead v a ↔ a % 4096 < v % 4096 := Iff.rfl
  rw [afterPages, afterPages]
  by_cases hclear : v + 4096 * n ≤ a ∧ a < v + 4096 * n + 4096
  · rw [if_pos hclear, if_neg (by rw [hrenewed, hahead]; omega),
      if_pos (by rw [hrenewed, hcleared]; omega)]
  · rw [if_neg hclear]
    by_cases hpage : a / 4096 = v / 4096 + n
    · rw [if_pos hpage, if_pos (by rw [hrenewed, hahead]; omega)]
    · rw [if_neg hpage]
      refine if_congr ?_ rfl (if_congr ?_ rfl rfl)
      · rw [hrenewed, hrenewed, hahead]
        omega
      · rw [hrenewed, hrenewed, hcleared, hcleared]
        omega

/-- A round: the page gets a frame, and a page length is cleared from the place on. -/
theorem Shows.round {a : ℕ} (hm : Shows start (room + 1) pages cells m)
    (ha : a < 0xc0000000) (hbeyond : a % 4096 ≠ 0 → a / 4096 + 1 ∈ pages)
    (hflags : flags < 0x1000) (hpresent : present flags = true) :
    ∃ mapped next, mapNew m (addr a) flags = some mapped ∧
      Exec.clearBytes mapped (addr a) 4096 = some next ∧
      Shows start room (insert (a / 4096) pages)
        (fun c => if a ≤ c ∧ c < a + 4096 then .holds 0
          else if c / 4096 = a / 4096 then .leftover else cells c) next := by
  obtain ⟨mapped, hmap, hload, hold, hnew⟩ := hm.loading.mapNew ha hflags hpresent
  have hpages : ∀ c, a ≤ c → c < a + 4096 → c / 4096 ∈ insert (a / 4096) pages := by
    intro c hge hlt
    by_cases hsame : c / 4096 = a / 4096
    · exact Or.inl hsame
    · have hnext : c / 4096 = a / 4096 + 1 := by omega
      rw [hnext]
      exact Or.inr (hbeyond (by omega))
  obtain ⟨next, hclear, hload', hbytes⟩ := hload.clearBytes hpages
  refine ⟨mapped, next, hmap, hclear, hload', ?_⟩
  intro c hc
  rw [hbytes c hc]
  by_cases hcleared : a ≤ c ∧ c < a + 4096
  · rw [if_pos hcleared, if_pos hcleared]
    rfl
  · rw [if_neg hcleared, if_neg hcleared]
    by_cases hsame : c / 4096 = a / 4096
    · rw [if_pos hsame]
      exact hnew c hsame
    · have hmem : c / 4096 ∈ pages := hc.resolve_left hsame
      rw [if_neg hsame, hold c hmem hsame]
      exact hm.matching c hmem

theorem mapSegment_succ (m : Machine) (base flags : BitVec 32) (i : ℕ) :
    Exec.mapSegment m base flags (i + 1) =
      (Exec.mapSegment m base flags i).bind fun loaded =>
        (mapNew loaded (base + BitVec.ofNat 32 (i * 4096)) flags).bind fun mapped =>
          Exec.clearBytes mapped (base + BitVec.ofNat 32 (i * 4096)) 4096 := rfl

/-- The loop over the pages of a segment, when what it clears beyond its pages is
mapped. -/
theorem Shows.mapSegment (hm : Shows start (room + n) pages cells m)
    (hlow : v + 4096 * n < 0xc0000000 + 4096)
    (hbeyond : ∀ q, Beyond v n q → q ∈ pages)
    (hflags : flags < 0x1000) (hpresent : present flags = true) :
    ∃ next, Exec.mapSegment m (addr v) flags n = some next ∧
      Shows start room (pageRange v n ∪ pages) (fun a => afterPages v n a (cells a)) next := by
  induction n generalizing room with
  | zero =>
      refine ⟨m, rfl, ?_⟩
      have hempty : pageRange v 0 ∪ pages = pages := by
        ext q
        simp only [pageRange, Set.mem_union, Set.mem_ofPred_eq]
        exact or_iff_right (by omega)
      simp only [hempty, afterPages_zero]
      exact hm
  | succ n ih =>
      have hcount : room + (n + 1) = room + 1 + n := by omega
      rw [hcount] at hm
      obtain ⟨mid, hmid, hshows⟩ := ih hm (by omega)
        fun q hq => hbeyond q ⟨hq.1, hq.2.1, by have := hq.2.2; omega⟩
      have hpage : (v + 4096 * n) / 4096 = v / 4096 + n := by omega
      obtain ⟨mapped, next, hmap, hclear, hnext⟩ := @Shows.round _ _ _ _ _ _
        (v + 4096 * n) hshows (by omega)
        (fun hne => Or.inr (hbeyond _ ⟨by omega, by omega, by omega⟩)) hflags hpresent
      refine ⟨next, ?_, ?_⟩
      · have haddr : addr v + BitVec.ofNat 32 (n * 4096) = addr (v + 4096 * n) := by
          rw [addr_add, Nat.mul_comm]
        rw [mapSegment_succ, hmid, Option.bind_some, haddr, hmap, Option.bind_some, hclear]
      · rw [pageRange_succ, Set.insert_union, ← hpage]
        have hcells : (fun a => afterPages v (n + 1) a (cells a)) = fun c =>
            if v + 4096 * n ≤ c ∧ c < v + 4096 * n + 4096 then Cell.holds 0
            else if c / 4096 = (v + 4096 * n) / 4096 then .leftover
            else afterPages v n c (cells c) := by
          funext c
          rw [afterPages_succ, hpage]
        rw [hcells]
        exact hnext

/-- Otherwise, with no other page mapped, the clearing faults. -/
theorem Shows.mapSegment_none (hm : Shows start (room + n) pages cells m)
    (hbare : start.bare) (hlow : v + 4096 * n < 0xc0000000 + 4096)
    (hbeyond : ¬ ∀ q, Beyond v n q → q ∈ pages)
    (hflags : flags < 0x1000) (hpresent : present flags = true) :
    Exec.mapSegment m (addr v) flags n = none := by
  induction n generalizing room with
  | zero =>
      refine absurd ?_ hbeyond
      rintro q ⟨_, hlow, hhigh⟩
      omega
  | succ n ih =>
      have hcount : room + (n + 1) = room + 1 + n := by omega
      rw [hcount] at hm
      rw [mapSegment_succ]
      by_cases hbefore : ∀ q, Beyond v n q → q ∈ pages
      · obtain ⟨mid, hmid, hshows⟩ := hm.mapSegment (by omega) hbefore hflags hpresent
        have haddr : addr v + BitVec.ofNat 32 (n * 4096) = addr (v + 4096 * n) := by
          rw [addr_add, Nat.mul_comm]
        obtain ⟨mapped, hmap, hload, -, -⟩ :=
          hshows.loading.mapNew (show v + 4096 * n < 0xc0000000 by omega) hflags hpresent
        rw [hmid, Option.bind_some, haddr, hmap, Option.bind_some]
        -- only the page behind the last one is missing
        refine hload.clearBytes_none hbare (by omega) ?_
        push Not at hbeyond
        obtain ⟨q, ⟨hne, hfirst, hlast⟩, hout⟩ := hbeyond
        have hq : q = v / 4096 + (n + 1) := by
          by_contra hother
          exact hout (hbefore q ⟨hne, hfirst, by omega⟩)
        refine ⟨q * 4096, by omega, by omega, ?_⟩
        rintro (hin | hin | hin)
        · omega
        · have hhigh := hin.2
          omega
        · exact hout (by rwa [Nat.mul_div_cancel _ (by decide)] at hin)
      · rw [ih hm (by omega) hbefore, Option.bind_none]

/-! ## A segment -/

variable {kernel : Kernel} {bytes : List (BitVec 8)} {entry : ProgramEntry}

theorem pageCount_eq {msize : BitVec 32} (hsize : msize.toNat ≤ 0xc0000000) :
    ((msize + 4096 - 1) / 4096).toNat = (msize.toNat + 4095) / 4096 := by
  have hsum : (msize + 4096 - 1).toNat = msize.toNat + 4095 := by
    have hpage : (4096 : BitVec 32).toNat = 4096 := rfl
    have hone : (1 : BitVec 32).toNat = 1 := rfl
    rw [BitVec.toNat_sub, BitVec.toNat_add, hpage, hone]
    omega
  rw [BitVec.toNat_udiv, hsum]
  rfl

def segmentFlags (entry : ProgramEntry) : BitVec 32 :=
  ptPresent ||| ptUser ||| if entry.flags &&& 2 ≠ 0 then ptUserRw else 0

theorem segmentFlags_lt (entry : ProgramEntry) : segmentFlags entry < 0x1000 := by
  unfold segmentFlags
  split
  · decide
  · decide

theorem present_segmentFlags (entry : ProgramEntry) : present (segmentFlags entry) = true := by
  unfold segmentFlags
  split
  · decide
  · decide

theorem fread_fileOf (kernel : Kernel) (bytes : List (BitVec 8)) (a offset count : ℕ)
    (ha : a < 2 ^ 32) :
    fread kernel (fileOf bytes) (addr a) offset count =
      if a = 0 then some kernel
      else (copyBytes kernel.machine (addr a) ((bytes.drop offset).take count)).map
        fun machine => { kernel with machine := machine } := by
  have hread : fread kernel (fileOf bytes) (addr a) offset count =
      if addr a = 0 ∨ count = 0 then some kernel
      else (copyBytes kernel.machine (addr a) ((bytes.drop offset).take count)).bind
        fun machine => some { kernel with machine := machine } := rfl
  have hnull : addr a = 0 ↔ a = 0 := by
    rw [← BitVec.toNat_inj, addr_toNat ha]
    rfl
  rw [hread]
  by_cases hzero : a = 0
  · rw [if_pos (Or.inl (hnull.mpr hzero)), if_pos hzero]
  · rw [if_neg hzero]
    by_cases hcount : count = 0
    · rw [if_pos (Or.inr hcount), hcount, List.take_zero]
      rfl
    · rw [if_neg (not_or.mpr ⟨mt hnull.mp hzero, hcount⟩)]
      cases copyBytes kernel.machine (addr a) ((bytes.drop offset).take count) with
      | none => rfl
      | some machine => rfl

/-- A segment that is loaded: its pages, and the bytes of the file over them. -/
theorem loadSegmentStatic_eq (hload : ProgLoad entry)
    (hsize : entry.msize.toNat ≤ 0xc0000000) :
    loadSegmentStatic kernel (fileOf bytes) entry =
      (Exec.mapSegment kernel.machine (addr (segmentOf bytes entry).vaddr)
          (segmentFlags entry) (segmentOf bytes entry).pageCount).bind fun machine =>
        if (segmentOf bytes entry).vaddr = 0 then some { kernel with machine := machine }
        else
          (copyBytes machine (addr (segmentOf bytes entry).vaddr)
            (segmentOf bytes entry).file).map fun machine =>
              { kernel with machine := machine } := by
  have hvaddr : addr entry.vaddr.toNat = entry.vaddr := by
    rw [addr, BitVec.ofNat_toNat, BitVec.setWidth_eq]
  have hcount := pageCount_eq hsize
  have hcode : loadSegmentStatic kernel (fileOf bytes) entry =
      if entry.type ≠ 1 then some kernel
      else (Exec.mapSegment kernel.machine entry.vaddr (segmentFlags entry)
        ((entry.msize + 4096 - 1) / 4096).toNat).bind fun machine =>
          fread { kernel with machine := machine } (fileOf bytes) entry.vaddr
            entry.dataOffset.toNat entry.fsize.toNat := rfl
  have htype : ¬ entry.type ≠ 1 := not_not.mpr hload
  rw [hcode, if_neg htype, hcount]
  change _ = (Exec.mapSegment kernel.machine (addr entry.vaddr.toNat) _ _).bind _
  rw [hvaddr]
  congr 1
  funext machine
  have hread := fread_fileOf { kernel with machine := machine } bytes entry.vaddr.toNat
    entry.dataOffset.toNat entry.fsize.toNat entry.vaddr.isLt
  rw [hvaddr] at hread
  rw [hread]
  change _ = if entry.vaddr.toNat = 0 then _ else
    (copyBytes machine (addr entry.vaddr.toNat) _).map _
  rw [hvaddr]
  rfl

theorem Shows.loadSegment {segment : Segment} (hsegment : segmentOf bytes entry = segment)
    (hm : Shows start (room + segment.pageCount) pages cells kernel.machine)
    (hload : ProgLoad entry) (hfits : segment.file.length ≤ segment.msize)
    (hlow : segment.vaddr + segment.msize ≤ 0xc0000000)
    (hbeyond : ∀ q, Beyond segment.vaddr segment.pageCount q → q ∈ pages) :
    ∃ loaded, loadSegmentStatic kernel (fileOf bytes) entry = some loaded ∧
      Shows start room (pageRange segment.vaddr segment.pageCount ∪ pages)
        (fun a => segment.after a (cells a)) loaded.machine := by
  have hcount : 4096 * segment.pageCount ≤ segment.msize + 4095 := by
    rw [Segment.pageCount]
    omega
  have hcover : segment.msize ≤ 4096 * segment.pageCount := by
    rw [Segment.pageCount]
    omega
  have hsize : entry.msize.toNat ≤ 0xc0000000 := by
    have hmsize : segment.msize = entry.msize.toNat := by rw [← hsegment]; rfl
    omega
  obtain ⟨mid, hmid, hshows⟩ := hm.mapSegment (by omega) hbeyond (segmentFlags_lt entry)
    (present_segmentFlags entry)
  rw [loadSegmentStatic_eq hload hsize, hsegment, hmid, Option.bind_some]
  by_cases hzero : segment.vaddr = 0
  · rw [if_pos hzero]
    refine ⟨_, rfl, hshows.loading, ?_⟩
    intro a ha
    have hcopied : segment.copied a = none := if_neg fun hboth => hboth.1 hzero
    rw [Segment.after, hcopied]
    exact hshows.matching a ha
  · rw [if_neg hzero]
    have hpages : ∀ c, segment.vaddr ≤ c → c < segment.vaddr + segment.file.length →
        c / 4096 ∈ pageRange segment.vaddr segment.pageCount ∪ pages := by
      intro c hge hlt
      by_cases hrange : c / 4096 < segment.vaddr / 4096 + segment.pageCount
      · exact Or.inl ⟨by omega, hrange⟩
      · exact Or.inr (hbeyond _ ⟨by omega, by omega, by omega⟩)
    obtain ⟨next, hnext, hloading, hbytes⟩ := hshows.loading.copyBytes hpages
    rw [hnext, Option.map_some]
    refine ⟨_, rfl, hloading, ?_⟩
    intro a ha
    rw [hbytes a ha]
    by_cases hinside : segment.vaddr ≤ a ∧ a < segment.vaddr + segment.file.length
    · have hcopied : segment.copied a = segment.file[a - segment.vaddr]? :=
        if_pos ⟨hzero, hinside.1⟩
      have hlt : a - segment.vaddr < segment.file.length := by omega
      rw [if_pos hinside, Segment.after, hcopied, List.getElem?_eq_getElem hlt]
      rfl
    · have hcopied : segment.copied a = none := by
        by_cases hge : segment.vaddr ≤ a
        · have hout : segment.file.length ≤ a - segment.vaddr := by omega
          rw [Segment.copied, if_pos ⟨hzero, hge⟩, List.getElem?_eq_none hout]
        · exact if_neg fun hboth => hge hboth.2
      rw [if_neg hinside, Segment.after, hcopied]
      exact hshows.matching a ha

theorem Shows.loadSegment_none {segment : Segment} (hsegment : segmentOf bytes entry = segment)
    (hm : Shows start (room + segment.pageCount) pages cells kernel.machine)
    (hbare : start.bare) (hload : ProgLoad entry)
    (hlow : segment.vaddr + segment.msize ≤ 0xc0000000)
    (hbeyond : ¬ ∀ q, Beyond segment.vaddr segment.pageCount q → q ∈ pages) :
    loadSegmentStatic kernel (fileOf bytes) entry = none := by
  have hcount : 4096 * segment.pageCount ≤ segment.msize + 4095 := by
    rw [Segment.pageCount]
    omega
  have hsize : entry.msize.toNat ≤ 0xc0000000 := by
    have hmsize : segment.msize = entry.msize.toNat := by rw [← hsegment]; rfl
    omega
  have hnone := hm.mapSegment_none hbare (by omega) hbeyond (segmentFlags_lt entry)
    (present_segmentFlags entry)
  rw [loadSegmentStatic_eq hload hsize, hsegment, hnone, Option.bind_none]

/-! ## The loop over the entries -/

/-- Behind the segments `before`, each of the others finds the pages mapped that it
clears beyond its own. -/
def Prepared (before : List Segment) : List Segment → Prop
  | [] => True
  | segment :: rest =>
      (∀ q, Beyond segment.vaddr segment.pageCount q → q ∈ pagesOf before) ∧
        Prepared (before ++ [segment]) rest

/-- The number of pages that are mapped. -/
def pageTotal (loaded : List Segment) : ℕ := (loaded.map Segment.pageCount).sum

theorem pagesOf_append (before : List Segment) (segment : Segment) :
    pagesOf (before ++ [segment]) =
      pageRange segment.vaddr segment.pageCount ∪ pagesOf before := by
  ext q
  simp only [pagesOf, pageRange, Set.mem_ofPred_eq, Set.mem_union, List.mem_append,
    List.mem_singleton]
  constructor
  · rintro ⟨other, hother | rfl, hrange⟩
    · exact Or.inr ⟨other, hother, hrange⟩
    · exact Or.inl hrange
  · rintro (hrange | ⟨other, hother, hrange⟩)
    · exact ⟨segment, Or.inr rfl, hrange⟩
    · exact ⟨other, Or.inl hother, hrange⟩

theorem image_append (before : List Segment) (segment : Segment) (a : ℕ) :
    image (before ++ [segment]) a = segment.after a (image before a) := by
  rw [image, List.foldl_append]
  rfl

/-- The part in the file fits into the memory, which ends below the kernel. -/
def Proper (segment : Segment) : Prop :=
  segment.file.length ≤ segment.msize ∧ segment.vaddr + segment.msize ≤ 0xc0000000

theorem segmentsOf_load {entries : List ProgramEntry} (hload : ProgLoad entry) :
    segmentsOf bytes (entry :: entries) =
      segmentOf bytes entry :: segmentsOf bytes entries := by
  rw [segmentsOf, List.filter_cons, if_pos (decide_eq_true hload), List.map_cons]
  rfl

theorem segmentsOf_other {entries : List ProgramEntry} (hload : ¬ ProgLoad entry) :
    segmentsOf bytes (entry :: entries) = segmentsOf bytes entries := by
  rw [segmentsOf, List.filter_cons, if_neg (by simpa using hload)]
  rfl

theorem loadSegmentStatic_other (hload : ¬ ProgLoad entry) (file : Vfile) :
    loadSegmentStatic kernel file entry = some kernel := if_pos hload

theorem loadSegments_cons (file : Vfile) (kernel : Kernel) (entry : ProgramEntry)
    (entries : List ProgramEntry) :
    loadSegments file kernel (entry :: entries) =
      (loadSegmentStatic kernel file entry).bind fun loaded =>
        loadSegments file loaded entries := rfl

@[simp]
theorem pageTotal_cons (segment : Segment) (loaded : List Segment) :
    pageTotal (segment :: loaded) = segment.pageCount + pageTotal loaded := by
  rw [pageTotal, List.map_cons, List.sum_cons]
  rfl

variable {entries : List ProgramEntry} {before : List Segment}

/-- The pages of the first segment, and those of the others. -/
theorem Shows.first {segment : Segment} {others : List Segment}
    (hm : Shows start (room + pageTotal (segment :: others)) pages cells m) :
    Shows start (room + pageTotal others + segment.pageCount) pages cells m := by
  rwa [pageTotal_cons, Nat.add_comm segment.pageCount, ← Nat.add_assoc] at hm

/-- One more segment behind those that are there already. -/
theorem Shows.loadNext
    (hm : Shows start (room + (segmentOf bytes entry).pageCount) (pagesOf before)
      (image before) kernel.machine)
    (hload : ProgLoad entry) (hproper : Proper (segmentOf bytes entry))
    (hbeyond : ∀ q, Beyond (segmentOf bytes entry).vaddr (segmentOf bytes entry).pageCount q →
      q ∈ pagesOf before) :
    ∃ loaded, loadSegmentStatic kernel (fileOf bytes) entry = some loaded ∧
      Shows start room (pagesOf (before ++ [segmentOf bytes entry]))
        (image (before ++ [segmentOf bytes entry])) loaded.machine := by
  obtain ⟨loaded, hloaded, hshows⟩ := hm.loadSegment rfl hload hproper.1 hproper.2 hbeyond
  have himage : (fun a => (segmentOf bytes entry).after a (image before a)) =
      image (before ++ [segmentOf bytes entry]) := by
    funext a
    rw [image_append]
  rw [← pagesOf_append, himage] at hshows
  exact ⟨loaded, hloaded, hshows⟩

/-- The loop, when each segment finds what it needs; `before` are the segments that are
there already. -/
theorem Shows.loadSegments
    (hm : Shows start (room + pageTotal (segmentsOf bytes entries)) (pagesOf before)
      (image before) kernel.machine)
    (hproper : ∀ segment ∈ segmentsOf bytes entries, Proper segment)
    (hprepared : Prepared before (segmentsOf bytes entries)) :
    ∃ loaded, StaticImage.loadSegments (fileOf bytes) kernel entries = some loaded ∧
      Shows start room (pagesOf (before ++ segmentsOf bytes entries))
        (image (before ++ segmentsOf bytes entries)) loaded.machine := by
  induction entries generalizing before kernel with
  | nil =>
      refine ⟨kernel, rfl, ?_⟩
      have hnil : before ++ segmentsOf bytes [] = before := List.append_nil before
      rw [hnil]
      exact hm
  | cons entry entries ih =>
      rw [loadSegments_cons]
      by_cases hload : ProgLoad entry
      · rw [segmentsOf_load hload] at hm hproper hprepared ⊢
        obtain ⟨hbeyond, hrest⟩ := hprepared
        obtain ⟨loaded, hloaded, hshows⟩ :=
          hm.first.loadNext hload (hproper _ List.mem_cons_self) hbeyond
        rw [hloaded, Option.bind_some, List.append_cons]
        exact ih hshows (fun segment hmem => hproper segment (List.mem_cons_of_mem _ hmem))
          hrest
      · rw [segmentsOf_other hload] at hm hproper hprepared ⊢
        rw [loadSegmentStatic_other hload, Option.bind_some]
        exact ih hm hproper hprepared

/-- Otherwise, with no other page mapped, the loop ends in a fault. -/
theorem Shows.loadSegments_none
    (hm : Shows start (room + pageTotal (segmentsOf bytes entries)) (pagesOf before)
      (image before) kernel.machine)
    (hbare : start.bare) (hproper : ∀ segment ∈ segmentsOf bytes entries, Proper segment)
    (hprepared : ¬ Prepared before (segmentsOf bytes entries)) :
    StaticImage.loadSegments (fileOf bytes) kernel entries = none := by
  induction entries generalizing before kernel with
  | nil => exact absurd trivial hprepared
  | cons entry entries ih =>
      rw [loadSegments_cons]
      by_cases hload : ProgLoad entry
      · rw [segmentsOf_load hload] at hm hproper hprepared
        have hfirst := hproper _ List.mem_cons_self
        by_cases hbeyond : ∀ q, Beyond (segmentOf bytes entry).vaddr
            (segmentOf bytes entry).pageCount q → q ∈ pagesOf before
        · obtain ⟨loaded, hloaded, hshows⟩ := hm.first.loadNext hload hfirst hbeyond
          rw [hloaded, Option.bind_some]
          exact ih hshows
            (fun segment hmem => hproper segment (List.mem_cons_of_mem _ hmem))
            fun hrest => hprepared ⟨hbeyond, hrest⟩
        · rw [hm.first.loadSegment_none rfl hbare hload hfirst.2 hbeyond, Option.bind_none]
      · rw [segmentsOf_other hload] at hm hproper hprepared
        rw [loadSegmentStatic_other hload, Option.bind_some]
        exact ih hm hproper hprepared

/-! ## Executables -/

/-- A file that `load_elf` takes: its entries are as large as `program_entry_t` and lie
in the file, as do the parts of the segments, which fit into their memory and do not
overlap there. -/
structure Executable where
  bytes : List (BitVec 8)
  accepted : ¬ (readHeader bytes).Rejected
  entrySize : (readHeader bytes).programEntrySize = 32
  headers : (readHeader bytes).programHeaderOffset.toNat +
    programEntrySize * (readHeader bytes).programEntryCount.toNat ≤ bytes.length
  inFile : ∀ entry ∈ programHeaders bytes, ProgLoad entry →
    entry.dataOffset.toNat + entry.fsize.toNat ≤ bytes.length
  fits : ∀ entry ∈ programHeaders bytes, ProgLoad entry →
    entry.fsize.toNat ≤ entry.msize.toNat
  below : ∀ entry ∈ programHeaders bytes, ProgLoad entry →
    entry.vaddr.toNat + entry.msize.toNat ≤ 0xc0000000
  apart : (segments bytes).Pairwise fun segment other =>
    segment.vaddr + segment.msize ≤ other.vaddr ∨ other.vaddr + other.msize ≤ segment.vaddr
  entryBelow : (readHeader bytes).entryOffset.toNat + 4 ≤ 0xc0000000

/-- The byte that a segment should have at an index: one of the file, or zero. -/
def Segment.byte (segment : Segment) (i : ℕ) : BitVec 8 := segment.file.getD i 0

/-- Every byte of every segment is there. -/
def Complete (exe : Executable) (m : Machine) : Prop :=
  ∀ segment ∈ segments exe.bytes, ∀ i < segment.msize,
    byteAt m (segment.vaddr + i) = some (segment.byte i)

/-- A kernel that `load_elf` may be called in: an address space, and frames for the pages
of the image and for tables that are missing. -/
structure Ready (exe : Executable) (kernel : Kernel) : Prop where
  space : AddressSpace kernel.machine
  frames : Succeeds kernel.machine.frames
    (pageTotal (segments exe.bytes) + emptySlots kernel.machine)

/-- `load_elf` returns the entry point, with the image complete. -/
def Loads (exe : Executable) (kernel : Kernel) : Prop :=
  ∃ loaded, loadElf kernel exe.bytes =
      some (loaded, (readHeader exe.bytes).entryOffset) ∧
    Complete exe loaded.machine

/-- The loop over the pages of the segment, or the copy, comes to the address. -/
def Segment.Touches (segment : Segment) (a : ℕ) : Prop :=
  Renewed segment.vaddr segment.pageCount a ∨ Cleared segment.vaddr segment.pageCount a

/-- The segment leaves the byte: one of its own, or a zero where it clears its pages. -/
def Segment.Leaves (segment : Segment) (a : ℕ) (byte : BitVec 8) : Prop :=
  segment.copied a = some byte ∨
    segment.copied a = none ∧ segment.Touches a ∧ byte = 0 ∧
      ¬ (Renewed segment.vaddr segment.pageCount a ∧ Ahead segment.vaddr a)

/-- The last segment that touches the address leaves the byte. -/
def LeftBy (loaded : List Segment) (a : ℕ) (byte : BitVec 8) : Prop :=
  ∃ before segment after, loaded = before ++ segment :: after ∧ segment.Leaves a byte ∧
    ∀ other ∈ after, other.copied a = none ∧ ¬ other.Touches a

/-- What a file has to keep to.  A segment that does not start on a page boundary finds
the pages behind its first one mapped, up to the one in which its clearing ends; the
last segment that touches a byte of a segment leaves the right one there; and the entry
point lies on the pages of the segments. -/
structure Loadable (exe : Executable) : Prop where
  prepared : Prepared [] (segments exe.bytes)
  bytes : ∀ segment ∈ segments exe.bytes, ∀ i < segment.msize,
    LeftBy (segments exe.bytes) (segment.vaddr + i) (segment.byte i)
  entry : ∀ k < 4, ((readHeader exe.bytes).entryOffset.toNat + k) / 4096 ∈
    pagesOf (segments exe.bytes)

/-! ## The image and the last segment -/

variable {a : ℕ} {byte : BitVec 8}

theorem Segment.after_eq_holds {segment : Segment} {cell : Cell} :
    segment.after a cell = .holds byte ↔
      segment.Leaves a byte ∨
        (segment.copied a = none ∧ ¬ segment.Touches a) ∧ cell = .holds byte := by
  rw [Segment.after, Segment.Leaves]
  cases hcopied : segment.copied a with
  | some value => simp
  | none =>
      dsimp only
      rw [afterPages]
      by_cases hstale : Renewed segment.vaddr segment.pageCount a ∧ Ahead segment.vaddr a
      · have htouches : segment.Touches a := Or.inl hstale.1
        simp [hstale, htouches]
      · rw [if_neg hstale]
        by_cases htouches : segment.Touches a
        · have hif : Renewed segment.vaddr segment.pageCount a ∨
              Cleared segment.vaddr segment.pageCount a := htouches
          rw [if_pos hif]
          constructor
          · intro hzero
            obtain rfl : 0 = byte := Cell.holds.inj hzero
            exact Or.inl (Or.inr ⟨rfl, htouches, rfl, hstale⟩)
          · rintro ((hsome | ⟨_, _, rfl, _⟩) | ⟨⟨_, hnot⟩, _⟩)
            · cases hsome
            · rfl
            · exact absurd htouches hnot
        · have hif : ¬ (Renewed segment.vaddr segment.pageCount a ∨
              Cleared segment.vaddr segment.pageCount a) := htouches
          rw [if_neg hif]
          simp [htouches]

theorem leftBy_append {loaded : List Segment} {segment : Segment} :
    LeftBy (loaded ++ [segment]) a byte ↔
      segment.Leaves a byte ∨
        (segment.copied a = none ∧ ¬ segment.Touches a) ∧ LeftBy loaded a byte := by
  constructor
  · rintro ⟨before, other, after, hsplit, hleaves, hafter⟩
    rcases List.eq_nil_or_concat after with rfl | ⟨rest, last, rfl⟩
    · obtain ⟨-, hlast⟩ := List.append_inj' hsplit rfl
      obtain rfl : segment = other := List.singleton_inj.mp hlast
      exact Or.inl hleaves
    · rw [List.concat_eq_append, ← List.cons_append, ← List.append_assoc] at hsplit
      obtain ⟨rfl, hlast⟩ := List.append_inj' hsplit rfl
      obtain rfl : segment = last := List.singleton_inj.mp hlast
      refine Or.inr ⟨hafter segment (by simp), before, other, rest, rfl, hleaves, ?_⟩
      intro third hthird
      exact hafter third (by simp [hthird])
  · rintro (hleaves | ⟨hapart, before, other, after, rfl, hleaves, hafter⟩)
    · exact ⟨loaded, segment, [], rfl, hleaves, by simp⟩
    · refine ⟨before, other, after ++ [segment], by simp, hleaves, ?_⟩
      intro third hthird
      rcases List.mem_append.mp hthird with hthird | hthird
      · exact hafter third hthird
      · rw [List.mem_singleton.mp hthird]
        exact hapart

theorem image_eq_holds (loaded : List Segment) :
    image loaded a = .holds byte ↔ LeftBy loaded a byte := by
  induction loaded using List.reverseRecOn with
  | nil =>
      constructor
      · intro hnone
        cases hnone
      · rintro ⟨before, segment, after, hsplit, _⟩
        simp at hsplit
  | append_singleton loaded segment ih =>
      rw [image_append, Segment.after_eq_holds, ih, leftBy_append]

theorem Segment.touches_of_copied {segment : Segment} (hproper : Proper segment)
    (hcopied : segment.copied a = some byte) : segment.Touches a := by
  rw [Segment.copied] at hcopied
  split at hcopied
  · rename_i hplace
    have hlt := (List.getElem?_eq_some_iff.mp hcopied).1
    have hfits := hproper.1
    have hcount : segment.msize ≤ 4096 * segment.pageCount := by
      rw [Segment.pageCount]
      omega
    exact Or.inr ⟨hplace.2, by omega⟩
  · cases hcopied

theorem Segment.after_of_not_touches {segment : Segment} (hproper : Proper segment)
    (htouches : ¬ segment.Touches a) (cell : Cell) : segment.after a cell = cell := by
  have hcopied : segment.copied a = none := by
    cases hcopied : segment.copied a with
    | none => rfl
    | some byte => exact absurd (Segment.touches_of_copied hproper hcopied) htouches
  have hrenewed : ¬ (Renewed segment.vaddr segment.pageCount a ∧ Ahead segment.vaddr a) :=
    fun hboth => htouches (Or.inl hboth.1)
  have hif : ¬ (Renewed segment.vaddr segment.pageCount a ∨
      Cleared segment.vaddr segment.pageCount a) := htouches
  rw [Segment.after, hcopied]
  dsimp only
  rw [afterPages, if_neg hrenewed, if_neg hif]

/-- What is cleared is on a page of the segment or behind it. -/
theorem Segment.page_of_touches {segment : Segment} (htouches : segment.Touches a) :
    a / 4096 ∈ pageRange segment.vaddr segment.pageCount ∨
      Beyond segment.vaddr segment.pageCount (a / 4096) := by
  rcases htouches with hrenewed | ⟨hlow, hhigh⟩
  · exact Or.inl hrenewed
  · by_cases hrange : a / 4096 < segment.vaddr / 4096 + segment.pageCount
    · exact Or.inl ⟨by omega, hrange⟩
    · exact Or.inr ⟨by omega, by omega, by omega⟩

/-- Where something is known of an address, its page is one of the image. -/
theorem page_of_image {loaded before : List Segment}
    (hproper : ∀ segment ∈ loaded, Proper segment) (hprepared : Prepared before loaded)
    (hbefore : ∀ a, image before a ≠ .unmapped → a / 4096 ∈ pagesOf before)
    (hknown : image (before ++ loaded) a ≠ .unmapped) :
    a / 4096 ∈ pagesOf (before ++ loaded) := by
  induction loaded generalizing before with
  | nil =>
      rw [List.append_nil] at hknown ⊢
      exact hbefore a hknown
  | cons segment loaded ih =>
      obtain ⟨hbeyond, hrest⟩ := hprepared
      rw [List.append_cons] at hknown ⊢
      refine ih (fun other hother => hproper other (List.mem_cons_of_mem _ hother)) hrest ?_
        hknown
      intro b hb
      rw [pagesOf_append]
      by_cases htouches : segment.Touches b
      · rcases segment.page_of_touches htouches with hrange | hbehind
        · exact Or.inl hrange
        · exact Or.inr (hbeyond _ hbehind)
      · rw [image_append,
          Segment.after_of_not_touches (hproper segment List.mem_cons_self) htouches] at hb
        exact Or.inr (hbefore b hb)

/-! ## Complete images -/

variable {exe : Executable}

theorem Executable.proper (exe : Executable) :
    ∀ segment ∈ segments exe.bytes, Proper segment := by
  intro segment hsegment
  obtain ⟨entry, hentry, rfl⟩ := List.mem_map.mp hsegment
  obtain ⟨hmem, hload⟩ := List.mem_filter.mp hentry
  have hload := of_decide_eq_true hload
  refine ⟨?_, exe.below entry hmem hload⟩
  have hlength : (segmentOf exe.bytes entry).file.length ≤ entry.fsize.toNat :=
    List.length_take_le _ _
  exact hlength.trans (exe.fits entry hmem hload)

theorem shows_start {start : Start} (hready : Ready exe kernel)
    (hgarbage : ∀ frame, kernel.machine.frames.used frame.toNat = false →
      ∀ index, ∀ k < 4, start.garbage (byteOf (kernel.machine.mem frame index) k))
    (hbare : start.bare → ∀ a < 0xffc00000, kernel.machine.walk (addr a) = none) :
    Shows start (0 + pageTotal (segments exe.bytes)) (pagesOf []) (image [])
      kernel.machine := by
  have hempty : ∀ q, q ∉ pagesOf [] := by
    rintro q ⟨segment, hmem, _⟩
    cases hmem
  refine ⟨⟨hready.space, ?_, ?_, ?_, hgarbage, ?_, ?_⟩, ?_⟩
  · intro q hq
    exact absurd hq (hempty q)
  · intro a ha
    exact absurd ha (hempty _)
  · intro a b ha
    exact absurd ha (hempty _)
  · intro hstart a ha _
    exact hbare hstart a ha
  · rw [Nat.zero_add]
    exact hready.frames
  · intro a ha
    exact absurd ha (hempty _)

theorem loadElf_eq (exe : Executable) (kernel : Kernel) :
    loadElf kernel exe.bytes =
      (StaticImage.loadSegments (fileOf exe.bytes) kernel (programHeaders exe.bytes)).bind
        fun loaded =>
          (readWord loaded.machine (readHeader exe.bytes).entryOffset.toNat).bind fun _ =>
            some (loaded, (readHeader exe.bytes).entryOffset) :=
  if_neg exe.accepted

theorem readWord_isSome {m : Machine} (hbytes : ∀ k < 4, (byteAt m (a + k)).isSome) :
    ∃ word, readWord m a = some word := by
  obtain ⟨first, hfirst⟩ := Option.isSome_iff_exists.mp (hbytes 0 (by decide))
  obtain ⟨second, hsecond⟩ := Option.isSome_iff_exists.mp (hbytes 1 (by decide))
  obtain ⟨third, hthird⟩ := Option.isSome_iff_exists.mp (hbytes 2 (by decide))
  obtain ⟨fourth, hfourth⟩ := Option.isSome_iff_exists.mp (hbytes 3 (by decide))
  rw [Nat.add_zero] at hfirst
  refine ⟨[first, second, third, fourth], ?_⟩
  simp only [readWord, hfirst, hsecond, hthird, hfourth, Option.bind_eq_bind, Option.bind_some]

theorem Matches.isSome {start : Start} {value : Option (BitVec 8)} {cell : Cell}
    (hmatch : Matches start value cell) : value.isSome := by
  cases cell with
  | unmapped => exact hmatch.elim
  | leftover =>
      obtain ⟨byte, rfl, _⟩ := hmatch
      rfl
  | holds byte =>
      obtain rfl : value = some byte := hmatch
      rfl

/-- The condition is enough, whatever was mapped before. -/
theorem Loadable.loads (hexe : Loadable exe) (hready : Ready exe kernel) :
    Loads exe kernel := by
  have hstart := @shows_start kernel exe ⟨fun _ => True, False⟩ hready
    (fun _ _ _ _ _ => trivial) (fun hfalse => hfalse.elim)
  obtain ⟨loaded, hloaded, hshows⟩ := hstart.loadSegments exe.proper hexe.prepared
  change Shows _ 0 (pagesOf (segments exe.bytes)) (image (segments exe.bytes))
    loaded.machine at hshows
  have hbyte : ∀ a, image (segments exe.bytes) a ≠ .unmapped →
      a / 4096 ∈ pagesOf (segments exe.bytes) := by
    intro a hknown
    exact @page_of_image a (segments exe.bytes) [] exe.proper hexe.prepared
      (fun a hne => absurd rfl hne) hknown
  obtain ⟨word, hword⟩ : ∃ word,
      readWord loaded.machine (readHeader exe.bytes).entryOffset.toNat = some word := by
    apply readWord_isSome
    intro k hk
    exact (hshows.matching _ (hexe.entry k hk)).isSome
  refine ⟨loaded, ?_, ?_⟩
  · rw [loadElf_eq, hloaded, Option.bind_some, hword, Option.bind_some]
  · intro segment hsegment i hi
    have hcell := (image_eq_holds _).mpr (hexe.bytes segment hsegment i hi)
    have hmatch := hshows.matching _ (hbyte _ (by rw [hcell]; exact Cell.noConfusion))
    rw [hcell] at hmatch
    exact hmatch

/-! ## A machine with nothing mapped -/

/-- The frames from 8 on are free. -/
def bareFrames : FrameMap := ⟨fun i => if i = 0 then 0xff else 0, 0⟩

/-- A word of the byte four times. -/
def fourTimes (byte : BitVec 8) : BitVec 32 := BitVec.ofNat 32 (byte.toNat * 0x1010101)

/-- A directory in frame 1 that names nothing but itself; all other frames are full of one
byte. -/
def bareMachine (byte : BitVec 8) : Machine where
  mem frame index :=
    if frame = 1 then if index = 1023 then 0x1001 else 0 else fourTimes byte
  cr3 := 0x1000
  frames := bareFrames

def bareKernel (byte : BitVec 8) : Kernel where
  machine := bareMachine byte
  heap := ⟨fun _ => 0, 0, 0, 0⟩

theorem byteOf_fourTimes (byte : BitVec 8) {k : ℕ} (hk : k < 4) :
    byteOf (fourTimes byte) k = byte := by
  have hbyte := byte.isLt
  have hword : (fourTimes byte).toNat = byte.toNat * 0x1010101 := by
    rw [fourTimes, BitVec.toNat_ofNat]
    exact Nat.mod_eq_of_lt (by omega)
  apply BitVec.eq_of_toNat_eq
  rw [byteOf, BitVec.extractLsb'_toNat, hword, Nat.shiftRight_eq_div_pow]
  interval_cases k
  · omega
  · have hdiv : byte.toNat * 0x1010101 / 2 ^ (8 * 1) = byte.toNat * 65793 := by
      rw [show 2 ^ (8 * 1) = 256 from rfl]
      omega
    rw [hdiv]
    omega
  · have hdiv : byte.toNat * 0x1010101 / 2 ^ (8 * 2) = byte.toNat * 257 := by
      rw [show 2 ^ (8 * 2) = 65536 from rfl]
      omega
    rw [hdiv]
    omega
  · have hdiv : byte.toNat * 0x1010101 / 2 ^ (8 * 3) = byte.toNat := by
      rw [show 2 ^ (8 * 3) = 16777216 from rfl]
      omega
    rw [hdiv]
    omega

theorem bareMachine_directory (byte : BitVec 8) : (bareMachine byte).directory = 1 := by
  change frameOf 0x1000 = 1
  decide

theorem bareMachine_pde (byte : BitVec 8) (slot : BitVec 10) :
    (bareMachine byte).pde slot = if slot = 1023 then 0x1001 else 0 := by
  rw [Machine.pde, bareMachine_directory]
  change (if (1 : BitVec 20) = 1 then if slot = 1023 then 0x1001 else 0
    else fourTimes byte) = _
  rw [if_pos rfl]

theorem bareMachine_slot (byte : BitVec 8) {slot : BitVec 10} (hslot : slot ∈ lowSlots) :
    (bareMachine byte).pde slot = 0 := by
  rw [bareMachine_pde, if_neg hslot]

theorem bareMachine_space (byte : BitVec 8) : AddressSpace (bareMachine byte) where
  addressable := by
    have hrecursive : Recursive (bareMachine byte) := by
      rw [Recursive, bareMachine_pde, if_pos rfl, bareMachine_directory]
      decide
    refine ⟨hrecursive, ?_, ?_, ?_⟩
    · intro slot hslot hne
      exact absurd (bareMachine_slot byte hslot) hne
    · intro slot hslot hne
      exact absurd (bareMachine_slot byte hslot) hne
    · intro slot hslot other _ hne
      exact absurd (bareMachine_slot byte hslot) hne
  directory := by
    rw [bareMachine_directory]
    refine ⟨by decide, ?_⟩
    change bareFrames.used 1 = true
    decide
  tables slot hslot hne := absurd (bareMachine_slot byte hslot) hne

theorem bareFrames_used (frame : ℕ) : bareFrames.used frame = decide (frame < 8) := by
  by_cases hlow : frame < 8
  · rw [decide_eq_true hlow]
    interval_cases frame <;> rfl
  · have hbyte : frame / 8 ≠ 0 := by omega
    have hmap : bareFrames.pmMap (frame / 8) = 0 := if_neg hbyte
    rw [decide_eq_false hlow, FrameMap.used, hmap]
    exact BitVec.getLsbD_zero

/-- The free frames of the allocator. -/
@[irreducible]
def freeFrames (frames : FrameMap) : ℕ :=
  ((Finset.range (8 * mmapCount)).filter fun frame => frames.used frame = false).card

theorem freeFrames_succ {frames : FrameMap} (hserved : (pmAlloc frames).2 ≠ 0) :
    freeFrames frames = freeFrames (pmAlloc frames).1 + 1 := by
  rcases pmAlloc_cases frames with hnone | ⟨frame, -, hfree, hbound, hafter⟩
  · rw [hnone] at hserved
    exact absurd rfl hserved
  · have herase : (Finset.range (8 * mmapCount)).filter
          (fun other => (pmAlloc frames).1.used other = false) =
        ((Finset.range (8 * mmapCount)).filter fun other =>
          frames.used other = false).erase frame := by
      ext other
      rw [Finset.mem_filter, Finset.mem_erase, Finset.mem_filter, hafter,
        Bool.or_eq_false_iff, decide_eq_false_iff_not]
      constructor
      · rintro ⟨hrange, hother, hne⟩
        exact ⟨hne, hrange, hother⟩
      · rintro ⟨hne, hrange, hother⟩
        exact ⟨hrange, hother, hne⟩
    have hmem : frame ∈ (Finset.range (8 * mmapCount)).filter fun other =>
        frames.used other = false :=
      Finset.mem_filter.mpr ⟨Finset.mem_range.mpr (by omega), hfree⟩
    have hcard := Finset.card_erase_add_one hmem
    unfold freeFrames
    rw [herase, hcard]

/-- `pm_alloc` serves as many calls as there are free frames. -/
theorem succeeds_of_free {frames : FrameMap} {count : ℕ} (hhint : HintOk frames)
    (hfirst : frames.used 0 = true) (hcount : count ≤ freeFrames frames) :
    Succeeds frames count := by
  induction count generalizing frames with
  | zero => trivial
  | succ count ih =>
      have hserved : (pmAlloc frames).2 ≠ 0 := by
        intro hnull
        have hall := (complete_iff hhint).mpr (Or.inl hfirst) hnull
        have hnone : freeFrames frames = 0 := by
          unfold freeFrames
          rw [Finset.card_eq_zero, Finset.filter_eq_empty_iff]
          intro frame hframe
          have hused : frames.used frame = true := by
            by_cases hzero : frame = 0
            · rw [hzero, hfirst]
            · exact hall frame (by omega) (Finset.mem_range.mp hframe)
          rw [hused]
          exact Bool.noConfusion
        omega
      rw [freeFrames_succ hserved] at hcount
      exact ⟨hserved, ih (hintOk_alloc hhint) (used_pmAlloc frames hfirst) (by omega)⟩

theorem bareFrames_free : 2 ^ 20 - 8 ≤ freeFrames bareFrames := by
  have hlarge : Finset.Ico 8 (8 * mmapCount) ⊆
      (Finset.range (8 * mmapCount)).filter fun frame => bareFrames.used frame = false := by
    intro frame hframe
    obtain ⟨hlow, hhigh⟩ := Finset.mem_Ico.mp hframe
    refine Finset.mem_filter.mpr ⟨Finset.mem_range.mpr hhigh, ?_⟩
    rw [bareFrames_used]
    exact decide_eq_false (by omega)
  have hcard := Finset.card_le_card hlarge
  rw [Nat.card_Ico] at hcard
  unfold freeFrames
  exact hcard

/-- Segments that do not overlap are not larger together than the memory they lie in. -/
theorem sum_msize_le {limit : ℕ} {loaded : List Segment}
    (hlow : ∀ segment ∈ loaded, segment.vaddr + segment.msize ≤ limit)
    (hapart : loaded.Pairwise fun segment other =>
      segment.vaddr + segment.msize ≤ other.vaddr ∨ other.vaddr + other.msize ≤ segment.vaddr) :
    (loaded.map Segment.msize).sum ≤ limit := by
  -- the addresses in the segments, counted
  have hcount : (loaded.map Segment.msize).sum ≤ ((Finset.range limit).filter fun a =>
      ∃ segment ∈ loaded, segment.vaddr ≤ a ∧ a < segment.vaddr + segment.msize).card := by
    induction loaded with
    | nil => exact Nat.zero_le _
    | cons segment loaded ih =>
        obtain ⟨hfirst, hrest⟩ := List.pairwise_cons.mp hapart
        have hsum := ih (fun other hother => hlow other (List.mem_cons_of_mem _ hother)) hrest
        have hdisjoint : Disjoint
            (Finset.Ico segment.vaddr (segment.vaddr + segment.msize))
            ((Finset.range limit).filter fun a => ∃ other ∈ loaded,
              other.vaddr ≤ a ∧ a < other.vaddr + other.msize) := by
          rw [Finset.disjoint_left]
          intro a ha hrest
          obtain ⟨hge, hlt⟩ := Finset.mem_Ico.mp ha
          obtain ⟨other, hother, hge', hlt'⟩ := (Finset.mem_filter.mp hrest).2
          rcases hfirst other hother with hbefore | hafter
          · omega
          · omega
        rw [List.map_cons, List.sum_cons]
        calc segment.msize + (loaded.map Segment.msize).sum
            ≤ (Finset.Ico segment.vaddr (segment.vaddr + segment.msize)).card +
                ((Finset.range limit).filter fun a => ∃ other ∈ loaded,
                  other.vaddr ≤ a ∧ a < other.vaddr + other.msize).card := by
              rw [Nat.card_Ico, Nat.add_sub_cancel_left]
              exact Nat.add_le_add_left hsum _
          _ = _ := (Finset.card_union_of_disjoint hdisjoint).symm
          _ ≤ _ := by
              apply Finset.card_le_card
              intro a ha
              rw [Finset.mem_filter, Finset.mem_range]
              rcases Finset.mem_union.mp ha with hin | hin
              · obtain ⟨hge, hlt⟩ := Finset.mem_Ico.mp hin
                have hend := hlow segment List.mem_cons_self
                exact ⟨by omega, segment, List.mem_cons_self, hge, hlt⟩
              · obtain ⟨hrange, other, hother, hplace⟩ := Finset.mem_filter.mp hin
                exact ⟨Finset.mem_range.mp hrange, other, List.mem_cons_of_mem _ hother, hplace⟩
  refine hcount.trans ((Finset.card_filter_le _ _).trans ?_)
  rw [Finset.card_range]

theorem pageTotal_le (loaded : List Segment) :
    4096 * pageTotal loaded ≤ (loaded.map Segment.msize).sum + 4095 * loaded.length := by
  induction loaded with
  | nil => exact Nat.zero_le _
  | cons segment loaded ih =>
      rw [pageTotal_cons, List.map_cons, List.sum_cons, List.length_cons, Segment.pageCount]
      omega

theorem length_segments (exe : Executable) : (segments exe.bytes).length < 2 ^ 16 := by
  have hlength : (programHeaders exe.bytes).length =
      (readHeader exe.bytes).programEntryCount.toNat := by
    rw [programHeaders, List.length_map, List.length_range]
  have hfilter : (segments exe.bytes).length ≤ (programHeaders exe.bytes).length := by
    rw [segments, segmentsOf, List.length_map]
    exact List.length_filter_le _ _
  have hcount := (readHeader exe.bytes).programEntryCount.isLt
  omega

theorem pageTotal_segments (exe : Executable) :
    pageTotal (segments exe.bytes) ≤ 851951 := by
  have hpages := pageTotal_le (segments exe.bytes)
  have hlength := length_segments exe
  have hsum := sum_msize_le (fun segment hsegment => (exe.proper segment hsegment).2) exe.apart
  omega

theorem emptySlots_le (m : Machine) : emptySlots m ≤ 768 := by
  unfold emptySlots
  refine (Finset.card_filter_le _ _).trans ?_
  rw [Finset.card_range]

theorem bareKernel_ready (exe : Executable) (byte : BitVec 8) :
    Ready exe (bareKernel byte) where
  space := bareMachine_space byte
  frames := by
    have hhint : HintOk bareFrames := fun frame hframe => absurd hframe (Nat.not_lt_zero _)
    have hfirst : bareFrames.used 0 = true := by
      rw [bareFrames_used]
      rfl
    have hpages := pageTotal_segments exe
    have hslots := emptySlots_le (bareMachine byte)
    have hfree := bareFrames_free
    exact succeeds_of_free hhint hfirst (show _ ≤ freeFrames bareFrames by
      change pageTotal (segments exe.bytes) + emptySlots (bareMachine byte) ≤ _
      omega)

theorem bareKernel_shows (exe : Executable) (byte : BitVec 8) :
    Shows ⟨fun value => value = byte, True⟩ (0 + pageTotal (segments exe.bytes)) (pagesOf [])
      (image []) (bareKernel byte).machine := by
  refine shows_start (bareKernel_ready exe byte) ?_ ?_
  · intro frame hfree index k hk
    have hother : frame ≠ 1 := by
      rintro rfl
      have hused : bareFrames.used (1 : BitVec 20).toNat = false := hfree
      rw [bareFrames_used] at hused
      exact absurd hused (by decide)
    have hmem : (bareKernel byte).machine.mem frame index = fourTimes byte := if_neg hother
    rw [hmem]
    exact byteOf_fourTimes byte hk
  · intro _ a ha
    have hpde : (bareMachine byte).pde (pdIndex (addr a)) = 0 :=
      bareMachine_slot byte (pdIndex_addr_mem ha)
    have hwalk : (bareMachine byte).walk (addr a) = none := by
      rw [Machine.walk, hpde]
      rfl
    exact hwalk

/-! ## What is loaded everywhere -/

theorem readWord_none {m : Machine} {k : ℕ} (hk : k < 4) (hnone : byteAt m (a + k) = none) :
    readWord m a = none := by
  rw [readWord]
  interval_cases k
  · rw [Nat.add_zero] at hnone
    simp [hnone]
  all_goals simp [hnone]

/-- What a machine with nothing mapped shows of a program that it loads. -/
theorem shows_of_loads (hprepared : Prepared [] (segments exe.bytes))
    (hloads : Loads exe (bareKernel byte)) :
    ∃ loaded, Shows ⟨fun value => value = byte, True⟩ 0 (pagesOf (segments exe.bytes))
        (image (segments exe.bytes)) loaded ∧
      Complete exe loaded ∧
        ∃ word, readWord loaded (readHeader exe.bytes).entryOffset.toNat = some word := by
  obtain ⟨loaded, hloaded, hshows⟩ :=
    (bareKernel_shows exe byte).loadSegments exe.proper hprepared
  obtain ⟨final, hfinal, hcomplete⟩ := hloads
  rw [loadElf_eq, hloaded, Option.bind_some] at hfinal
  obtain ⟨word, hword, hpair⟩ := Option.bind_eq_some_iff.mp hfinal
  obtain rfl : loaded = final := congrArg Prod.fst (Option.some.inj hpair)
  exact ⟨loaded.machine, hshows, hcomplete, word, hword⟩

theorem loadable_of_loads (hall : ∀ kernel, Ready exe kernel → Loads exe kernel) :
    Loadable exe := by
  have hprepared : Prepared [] (segments exe.bytes) := by
    by_contra hnot
    have hnone := (bareKernel_shows exe 0).loadSegments_none trivial exe.proper hnot
    obtain ⟨final, hfinal, -⟩ := hall _ (bareKernel_ready exe 0)
    rw [loadElf_eq] at hfinal
    change (StaticImage.loadSegments (fileOf exe.bytes) _ (programHeaders exe.bytes)) = none
      at hnone
    rw [hnone, Option.bind_none] at hfinal
    cases hfinal
  refine ⟨hprepared, ?_, ?_⟩
  · intro segment hsegment i hi
    -- free frames are full of another byte than the right one
    obtain ⟨loaded, hshows, hcomplete, -⟩ := shows_of_loads hprepared
      (hall _ (bareKernel_ready exe (segment.byte i + 1)))
    have hbyte := hcomplete segment hsegment i hi
    have hbelow := (exe.proper segment hsegment).2
    have hpage : (segment.vaddr + i) / 4096 ∈ pagesOf (segments exe.bytes) := by
      by_contra hout
      rw [hshows.loading.byteAt_none trivial (by omega) hout] at hbyte
      cases hbyte
    have hmatch := hshows.matching _ hpage
    rw [hbyte] at hmatch
    rw [← image_eq_holds]
    cases hcell : image (segments exe.bytes) (segment.vaddr + i) with
    | unmapped =>
        rw [hcell] at hmatch
        exact hmatch.elim
    | leftover =>
        rw [hcell] at hmatch
        obtain ⟨value, hvalue, hother⟩ := hmatch
        have hsame : segment.byte i = segment.byte i + 1 := (Option.some.inj hvalue).trans hother
        exact absurd (left_eq_add.mp hsame) (by decide)
    | holds value =>
        rw [hcell] at hmatch
        rw [Option.some.inj hmatch]
  · intro k hk
    obtain ⟨loaded, hshows, -, word, hword⟩ := shows_of_loads hprepared
      (hall _ (bareKernel_ready exe 0))
    have hbelow := exe.entryBelow
    by_contra hout
    have hnone := hshows.loading.byteAt_none trivial (by omega) hout
    rw [readWord_none hk hnone] at hword
    cases hword

/-- Programs that `load_elf` gives a complete image, whatever the machine held before. -/
theorem loadElf_complete_iff (exe : Executable) :
    (∀ kernel, Ready exe kernel → Loads exe kernel) ↔ Loadable exe :=
  ⟨loadable_of_loads, fun hexe _ hready => hexe.loads hready⟩

/-- An executable of one segment of four bytes, at an address that is not a multiple of
the page size. -/
def oneSegment : List (BitVec 8) :=
  [0x7f, 0x45, 0x4c, 0x46, 1, 1, 1, 0, 0, 0, 0, 0, 0, 0, 0, 0,
    2, 0, 3, 0, 1, 0, 0, 0, 0x54, 0x80, 0x04, 0x08, 52, 0, 0, 0,
    0, 0, 0, 0, 0, 0, 0, 0, 52, 0, 32, 0, 1, 0, 0, 0, 0, 0, 0, 0,
    1, 0, 0, 0, 0x54, 0, 0, 0, 0x54, 0x80, 0x04, 0x08, 0x54, 0x80, 0x04, 0x08,
    4, 0, 0, 0, 4, 0, 0, 0, 5, 0, 0, 0, 4, 0, 0, 0,
    0x90, 0x90, 0x90, 0xc3]

theorem programHeaders_oneSegment : programHeaders oneSegment =
    [⟨1, 0x54, 0x8048054, 4, 4, 5⟩] := rfl

theorem segments_oneSegment :
    segments oneSegment = [⟨0x8048054, 4, [0x90, 0x90, 0x90, 0xc3]⟩] := by
  rw [segments, programHeaders_oneSegment]
  rfl

def unaligned : Executable where
  bytes := oneSegment
  accepted := by decide
  entrySize := by decide
  headers := by decide
  inFile := by
    rw [programHeaders_oneSegment]
    decide
  fits := by
    rw [programHeaders_oneSegment]
    decide
  below := by
    rw [programHeaders_oneSegment]
    decide
  apart := by
    rw [segments_oneSegment]
    exact List.pairwise_singleton _ _
  entryBelow := by decide

/-- The page behind the segment is cleared as well, and nothing is mapped there. -/
theorem unaligned_notLoaded :
    ¬ ∀ exe kernel, Ready exe kernel → Loads exe kernel := by
  intro hall
  have hprepared := (loadable_of_loads (hall unaligned)).prepared
  change Prepared [] (segments oneSegment) at hprepared
  rw [segments_oneSegment] at hprepared
  have hbeyond := hprepared.1 0x8049 ⟨by decide, by decide, by decide⟩
  obtain ⟨segment, hsegment, -⟩ := hbeyond
  cases hsegment

end KimisOS.StaticImage
