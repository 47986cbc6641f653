import KimisOS.Core.ByteStore

/-!
# Mapping the segments of the kernel

`load_elf` goes through the program headers of a loaded file and maps the pages of
each segment to the file image.  The number of pages is the size shifted to the
right, and the loop over them tests at its end.
-/

namespace KimisOS.Bootloader

open KimisOS.ByteStore

@[irreducible]
def pageTable : ℕ := 0x10000

def elfMagic : ℕ := 0x464c457f

/-- The memory, `last_allocated_pgtb` and `kload_paddr`. -/
structure Boot where
  mem : ℕ → UInt8
  lastAllocatedPgtb : ℕ
  kloadPaddr : ℕ

/-- `or byte [esi], 1` behind the write of a word. -/
def setPresent (word : ℕ) : ℕ := word / 2 * 2 + 1

/-- The directory slot of an address. -/
def directoryWord (vaddr : ℕ) : ℕ := pageTable + 4 * (vaddr / 2 ^ 22)

/-- The word of a page in a table. -/
def tableWord (table vaddr : ℕ) : ℕ := table + 4 * (vaddr / 4096 % 1024)

/-- `map_addr`: the page at `vaddr` (`esi`) is mapped to `paddr` (`edi`). -/
def mapAddr (boot : Boot) (vaddr paddr : ℕ) : Boot :=
  let entry := readU32 boot.mem (directoryWord vaddr)
  if entry = 0 then
    let table := (boot.lastAllocatedPgtb + 4096) % 2 ^ 32
    let mem := writeU32 boot.mem (directoryWord vaddr) (setPresent table)
    { boot with
      mem := writeU32 mem (tableWord table vaddr) (setPresent paddr)
      lastAllocatedPgtb := table }
  else
    { boot with
      mem := writeU32 boot.mem (tableWord (entry / 4096 * 4096) vaddr) (setPresent paddr) }

/-- The rounds of `.mloop`. -/
def mloop (boot : Boot) (vaddr paddr : ℕ) : ℕ → Boot
  | 0 => boot
  | rounds + 1 =>
      let boot := { boot with kloadPaddr := (boot.kloadPaddr + 0x1000) % 2 ^ 32 }
      mloop (mapAddr boot vaddr paddr) ((vaddr + 0x1000) % 2 ^ 32) ((paddr + 0x1000) % 2 ^ 32)
        rounds

/-- The body of `.map_seg_l` for a segment that is not empty; the loop over its pages
runs once before it looks at their number. -/
def mapSegment (boot : Boot) (vaddr paddr memSize : ℕ) : Boot :=
  mloop { boot with kloadPaddr := (boot.kloadPaddr + 0x1000) % 2 ^ 32 } vaddr paddr
    (max 1 (memSize / 4096))

/-- `.map_seg_l` from the program header at `header` (`ebx`) on. -/
def mapSegments (image : ℕ) : ℕ → Boot → ℕ → Option Boot
  | 0, _, _ => none
  | rounds + 1, boot, header =>
      if readU32 boot.mem header = 0 then some boot
      else
        let vaddr := readU32 boot.mem (header + 8)
        let paddr := (readU32 boot.mem (header + 4) + image) % 2 ^ 32
        let memSize := readU32 boot.mem (header + 20)
        let boot := if memSize = 0 then boot else mapSegment boot vaddr paddr memSize
        mapSegments image rounds boot ((header + 32) % 2 ^ 32)

/-- `load_elf`, with the address that it returns in `eax`; it does not return from a
file without the magic number. -/
def loadElf (rounds : ℕ) (boot : Boot) (image : ℕ) : Option (Boot × ℕ) :=
  if readU32 boot.mem image ≠ elfMagic then none
  else
    let header := (image + readU32 boot.mem (image + 28)) % 2 ^ 32
    (mapSegments image rounds boot header).map fun boot =>
      (boot, readU32 boot.mem (image + 24))

/-- The walk of the processor, with large pages. -/
def translate (boot : Boot) (vaddr : ℕ) : Option ℕ :=
  let entry := readU32 boot.mem (directoryWord vaddr)
  if entry % 2 = 0 then none
  else if entry / 128 % 2 = 1 then some (entry / 2 ^ 22 * 2 ^ 22 + vaddr % 2 ^ 22)
  else
    let word := readU32 boot.mem (tableWord (entry / 4096 * 4096) vaddr)
    if word % 2 = 0 then none else some (word / 4096 * 4096 + vaddr % 4096)

/-! ## Files and what is mapped of them -/

/-- What `load_elf` reads of a program header. -/
structure ProgramHeader where
  type : ℕ
  dataOffset : ℕ
  vaddr : ℕ
  memSize : ℕ

/-- The bytes of a program header in the file. -/
structure HeaderAt (file : ℕ → UInt8) (offset : ℕ) (header : ProgramHeader) : Prop where
  type : readU32 file offset = header.type
  dataOffset : readU32 file (offset + 4) = header.dataOffset
  vaddr : readU32 file (offset + 8) = header.vaddr
  memSize : readU32 file (offset + 20) = header.memSize

/-- A segment of the kernel starts at a page boundary, behind the large page of the
boot loader and in front of the window of the page tables. -/
structure KernelSegment (header : ProgramHeader) : Prop where
  used : header.type ≠ 0
  filled : 1 ≤ header.memSize
  vaddr : header.vaddr % 4096 = 0
  dataOffset : header.dataOffset % 4096 = 0
  low : 0x400000 ≤ header.vaddr
  high : header.vaddr + header.memSize ≤ 0xffc00000

/-- A kernel file with its program headers, of which the last has type 0. -/
structure KernelFile (file : ℕ → UInt8) (size offset : ℕ) (headers : List ProgramHeader) :
    Prop where
  magic : readU32 file 0 = elfMagic
  place : readU32 file 28 = offset
  header : ∀ i (hi : i < headers.length), HeaderAt file (offset + 32 * i) headers[i]
  last : readU32 file (offset + 32 * headers.length) = 0
  segment : ∀ header ∈ headers, KernelSegment header
  inside : offset + 32 * headers.length + 4 ≤ size ∧ 32 ≤ size

/-- A page and the physical address that `map_addr` is called with. -/
abbrev MapCall := ℕ × ℕ

def pageAddress (image : ℕ) (header : ProgramHeader) (k : ℕ) : ℕ :=
  (header.dataOffset + image + 4096 * k) % 2 ^ 32

/-- The calls for a segment, by pages. -/
def segmentCalls (image : ℕ) (header : ProgramHeader) : List MapCall :=
  (List.range (max 1 (header.memSize / 4096))).map fun k =>
    (header.vaddr / 4096 + k, pageAddress image header k)

def fileCalls (image : ℕ) (headers : List ProgramHeader) : List MapCall :=
  headers.flatMap (segmentCalls image)

/-- The directory slots of the calls. -/
@[irreducible]
def slots (calls : List MapCall) : Finset ℕ := (calls.map fun call => call.1 / 1024).toFinset

/-- The last call for a page. -/
def lastCall (calls : List MapCall) (page : ℕ) : Option ℕ :=
  (calls.reverse.find? fun call => call.1 == page).map Prod.snd

/-- The file is at `image`, and the directory has no entries between its first and its
last one. -/
structure Loaded (boot : Boot) (image size : ℕ) (file : ℕ → UInt8) : Prop where
  bytes : ∀ k < size, boot.mem (image + k) = file k
  start : boot.lastAllocatedPgtb = pageTable
  empty : ∀ slot, 0 < slot → slot < 1023 → readU32 boot.mem (pageTable + 4 * slot) = 0

/-- The image starts at a page, lies in the address space, and has the page tables in
front of it. -/
structure ImageFits (image size : ℕ) (calls : List MapCall) : Prop where
  aligned : image % 4096 = 0
  inside : image + size ≤ 2 ^ 32
  room : pageTable + 4096 * ((slots calls).card + 1) ≤ image

/-- Every page of every segment is mapped to its place in the file image. -/
def MapsSegments (boot : Boot) (image : ℕ) (headers : List ProgramHeader) : Prop :=
  ∀ header ∈ headers, ∀ k, 4096 * k < header.memSize →
    translate boot (header.vaddr + 4096 * k) = some (pageAddress image header k)

/-! ## The calls of `map_addr` -/

section Calls

variable {calls : List MapCall} {page paddr slot : ℕ}

@[simp]
theorem lastCall_nil : lastCall [] page = none := rfl

@[simp]
theorem lastCall_append (call : MapCall) : lastCall (calls ++ [call]) page =
    if call.1 = page then some call.2 else lastCall calls page := by
  rw [lastCall, List.reverse_append, List.reverse_singleton, List.singleton_append,
    List.find?_cons]
  by_cases hpage : call.1 = page
  · simp [hpage]
  · rw [if_neg hpage, beq_false_of_ne hpage]
    rfl

theorem lastCall_mem (hcall : lastCall calls page = some paddr) : (page, paddr) ∈ calls := by
  obtain ⟨call, hfind, rfl⟩ := Option.map_eq_some_iff.mp hcall
  have hpage : call.1 = page := by simpa using List.find?_some hfind
  have hmem := List.mem_reverse.mp (List.mem_of_find?_eq_some hfind)
  rwa [← hpage]

theorem mem_slots : slot ∈ slots calls ↔ ∃ call ∈ calls, call.1 / 1024 = slot := by
  rw [slots, List.mem_toFinset, List.mem_map]

theorem lastCall_of_notMem (hslot : page / 1024 ∉ slots calls) : lastCall calls page = none := by
  rw [Option.eq_none_iff_forall_ne_some]
  intro paddr hcall
  exact hslot (mem_slots.mpr ⟨_, lastCall_mem hcall, rfl⟩)

@[simp]
theorem slots_append (call : MapCall) :
    slots (calls ++ [call]) = insert (call.1 / 1024) (slots calls) := by
  ext slot
  rw [mem_slots, Finset.mem_insert, mem_slots]
  simp only [List.mem_append, List.mem_singleton]
  constructor
  · rintro ⟨other, hmem | rfl, rfl⟩
    · exact .inr ⟨other, hmem, rfl⟩
    · exact .inl rfl
  · rintro (rfl | ⟨other, hmem, rfl⟩)
    · exact ⟨call, .inr rfl, rfl⟩
    · exact ⟨other, .inl hmem, rfl⟩

theorem card_slots_append_le (more : List MapCall) :
    (slots calls).card ≤ (slots (calls ++ more)).card := by
  apply Finset.card_le_card
  intro slot hslot
  obtain ⟨call, hmem, hcall⟩ := mem_slots.mp hslot
  exact mem_slots.mpr ⟨call, List.mem_append_left _ hmem, hcall⟩

end Calls

/-! ## What the tables hold -/

/-- The page tables behind a sequence of calls; `table` numbers them by slots. -/
structure Mapped (start : Boot) (table : ℕ → ℕ) (boot : Boot) (calls : List MapCall) :
    Prop where
  last : boot.lastAllocatedPgtb = pageTable + 4096 * (slots calls).card
  outside : ∀ a, pageTable + 4096 * ((slots calls).card + 1) ≤ a → boot.mem a = start.mem a
  slot : ∀ slot, 0 < slot → slot < 1023 → readU32 boot.mem (pageTable + 4 * slot) =
    if slot ∈ slots calls then setPresent (pageTable + 4096 * table slot) else 0
  bound : ∀ slot ∈ slots calls, 1 ≤ table slot ∧ table slot ≤ (slots calls).card
  distinct : ∀ slot ∈ slots calls, ∀ other ∈ slots calls, table slot = table other →
    slot = other
  word : ∀ slot ∈ slots calls, ∀ i < 1024,
    readU32 boot.mem (pageTable + 4096 * table slot + 4 * i) =
      match lastCall calls (1024 * slot + i) with
      | some paddr => setPresent paddr
      | none => readU32 start.mem (pageTable + 4096 * table slot + 4 * i)

section Mapped

variable {start boot : Boot} {table : ℕ → ℕ} {calls : List MapCall} {page paddr a : ℕ}

theorem setPresent_table (hpage : paddr % 4096 = 0) :
    setPresent paddr = paddr + 1 ∧ setPresent paddr / 4096 * 4096 = paddr := by
  unfold setPresent
  omega

theorem pageTable_aligned : pageTable % 4096 = 0 := by
  unfold pageTable
  rfl

theorem mapped_start {image size : ℕ} {file : ℕ → UInt8} (hloaded : Loaded start image size file) :
    Mapped start table start [] := by
  have hnone : ∀ slot, slot ∉ slots [] := by
    intro slot hslot
    obtain ⟨call, hmem, -⟩ := mem_slots.mp hslot
    cases hmem
  have hcard : (slots []).card = 0 :=
    Finset.card_eq_zero.mpr (Finset.eq_empty_of_forall_notMem hnone)
  refine ⟨?_, fun _ _ => rfl, ?_, fun slot hslot => absurd hslot (hnone slot),
    fun slot hslot => absurd hslot (hnone slot), fun slot hslot => absurd hslot (hnone slot)⟩
  · rw [hcard]
    exact hloaded.start
  · intro slot hpos hlt
    rw [if_neg (hnone slot)]
    exact hloaded.empty slot hpos hlt

theorem writeU32_outside {mem : ℕ → UInt8} {address value : ℕ}
    (ha : a < address ∨ address + 4 ≤ a) : writeU32 mem address value a = mem a :=
  store_outside ha

/-- A call for a slot that has a table. -/
theorem Mapped.write (hmapped : Mapped start table boot calls)
    (hslot : page / 1024 ∈ slots calls) (hpaddr : paddr < 2 ^ 32)
    (haligned : paddr % 4096 = 0) :
    Mapped start table
      { boot with
        mem := writeU32 boot.mem
          (pageTable + 4096 * table (page / 1024) + 4 * (page % 1024)) (setPresent paddr) }
      (calls ++ [(page, paddr)]) := by
  have hbound := hmapped.bound _ hslot
  have hslots : slots (calls ++ [(page, paddr)]) = slots calls := by
    rw [slots_append, Finset.insert_eq_self]
    exact hslot
  have hlow : pageTable + 4096 ≤ pageTable + 4096 * table (page / 1024) := by omega
  have hhigh : pageTable + 4096 * table (page / 1024) + 4096 ≤
      pageTable + 4096 * ((slots calls).card + 1) := by omega
  have hvalue : setPresent paddr % 2 ^ 32 = setPresent paddr := by
    rw [(setPresent_table haligned).1]
    omega
  constructor
  · rw [hslots]
    exact hmapped.last
  · intro a ha
    rw [hslots] at ha
    exact (writeU32_outside (.inr (by omega))).trans (hmapped.outside a ha)
  · intro slot hpos hlt
    rw [hslots, ← hmapped.slot slot hpos hlt]
    exact readU32_writeU32_of_disjoint (.inl (by omega))
  · rw [hslots]
    exact hmapped.bound
  · rw [hslots]
    exact hmapped.distinct
  · intro slot hin i hi
    rw [hslots] at hin
    rw [lastCall_append]
    by_cases hsame : page = 1024 * slot + i
    · have hquotient : page / 1024 = slot := by omega
      have hrest : page % 1024 = i := by omega
      rw [if_pos hsame, hquotient, hrest]
      exact (readU32_writeU32_self _ _ _).trans hvalue
    · rw [if_neg hsame, ← hmapped.word slot hin i hi]
      apply readU32_writeU32_of_disjoint
      by_cases htable : table slot = table (page / 1024)
      · obtain rfl := hmapped.distinct slot hin _ hslot htable
        omega
      · omega

/-- The tables are numbered from 1 on, and no two slots have the same one. -/
structure Numbered (table : ℕ → ℕ) (slots : Finset ℕ) (card : ℕ) : Prop where
  bound : ∀ slot ∈ slots, 1 ≤ table slot ∧ table slot ≤ card
  distinct : ∀ slot ∈ slots, ∀ other ∈ slots, table slot = table other → slot = other

/-- The next slot gets the next table. -/
theorem Numbered.insert {slots : Finset ℕ} {card new : ℕ}
    (hnumbered : Numbered table slots card) :
    Numbered (Function.update table new (card + 1)) (Insert.insert new slots) (card + 1) := by
  constructor
  · intro slot hin
    rw [Finset.mem_insert] at hin
    by_cases hnew : slot = new
    · rw [hnew, Function.update_self]
      omega
    · rw [Function.update_of_ne hnew]
      have hbound := hnumbered.bound slot (hin.resolve_left hnew)
      omega
  · intro slot hin other hother htables
    rw [Finset.mem_insert] at hin hother
    by_cases hnew : slot = new
    · by_cases hnew' : other = new
      · rw [hnew, hnew']
      · rw [hnew, Function.update_self, Function.update_of_ne hnew'] at htables
        have hbound := hnumbered.bound other (hother.resolve_left hnew')
        omega
    · by_cases hnew' : other = new
      · rw [hnew', Function.update_self, Function.update_of_ne hnew] at htables
        have hbound := hnumbered.bound slot (hin.resolve_left hnew)
        omega
      · rw [Function.update_of_ne hnew, Function.update_of_ne hnew'] at htables
        exact hnumbered.distinct slot (hin.resolve_left hnew) other
          (hother.resolve_left hnew') htables

/-- A call for a slot that gets its table. -/
theorem Mapped.writeNew (hmapped : Mapped start table boot calls)
    (hslot : page / 1024 ∉ slots calls) (hpos : 0 < page / 1024) (hpage : page / 1024 < 1023)
    (hpaddr : paddr < 2 ^ 32) (haligned : paddr % 4096 = 0)
    (hroom : pageTable + 4096 * ((slots calls).card + 2) ≤ 2 ^ 32) :
    Mapped start (Function.update table (page / 1024) ((slots calls).card + 1))
      { boot with
        mem := writeU32
          (writeU32 boot.mem (pageTable + 4 * (page / 1024))
            (setPresent (pageTable + 4096 * ((slots calls).card + 1))))
          (pageTable + 4096 * ((slots calls).card + 1) + 4 * (page % 1024))
          (setPresent paddr)
        lastAllocatedPgtb := pageTable + 4096 * ((slots calls).card + 1) }
      (calls ++ [(page, paddr)]) := by
  have hslots : slots (calls ++ [(page, paddr)]) = insert (page / 1024) (slots calls) :=
    slots_append _
  have hcard' : (slots (calls ++ [(page, paddr)])).card = (slots calls).card + 1 := by
    rw [hslots, Finset.card_insert_of_notMem hslot]
  have houtside := hmapped.outside
  have hnumbered : Numbered table (slots calls) (slots calls).card :=
    ⟨hmapped.bound, hmapped.distinct⟩
  generalize (slots calls).card = card at hroom hcard' houtside hnumbered ⊢
  have hvalue : setPresent paddr % 2 ^ 32 = setPresent paddr := by
    rw [(setPresent_table haligned).1]
    omega
  have hstart : pageTable % 4096 = 0 := pageTable_aligned
  have htable : setPresent (pageTable + 4096 * (card + 1)) % 2 ^ 32 =
      setPresent (pageTable + 4096 * (card + 1)) := by
    rw [(setPresent_table (show (pageTable + 4096 * (card + 1)) % 4096 = 0 by omega)).1]
    omega
  have hkeeps : ∀ a, a + 4 ≤ pageTable + 4096 * (card + 1) + 4 * (page % 1024) ∨
        pageTable + 4096 * (card + 1) + 4 * (page % 1024) + 4 ≤ a →
      a + 4 ≤ pageTable + 4 * (page / 1024) ∨ pageTable + 4 * (page / 1024) + 4 ≤ a →
      readU32 (writeU32
        (writeU32 boot.mem (pageTable + 4 * (page / 1024))
          (setPresent (pageTable + 4096 * (card + 1))))
        (pageTable + 4096 * (card + 1) + 4 * (page % 1024)) (setPresent paddr)) a =
      readU32 boot.mem a := fun a hentry hslot =>
    (readU32_writeU32_of_disjoint hentry).trans (readU32_writeU32_of_disjoint hslot)
  constructor
  · rw [hcard']
  · intro a ha
    rw [hcard'] at ha
    have hlow : pageTable + 4096 * (card + 1) ≤ a :=
      (Nat.add_le_add_left (Nat.mul_le_mul_left 4096 (Nat.le_succ _)) _).trans ha
    calc writeU32 _ _ _ a = writeU32 boot.mem (pageTable + 4 * (page / 1024)) _ a :=
          writeU32_outside (.inr (by omega))
      _ = boot.mem a := writeU32_outside (.inr (by omega))
      _ = start.mem a := houtside a hlow
  · intro slot hslotPos hslotLt
    rw [hslots]
    by_cases hnew : slot = page / 1024
    · rw [hnew, if_pos (Finset.mem_insert_self _ _), Function.update_self]
      exact (readU32_writeU32_of_disjoint (.inl (by omega))).trans
        ((readU32_writeU32_self _ _ _).trans htable)
    · refine (hkeeps _ (.inl (by omega)) (by omega)).trans ?_
      rw [hmapped.slot slot hslotPos hslotLt, Function.update_of_ne hnew]
      simp only [Finset.mem_insert, hnew, false_or]
  · rw [hcard', hslots]
    exact hnumbered.insert.bound
  · rw [hslots]
    exact hnumbered.insert.distinct
  · intro slot hin i hi
    rw [lastCall_append]
    rw [hslots, Finset.mem_insert] at hin
    by_cases hnew : slot = page / 1024
    · rw [hnew, Function.update_self]
      by_cases hsame : page = 1024 * slot + i
      · have hrest : page % 1024 = i := by omega
        have hcall : page = 1024 * (page / 1024) + i := by omega
        rw [if_pos hcall, hrest]
        exact (readU32_writeU32_self _ _ _).trans hvalue
      · have hother : ¬page = 1024 * (page / 1024) + i := by omega
        have hnone : lastCall calls (1024 * (page / 1024) + i) = none := by
          apply lastCall_of_notMem
          have hquotient : (1024 * (page / 1024) + i) / 1024 = page / 1024 := by omega
          rwa [hquotient]
        rw [if_neg hother, hnone]
        refine (hkeeps _ (by omega) (.inr (by omega))).trans ?_
        apply readU32_congr
        intro k hk
        exact houtside _ ((Nat.le_add_right _ _).trans (Nat.le_add_right _ _))
    · have hold := hin.resolve_left hnew
      have hbound := hnumbered.bound slot hold
      have hother : ¬page = 1024 * slot + i := by omega
      rw [Function.update_of_ne hnew, if_neg hother, ← hmapped.word slot hold i hi]
      exact hkeeps _ (.inl (by omega)) (.inr (by omega))

theorem Mapped.setKload (hmapped : Mapped start table boot calls) (kloadPaddr : ℕ) :
    Mapped start table { boot with kloadPaddr := kloadPaddr } calls :=
  ⟨hmapped.last, hmapped.outside, hmapped.slot, hmapped.bound, hmapped.distinct, hmapped.word⟩

theorem room_mono {count count' bound : ℕ} (hcount : count ≤ count')
    (hroom : pageTable + 4096 * (count' + 1) ≤ bound) :
    pageTable + 4096 * (count + 1) ≤ bound :=
  (Nat.add_le_add_left (Nat.mul_le_mul_left 4096 (Nat.succ_le_succ hcount)) _).trans hroom

theorem directoryWord_page : directoryWord (4096 * page) = pageTable + 4 * (page / 1024) := by
  rw [directoryWord]
  omega

theorem tableWord_page {base : ℕ} : tableWord base (4096 * page) = base + 4 * (page % 1024) := by
  rw [tableWord]
  omega

/-- `map_addr` writes the word of one page, and nothing below the directory. -/
theorem Mapped.mapAddr (hmapped : Mapped start table boot calls) (hlow : 0x400 ≤ page)
    (hhigh : page < 0xffc00) (hpaddr : paddr < 2 ^ 32) (haligned : paddr % 4096 = 0)
    (hroom : pageTable + 4096 * ((slots (calls ++ [(page, paddr)])).card + 1) ≤ 2 ^ 32) :
    ∃ table', Mapped start table' (Bootloader.mapAddr boot (4096 * page) paddr)
        (calls ++ [(page, paddr)]) ∧
      ∀ a < pageTable, (Bootloader.mapAddr boot (4096 * page) paddr).mem a = boot.mem a := by
  have hentry := hmapped.slot (page / 1024) (by omega) (by omega)
  rw [Bootloader.mapAddr]
  dsimp only
  rw [directoryWord_page, hentry]
  by_cases hslot : page / 1024 ∈ slots calls
  · have htable : (pageTable + 4096 * table (page / 1024)) % 4096 = 0 := by
      have hstart := pageTable_aligned
      omega
    obtain ⟨hpresent, hbase⟩ := setPresent_table htable
    rw [if_pos hslot, if_neg (by omega), hbase, tableWord_page]
    refine ⟨table, hmapped.write hslot hpaddr haligned, ?_⟩
    intro a ha
    exact writeU32_outside (.inl (by omega))
  · rw [slots_append, Finset.card_insert_of_notMem hslot] at hroom
    have hnext : (boot.lastAllocatedPgtb + 4096) % 2 ^ 32 =
        pageTable + 4096 * ((slots calls).card + 1) := by
      rw [hmapped.last, Nat.mul_succ, ← Nat.add_assoc]
      apply Nat.mod_eq_of_lt
      rw [Nat.mul_succ, Nat.mul_succ, ← Nat.add_assoc, ← Nat.add_assoc] at hroom
      exact (Nat.lt_add_of_pos_right (show 0 < 4096 by decide)).trans_le hroom
    rw [if_neg hslot, if_pos rfl, hnext, tableWord_page]
    refine ⟨_, hmapped.writeNew hslot (by omega) (by omega) hpaddr haligned hroom, ?_⟩
    intro a ha
    exact (writeU32_outside (.inl (by omega))).trans (writeU32_outside (.inl (by omega)))

/-- The calls of a loop over pages. -/
def pageCalls (page paddr rounds : ℕ) : List MapCall :=
  (List.range rounds).map fun k => (page + k, (paddr + 4096 * k) % 2 ^ 32)

theorem pageCalls_succ (rounds : ℕ) : pageCalls page paddr (rounds + 1) =
    (page, paddr % 2 ^ 32) :: pageCalls (page + 1) ((paddr + 4096) % 2 ^ 32) rounds := by
  rw [pageCalls, List.range_succ_eq_map, List.map_cons, List.map_map]
  congr 1
  apply List.map_congr_left
  intro k _
  apply Prod.ext
  · change page + (k + 1) = page + 1 + k
    ring
  · simp only [Function.comp_apply, Nat.mod_add_mod, Nat.succ_eq_add_one]
    congr 1
    ring

theorem Mapped.mloop (hmapped : Mapped start table boot calls) {rounds : ℕ}
    (hlow : 0x400 ≤ page) (hhigh : page + rounds ≤ 0xffc00) (hpaddr : paddr < 2 ^ 32)
    (haligned : paddr % 4096 = 0)
    (hroom : pageTable +
      4096 * ((slots (calls ++ pageCalls page paddr rounds)).card + 1) ≤ 2 ^ 32) :
    ∃ table', Mapped start table' (Bootloader.mloop boot (4096 * page) paddr rounds)
        (calls ++ pageCalls page paddr rounds) ∧
      ∀ a < pageTable,
        (Bootloader.mloop boot (4096 * page) paddr rounds).mem a = boot.mem a := by
  induction rounds generalizing boot table calls page paddr with
  | zero =>
      refine ⟨table, ?_, fun _ _ => rfl⟩
      rw [pageCalls, List.range_zero, List.map_nil, List.append_nil]
      exact hmapped
  | succ rounds ih =>
      rw [pageCalls_succ, Nat.mod_eq_of_lt hpaddr, List.append_cons] at hroom ⊢
      have hcard := @card_slots_append_le (calls ++ [(page, paddr)])
        (pageCalls (page + 1) ((paddr + 4096) % 2 ^ 32) rounds)
      obtain ⟨table', hnext, hbelow⟩ := (hmapped.setKload
        ((boot.kloadPaddr + 0x1000) % 2 ^ 32)).mapAddr hlow (by omega) hpaddr haligned
          (room_mono hcard hroom)
      have hvaddr : (4096 * page + 0x1000) % 2 ^ 32 = 4096 * (page + 1) := by omega
      rw [Bootloader.mloop, hvaddr]
      have haligned' : (paddr + 4096) % 2 ^ 32 % 4096 = 0 := by omega
      obtain ⟨table'', hrest, hbelow'⟩ := ih hnext (hlow.trans (Nat.le_succ _)) (by omega)
        (Nat.mod_lt _ (by decide)) haligned' hroom
      exact ⟨table'', hrest, fun a ha => (hbelow' a ha).trans (hbelow a ha)⟩

end Mapped

end KimisOS.Bootloader
