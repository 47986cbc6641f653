import KimisOS.Bootloader.MapSegments

/-!
# Which pages of the kernel are mapped

`load_elf` comes to the same tables as the calls of `map_addr` for the segments, one
after the other, and the last call for a page counts.  A page that no call names is
translated by what the memory of its table held before.
-/

namespace KimisOS.Bootloader

open KimisOS.ByteStore

/-- The last call for each page of each segment is the one for this page. -/
def CallsCover (image : ℕ) (headers : List ProgramHeader) : Prop :=
  ∀ header ∈ headers, ∀ k, 4096 * k < header.memSize →
    lastCall (fileCalls image headers) (header.vaddr / 4096 + k) =
      some (pageAddress image header k)

section Segments

variable {start boot : Boot} {table : ℕ → ℕ} {calls : List MapCall} {image size offset : ℕ}
  {file : ℕ → UInt8} {header : ProgramHeader} {headers : List ProgramHeader} {page paddr : ℕ}

theorem segmentCalls_eq : segmentCalls image header =
    pageCalls (header.vaddr / 4096) ((header.dataOffset + image) % 2 ^ 32)
      (max 1 (header.memSize / 4096)) := by
  rw [segmentCalls, pageCalls]
  apply List.map_congr_left
  intro k _
  rw [pageAddress, Nat.mod_add_mod]

/-- One segment. -/
theorem Mapped.mapSegment (hmapped : Mapped start table boot calls)
    (hsegment : KernelSegment header) (himage : image % 4096 = 0)
    (hroom : pageTable +
      4096 * ((slots (calls ++ segmentCalls image header)).card + 1) ≤ 2 ^ 32) :
    ∃ table', Mapped start table'
        (Bootloader.mapSegment boot header.vaddr ((header.dataOffset + image) % 2 ^ 32)
          header.memSize) (calls ++ segmentCalls image header) ∧
      ∀ a < pageTable, (Bootloader.mapSegment boot header.vaddr
        ((header.dataOffset + image) % 2 ^ 32) header.memSize).mem a = boot.mem a := by
  have hvaddr := hsegment.vaddr
  have hoffset := hsegment.dataOffset
  have hlow := hsegment.low
  have hhigh := hsegment.high
  have hfilled := hsegment.filled
  have hpage : 4096 * (header.vaddr / 4096) = header.vaddr := by omega
  have haligned : (header.dataOffset + image) % 2 ^ 32 % 4096 = 0 := by omega
  have hfirst : 0x400 ≤ header.vaddr / 4096 :=
    (Nat.le_div_iff_mul_le (by decide)).mpr hlow
  have hlast : header.vaddr / 4096 + max 1 (header.memSize / 4096) ≤ 0xffc00 := by
    by_cases hsmall : header.memSize / 4096 = 0
    · rw [hsmall, max_eq_left (Nat.zero_le _)]
      omega
    · rw [max_eq_right (Nat.one_le_iff_ne_zero.mpr hsmall)]
      omega
  rw [segmentCalls_eq] at hroom ⊢
  have hloop := (hmapped.setKload ((boot.kloadPaddr + 0x1000) % 2 ^ 32)).mloop
    hfirst hlast (Nat.mod_lt _ (by decide)) haligned hroom
  rwa [hpage] at hloop

theorem fileCalls_append (more : List ProgramHeader) :
    fileCalls image (headers ++ more) = fileCalls image headers ++ fileCalls image more :=
  List.flatMap_append

theorem fileCalls_concat : fileCalls image (headers ++ [header]) =
    fileCalls image headers ++ segmentCalls image header := by
  rw [fileCalls_append]
  simp [fileCalls]

theorem mapSegments_more {rounds header : ℕ} {next : Boot} (more : ℕ)
    (hrun : mapSegments image rounds boot header = some next) :
    mapSegments image (rounds + more) boot header = some next := by
  induction rounds generalizing boot header with
  | zero => cases hrun
  | succ rounds ih =>
      rw [Nat.succ_add, mapSegments]
      rw [mapSegments] at hrun
      split
      case isTrue hend => rwa [if_pos hend] at hrun
      case isFalse hgoes =>
        rw [if_neg hgoes] at hrun
        exact ih hrun

/-- A word of the file is read from memory as long as the tables end below it. -/
theorem Mapped.readU32 (hmapped : Mapped start table boot calls)
    (hloaded : Loaded start image size file)
    (hroom : pageTable + 4096 * ((slots calls).card + 1) ≤ image) {place : ℕ}
    (hplace : place + 4 ≤ size) :
    ByteStore.readU32 boot.mem (image + place) = ByteStore.readU32 file place := by
  apply readU32_congr
  intro k hk
  rw [Nat.add_assoc, hmapped.outside _ (hroom.trans (Nat.le_add_right _ _))]
  exact hloaded.bytes _ (by omega)

/-! ## What the processor makes of the tables -/

/-- The address that a word of a table gives its page. -/
def pageOfWord (word : ℕ) : Option ℕ := if word % 2 = 0 then none else some (word / 4096 * 4096)

theorem pageOfWord_setPresent (haligned : paddr % 4096 = 0) :
    pageOfWord (setPresent paddr) = some paddr := by
  obtain ⟨hpresent, hbase⟩ := setPresent_table haligned
  rw [pageOfWord, hbase, if_neg]
  rw [hpresent]
  omega

/-- The entry of a table is present and names no large page. -/
theorem setPresent_bits (haligned : paddr % 4096 = 0) :
    setPresent paddr % 2 = 1 ∧ setPresent paddr / 128 % 2 = 0 := by
  unfold setPresent
  omega

theorem Mapped.translate (hmapped : Mapped start table boot calls) (hlow : 0 < page / 1024)
    (hhigh : page / 1024 < 1023) : Bootloader.translate boot (4096 * page) =
      if page / 1024 ∈ slots calls then
        pageOfWord (ByteStore.readU32 boot.mem
          (pageTable + 4096 * table (page / 1024) + 4 * (page % 1024)))
      else none := by
  rw [Bootloader.translate, directoryWord_page, hmapped.slot _ hlow hhigh]
  dsimp only
  by_cases hslot : page / 1024 ∈ slots calls
  · have htable : (pageTable + 4096 * table (page / 1024)) % 4096 = 0 := by
      have hstart := pageTable_aligned
      omega
    obtain ⟨-, hbase⟩ := setPresent_table htable
    obtain ⟨hpresent, hsmall⟩ := setPresent_bits htable
    have hoffset : 4096 * page % 4096 = 0 := Nat.mul_mod_right 4096 page
    rw [if_pos hslot, if_pos hslot, hbase, hpresent, hsmall, tableWord_page, hoffset,
      if_neg Nat.one_ne_zero, if_neg Nat.zero_ne_one, Nat.add_zero, pageOfWord]
  · rw [if_neg hslot, if_neg hslot]
    rfl

/-- The page of the last call is translated to its address. -/
theorem Mapped.translate_of_call (hmapped : Mapped start table boot calls)
    (hlow : 0 < page / 1024) (hhigh : page / 1024 < 1023)
    (hcall : lastCall calls page = some paddr) (haligned : paddr % 4096 = 0) :
    Bootloader.translate boot (4096 * page) = some paddr := by
  have hslot : page / 1024 ∈ slots calls := mem_slots.mpr ⟨_, lastCall_mem hcall, rfl⟩
  have hpage : 1024 * (page / 1024) + page % 1024 = page := Nat.div_add_mod page 1024
  have hword := hmapped.word _ hslot (page % 1024) (Nat.mod_lt _ (by decide))
  rw [hpage, hcall] at hword
  rw [hmapped.translate hlow hhigh, if_pos hslot, hword]
  exact pageOfWord_setPresent haligned

/-- A page without a call is not, when the memory of the tables held zeros. -/
theorem Mapped.translate_of_none (hmapped : Mapped start table boot calls)
    (hlow : 0 < page / 1024) (hhigh : page / 1024 < 1023)
    (hcall : lastCall calls page = none)
    (hzero : ∀ a, a < pageTable + 4096 * ((slots calls).card + 1) → start.mem a = 0) :
    Bootloader.translate boot (4096 * page) = none := by
  rw [hmapped.translate hlow hhigh]
  by_cases hslot : page / 1024 ∈ slots calls
  · have hpage : 1024 * (page / 1024) + page % 1024 = page := Nat.div_add_mod page 1024
    have hword := hmapped.word _ hslot (page % 1024) (Nat.mod_lt _ (by decide))
    have hbound := (hmapped.bound _ hslot).2
    have hbelow : ∀ k < 4, start.mem
        (pageTable + 4096 * table (page / 1024) + 4 * (page % 1024) + k) = 0 := by
      intro k hk
      apply hzero
      have hrest : 4 * (page % 1024) + k < 4096 := by omega
      have hbase := Nat.add_le_add_left (Nat.mul_le_mul_left 4096 hbound) pageTable
      calc pageTable + 4096 * table (page / 1024) + 4 * (page % 1024) + k
          = pageTable + 4096 * table (page / 1024) + (4 * (page % 1024) + k) :=
            Nat.add_assoc _ _ _
        _ < pageTable + 4096 * (slots calls).card + 4096 :=
            Nat.add_lt_add_of_le_of_lt hbase hrest
        _ = pageTable + 4096 * ((slots calls).card + 1) := by ring
    have hempty : ByteStore.readU32 start.mem
        (pageTable + 4096 * table (page / 1024) + 4 * (page % 1024)) = 0 := by
      have hfirst := hbelow 0 (by decide)
      rw [Nat.add_zero] at hfirst
      rw [ByteStore.readU32, hfirst, hbelow 1 (by decide), hbelow 2 (by decide),
        hbelow 3 (by decide)]
      rfl
    rw [hpage, hcall] at hword
    rw [if_pos hslot, hword]
    dsimp only
    rw [hempty]
    rfl
  · rw [if_neg hslot]

/-! ## The whole file -/

section Keeps

variable {P : List ProgramHeader → (ℕ → ℕ) → Boot → Prop} {done : List ProgramHeader}
  (hmapped : ∀ {done table boot}, P done table boot →
    Mapped start table boot (fileCalls image done))
  (hstep : ∀ {done header table boot}, P done table boot → KernelSegment header →
    pageTable + 4096 * ((slots (fileCalls image (done ++ [header]))).card + 1) ≤ 2 ^ 32 →
    ∃ table', P (done ++ [header]) table' (mapSegment boot header.vaddr
      ((header.dataOffset + image) % 2 ^ 32) header.memSize))

include hmapped hstep

/-- What each segment keeps, the loop over the headers that are left keeps. -/
theorem mapSegments_keeps (hfile : KernelFile file size offset headers)
    (hfits : ImageFits image size (fileCalls image headers))
    (hloaded : Loaded start image size file) {after : List ProgramHeader}
    (hheaders : headers = done ++ after) (hdone : P done table boot) :
    ∃ rounds table' next,
      mapSegments image rounds boot (image + (offset + 32 * done.length)) = some next ∧
      P headers table' next := by
  have hinside := hfile.inside.1
  have hend := hfits.inside
  induction after generalizing done boot table with
  | nil =>
      rw [List.append_nil] at hheaders
      subst hheaders
      have hlast := (hmapped hdone).readU32 hloaded hfits.room hinside
      rw [hfile.last] at hlast
      exact ⟨1, table, boot, by rw [mapSegments, if_pos hlast], hdone⟩
  | cons header after ih =>
      have hlength : done.length < headers.length := by
        rw [hheaders, List.length_append, List.length_cons]
        omega
      have hget : headers[done.length] = header := by
        simp [hheaders]
      have hheader := hfile.header done.length hlength
      rw [hget] at hheader
      have hsegment := hfile.segment header (by simp [hheaders])
      have hcalls : fileCalls image headers =
          fileCalls image (done ++ [header]) ++ fileCalls image after := by
        rw [hheaders, List.append_cons, fileCalls_append]
      have hcard := @card_slots_append_le (fileCalls image (done ++ [header]))
        (fileCalls image after)
      rw [← hcalls] at hcard
      have hcardDone := @card_slots_append_le (fileCalls image done) (fileCalls image [header])
      rw [← fileCalls_append] at hcardDone
      have hroom := room_mono hcard hfits.room
      have hword := fun place (hplace : place + 4 ≤ size) =>
        (hmapped hdone).readU32 hloaded (room_mono hcardDone hroom) hplace
      have htype := hword (offset + 32 * done.length) (by omega)
      have hdata := hword (offset + 32 * done.length + 4) (by omega)
      have hvaddr := hword (offset + 32 * done.length + 8) (by omega)
      have hsize := hword (offset + 32 * done.length + 20) (by omega)
      rw [hheader.type] at htype
      rw [hheader.dataOffset, ← Nat.add_assoc] at hdata
      rw [hheader.vaddr, ← Nat.add_assoc] at hvaddr
      rw [hheader.memSize, ← Nat.add_assoc] at hsize
      have hfilled : header.memSize ≠ 0 := Nat.one_le_iff_ne_zero.mp hsegment.filled
      obtain ⟨table', hnext⟩ := hstep hdone hsegment
        (hroom.trans ((Nat.le_add_right _ _).trans hend))
      obtain ⟨rounds, table'', next, hrest, hall⟩ := ih
        (by rw [hheaders, List.append_cons]) hnext
      refine ⟨rounds + 1, table'', next, ?_, hall⟩
      have hplace : (image + (offset + 32 * done.length) + 32) % 2 ^ 32 =
          image + (offset + 32 * (done ++ [header]).length) := by
        rw [List.length_append, List.length_singleton]
        omega
      rw [mapSegments, htype, if_neg hsegment.used]
      dsimp only
      rw [hdata, hvaddr, hsize, if_neg hfilled, hplace]
      exact hrest

/-- So does `load_elf`, which returns the entry of the kernel after any more rounds. -/
theorem loadElf_keeps (hfile : KernelFile file size offset headers)
    (hfits : ImageFits image size (fileCalls image headers))
    (hloaded : Loaded start image size file) (hstart : P [] table start) :
    ∃ enough next table', (∀ more, loadElf (enough + more) start image =
        some (next, ByteStore.readU32 file 24)) ∧ P headers table' next := by
  have hinside := hfile.inside
  have hend := hfits.inside
  have hcard : (slots []).card ≤ (slots (fileCalls image headers)).card :=
    @card_slots_append_le [] (fileCalls image headers)
  have hword := fun place (hplace : place + 4 ≤ size) =>
    (hmapped hstart).readU32 hloaded (room_mono hcard hfits.room) hplace
  have hmagic := hword 0 (by omega)
  have hplace := hword 28 (by omega)
  rw [Nat.add_zero, hfile.magic] at hmagic
  rw [hfile.place] at hplace
  obtain ⟨rounds, table', next, hrun, hnext⟩ :=
    mapSegments_keeps hmapped hstep hfile hfits hloaded (List.nil_append headers).symm hstart
  have hheader : (image + offset) % 2 ^ 32 =
      image + (offset + 32 * ([] : List ProgramHeader).length) := by
    rw [List.length_nil, Nat.mul_zero, Nat.add_zero]
    exact Nat.mod_eq_of_lt (by omega)
  have hentry := (hmapped hnext).readU32 hloaded hfits.room (show 24 + 4 ≤ size by omega)
  refine ⟨rounds, next, table', ?_, hnext⟩
  intro more
  rw [loadElf, hmagic, if_neg (not_not.mpr rfl), hplace]
  dsimp only
  rw [hheader, mapSegments_more more hrun, Option.map_some, hentry]

end Keeps

/-- `load_elf` comes to the tables of the calls for the segments. -/
theorem loadElf_mapped (hfile : KernelFile file size offset headers)
    (hfits : ImageFits image size (fileCalls image headers))
    (hloaded : Loaded start image size file) :
    ∃ rounds next entry table, loadElf rounds start image = some (next, entry) ∧
      Mapped start table next (fileCalls image headers) := by
  have hstep : ∀ {done : List ProgramHeader} {header : ProgramHeader} {table : ℕ → ℕ}
      {boot : Boot}, Mapped start table boot (fileCalls image done) → KernelSegment header →
      pageTable + 4096 * ((slots (fileCalls image (done ++ [header]))).card + 1) ≤ 2 ^ 32 →
      ∃ table', Mapped start table' (mapSegment boot header.vaddr
        ((header.dataOffset + image) % 2 ^ 32) header.memSize)
          (fileCalls image (done ++ [header])) := by
    intro done header table boot hdone hsegment hroom
    rw [fileCalls_concat] at hroom ⊢
    obtain ⟨table', hnext, -⟩ := hdone.mapSegment hsegment hfits.aligned hroom
    exact ⟨table', hnext⟩
  obtain ⟨enough, next, table, hrun, hnext⟩ := @loadElf_keeps start (fun _ => 0) image size
    offset file headers (fun done table boot => Mapped start table boot (fileCalls image done))
    id hstep hfile hfits hloaded (mapped_start hloaded)
  exact ⟨enough, next, _, table, hrun 0, hnext⟩

theorem KernelSegment.slot (hsegment : KernelSegment header) {k : ℕ}
    (hk : 4096 * k < header.memSize) :
    4096 * (header.vaddr / 4096 + k) = header.vaddr + 4096 * k ∧
      0 < (header.vaddr / 4096 + k) / 1024 ∧ (header.vaddr / 4096 + k) / 1024 < 1023 := by
  have hvaddr := hsegment.vaddr
  have hlow := hsegment.low
  have hhigh := hsegment.high
  omega

theorem pageAddress_aligned (hsegment : KernelSegment header) (himage : image % 4096 = 0)
    (k : ℕ) : pageAddress image header k % 4096 = 0 := by
  have hoffset := hsegment.dataOffset
  rw [pageAddress]
  omega

/-- The boot loader finds its memory cleared. -/
def clearedBoot (image : ℕ) (file : ℕ → UInt8) : Boot where
  mem a := if image ≤ a then file (a - image) else 0
  lastAllocatedPgtb := pageTable
  kloadPaddr := image

theorem clearedBoot_loaded (hbelow : pageTable + 4096 ≤ image) :
    Loaded (clearedBoot image file) image size file := by
  refine ⟨?_, rfl, ?_⟩
  · intro k _
    change (if image ≤ image + k then file (image + k - image) else 0) = file k
    rw [if_pos (Nat.le_add_right _ _), Nat.add_sub_cancel_left]
  · intro slot _ hslot
    have hbyte : ∀ k < 4, (clearedBoot image file).mem (pageTable + 4 * slot + k) = 0 := by
      intro k hk
      refine if_neg ?_
      omega
    have hfirst := hbyte 0 (by decide)
    rw [Nat.add_zero] at hfirst
    rw [ByteStore.readU32, hfirst, hbyte 1 (by decide), hbyte 2 (by decide),
      hbyte 3 (by decide)]
    rfl

/-- Enough rounds come to one result. -/
theorem mapSegments_unique {rounds rounds' : ℕ} {next next' : Boot}
    (hrun : Bootloader.mapSegments image rounds boot offset = some next)
    (hrun' : Bootloader.mapSegments image rounds' boot offset = some next') : next = next' := by
  induction rounds generalizing rounds' boot offset with
  | zero => cases hrun
  | succ rounds ih =>
      cases rounds' with
      | zero => cases hrun'
      | succ rounds' =>
          rw [Bootloader.mapSegments] at hrun hrun'
          split at hrun
          · rename_i hend
            rw [if_pos hend] at hrun'
            exact Option.some.inj (hrun.symm.trans hrun')
          · rename_i hmore
            rw [if_neg hmore] at hrun'
            exact ih hrun hrun'

theorem loadElf_unique {rounds rounds' entry entry' : ℕ} {next next' : Boot}
    (hload : loadElf rounds boot image = some (next, entry))
    (hload' : loadElf rounds' boot image = some (next', entry')) : next = next' := by
  rw [loadElf] at hload hload'
  split at hload
  · cases hload
  · rename_i hmagic
    rw [if_neg hmagic] at hload'
    obtain ⟨mapped, hrun, hresult⟩ := Option.map_eq_some_iff.mp hload
    obtain ⟨mapped', hrun', hresult'⟩ := Option.map_eq_some_iff.mp hload'
    rw [← (Prod.mk.inj hresult).1, ← (Prod.mk.inj hresult').1]
    exact mapSegments_unique hrun hrun'

/-- With cleared memory, only pages with a call are mapped. -/
theorem callsCover_of_mapsSegments (hfile : KernelFile file size offset headers)
    (hfits : ImageFits image size (fileCalls image headers)) {rounds entry : ℕ} {next : Boot}
    (hload : loadElf rounds (clearedBoot image file) image = some (next, entry))
    (hmaps : MapsSegments next image headers) : CallsCover image headers := by
  have hroom := hfits.room
  have hstart : pageTable + 4096 ≤ image :=
    (Nat.add_le_add_left (Nat.le_mul_of_pos_right 4096 (Nat.succ_pos _)) _).trans hroom
  obtain ⟨rounds', next', entry', table, hrun, hmapped⟩ :=
    loadElf_mapped hfile hfits (clearedBoot_loaded hstart)
  obtain rfl : next' = next := loadElf_unique hrun hload
  intro header hmem k hk
  have hsegment := hfile.segment header hmem
  obtain ⟨hpage, hlow, hhigh⟩ := hsegment.slot hk
  have htranslated := hmaps header hmem k hk
  rw [← hpage] at htranslated
  cases hcall : lastCall (fileCalls image headers) (header.vaddr / 4096 + k) with
  | none =>
      have hnone := hmapped.translate_of_none hlow hhigh hcall fun a ha =>
        if_neg (by omega)
      rw [hnone] at htranslated
      cases htranslated
  | some paddr =>
      have haligned : paddr % 4096 = 0 := by
        obtain ⟨other, hother, hcall⟩ := List.mem_flatMap.mp (lastCall_mem hcall)
        obtain ⟨j, -, hj⟩ := List.mem_map.mp hcall
        rw [← (Prod.mk.inj hj).2]
        exact pageAddress_aligned (hfile.segment other hother) hfits.aligned j
      rw [hmapped.translate_of_call hlow hhigh hcall haligned] at htranslated
      exact htranslated

/-- Whatever memory held, the segments are mapped whole exactly when the last call for
each of their pages is the one for this page. -/
theorem mapsSegments_iff (hfile : KernelFile file size offset headers)
    (hfits : ImageFits image size (fileCalls image headers)) :
    (∀ boot, Loaded boot image size file → ∃ rounds next entry,
        loadElf rounds boot image = some (next, entry) ∧ MapsSegments next image headers) ↔
      CallsCover image headers := by
  constructor
  · intro hall
    have hroom := hfits.room
    have hstart : pageTable + 4096 ≤ image :=
      (Nat.add_le_add_left (Nat.le_mul_of_pos_right 4096 (Nat.succ_pos _)) _).trans hroom
    obtain ⟨rounds, next, entry, hload, hmaps⟩ := hall _ (clearedBoot_loaded hstart)
    exact callsCover_of_mapsSegments hfile hfits hload hmaps
  · intro hcover boot hloaded
    obtain ⟨rounds, next, entry, table, hload, hmapped⟩ :=
      loadElf_mapped hfile hfits hloaded
    refine ⟨rounds, next, entry, hload, ?_⟩
    intro header hmem k hk
    have hsegment := hfile.segment header hmem
    obtain ⟨hpage, hlow, hhigh⟩ := hsegment.slot hk
    rw [← hpage]
    exact hmapped.translate_of_call hlow hhigh (hcover header hmem k hk)
      (pageAddress_aligned hsegment hfits.aligned k)

end Segments

/-! ## A kernel with one segment -/

/-- A file with a program header at 52, for a segment behind the headers. -/
def headerBytes : ℕ → UInt8 :=
  let magic := writeU32 (writeU32 (fun _ => 0) 0 elfMagic) 28 52
  writeU32 (writeU32 (writeU32 magic 52 1) 56 0x1000) 60 0xc0000000

def kernelBytes (memSize : ℕ) : ℕ → UInt8 := writeU32 headerBytes 72 memSize

def kernelHeader (memSize : ℕ) : ProgramHeader := ⟨1, 0x1000, 0xc0000000, memSize⟩

theorem kernelFile_of {memSize : ℕ} (hfilled : 1 ≤ memSize) (hsmall : memSize ≤ 0x3000) :
    KernelFile (kernelBytes memSize) 0x3000 52 [kernelHeader memSize] := by
  have hword : ∀ place, place + 4 ≤ 72 ∨ 76 ≤ place →
      readU32 (kernelBytes memSize) place = readU32 headerBytes place := fun place hplace =>
    readU32_writeU32_of_disjoint hplace
  have hsize : readU32 (kernelBytes memSize) 72 = memSize := by
    rw [kernelBytes, readU32_writeU32_self]
    exact Nat.mod_eq_of_lt (by omega)
  have htype : readU32 headerBytes 52 = 1 := by decide
  have hoffset : readU32 headerBytes 56 = 0x1000 := by decide
  have hvaddr : readU32 headerBytes 60 = 0xc0000000 := by decide
  have hlast : readU32 headerBytes 84 = 0 := by decide
  have hheader : HeaderAt (kernelBytes memSize) 52 (kernelHeader memSize) :=
    ⟨(hword 52 (by decide)).trans htype, (hword 56 (by decide)).trans hoffset,
      (hword 60 (by decide)).trans hvaddr, hsize⟩
  refine ⟨?_, ?_, ?_, (hword 84 (by decide)).trans hlast, ?_, ?_⟩
  · rw [hword _ (by decide)]
    decide
  · rw [hword _ (by decide)]
    decide
  · intro i hi
    obtain rfl : i = 0 := by simpa using hi
    exact hheader
  · intro header hmem
    obtain rfl := List.mem_singleton.mp hmem
    have hhigh : 0xc0000000 + memSize ≤ 0xffc00000 := by omega
    exact ⟨Nat.one_ne_zero, hfilled, show 0xc0000000 % 4096 = 0 by decide,
      show 0x1000 % 4096 = 0 by decide, show 0x400000 ≤ 0xc0000000 by decide, hhigh⟩
  · rw [List.length_singleton]
    decide

theorem kernelImage_fits {memSize : ℕ}
    (hcard : (slots (fileCalls 0x100000 [kernelHeader memSize])).card = 1) :
    ImageFits 0x100000 0x3000 (fileCalls 0x100000 [kernelHeader memSize]) := by
  refine ⟨by decide, by decide, ?_⟩
  rw [hcard]
  unfold pageTable
  decide

/-- A segment of two whole pages. -/
theorem mapsSegments_twoPages : ∃ rounds next entry,
    loadElf rounds (clearedBoot 0x100000 (kernelBytes 0x2000)) 0x100000 = some (next, entry) ∧
      MapsSegments next 0x100000 [kernelHeader 0x2000] := by
  have hcard : (slots (fileCalls 0x100000 [kernelHeader 0x2000])).card = 1 := by
    unfold slots
    decide
  have hstart : pageTable + 4096 ≤ 0x100000 := by
    unfold pageTable
    decide
  refine (mapsSegments_iff (kernelFile_of (by decide) (by decide))
    (kernelImage_fits hcard)).mpr ?_ _ (clearedBoot_loaded hstart)
  intro header hmem k hk
  obtain rfl := List.mem_singleton.mp hmem
  obtain rfl | rfl : k = 0 ∨ k = 1 := by
    have hsize : 4096 * k < 0x2000 := hk
    omega
  · decide
  · decide

/-- Of a segment with a page and a half, the second page is not mapped. -/
theorem mapsSegments_halfPage :
    ¬∀ boot, Loaded boot 0x100000 0x3000 (kernelBytes 0x1800) →
      ∃ rounds next entry, loadElf rounds boot 0x100000 = some (next, entry) ∧
        MapsSegments next 0x100000 [kernelHeader 0x1800] := by
  intro hall
  have hcard : (slots (fileCalls 0x100000 [kernelHeader 0x1800])).card = 1 := by
    unfold slots
    decide
  have hstart : pageTable + 4096 ≤ 0x100000 := by
    unfold pageTable
    decide
  obtain ⟨rounds, next, entry, hload, hmaps⟩ := hall _ (clearedBoot_loaded hstart)
  have hcover := callsCover_of_mapsSegments (kernelFile_of (by decide) (by decide))
    (kernelImage_fits hcard) hload hmaps
  have hsecond := hcover (kernelHeader 0x1800) List.mem_cons_self 1 (by decide)
  exact absurd hsecond (by decide)

end KimisOS.Bootloader
