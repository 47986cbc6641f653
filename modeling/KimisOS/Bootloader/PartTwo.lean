import KimisOS.Bootloader.KernelAddress
import KimisOS.Bootloader.LoadElf
import KimisOS.Bootloader.WrittenFiles

/-!
# The second part of the boot loader

`part_2` asks the BIOS for the memory map, finds a place for `kernel.elf`, loads and
maps it, and loads `initrd.rd` behind it.  What the tool has written to an image is
then in the kernel's address space, byte for byte, when the kernel is entered.
-/

namespace KimisOS.Bootloader

open KimisOS.ByteStore
open KimisOS.Diskwrite
open KimisOS.KernelAddress (Answer MapEntry MapStored EntriesAt EntryAt MapState Adds getMap
  getMmap kept findKpaddr firstSigned memoryMapPtr segmentSize)

/-- `paging_en`: a large page in the first slot of the directory, and the directory
itself in the last one. -/
def pagingEn (mem : ℕ → UInt8) : ℕ → UInt8 :=
  writeU32 (writeU32 mem pageTable 0b110001001) (pageTable + 4 * 1023) (pageTable ||| 3)

/-- `kernel_file` -/
def kernelFile : ℕ → UInt8 := fun j =>
  ([0x6b, 0x65, 0x72, 0x6e, 0x65, 0x6c, 0, 0, 0x65, 0x6c, 0x66] : List UInt8).getD j 0

/-- `initrd_file` has ten bytes, and the first byte of `loaded_fat_block` is behind it. -/
def initrdFile (loadedFatBlock : ℕ) : ℕ → UInt8 := fun j =>
  ([0x69, 0x6e, 0x69, 0x74, 0x72, 0x64, 0, 0, 0x72, 0x64] : List UInt8).getD j
    (UInt8.ofNat loadedFatBlock)

/-- What the kernel is entered with: the memory behind the tables, its entry in `eax`,
and `initrd.ptr` and `initrd.size`. -/
structure Handoff where
  boot : Boot
  entry : ℕ
  initrdPtr : ℕ
  initrdSize : ℕ

/-- `part_2` up to the call of `load_elf`. -/
def loadKernel (boot : BootBpb) (rootDirCluster : ℕ) (disk : ℕ → UInt8) (rounds : ℕ)
    (loader : Loader) : Option (Loader × Boot × ℕ) :=
  match openFile boot rootDirCluster disk rounds loader kernelFile with
  | some (loader, some kernel) =>
      match findKpaddr loader.memory rounds ((kernel.size + 0x40000) % 2 ^ 32) with
      | some (.found kloadPaddr _) =>
          match readFile boot disk rounds { loader with destination := kloadPaddr }
            kernel.firstCluster with
          | some (loader, _) =>
              (loadElf rounds ⟨loader.memory, pageTable, kloadPaddr⟩ kloadPaddr).map
                fun loaded => ({ loader with memory := loaded.1.mem }, loaded)
          | none => none
      | _ => none
  | _ => none

/-- `part_2` from the call of `load_elf` on. -/
def loadInitrd (boot : BootBpb) (rootDirCluster : ℕ) (disk : ℕ → UInt8) (rounds : ℕ)
    (loader : Loader) (loaded : Boot) (entry : ℕ) : Option Handoff :=
  match openFile boot rootDirCluster disk rounds loader (initrdFile loader.loadedFatBlock) with
  | some (loader, some initrd) =>
      let edx := (initrd.size / 0x1000 * 0x1000 + 0x2000) % 2 ^ 32
      let kloadPaddr := (loaded.kloadPaddr + edx) % 2 ^ 32
      (readFile boot disk rounds { loader with destination := kloadPaddr }
        initrd.firstCluster).map fun read =>
          { boot :=
              { loaded with mem := read.1.memory, kloadPaddr := (kloadPaddr + edx) % 2 ^ 32 }
            entry := entry
            initrdPtr := kloadPaddr
            initrdSize := initrd.size }
  | some (loader, none) => some ⟨{ loaded with mem := loader.memory }, entry, 0, 0⟩
  | none => none

/-- `part_2`; it does not come to the kernel without `kernel.elf`, a place for it, or its
magic number. -/
def part2 (boot : BootBpb) (rootDirCluster : ℕ) (disk : ℕ → UInt8) (rounds : ℕ)
    (answers : List (Option Answer)) (mem : ℕ → UInt8) : Option Handoff :=
  match getMmap mem answers with
  | none => none
  | some mmap =>
      match loadKernel boot rootDirCluster disk rounds
        (cacheFileTable boot disk ⟨pagingEn mmap.mem, 0, 0⟩ 0) with
      | none => none
      | some (loader, loaded, entry) =>
          loadInitrd boot rootDirCluster disk rounds loader loaded entry

/-! ## Where things lie -/

/-- The bytes of a file. -/
def fileBytes (file : NamedFile) : ℕ → UInt8 := fun t => file.bytes.getD t 0

/-- `initrd.ptr` for a kernel at `image`. -/
def initrdPlace (image : ℕ) (headers : List ProgramHeader) (initrd : NamedFile) : ℕ :=
  image + 4096 * kernelPages headers + (initrd.bytes.length / 0x1000 * 0x1000 + 0x2000)

/-- The first byte behind the clusters of a file. -/
def loadedEnd (boot : BootRecord) (file : NamedFile) (destination : ℕ) : ℕ :=
  (Placed.mk file destination).stop boot

/-- The map of the BIOS with a region at `image` that `find_kpaddr` takes, below the
buffers of the boot loader. -/
structure MapFits (answers : List (Option Answer)) (mem : ℕ → UInt8) (image size : ℕ) :
    Prop where
  answered : ∃ mmap, getMmap mem answers = some mmap
  usual : KernelAddress.Usual (kept answers)
  below : memoryMapPtr + 24 * (kept answers).length + 24 ≤ fileBuffer
  region : ∃ entry, firstSigned (kept answers) (size + 0x40000) = some entry ∧
    entry.base = image

/-- `kernel.elf` and `initrd.rd` at `image`: the clusters of both files are above the
page tables, and the segments of the kernel end below `initrd.rd`. -/
structure BootFits (boot : BootRecord) (kernel initrd : NamedFile) (image offset : ℕ)
    (headers : List ProgramHeader) : Prop where
  kernelName : ∀ j < 11, fileName kernel j = kernelFile j
  initrdName : ∀ j < 11, fileName initrd j = initrdFile 0 j
  file : KernelFile (fileBytes kernel) kernel.bytes.length offset headers
  fits : ImageFits image kernel.bytes.length (fileCalls image headers)
  cover : CallsCover image headers
  low : fileTable + 4 * 4096 ≤ image
  size : kernel.bytes.length + 0x40000 < 2 ^ 31
  kernelEnd : loadedEnd boot kernel image < 2 ^ 32
  initrdEnd : loadedEnd boot initrd (initrdPlace image headers initrd) < 2 ^ 32
  apart : ∀ header ∈ headers, image + header.dataOffset + header.memSize ≤
    initrdPlace image headers initrd

/-- The kernel finds its segments at their addresses, and `initrd.rd` in memory. -/
structure Started (kernel initrd : NamedFile) (headers : List ProgramHeader)
    (handoff : Handoff) : Prop where
  entry : handoff.entry = readU32 (fileBytes kernel) 24
  segments : ∀ header ∈ headers, ∀ x < header.memSize,
    header.dataOffset + x < kernel.bytes.length →
      ∃ paddr, translate handoff.boot (header.vaddr + x) = some paddr ∧
        handoff.boot.mem paddr = fileBytes kernel (header.dataOffset + x)
  size : handoff.initrdSize = initrd.bytes.length
  initrd : ∀ t < initrd.bytes.length,
    handoff.boot.mem (handoff.initrdPtr + t) = fileBytes initrd t

/-! ## The memory map -/

section MemoryMap

variable {mem mem' : ℕ → UInt8} {entries : List MapEntry} {answers : List (Option Answer)}
  {state final : MapState} {a : ℕ}

theorem entriesAt_congr (hentries : EntriesAt mem a entries)
    (hsame : ∀ b, a ≤ b → b < a + 24 * entries.length + 24 → mem' b = mem b) :
    EntriesAt mem' a entries := by
  induction entries generalizing a with
  | nil =>
      rw [EntriesAt] at hentries ⊢
      rw [← hentries]
      apply readU32_congr
      intro k hk
      rw [List.length_nil] at hsame
      exact hsame _ (Nat.le_add_right _ _) (by omega)
  | cons entry entries ih =>
      rw [List.length_cons] at hsame
      exact ⟨hentries.1.congr fun b hlow hhigh => hsame b hlow (by omega),
        ih hentries.2 fun b hlow hhigh => hsame b (by omega) (by omega)⟩

theorem mapStored_congr (hstored : MapStored mem entries)
    (hsame : ∀ b, memoryMapPtr ≤ b → b < memoryMapPtr + 24 * entries.length + 24 →
      mem' b = mem b) : MapStored mem' entries :=
  ⟨entriesAt_congr hstored.inOrder hsame, hstored.fits⟩

/-- `.get_map` writes an entry more than it keeps, at most. -/
theorem getMap_behind (hfinal : getMap state answers = some final)
    (hplace : state.di + 24 * (kept answers).length + 24 < segmentSize)
    (ha : memoryMapPtr + state.di + 24 * (kept answers).length + 24 ≤ a) :
    final.mem a = state.mem a := by
  induction answers generalizing state with
  | nil => cases hfinal
  | cons answer answers ih =>
      cases answer with
      | none =>
          obtain rfl := Option.some.inj hfinal
          rfl
      | some answer =>
          have hpush : (state.push answer).mem a = state.mem a := by
            change writeU32 (store state.mem (state.place 0) answer.bytes 24)
              (state.place 20) _ a = _
            rw [MapState.place_eq (by omega), MapState.place_eq (by omega), writeU32,
              store_outside (by omega), store_outside (by omega)]
          have hdi : (state.push answer).di = state.di + 24 := Nat.mod_eq_of_lt (by omega)
          rw [KernelAddress.getMap_some answer (by omega)] at hfinal
          rw [kept] at hplace ha
          by_cases hskip : readU32 answer.bytes 8 ||| readU32 answer.bytes 16 = 0
          · rw [if_pos hskip] at hfinal hplace ha
            rw [ih hfinal hplace ha]
            exact store_outside (.inr (by omega))
          · rw [if_neg hskip] at hfinal hplace ha
            by_cases hlast : answer.ebx = 0
            · rw [if_pos hlast] at hfinal
              obtain rfl := Option.some.inj hfinal
              exact hpush
            · rw [if_neg hlast] at hfinal hplace ha
              rw [List.length_cons] at hplace ha
              rw [ih hfinal (by omega) (by omega), hpush]

theorem getMmap_behind {mmap : KernelAddress.Mmap} (hmmap : getMmap mem answers = some mmap)
    (hfits : 24 * (kept answers).length + 24 < segmentSize)
    (ha : memoryMapPtr + 24 * (kept answers).length + 24 ≤ a) : mmap.mem a = mem a := by
  obtain ⟨final, hfinal, rfl⟩ := Option.map_eq_some_iff.mp hmmap
  have hadds := KernelAddress.getMap_adds hfinal (show 0 < 2 ^ 16 by decide) (by
    rwa [Nat.zero_add])
  have hdi := hadds.di
  have hkeep : final.mem a = mem a := getMap_behind hfinal (by rwa [Nat.zero_add])
    (by rwa [Nat.add_zero])
  dsimp only at hdi
  split
  · exact hkeep
  · rw [MapState.place_eq (by omega), ← hkeep]
    exact writeU32_outside (.inr (by omega))

end MemoryMap

/-! ## Pages and their bytes -/

section Pages

variable {start boot : Boot} {table : ℕ → ℕ} {calls : List MapCall} {page paddr x : ℕ}

/-- An address in a page. -/
theorem translate_offset (hx : x < 4096)
    (htranslate : translate boot (4096 * page) = some paddr) :
    translate boot (4096 * page + x) = some (paddr + x) := by
  have hdirectory : directoryWord (4096 * page + x) = directoryWord (4096 * page) := by
    rw [directoryWord, directoryWord]
    omega
  have htable : ∀ base, tableWord base (4096 * page + x) = tableWord base (4096 * page) := by
    intro base
    rw [tableWord, tableWord]
    omega
  have hlargeRest : (4096 * page + x) % 2 ^ 22 = 4096 * page % 2 ^ 22 + x := by omega
  have hrest : (4096 * page + x) % 4096 = 4096 * page % 4096 + x := by omega
  rw [translate] at htranslate ⊢
  dsimp only at htranslate ⊢
  rw [hdirectory]
  split at htranslate
  case isTrue hnone => cases htranslate
  case isFalse hpresent =>
    rw [if_neg hpresent]
    split at htranslate
    case isTrue hlarge =>
      rw [if_pos hlarge, ← Option.some.inj htranslate, hlargeRest, Nat.add_assoc]
    case isFalse hsmall =>
      rw [if_neg hsmall, htable]
      split at htranslate
      case isTrue hnone => cases htranslate
      case isFalse hword =>
        rw [if_neg hword, ← Option.some.inj htranslate, hrest, Nat.add_assoc]

/-- What is loaded behind the page tables does not change them. -/
theorem Mapped.loadBehind (hmapped : Mapped start table boot calls) {bound : ℕ}
    {mem : ℕ → UInt8} (hroom : pageTable + 4096 * ((slots calls).card + 1) ≤ bound)
    (hsame : ∀ a, pageTable ≤ a → a < bound → mem a = boot.mem a) :
    Mapped { start with mem := fun a => if a < bound then start.mem a else mem a } table
      { boot with mem := mem } calls := by
  have hword : ∀ a, pageTable ≤ a → a + 4 ≤ bound →
      ByteStore.readU32 mem a = ByteStore.readU32 boot.mem a := by
    intro a hlow hhigh
    apply readU32_congr
    intro k hk
    exact hsame _ (hlow.trans (Nat.le_add_right _ _)) (by omega)
  refine ⟨hmapped.last, ?_, ?_, hmapped.bound, hmapped.distinct, ?_⟩
  · intro a ha
    dsimp only
    split
    case isTrue hbound =>
      rw [hsame a ((Nat.le_add_right _ _).trans ha) hbound]
      exact hmapped.outside a ha
    case isFalse => rfl
  · intro slot hpos hlt
    rw [← hmapped.slot slot hpos hlt]
    exact hword _ (Nat.le_add_right _ _) (by omega)
  · intro slot hin i hi
    have hbound := (hmapped.bound slot hin).2
    have hend : pageTable + 4096 * table slot + 4 * i + 4 ≤ bound := by omega
    have hstart : ByteStore.readU32 (fun a => if a < bound then start.mem a else mem a)
        (pageTable + 4096 * table slot + 4 * i) =
          ByteStore.readU32 start.mem (pageTable + 4096 * table slot + 4 * i) := by
      apply readU32_congr
      intro k hk
      exact if_pos (by omega)
    dsimp only
    rw [hstart, hword _ ((Nat.le_add_right _ _).trans (Nat.le_add_right _ _)) hend]
    exact hmapped.word slot hin i hi

end Pages

/-! ## The files of an image -/

theorem pageTable_eq : pageTable = 0x10000 := by
  unfold pageTable
  rfl

section Files

variable {boot : BootRecord} {clusters i k : ℕ} {disk volume memory : ℕ → UInt8}
  {files : List NamedFile} {info : FatInfo} {rootChain : List ℕ} {chains : ℕ → List ℕ}
  {file kernel initrd : NamedFile} {loader : Loader} {name name' : ℕ → UInt8}

/-- Only eleven bytes of a name are compared. -/
theorem openFile_congr {bootBpb : BootBpb} {rootDirCluster rounds : ℕ}
    (hname : ∀ j < 11, name j = name' j) :
    Bootloader.openFile bootBpb rootDirCluster disk rounds loader name =
      Bootloader.openFile bootBpb rootDirCluster disk rounds loader name' := by
  have hmatches : ∀ mem esi, NameMatches mem esi name ↔ NameMatches mem esi name' := by
    intro mem esi
    refine forall_congr' fun j => forall_congr' fun hj => ?_
    rw [hname j hj]
  have hcheck : ∀ mem rounds esi,
      checkEntries mem name rounds esi = checkEntries mem name' rounds esi := by
    intro mem rounds
    induction rounds with
    | zero => exact fun _ => rfl
    | succ rounds ih =>
        intro esi
        rw [checkEntries, checkEntries, ih]
        simp only [hmatches]
  rw [Bootloader.openFile, Bootloader.openFile, hcheck]

/-- `open_file` for the name of a file. -/
theorem FitsLoader.openNamed (hloader : FitsLoader boot files)
    (hformat : Formatted boot clusters disk)
    (hlaid : Laid boot.bpb clusters boot.rootDirCluster files info rootChain chains)
    (hwritten : Written boot clusters info volume)
    (hlisting : files.length * 32 ≤ boot.bpb.clusterSizeBytes)
    (hdistinct : (files.map NamedFile.path).Nodup) (hfile : files[i]? = some file)
    (hname : ∀ j < 11, fileName file j = name j) (loader : Loader) : ∃ mem,
      (∀ rounds, files.length ≤ rounds →
        Bootloader.openFile (bootOf boot) boot.rootDirCluster volume rounds loader name =
          some ({ loader with memory := mem },
            some ⟨(chains i).headD 0, file.bytes.length⟩)) ∧
      (∀ memory, Tabled (bootOf boot) volume memory loader →
        Tabled (bootOf boot) volume memory { loader with memory := mem }) ∧
      ∀ a, memoryMapPtr ≤ a → mem a = loader.memory a := by
  have hi := (List.getElem?_eq_some_iff.mp hfile).1
  refine ⟨_, ?_, fun memory htabled =>
    htabled.openFile ((bootOf boot).rootSector boot.rootDirCluster), ?_⟩
  · intro rounds hrounds
    have hopen := @FitsLoader.openFile boot clusters i disk volume files info rootChain chains
      file loader hloader hformat hlaid hwritten hlisting hdistinct hfile (rounds - i - 1)
    rwa [show i + (rounds - i - 1 + 1) = rounds by omega, openFile_congr hname] at hopen
  intro a ha
  have hroot : rootDir + 512 * 8 ≤ memoryMapPtr := by decide
  exact readSectors_outside (.inr (hroot.trans ha))

/-- The table stays in its buffer when only memory behind it changes. -/
theorem Tabled.mapped {bootBpb : BootBpb} (htabled : Tabled bootBpb disk memory loader)
    {mem : ℕ → UInt8} (hbelow : ∀ a < pageTable, mem a = loader.memory a) :
    Tabled bootBpb disk mem { loader with memory := mem } := by
  intro rounds destination hlow hhigh
  have hready := htabled rounds destination hlow hhigh
  refine ⟨?_, fun _ _ _ => rfl, hlow, hhigh⟩
  intro a ha
  rw [← hready.block a ha]
  exact hbelow _ (by rw [pageTable_eq]; exact Nat.add_lt_add_left ha 0xf000)

/-- What is in memory when the kernel is mapped. -/
structure KernelLoaded (boot : BootRecord) (volume : ℕ → UInt8) (kernel : NamedFile)
    (image : ℕ) (headers : List ProgramHeader) (loader : Loader) (loaded : Boot) : Prop where
  memory : loader.memory = loaded.mem
  block : loader.loadedFatBlock = 0
  tabled : Tabled (bootOf boot) volume loaded.mem loader
  maps : ∃ start table, start.kloadPaddr = image ∧ Maps start image headers table loaded
  bytes : ∀ t < kernel.bytes.length, loaded.mem (image + t) = fileBytes kernel t

variable {image offset : ℕ} {headers : List ProgramHeader} {entries : List MapEntry}
  {region : MapEntry}

theorem FitsLoader.loadKernel (hloader : FitsLoader boot files)
    (hformat : Formatted boot clusters disk)
    (hlaid : Laid boot.bpb clusters boot.rootDirCluster files info rootChain chains)
    (hat : StandsAt boot.bpb clusters boot.rootDirCluster info boot.rootDirCluster)
    (hwritten : Written boot clusters info volume)
    (hlisting : files.length * 32 ≤ boot.bpb.clusterSizeBytes)
    (hdistinct : (files.map NamedFile.path).Nodup) (hkernel : files[i]? = some kernel)
    (hfits : BootFits boot kernel initrd image offset headers)
    (htabled : Tabled (bootOf boot) volume memory loader) (hblock : loader.loadedFatBlock = 0)
    (hstored : MapStored loader.memory entries) (husual : KernelAddress.Usual entries)
    (hregion : firstSigned entries (kernel.bytes.length + 0x40000) = some region)
    (hbase : region.base = image)
    (hempty : ∀ a, pageTable + 4 ≤ a → a < pageTable + 4 * 1023 → loader.memory a = 0) :
    ∃ enough next loaded, (∀ more, Bootloader.loadKernel (bootOf boot) boot.rootDirCluster
        volume (enough + more) loader =
          some (next, loaded, readU32 (fileBytes kernel) 24)) ∧
      KernelLoaded boot volume kernel image headers next loaded := by
  have hpage := pageTable_eq
  obtain ⟨mem, hopen, htabled', hmem⟩ := hloader.openNamed hformat hlaid hwritten hlisting
    hdistinct hkernel hfits.kernelName loader
  obtain ⟨found, hfound⟩ := KernelAddress.findKpaddr_eq
    (mapStored_congr hstored fun a ha _ => hmem a ha) husual hfits.size
  rw [hregion] at hfound
  obtain ⟨final, hread, hloads⟩ := hloader.readFile hformat hlaid hat hwritten hkernel
    (htabled' memory htabled) hfits.low hfits.kernelEnd (le_refl _)
  have hempty' : ∀ a, pageTable + 4 ≤ a → a < pageTable + 4 * 1023 → final.memory a = 0 := by
    intro a ha ha'
    have himage : 0x13000 ≤ image := hfits.low
    rw [hloads.others a (show 0x10000 ≤ a by omega) (.inl (by omega))]
    exact (hmem a (show 0x2000 ≤ a by omega)).trans (hempty a ha ha')
  have hloaded : Loaded ⟨final.memory, pageTable, image⟩ image kernel.bytes.length
      (fileBytes kernel) := by
    refine ⟨hloads.bytes, rfl, ?_⟩
    intro slot hpos hlt
    have hzero : ∀ k < 4, final.memory (pageTable + 4 * slot + k) = 0 := fun k hk =>
      hempty' _ (by omega) (by omega)
    have hfirst := hzero 0 (by decide)
    rw [Nat.add_zero] at hfirst
    change readU32 final.memory (pageTable + 4 * slot) = 0
    rw [readU32, hfirst, hzero 1 (by decide), hzero 2 (by decide), hzero 3 (by decide)]
    rfl
  obtain ⟨enough, loaded, table, hload, hmaps⟩ := loadElf_maps hfits.file hfits.fits hloaded
    (show image < 2 ^ 32 by
      have hend := hfits.kernelEnd
      rw [loadedEnd, Placed.stop] at hend
      exact (Nat.le_add_right _ _).trans_lt hend)
  refine ⟨files.length + found + (kernel.bytes.length / boot.bpb.clusterSizeBytes + 2) + enough,
    { final with memory := loaded.mem }, loaded, ?_, rfl, hloads.block hblock,
    hloads.tabled.mapped hmaps.below, ⟨_, table, rfl, hmaps⟩, ?_⟩
  · intro more
    generalize kernel.bytes.length / boot.bpb.clusterSizeBytes = blocks at hread ⊢
    generalize hrounds : files.length + found + (blocks + 2) + enough + more = rounds
    have hfoundMore := @KernelAddress.sloop_more _ _ found _ (rounds - found) _ _ hfound
    have hreadMore := readFile_more (rounds - (blocks + 2)) hread
    have hloadMore := hload (rounds - enough)
    rw [Nat.add_sub_cancel' (by omega)] at hfoundMore hreadMore hloadMore
    rw [Bootloader.loadKernel, hopen rounds (by omega)]
    dsimp only
    rw [Nat.mod_eq_of_lt (hfits.size.trans (by decide)), findKpaddr, hfoundMore]
    dsimp only [KernelAddress.outcomeOf]
    rw [hbase, hreadMore]
    dsimp only
    rw [hloadMore, Option.map_some]
  · intro t ht
    have hroom := hfits.fits.room
    rw [hmaps.mapped.outside _ (hroom.trans (Nat.le_add_right _ _))]
    exact hloads.bytes t ht

/-- The segments of the kernel as they are mapped. -/
theorem Started.ofMapped (hfits : BootFits boot kernel initrd image offset headers)
    {handoff : Handoff} {start : Boot} {table : ℕ → ℕ}
    (hmapped : Mapped start table handoff.boot (fileCalls image headers))
    (hentry : handoff.entry = readU32 (fileBytes kernel) 24)
    (hbytes : ∀ t < kernel.bytes.length, image + t < initrdPlace image headers initrd →
      handoff.boot.mem (image + t) = fileBytes kernel t)
    (hsize : handoff.initrdSize = initrd.bytes.length)
    (hinitrd : ∀ t < initrd.bytes.length,
      handoff.boot.mem (handoff.initrdPtr + t) = fileBytes initrd t) :
    Started kernel initrd headers handoff := by
  refine ⟨hentry, ?_, hsize, hinitrd⟩
  intro header hmem x hx hfile
  have hsegment := hfits.file.segment header hmem
  have hinside := hfits.fits.inside
  have hapart := hfits.apart header hmem
  have hk : 4096 * (x / 4096) < header.memSize := (Nat.mul_div_le x 4096).trans_lt hx
  obtain ⟨hpage, hlow, hhigh⟩ := hsegment.slot hk
  have htranslate := translate_offset (Nat.mod_lt x (by decide))
    (hmapped.translate_of_call hlow hhigh (hfits.cover header hmem _ hk)
      (pageAddress_aligned hsegment hfits.fits.aligned _))
  have hvaddr : 4096 * (header.vaddr / 4096 + x / 4096) + x % 4096 = header.vaddr + x := by
    omega
  have hpaddr : pageAddress image header (x / 4096) + x % 4096 =
      image + (header.dataOffset + x) := by
    rw [pageAddress]
    omega
  rw [hvaddr, hpaddr] at htranslate
  exact ⟨_, htranslate, hbytes _ hfile (by omega)⟩

theorem FitsLoader.loadInitrd (hloader : FitsLoader boot files)
    (hformat : Formatted boot clusters disk)
    (hlaid : Laid boot.bpb clusters boot.rootDirCluster files info rootChain chains)
    (hat : StandsAt boot.bpb clusters boot.rootDirCluster info boot.rootDirCluster)
    (hwritten : Written boot clusters info volume)
    (hlisting : files.length * 32 ≤ boot.bpb.clusterSizeBytes)
    (hdistinct : (files.map NamedFile.path).Nodup) (hinitrd : files[k]? = some initrd)
    (hfits : BootFits boot kernel initrd image offset headers) {loaded : Boot}
    (hloaded : KernelLoaded boot volume kernel image headers loader loaded) :
    ∃ enough handoff, (∀ more, Bootloader.loadInitrd (bootOf boot) boot.rootDirCluster volume
        (enough + more) loader loaded (readU32 (fileBytes kernel) 24) = some handoff) ∧
      Started kernel initrd headers handoff := by
  obtain ⟨start, table, hstart, hmaps⟩ := hloaded.maps
  have hpage := pageTable_eq
  have himage : 0x13000 ≤ image := hfits.low
  have hbehind : image ≤ initrdPlace image headers initrd := by
    rw [initrdPlace, Nat.add_assoc]
    exact Nat.le_add_right _ _
  have hplace : initrdPlace image headers initrd < 2 ^ 32 := by
    have hend := hfits.initrdEnd
    rw [loadedEnd, Placed.stop] at hend
    exact (Nat.le_add_right _ _).trans_lt hend
  have hkload : (loaded.kloadPaddr + (initrd.bytes.length / 0x1000 * 0x1000 + 0x2000) % 2 ^ 32) %
      2 ^ 32 = initrdPlace image headers initrd := by
    rw [hmaps.kload, hstart, ← Nat.add_mod]
    exact Nat.mod_eq_of_lt hplace
  have hname := hfits.initrdName
  rw [← hloaded.block] at hname
  obtain ⟨mem, hopen, htabled, hmem⟩ := hloader.openNamed hformat hlaid hwritten hlisting
    hdistinct hinitrd hname loader
  obtain ⟨final, hread, hloads⟩ := hloader.readFile hformat hlaid hat hwritten hinitrd
    (htabled _ hloaded.tabled) (hfits.low.trans hbehind) hfits.initrdEnd (le_refl _)
  have hsame : ∀ a, pageTable ≤ a → a < initrdPlace image headers initrd →
      final.memory a = loaded.mem a := by
    intro a hlow hhigh
    rw [hloads.others a (show 0x10000 ≤ a by omega) (.inl hhigh), ← hloaded.memory]
    exact hmem a (show 0x2000 ≤ a by omega)
  have hmapped := hmaps.mapped.loadBehind (hfits.fits.room.trans hbehind) hsame
  generalize initrd.bytes.length / boot.bpb.clusterSizeBytes + 2 = blocks at hread
  refine ⟨files.length + blocks,
    { boot :=
        { loaded with
          mem := final.memory
          kloadPaddr := (initrdPlace image headers initrd +
            (initrd.bytes.length / 0x1000 * 0x1000 + 0x2000) % 2 ^ 32) % 2 ^ 32 }
      entry := readU32 (fileBytes kernel) 24
      initrdPtr := initrdPlace image headers initrd
      initrdSize := initrd.bytes.length }, ?_, ?_⟩
  · intro more
    have hreadMore := readFile_more (files.length + more) hread
    rw [Bootloader.loadInitrd, hopen _ (by omega)]
    dsimp only
    rw [hkload, show files.length + blocks + more = blocks + (files.length + more) by omega,
      hreadMore, Option.map_some]
  · refine Started.ofMapped hfits
      ⟨hmapped.last, hmapped.outside, hmapped.slot, hmapped.bound, hmapped.distinct,
        hmapped.word⟩ rfl ?_ rfl hloads.bytes
    intro t ht hend
    exact (hsame _ (by omega) hend).trans (hloaded.bytes t ht)

end Files

/-- The words of the file: its magic number, entry and headers, and the page of the
segment. -/
def bootKernel : NamedFile :=
  { kernelElf with
    bytes := [0x7f, 0x45, 0x4c, 0x46] ++ List.replicate 20 0 ++
      [0x10, 0, 0, 0xc0, 52, 0, 0, 0] ++ List.replicate 20 0 ++
      [1, 0, 0, 0, 0, 0x10, 0, 0, 0, 0, 0, 0xc0, 0, 0, 0, 0, 0, 0x10, 0, 0, 0, 0x10, 0, 0] ++
      List.replicate (0x1000 - 76) 0 ++ List.replicate 0x800 7 }

/-- Two regions of the BIOS. -/
def bootAnswers : List (Option Answer) :=
  [some ⟨KernelAddress.writeEntry (fun _ => 0) 0 ⟨0, 0x9fc00, 1⟩, 1⟩,
    some ⟨KernelAddress.writeEntry (fun _ => 0) 0 ⟨0x100000, 0x7ee0000, 1⟩, 0⟩]

theorem bootKernel_file :
    KernelFile (fileBytes bootKernel) bootKernel.bytes.length 52 [kernelHeader 0x1000] := by
  have hheader : HeaderAt (fileBytes bootKernel) 52 (kernelHeader 0x1000) :=
    ⟨by decide +kernel, by decide +kernel, by decide +kernel, by decide +kernel⟩
  refine ⟨by decide +kernel, by decide +kernel, ?_, by decide +kernel, ?_, by decide +kernel⟩
  · intro i hi
    obtain rfl : i = 0 := by simpa using hi
    exact hheader
  · intro header hmem
    obtain rfl := List.mem_singleton.mp hmem
    exact ⟨by decide, by decide, by decide, by decide, by decide, by decide⟩

theorem bootKernel_fits :
    BootFits imageBoot bootKernel initrdRd 0x100000 52 [kernelHeader 0x1000] where
  kernelName := by decide +kernel
  initrdName := by decide +kernel
  file := bootKernel_file
  fits := by
    have hcard : (slots (fileCalls 0x100000 [kernelHeader 0x1000])).card = 1 := by
      unfold slots
      decide
    refine ⟨by decide, by decide +kernel, ?_⟩
    rw [hcard, pageTable_eq]
    decide
  cover := by
    intro header hmem k hk
    obtain rfl := List.mem_singleton.mp hmem
    obtain rfl : k = 0 := by
      have hsize : 4096 * k < 0x1000 := hk
      omega
    decide
  low := by decide
  size := by decide +kernel
  kernelEnd := by decide +kernel
  initrdEnd := by decide +kernel
  apart := by decide +kernel

theorem bootAnswers_fit :
    MapFits bootAnswers (fun _ => 0) 0x100000 bootKernel.bytes.length where
  answered := Option.isSome_iff_exists.mp (by decide +kernel)
  usual := ⟨by decide +kernel, by decide +kernel, by decide +kernel⟩
  below := by decide +kernel
  region := ⟨⟨0x100000, 0x7ee0000, 1⟩, by decide +kernel, rfl⟩

end KimisOS.Bootloader
