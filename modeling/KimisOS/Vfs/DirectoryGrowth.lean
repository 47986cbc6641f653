import KimisOS.Core.Run
import KimisOS.Vfs.Creation
import KimisOS.Vfs.RamCreate

/-!
# Directories that grow

The array of a directory grows by four bytes with every new file, and moves to a new
block when it crosses a page.  A list of the names and the files says what the
directory holds: a search finds the first of them, and none of them moves.
-/

namespace KimisOS.RamData

open KimisOS.ByteStore
open KimisOS.Fat32
open KimisOS.Run
open KimisOS.Vfs

/-- A call of `ramfs_create`, with the memory it finds and what its calls of `kmalloc`
return. -/
structure CreateCall where
  mem : ℕ → UInt8
  name : CString
  flags : ℕ
  kmalloc : ℕ → ℕ
  newFile : ℕ

/-- Memory, the directory, and the names and files of the calls so far. -/
structure Growing where
  mem : ℕ → UInt8
  dir : File
  files : List (CString × ℕ)

def createStep (ramfsOps : ℕ) (s : Growing) (call : CreateCall) : Option Growing :=
  let created := ramfsCreate call.mem s.dir call.name call.flags ramfsOps call.kmalloc
    call.newFile
  some ⟨created.mem, created.parent, s.files ++ [(call.name, created.returned)]⟩

/-- The file of the first call with that name, or 0. -/
def earliest : List (CString × ℕ) → CString → ℕ
  | [], _ => 0
  | (name, file) :: files, subname =>
      if name = subname then file else earliest files subname

/-- Nobody else has written to the array or to the names. -/
structure Growing.Unchanged (s : Growing) (mem : ℕ → UInt8) : Prop where
  table : s.dir.KeptIn s.mem mem
  names : ∀ entry ∈ s.files, ∀ i ≤ entry.1.length, mem (entry.2 + i) = s.mem (entry.2 + i)

/-- A name of 1 to 75 bytes without slashes. -/
structure ShortName (name : CString) : Prop where
  ne_nil : name ≠ []
  short : name.length < nameLength
  noSlash : slash ∉ name
  noZero : 0 ∉ name

/-- The pages that `kmalloc` returns are apart from those in use.  An array that moves has
given its old block back before the page of the file is taken. -/
structure MayCreate (s : Growing) (call : CreateCall) : Prop where
  name : ShortName call.name
  unchanged : s.Unchanged call.mem
  notNull : call.newFile ≠ 0
  aligned : call.newFile % 4096 = 0
  inMemory : call.newFile + 4096 ≤ 2 ^ 32
  table : pagesOf (s.dir.size + 4) = pagesOf s.dir.size →
    Apart call.newFile 4096 s.dir.privatePtr s.dir.blockLength
  fresh : ∀ entry ∈ s.files, entry.2 ≠ call.newFile
  grows : pagesOf s.dir.size < pagesOf (s.dir.size + 4) →
    s.dir.Fresh (call.kmalloc (pagesOf (s.dir.size + 4))) (s.dir.size + 4) ∧
    ∀ page, page = call.newFile ∨ (∃ entry ∈ s.files, page = entry.2) →
      Apart page 4096 (call.kmalloc (pagesOf (s.dir.size + 4)))
        (pagesOf (s.dir.size + 4) * 4096)

/-- What is known of the directory after the calls. -/
structure LosesNothing (s : Growing) (calls : List CreateCall) : Prop where
  files : s.files = calls.map fun call => (call.name, call.newFile)
  created : ∀ entry ∈ s.files, entry.2 ≠ 0
  size : s.dir.size = 4 * calls.length
  slots : ∀ mem, s.Unchanged mem → ∀ i entry, s.files[i]? = some entry →
    readU32 mem (s.dir.privatePtr + 4 * i) = entry.2
  lookups : ∀ mem, s.Unchanged mem → ∀ subname, 0 ∉ subname →
    searchDir mem subname s.dir = earliest s.files subname

/-! ## Searching -/

variable {mem : ℕ → UInt8}

/-- A file with its name in memory, and a pointer to it in a slot. -/
structure Entry (mem : ℕ → UInt8) (slot : ℕ) (entry : CString × ℕ) : Prop where
  pointer : readU32 mem slot = entry.2
  notNull : entry.2 ≠ 0
  holdsName : HoldsString mem entry.2 entry.1
  noZero : 0 ∉ entry.1

theorem searchFrom_eq {children i : ℕ} {subname : CString} (hsubname : 0 ∉ subname)
    {files : List (CString × ℕ)} (hentries : ∀ j entry, files[j]? = some entry →
      Entry mem (children + 4 * (i + j)) entry) :
    searchFrom mem children subname files.length i = earliest files subname := by
  induction files generalizing i with
  | nil => rfl
  | cons entry files ih =>
      obtain ⟨name, file⟩ := entry
      have hfirst := hentries 0 (name, file) rfl
      rw [Nat.add_zero] at hfirst
      have hsame := sameString_iff hfirst.holdsName hfirst.noZero hsubname
      have hrest : searchFrom mem children subname files.length (i + 1) =
          earliest files subname := by
        refine ih ?_
        intro j entry hentry
        have hnext := hentries (j + 1) entry hentry
        rwa [Nat.add_comm j 1, ← Nat.add_assoc] at hnext
      simp only [List.length_cons, searchFrom, hfirst.pointer, hfirst.notNull, ne_eq,
        not_false_eq_true, true_and, hsame, hrest, earliest]

/-! ## One call -/

/-- The directory holds the files. -/
structure Listed (s : Growing) : Prop where
  isDir : s.dir.flags &&& fsFileIsDir ≠ 0
  placed : s.dir.Placed
  size : s.dir.size = 4 * s.files.length
  entries : ∀ i entry, s.files[i]? = some entry →
    Entry s.mem (s.dir.privatePtr + 4 * i) entry
  pages : ∀ entry ∈ s.files, entry.2 % 4096 = 0 ∧ entry.2 + 4096 ≤ 2 ^ 32
  short : ∀ entry ∈ s.files, entry.1.length < nameLength
  apart : ∀ entry ∈ s.files, Apart entry.2 4096 s.dir.privatePtr s.dir.blockLength
  nodup : (s.files.map Prod.snd).Nodup

variable {s : Growing} {call : CreateCall}

theorem Listed.unchanged (hlisted : Listed s) (hsame : s.Unchanged mem) {i : ℕ}
    {entry : CString × ℕ} (hentry : s.files[i]? = some entry) :
    Entry mem (s.dir.privatePtr + 4 * i) entry := by
  have hold := hlisted.entries i entry hentry
  obtain ⟨hi, -⟩ := List.getElem?_eq_some_iff.mp hentry
  have hsize := hlisted.size
  have hblock := size_le_blockLength s.dir
  refine ⟨?_, hold.notNull, ?_, hold.noZero⟩
  · rw [← hold.pointer]
    refine readU32_congr ?_
    intro k hk
    rw [Nat.add_assoc]
    exact hsame.table _ (by omega)
  · exact hold.holdsName.congr (hsame.names entry (List.mem_of_getElem? hentry))

theorem Listed.searchDir (hlisted : Listed s) (hsame : s.Unchanged mem) {subname : CString}
    (hsubname : 0 ∉ subname) :
    searchDir mem subname s.dir = earliest s.files subname := by
  have hsize := hlisted.size
  rw [RamData.searchDir, hsize, Nat.mul_div_cancel_left _ (by decide)]
  by_cases hnull : s.dir.privatePtr = 0
  · have hempty := hlisted.placed.contents hnull
    have hnone : s.files = [] := List.length_eq_zero_iff.mp (by omega)
    rw [if_pos hnull, hnone, earliest]
  · rw [if_neg hnull]
    refine searchFrom_eq hsubname ?_
    intro j entry hentry
    rw [Nat.zero_add]
    exact hlisted.unchanged hsame hentry

/-- There is room for one page more. -/
theorem Listed.length_lt (hlisted : Listed s) (hmay : MayCreate s call) :
    s.files.length < 2 ^ 20 := by
  have hnodup : (call.newFile :: s.files.map Prod.snd).Nodup := by
    rw [List.nodup_cons]
    refine ⟨?_, hlisted.nodup⟩
    rw [List.mem_map]
    rintro ⟨entry, hentry, hsame⟩
    exact hmay.fresh entry hentry hsame
  have hpages : ∀ page ∈ call.newFile :: s.files.map Prod.snd,
      page % 4096 = 0 ∧ page < 2 ^ 32 := by
    intro page hpage
    rcases List.mem_cons.mp hpage with rfl | hold
    · have := hmay.inMemory
      exact ⟨hmay.aligned, by omega⟩
    · obtain ⟨entry, hentry, rfl⟩ := List.mem_map.mp hold
      obtain ⟨haligned, hroom⟩ := hlisted.pages entry hentry
      exact ⟨haligned, by omega⟩
  have hlength := length_pages_le hnodup hpages
  rw [List.length_cons, List.length_map] at hlength
  omega

theorem Listed.fullSlots (hlisted : Listed s) (hmay : MayCreate s call) :
    emptySlot call.mem s.dir.privatePtr (s.dir.size / 4) 0 = none := by
  refine emptySlot_none ?_
  intro j hj
  rw [hlisted.size, Nat.mul_div_cancel_left _ (by decide)] at hj
  have hentry := hlisted.unchanged hmay.unchanged (List.getElem?_eq_getElem hj)
  rw [Nat.zero_add, hentry.pointer]
  exact hentry.notNull

variable {resized : Resized}

/-- The block of the directory is apart from every page, wherever it is now. -/
theorem Listed.block_apart (hlisted : Listed s) (hmay : MayCreate s call)
    (hgrew : Grew call.mem s.dir (s.dir.size + 4) (call.kmalloc (pagesOf (s.dir.size + 4)))
      resized) {page : ℕ}
    (hpage : page = call.newFile ∨ ∃ entry ∈ s.files, page = entry.2) :
    Apart page 4096 resized.file.privatePtr resized.file.blockLength := by
  rcases hgrew.place with ⟨hsame, hlength⟩ | ⟨hpages, hmoved, hlength⟩
  · rw [hsame, hlength]
    rcases hpage with rfl | ⟨entry, hentry, rfl⟩
    · exact hmay.table (hgrew.pages_eq hlength)
    · exact hlisted.apart entry hentry
  · rw [hmoved, hlength]
    exact (hmay.grows hpages).2 page hpage

/-- A file of an earlier call keeps its name and its slot. -/
theorem Listed.keeps_entry (hlisted : Listed s) (hmay : MayCreate s call)
    (hgrew : Grew call.mem s.dir (s.dir.size + 4) (call.kmalloc (pagesOf (s.dir.size + 4)))
      resized)
    (hlinked : Linked resized.mem call.name call.newFile
      (resized.file.privatePtr + s.dir.size) mem) {i : ℕ} {entry : CString × ℕ}
    (hentry : s.files[i]? = some entry) :
    Entry mem (resized.file.privatePtr + 4 * i) entry := by
  have hbefore := hlisted.unchanged hmay.unchanged hentry
  have hmem := List.mem_of_getElem? hentry
  obtain ⟨hi, -⟩ := List.getElem?_eq_some_iff.mp hentry
  have hsize := hlisted.size
  have hshort := hlisted.short entry hmem
  have haligned := (hlisted.pages entry hmem).1
  have hother := hmay.fresh entry hmem
  have hnewAligned := hmay.aligned
  have hlength := size_le_blockLength resized.file
  rw [hgrew.size] at hlength
  have hnew := hlisted.block_apart hmay hgrew (.inl rfl)
  have hentryBlock := hlisted.block_apart hmay hgrew (.inr ⟨entry, hmem, rfl⟩)
  rw [Apart] at hnew hentryBlock
  rw [nameLength] at hshort
  refine ⟨?_, hbefore.notNull, hbefore.holdsName.congr ?_, hbefore.noZero⟩
  · rw [← hbefore.pointer]
    refine readU32_congr ?_
    intro k hk
    rw [hlinked.others _ (by rw [sizeofVfile]; omega) (by omega), Nat.add_assoc,
      Nat.add_assoc]
    exact hgrew.old _ (by omega)
  · intro j hj
    rw [hlinked.others _ (by rw [sizeofVfile]; omega) (by omega)]
    exact hgrew.others _ (by omega)

/-- The files of the earlier calls, and then the new one. -/
theorem Listed.append (hlisted : Listed s) (hmay : MayCreate s call)
    (hgrew : Grew call.mem s.dir (s.dir.size + 4) (call.kmalloc (pagesOf (s.dir.size + 4)))
      resized)
    (hlinked : Linked resized.mem call.name call.newFile
      (resized.file.privatePtr + s.dir.size) mem) :
    Listed ⟨mem, resized.file, s.files ++ [(call.name, call.newFile)]⟩ := by
  have hsize := hlisted.size
  have hfiles : ∀ {property : CString × ℕ → Prop}, (∀ entry ∈ s.files, property entry) →
      property (call.name, call.newFile) →
      ∀ entry ∈ s.files ++ [(call.name, call.newFile)], property entry := by
    intro property hold hnew entry hentry
    rcases List.mem_append.mp hentry with hmem | hmem
    · exact hold entry hmem
    · rw [List.mem_singleton.mp hmem]
      exact hnew
  refine ⟨?_, hgrew.placed, ?_, ?_, hfiles hlisted.pages ⟨hmay.aligned, hmay.inMemory⟩,
    hfiles hlisted.short hmay.name.short, ?_, ?_⟩
  · rw [hgrew.flags]
    exact hlisted.isDir
  · rw [hgrew.size, hsize, List.length_append, List.length_singleton]
    omega
  · intro i entry hentry
    rcases Nat.lt_or_ge i s.files.length with hi | hi
    · rw [List.getElem?_append_left hi] at hentry
      exact hlisted.keeps_entry hmay hgrew hlinked hentry
    · have hlast : i = s.files.length := by
        obtain ⟨hlt, -⟩ := List.getElem?_eq_some_iff.mp hentry
        rw [List.length_append, List.length_singleton] at hlt
        omega
      subst hlast
      obtain rfl : (call.name, call.newFile) = entry := by simpa using hentry
      rw [← hsize]
      exact ⟨hlinked.pointer, hmay.notNull, hlinked.holdsName, hmay.name.noZero⟩
  · refine hfiles ?_ (hlisted.block_apart hmay hgrew (.inl rfl))
    intro entry hmem
    exact hlisted.block_apart hmay hgrew (.inr ⟨entry, hmem, rfl⟩)
  · rw [List.map_append, List.map_singleton, List.nodup_append]
    refine ⟨hlisted.nodup, List.nodup_singleton _, ?_⟩
    intro page hpage other hother
    obtain ⟨entry, hentry, rfl⟩ := List.mem_map.mp hpage
    rw [List.mem_singleton.mp hother]
    exact hmay.fresh entry hentry

/-- The step lemma. -/
theorem Listed.create (ramfsOps : ℕ) (hlisted : Listed s) (hmay : MayCreate s call) :
    ∃ next, createStep ramfsOps s call = some next ∧ Listed next ∧
      next.files = s.files ++ [(call.name, call.newFile)] ∧
      next.dir.privatePtr = if pagesOf (s.dir.size + 4) = pagesOf s.dir.size then
        s.dir.privatePtr else call.kmalloc (pagesOf (s.dir.size + 4)) := by
  have hcount := hlisted.length_lt hmay
  have hsize := hlisted.size
  have hroom := hmay.inMemory
  have hgrew := @ramfsResize_grew call.mem s.dir (s.dir.size + 4) call.kmalloc
    hlisted.placed (by omega) (by omega) fun hpages => (hmay.grows hpages).1
  generalize hresized : ramfsResize call.mem s.dir (s.dir.size + 4) call.kmalloc = resized
    at hgrew
  have hslot : Apart call.newFile sizeofVfile (resized.file.privatePtr + s.dir.size) 4 := by
    have hnew := hlisted.block_apart hmay hgrew (.inl rfl)
    have hlength := size_le_blockLength resized.file
    rw [hgrew.size] at hlength
    rw [Apart] at hnew ⊢
    rw [sizeofVfile]
    omega
  obtain ⟨created, hcreated⟩ : ∃ created, created = ramfsCreate call.mem s.dir call.name
      call.flags ramfsOps call.kmalloc call.newFile := ⟨_, rfl⟩
  obtain ⟨hreturned, hparent, hlinked⟩ := ramfsCreate_full hlisted.isDir
    (Tree.dropSlash_of_not_mem hmay.name.noSlash) hmay.name.short (hlisted.fullSlots hmay)
    (by omega) (by omega) hresized.symm hgrew hmay.notNull (by omega) hslot hcreated
  refine ⟨⟨created.mem, resized.file, s.files ++ [(call.name, call.newFile)]⟩, ?_,
    hlisted.append hmay hgrew hlinked, rfl, ?_⟩
  · simp only [createStep, ← hcreated, hreturned, hparent]
  · rcases hgrew.place with ⟨hsame, hlength⟩ | ⟨hpages, hmoved, -⟩
    · rw [if_pos (hgrew.pages_eq hlength), hsame]
    · rw [if_neg hpages.ne', hmoved]

/-! ## Runs -/

theorem exec_listed (ramfsOps : ℕ) {calls : List CreateCall} (hlisted : Listed s)
    (hmeets : Meets (createStep ramfsOps) MayCreate s calls) :
    ∃ final, exec (createStep ramfsOps) s calls = some final ∧ Listed final ∧
      final.files = s.files ++ calls.map fun call => (call.name, call.newFile) := by
  induction calls generalizing s with
  | nil => exact ⟨s, rfl, hlisted, by rw [List.map_nil, List.append_nil]⟩
  | cons call calls ih =>
      obtain ⟨next, hstep, hnext, hfiles, -⟩ := hlisted.create ramfsOps hmeets.1
      obtain ⟨final, hrun, hfinal, hall⟩ := ih hnext (meets_cons hmeets hstep).2
      refine ⟨final, exec_cons_eq_some.mpr ⟨next, hstep, hrun⟩, hfinal, ?_⟩
      rw [hall, hfiles, List.append_assoc, List.map_cons, List.singleton_append]

theorem Listed.losesNothing {calls : List CreateCall} (hlisted : Listed s)
    (hfiles : s.files = calls.map fun call => (call.name, call.newFile)) :
    LosesNothing s calls where
  files := hfiles
  created := by
    intro entry hentry
    obtain ⟨i, hi⟩ := List.mem_iff_getElem?.mp hentry
    exact (hlisted.entries i entry hi).notNull
  size := by rw [hlisted.size, hfiles, List.length_map]
  slots := fun mem hsame i entry hentry => (hlisted.unchanged hsame hentry).pointer
  lookups := fun mem hsame subname hsubname => hlisted.searchDir hsame hsubname

/-- A directory without children. -/
def emptyDirectory (mem : ℕ → UInt8) (flags : ℕ) : Growing := ⟨mem, ⟨0, 0, flags⟩, []⟩

theorem listed_emptyDirectory (mem : ℕ → UInt8) {flags : ℕ}
    (hisDir : flags &&& fsFileIsDir ≠ 0) : Listed (emptyDirectory mem flags) := by
  refine ⟨hisDir, ⟨Nat.two_pow_pos 31, fun _ => rfl, ?_⟩, rfl, ?_, ?_, ?_, ?_, List.nodup_nil⟩
  · simp [emptyDirectory, File.blockLength, pagesOf]
  · intro i entry hentry
    simp [emptyDirectory] at hentry
  · simp [emptyDirectory]
  · simp [emptyDirectory]
  · simp [emptyDirectory]

/-- Growth loses nothing.  After any sequence of creations in a directory that starts
empty, the slots hold the files in the order of the calls, and a search returns the
file of the first call with the name, or none. -/
theorem directory_losesNothing (mem : ℕ → UInt8) (flags ramfsOps : ℕ)
    (hisDir : flags &&& fsFileIsDir ≠ 0) (calls : List CreateCall)
    (hmeets : Meets (createStep ramfsOps) MayCreate (emptyDirectory mem flags) calls) :
    ∃ final, exec (createStep ramfsOps) (emptyDirectory mem flags) calls = some final ∧
      LosesNothing final calls := by
  obtain ⟨final, hrun, hfinal, hfiles⟩ :=
    exec_listed ramfsOps (listed_emptyDirectory mem hisDir) hmeets
  exact ⟨final, hrun, hfinal.losesNothing hfiles⟩

/-! ## More files than a page has slots -/

/-- The heap hands out the lowest free page.  The 1025th file gets the page that the
array of the directory has just left. -/
def arrayBlock (pages : ℕ) : ℕ := if pages ≤ 1 then 0xc0100000 else 0xc0110000

def filePage (i : ℕ) : ℕ := if i = 1024 then 0xc0100000 else 0xc0200000 + 4096 * i

def twoLetters (i : ℕ) : CString :=
  [UInt8.ofNat (0x61 + i / 32), UInt8.ofNat (0x61 + i % 32)]

/-- The call that creates the next file. -/
def nextFile (s : Growing) : CreateCall where
  mem := s.mem
  name := twoLetters s.files.length
  flags := 0
  kmalloc := arrayBlock
  newFile := filePage s.files.length

/-- The calls that create that many files. -/
def createFiles (ramfsOps : ℕ) : ℕ → Growing → List CreateCall
  | 0, _ => []
  | count + 1, s => nextFile s ::
      match createStep ramfsOps s (nextFile s) with
      | none => []
      | some next => createFiles ramfsOps count next

theorem length_createFiles (ramfsOps count : ℕ) (s : Growing) :
    (createFiles ramfsOps count s).length = count := by
  induction count generalizing s with
  | zero => rfl
  | succ count ih => rw [createFiles, List.length_cons, createStep, ih]

theorem shortName_twoLetters {i : ℕ} (hi : i < 1025) : ShortName (twoLetters i) := by
  have hletter : ∀ n ≤ 32, slash ≠ UInt8.ofNat (0x61 + n) ∧ 0 ≠ UInt8.ofNat (0x61 + n) := by
    decide
  have hfirst := hletter (i / 32) (by omega)
  have hsecond := hletter (i % 32) (by omega)
  refine ⟨List.cons_ne_nil _ _, ?_, ?_, ?_⟩
  · exact show 2 < 76 by decide
  · rw [twoLetters, List.mem_cons, List.mem_singleton, not_or]
    exact ⟨hfirst.1, hsecond.1⟩
  · rw [twoLetters, List.mem_cons, List.mem_singleton, not_or]
    exact ⟨hfirst.2, hsecond.2⟩

/-- The files so far are in their pages, and the array in its block. -/
structure Laid (s : Growing) : Prop where
  listed : Listed s
  pages : ∀ i entry, s.files[i]? = some entry → entry.2 = filePage i
  noArray : s.files = [] → s.dir.privatePtr = 0
  array : s.files ≠ [] → s.dir.privatePtr = arrayBlock (pagesOf s.dir.size)

theorem filePage_spec (i : ℕ) (hi : i < 1025) :
    filePage i ≠ 0 ∧ filePage i % 4096 = 0 ∧ filePage i + 4096 ≤ 2 ^ 32 ∧
      (i = 1024 → filePage i = 0xc0100000) ∧
      (i ≠ 1024 → filePage i = 0xc0200000 + 4096 * i) := by
  rw [filePage]
  split <;> omega

theorem filePage_inj {i j : ℕ} (hi : i < j) (hj : j < 1025) : filePage i ≠ filePage j := by
  rw [filePage, filePage]
  split_ifs <;> omega

/-- While the array stays, the page of the file is apart from it. -/
theorem Laid.table_apart (hlaid : Laid s) (hcount : s.files.length < 1025)
    (hsame : pagesOf (s.dir.size + 4) = pagesOf s.dir.size) :
    Apart (filePage s.files.length) 4096 s.dir.privatePtr s.dir.blockLength := by
  have hsize := hlaid.listed.size
  rw [hsize, pagesOf, pagesOf] at hsame
  have hnonempty : s.files ≠ [] := by
    intro hnil
    rw [hnil, List.length_nil] at hsame
    omega
  have hplace := hlaid.array hnonempty
  rw [hsize, arrayBlock, pagesOf, if_pos (by omega)] at hplace
  obtain ⟨-, -, -, -, hlow⟩ := filePage_spec s.files.length hcount
  rw [Apart, File.blockLength, pagesOf, hsize, hplace, hlow (by omega)]
  omega

/-- The new block of the array is apart from all pages, and from the old block. -/
theorem Laid.block_apart (hlaid : Laid s) (hcount : s.files.length < 1025)
    (hgrows : pagesOf s.dir.size < pagesOf (s.dir.size + 4)) :
    s.dir.Fresh (arrayBlock (pagesOf (s.dir.size + 4))) (s.dir.size + 4) ∧
      ∀ i ≤ s.files.length, Apart (filePage i) 4096 (arrayBlock (pagesOf (s.dir.size + 4)))
        (pagesOf (s.dir.size + 4) * 4096) := by
  have hsize := hlaid.listed.size
  rw [hsize, pagesOf, pagesOf] at hgrows
  have hcases : s.files.length = 0 ∨ s.files.length = 1024 := by omega
  rcases hcases with hzero | hfull
  · -- The first file gets the directory its array.
    have hempty : s.dir.blockLength = 0 := by rw [File.blockLength, hsize, hzero, pagesOf]
    rw [hsize, hzero, arrayBlock, pagesOf, if_pos (by decide)]
    refine ⟨⟨by decide, by decide, ?_⟩, ?_⟩
    · rw [Apart, hempty, hlaid.noArray (List.length_eq_zero_iff.mp hzero)]
      exact .inr (Nat.zero_le _)
    · intro i hi
      obtain rfl : i = 0 := by omega
      exact .inr (by decide)
  · have hnonempty : s.files ≠ [] := by
      intro hnil
      rw [hnil] at hfull
      cases hfull
    have hplace := hlaid.array hnonempty
    have hlength : s.dir.blockLength = 4096 := by rw [File.blockLength, hsize, hfull, pagesOf]
    rw [hsize, hfull, arrayBlock, pagesOf, if_pos (by decide)] at hplace
    rw [hsize, hfull, arrayBlock, pagesOf, if_neg (by decide)]
    refine ⟨⟨by decide, by decide, ?_⟩, ?_⟩
    · rw [hplace, hlength]
      exact .inr (by decide)
    · intro i hi
      obtain ⟨-, -, -, hlast, hlow⟩ := filePage_spec i (by omega)
      by_cases hat : i = 1024
      · rw [hlast hat]
        exact .inl (by decide)
      · rw [hlow hat]
        exact .inr (by omega)

theorem Laid.mayCreate (hlaid : Laid s) (hcount : s.files.length < 1025) :
    MayCreate s (nextFile s) := by
  have hentry : ∀ entry ∈ s.files, ∃ i < s.files.length, entry.2 = filePage i := by
    intro entry hmem
    obtain ⟨i, hi⟩ := List.mem_iff_getElem?.mp hmem
    exact ⟨i, (List.getElem?_eq_some_iff.mp hi).1, hlaid.pages i entry hi⟩
  obtain ⟨hnotNull, haligned, hroom, -⟩ := filePage_spec s.files.length hcount
  refine ⟨shortName_twoLetters hcount, ⟨fun _ _ => rfl, fun _ _ _ _ => rfl⟩, hnotNull, haligned,
    hroom, hlaid.table_apart hcount, ?_, ?_⟩
  · intro entry hmem
    obtain ⟨i, hi, hpage⟩ := hentry entry hmem
    rw [hpage]
    exact filePage_inj hi hcount
  · intro hgrows
    obtain ⟨hfresh, hapart⟩ := hlaid.block_apart hcount hgrows
    refine ⟨hfresh, ?_⟩
    rintro page (rfl | ⟨entry, hmem, rfl⟩)
    · exact hapart _ le_rfl
    · obtain ⟨i, hi, hpage⟩ := hentry entry hmem
      rw [hpage]
      exact hapart i hi.le

theorem Laid.create (ramfsOps : ℕ) (hlaid : Laid s) (hcount : s.files.length < 1025) :
    ∃ next, createStep ramfsOps s (nextFile s) = some next ∧ Laid next ∧
      next.files.length = s.files.length + 1 := by
  obtain ⟨next, hstep, hlisted, hfiles, hplace⟩ :=
    hlaid.listed.create ramfsOps (hlaid.mayCreate hcount)
  have hlength : next.files.length = s.files.length + 1 := by
    rw [hfiles, List.length_append, List.length_singleton]
  refine ⟨next, hstep, ⟨hlisted, ?_, ?_, fun _ => ?_⟩, hlength⟩
  · intro i entry hentry
    rw [hfiles] at hentry
    rcases Nat.lt_or_ge i s.files.length with hi | hi
    · rw [List.getElem?_append_left hi] at hentry
      exact hlaid.pages i entry hentry
    · have hlast : i = s.files.length := by
        have hlt := (List.getElem?_eq_some_iff.mp hentry).1
        rw [List.length_append, List.length_singleton] at hlt
        omega
      subst hlast
      obtain rfl : (twoLetters s.files.length, filePage s.files.length) = entry := by
        simpa [nextFile] using hentry
      rfl
  · intro hnil
    rw [hnil] at hlength
    cases hlength
  · have hsize := hlisted.size
    have hold := hlaid.listed.size
    have hsame : next.dir.size = s.dir.size + 4 := by omega
    rw [hplace, hsame]
    split
    next hpages =>
      rw [hpages]
      refine hlaid.array ?_
      intro hnil
      rw [hnil, List.length_nil] at hold
      rw [hold, pagesOf, pagesOf] at hpages
      cases hpages
    next => rfl

theorem Laid.createFiles (ramfsOps : ℕ) {count : ℕ} (hlaid : Laid s)
    (hcount : s.files.length + count ≤ 1025) :
    Meets (createStep ramfsOps) MayCreate s (RamData.createFiles ramfsOps count s) := by
  induction count generalizing s with
  | zero => trivial
  | succ count ih =>
      obtain ⟨next, hstep, hnext, hlength⟩ := hlaid.create ramfsOps (by omega)
      have hcalls : RamData.createFiles ramfsOps (count + 1) s =
          nextFile s :: RamData.createFiles ramfsOps count next := by
        rw [RamData.createFiles, hstep]
      rw [hcalls]
      refine meets_cons_intro (hlaid.mayCreate (by omega)) ?_
      intro next' hstep'
      obtain rfl := Option.some.inj (hstep.symm.trans hstep')
      exact ih hnext (by omega)

theorem laid_emptyDirectory : Laid (emptyDirectory (fun _ => 0) fsFileIsDir) := by
  refine ⟨listed_emptyDirectory _ (by decide), ?_, fun _ => rfl, ?_⟩
  · intro i entry hentry
    simp [emptyDirectory] at hentry
  · intro hne
    exact absurd rfl hne

/-- The array moves for the 1025th file, which gets the page it was in. -/
theorem directory_losesNothing_twoPages :
    ∃ calls : List CreateCall, calls.length = 1025 ∧
      ∃ final, exec (createStep 0xc0001000) (emptyDirectory (fun _ => 0) fsFileIsDir) calls =
        some final ∧ LosesNothing final calls :=
  ⟨createFiles 0xc0001000 1025 (emptyDirectory (fun _ => 0) fsFileIsDir),
    length_createFiles _ _ _,
    directory_losesNothing (fun _ => 0) fsFileIsDir 0xc0001000 (by decide) _
      (laid_emptyDirectory.createFiles 0xc0001000 (show 0 + 1025 ≤ 1025 by decide))⟩

end KimisOS.RamData
