import KimisOS.Vfs.NameFields
import KimisOS.Vfs.Uniqueness

/-!
# Unpacking the initial archive

`read_initrd` goes from header to header by the sizes in them, makes a file of each
member and lets it point into the archive.  The position of a header is the sum of
the rounded sizes in front of it.
-/

namespace KimisOS.Initrd

open KimisOS.Fat32 (CString slash)
open KimisOS.Vfs (State rootDir)
open KimisOS.RamData (asInt asInt_of_lt digit sumDigits ustarGetsize ustarMagic bootPrefix stringAt)

/-! ## The loop of `read_initrd` -/

/-- The files, the fields that `read_initrd` sets in them, and the blocks that were
handed to `kfree`. -/
structure FileSystem where
  vfs : State
  privatePtr : ℕ → ℕ
  size : ℕ → ℕ
  freed : List ℕ

/-- A new file has no data. -/
def fcreate (fs : FileSystem) (path : CString) (flags : ℕ) :
    Option (FileSystem × Option ℕ) :=
  match Vfs.fcreate fs.vfs path flags with
  | none => none
  | some (vfs, none) => some ({ fs with vfs := vfs }, none)
  | some (vfs, some file) =>
      some ({ fs with
        vfs := vfs
        privatePtr := Function.update fs.privatePtr file 0
        size := Function.update fs.size file 0 }, some file)

/-- `sizeof(USTAR_file_t)`. -/
def ustarHeaderSize : ℕ := 512

/-- The memory of the archive at `ptr`, and the value that is returned.  `none` is a
loop that goes on. -/
def readInitrd (archive : List UInt8) (ptr : ℕ) :
    ℕ → ℕ → FileSystem → Option (FileSystem × ℕ)
  | 0, _, _ => none
  | fuel + 1, offset, fs =>
      if (archive.drop (offset + 257)).take 5 = ustarMagic then
        let filesize := asInt (ustarGetsize ((archive.drop (offset + 124)).take 12))
        let fsizePgs := (((filesize + 4095).tdiv 4096) % 2 ^ 32).toNat
        let finalFname := bootPrefix ++ stringAt archive offset
        match fcreate fs finalFname 0 with
        | none => none
        | some (fs, none) => some (fs, 1)
        | some (fs, some tmp) =>
            let freed :=
              if fs.privatePtr tmp ≠ 0 then fs.privatePtr tmp :: fs.freed else fs.freed
            let fs := { fs with
              freed := freed
              privatePtr := Function.update fs.privatePtr tmp
                ((ptr + offset + ustarHeaderSize) % 2 ^ 32)
              size := Function.update fs.size tmp (fsizePgs * 4096 % 2 ^ 32) }
            readInitrd archive ptr fuel
              ((offset + ((filesize + 511).tdiv 512 + 1) * 512) % 2 ^ 32).toNat fs
      else some (fs, 0)

/-! ## Well-formed archives -/

/-- A member: the block of its header, its data, and what fills the last block. -/
structure Entry where
  header : List UInt8
  name : CString
  digits : List UInt8
  data : List UInt8
  padding : List UInt8

def Entry.bytes (entry : Entry) : List UInt8 := entry.header ++ entry.data ++ entry.padding

/-- The number that octal digits write, the highest first. -/
def octalValue (digits : List UInt8) : ℕ :=
  Nat.ofDigits 8 (digits.reverse.map fun c => c.toNat - 48)

structure Entry.WellFormed (entry : Entry) : Prop where
  block : entry.header.length = 512
  magic : (entry.header.drop 257).take 5 = ustarMagic
  name : entry.name ++ [0] <+: entry.header
  nonzero : 0 ∉ entry.name
  noSlash : slash ∉ entry.name
  nonempty : 1 ≤ entry.name.length
  short : entry.name.length ≤ 69
  size : (entry.header.drop 124).take 11 = entry.digits
  octal : ∀ c ∈ entry.digits, 48 ≤ c.toNat ∧ c.toNat < 56
  length : octalValue entry.digits = entry.data.length
  low : entry.data.length < 2 ^ 31 - 4096
  padded : (entry.data.length + entry.padding.length) % 512 = 0
  filled : entry.padding.length < 512

/-- The members, a block without the magic, and what comes behind it. -/
structure Archive (archive : List UInt8) (entries : List Entry) : Prop where
  members : ∃ last behind, archive = entries.flatMap Entry.bytes ++ last ++ behind ∧
    last.length = 512 ∧ (last.drop 257).take 5 ≠ ustarMagic
  wellFormed : ∀ entry ∈ entries, entry.WellFormed
  short : archive.length < 2 ^ 32

/-- Where the data of a member begins. -/
def dataOffset (entries : List Entry) (i : ℕ) : ℕ :=
  ((entries.take i).flatMap Entry.bytes).length + ustarHeaderSize

def bootPath (entry : Entry) : CString := bootPrefix ++ entry.name

/-- Calls of `fcreate` one after the other, each of which returns a file. -/
def createAll (s : State) : List CString → Option (State × List ℕ)
  | [] => some (s, [])
  | path :: paths =>
      match Vfs.fcreate s path 0 with
      | some (s, some file) =>
          match createAll s paths with
          | some (s, files) => some (s, file :: files)
          | none => none
      | _ => none

/-! ## Sizes -/

theorem digit_eq {c : UInt8} (hlow : 48 ≤ c.toNat) (hhigh : c.toNat < 56) :
    digit c = c.toNat - 48 := by
  have hchar : c < 128 := UInt8.lt_iff_toNat_lt.mpr (show c.toNat < 128 by omega)
  rw [digit, if_pos hchar]
  omega

@[simp]
theorem sumDigits_nil (count size : ℕ) : sumDigits [] count size = size := rfl

@[simp]
theorem sumDigits_cons (c : UInt8) (digits : List UInt8) (count size : ℕ) :
    sumDigits (c :: digits) count size =
      sumDigits digits (count * 8 % 2 ^ 32) ((size + digit c * count) % 2 ^ 32) := by
  -- the two calls are not compared argument by argument
  have hstep : sumDigits (c :: digits) count size = Function.uncurry (sumDigits digits)
      (count * 8 % 2 ^ 32, (size + digit c * count) % 2 ^ 32) := rfl
  exact hstep

/-- The sum in 32-bit arithmetic, with the weight of the first digit. -/
theorem sumDigits_eq {digits : List UInt8}
    (hoctal : ∀ c ∈ digits, 48 ≤ c.toNat ∧ c.toNat < 56) {count size : ℕ}
    (hsize : size < 2 ^ 32) :
    sumDigits digits count size =
      (size + count * Nat.ofDigits 8 (digits.map fun c => c.toNat - 48)) % 2 ^ 32 := by
  induction digits generalizing count size with
  | nil =>
      rw [sumDigits_nil, List.map_nil, Nat.ofDigits_nil, Nat.mul_zero, Nat.add_zero,
        Nat.mod_eq_of_lt hsize]
  | cons c digits ih =>
      obtain ⟨hlow, hhigh⟩ := hoctal c List.mem_cons_self
      have htail := @ih (fun d hd => hoctal d (List.mem_cons_of_mem _ hd))
        (count * 8 % 2 ^ 32) _
        (Nat.mod_lt (size + digit c * count) (show 0 < 2 ^ 32 by decide))
      rw [sumDigits_cons, htail, List.map_cons, Nat.ofDigits_cons, digit_eq hlow hhigh]
      calc ((size + (c.toNat - 48) * count) % 2 ^ 32 + count * 8 % 2 ^ 32 *
            Nat.ofDigits 8 (digits.map fun c => c.toNat - 48)) % 2 ^ 32
          = (size + (c.toNat - 48) * count + count * 8 *
              Nat.ofDigits 8 (digits.map fun c => c.toNat - 48)) % 2 ^ 32 :=
            Nat.ModEq.add (Nat.mod_modEq _ _) ((Nat.mod_modEq _ _).mul_right _)
        _ = (size + count * ((c.toNat - 48) + 8 *
              Nat.ofDigits 8 (digits.map fun c => c.toNat - 48))) % 2 ^ 32 := by
            congr 1
            ring

namespace Entry

variable {entry : Entry}

theorem WellFormed.getsize (hentry : entry.WellFormed) :
    ustarGetsize ((entry.header.drop 124).take 12) = entry.data.length := by
  have hlow := hentry.low
  have hdigits : ((entry.header.drop 124).take 12).take 11 = entry.digits := by
    rw [List.take_take, Nat.min_eq_left (by decide), hentry.size]
  have hoctal : ∀ c ∈ entry.digits.reverse, 48 ≤ c.toNat ∧ c.toNat < 56 := by
    intro c hc
    exact hentry.octal c (List.mem_reverse.mp hc)
  rw [ustarGetsize, hdigits, sumDigits_eq hoctal (by decide), Nat.zero_add, Nat.one_mul]
  change octalValue entry.digits % 2 ^ 32 = _
  rw [hentry.length, Nat.mod_eq_of_lt (by omega)]

/-- A member takes whole blocks. -/
theorem WellFormed.length_bytes (hentry : entry.WellFormed) :
    entry.bytes.length = ((entry.data.length + 511) / 512 + 1) * 512 := by
  have hblock := hentry.block
  have hpadded := hentry.padded
  have hfilled := hentry.filled
  rw [bytes, List.length_append, List.length_append]
  omega

end Entry

/-! ## One member -/

section Step

variable {before more : List UInt8} {entry : Entry}

/-- What stands in the header, at its place in the archive. -/
theorem drop_header {field : ℕ} (hentry : entry.WellFormed) {count : ℕ}
    (hfield : field + count ≤ 512) :
    ((before ++ entry.bytes ++ more).drop (before.length + field)).take count =
      (entry.header.drop field).take count := by
  have hblock := hentry.block
  rw [Entry.bytes, List.append_assoc, List.append_assoc, List.append_assoc,
    ← List.drop_drop, List.drop_left, List.drop_append_of_le_length (by omega),
    List.take_append_of_le_length (by rw [List.length_drop]; omega)]

theorem stringAt_name (hentry : entry.WellFormed) :
    stringAt (before ++ entry.bytes ++ more) before.length = entry.name := by
  obtain ⟨rest, hrest⟩ := hentry.name
  rw [stringAt, Entry.bytes, ← hrest, List.append_assoc, List.append_assoc,
    List.append_assoc, List.drop_left, List.append_assoc, List.append_assoc,
    List.takeWhile_append_of_pos]
  · simp
  · intro c hc
    simp only [decide_eq_true_eq]
    rintro rfl
    exact hentry.nonzero hc

theorem data_in_place (hentry : entry.WellFormed) :
    entry.data <+: (before ++ entry.bytes ++ more).drop (before.length + ustarHeaderSize) := by
  have hblock := hentry.block
  refine ⟨entry.padding ++ more, ?_⟩
  rw [Entry.bytes, List.append_assoc, List.append_assoc, List.append_assoc,
    ← List.drop_drop, List.drop_left, ustarHeaderSize, ← hblock, List.drop_left]

/-- The file points into the archive, and the loop goes on behind the member. -/
def FileSystem.unpack (fs : FileSystem) (vfs : State) (file ptr size : ℕ) : FileSystem where
  vfs := vfs
  privatePtr := Function.update fs.privatePtr file ptr
  size := Function.update fs.size file size
  freed := fs.freed

/-- The size of a file, in whole pages. -/
def pagesSize (entry : Entry) : ℕ := (entry.data.length + 4095) / 4096 * 4096

theorem filesizePages {length : ℕ} (hlow : length < 2 ^ 31 - 4096) :
    ((((length : ℤ) + 4095).tdiv 4096) % 2 ^ 32).toNat * 4096 % 2 ^ 32 =
      (length + 4095) / 4096 * 4096 := by
  rw [Int.tdiv_eq_ediv_of_nonneg (by omega)]
  omega

theorem nextOffset {offset length : ℕ}
    (hshort : offset + ((length + 511) / 512 + 1) * 512 < 2 ^ 32) :
    (((offset : ℤ) + (((length : ℤ) + 511).tdiv 512 + 1) * 512) % 2 ^ 32).toNat =
      offset + ((length + 511) / 512 + 1) * 512 := by
  rw [Int.tdiv_eq_ediv_of_nonneg (by omega)]
  omega

theorem readInitrd_member {archive : List UInt8} {ptr fuel file : ℕ} {fs : FileSystem}
    {vfs : State} (hentry : entry.WellFormed)
    (harchive : archive = before ++ entry.bytes ++ more) (hshort : archive.length < 2 ^ 32)
    (hcreate : Vfs.fcreate fs.vfs (bootPath entry) 0 = some (vfs, some file)) :
    readInitrd archive ptr (fuel + 1) before.length fs =
      readInitrd archive ptr fuel (before ++ entry.bytes).length
        (fs.unpack vfs file ((ptr + before.length + ustarHeaderSize) % 2 ^ 32)
          (pagesSize entry)) := by
  have hlow := hentry.low
  have hmagic : (archive.drop (before.length + 257)).take 5 = ustarMagic := by
    rw [harchive, drop_header hentry (by decide), hentry.magic]
  have hgetsize : ustarGetsize ((archive.drop (before.length + 124)).take 12) =
      entry.data.length := by
    rw [harchive, drop_header hentry (by decide), hentry.getsize]
  have hname : stringAt archive before.length = entry.name := by
    rw [harchive, stringAt_name hentry]
  have hnext : before.length + ((entry.data.length + 511) / 512 + 1) * 512 =
      (before ++ entry.bytes).length := by
    rw [List.length_append, hentry.length_bytes]
  have hinside : (before ++ entry.bytes).length ≤ archive.length := by
    rw [harchive]
    exact (List.prefix_append _ _).length_le
  have hmake : fcreate fs (bootPrefix ++ entry.name) 0 = some ({ fs with
      vfs := vfs
      privatePtr := Function.update fs.privatePtr file 0
      size := Function.update fs.size file 0 }, some file) := by
    rw [bootPath] at hcreate
    rw [fcreate, hcreate]
  rw [readInitrd, if_pos hmagic]
  simp only [hgetsize, hname, hmake, asInt_of_lt (show entry.data.length < 2 ^ 31 by omega),
    nextOffset (show before.length + ((entry.data.length + 511) / 512 + 1) * 512 < 2 ^ 32
      by omega), filesizePages hlow, Function.update_self, Function.update_idem, hnext]
  rfl

end Step

/-- The loop ends at a block without the magic. -/
theorem readInitrd_last {before last behind : List UInt8} {ptr fuel : ℕ} {fs : FileSystem}
    (hlength : last.length = 512) (hmagic : (last.drop 257).take 5 ≠ ustarMagic) :
    readInitrd (before ++ last ++ behind) ptr (fuel + 1) before.length fs = some (fs, 0) := by
  have hblock : ((before ++ last ++ behind).drop (before.length + 257)).take 5 =
      (last.drop 257).take 5 := by
    rw [List.append_assoc, ← List.drop_drop, List.drop_left,
      List.drop_append_of_le_length (by omega),
      List.take_append_of_le_length (by rw [List.length_drop]; omega)]
  rw [readInitrd, hblock, if_neg hmagic]

/-! ## The files that are made -/

section Create

variable {s s' final : State} {entry : Entry} {entries : List Entry}

/-- A created file has the next number. -/
theorem fcreate_file {path : CString} {file : ℕ}
    (hcreate : Vfs.fcreate s path 0 = some (s', some file)) :
    file = s.tree.next ∧ s'.tree.next = s.tree.next + 1 := by
  rcases Vfs.vfcreateFrom_tree hcreate with ⟨hnone, -⟩ | ⟨_, _, -, -, -, htree, hfile⟩
  · simp at hnone
  · rw [htree]
    exact ⟨Option.some.inj hfile, rfl⟩

theorem createAll_cons {path : CString} {paths : List CString} {files : List ℕ}
    (hcreate : createAll s (path :: paths) = some (final, files)) :
    ∃ s' rest, Vfs.fcreate s path 0 = some (s', some s.tree.next) ∧
      s'.tree.next = s.tree.next + 1 ∧ createAll s' paths = some (final, rest) ∧
      files = s.tree.next :: rest := by
  rw [createAll] at hcreate
  split at hcreate
  next s' file hfirst =>
    obtain ⟨rfl, hnext⟩ := fcreate_file hfirst
    split at hcreate
    next final' rest hrest =>
      simp only [Option.some.injEq, Prod.mk.injEq] at hcreate
      obtain ⟨rfl, rfl⟩ := hcreate
      exact ⟨s', rest, hfirst, hnext, hrest, rfl⟩
    next => simp at hcreate
  next => simp at hcreate

/-- `"boot"`. -/
def bootName : CString := [0x62, 0x6f, 0x6f, 0x74]

/-- The new files are the children that a directory has got, in the order of the
members, and the other files are as they were. -/
structure Filled (s final : State) (boot : ℕ) (entries : List Entry) : Prop where
  files : ∀ i (hi : i < entries.length),
    final.tree.files (s.tree.next + i) = ⟨entries[i].name, 0, .ramfs, 0, []⟩
  children : ∀ child, some child ∈ (final.tree.files boot).children ↔
    some child ∈ (s.tree.files boot).children ∨
      (s.tree.next ≤ child ∧ child < s.tree.next + entries.length)
  others : ∀ file < s.tree.next, file ≠ boot → final.tree.files file = s.tree.files file

/-- The path of a member leads to its name in `/boot`. -/
theorem fcreate_boot {file : ℕ} (hplain : s.tree.Plain) (hentry : entry.WellFormed)
    (hcreate : Vfs.fcreate s (bootPath entry) 0 = some (s', some file)) :
    ∃ boot, s.tree.enter bootName rootDir = some boot ∧ rootDir < boot ∧
      boot < s.tree.next ∧ s'.tree = s.tree.addChild boot entry.name 0 ∧ s'.tree.Plain := by
  rcases Vfs.Creation.fcreate_cases hplain hcreate with
    ⟨hnone, -⟩ | ⟨dir, name, htarget, -, hbelow, hmount, hops, htree, -⟩
  · simp at hnone
  · have hname : Vfs.Tree.IsName entry.name := by
      refine ⟨?_, hentry.noSlash⟩
      intro hempty
      have hnonempty := hentry.nonempty
      rw [hempty] at hnonempty
      exact absurd hnonempty (by decide)
    have hnames : ∀ name ∈ [bootName] ++ [entry.name], Vfs.Tree.IsName name := by
      intro name hmem
      rcases List.mem_cons.mp hmem with rfl | hlast
      · exact ⟨by decide, by decide⟩
      · rw [List.mem_singleton.mp hlast]
        exact hname
    obtain ⟨rfl, hdescend⟩ := hplain.targetFrom_joinPath hnames rfl htarget
    have henter : s.tree.enter bootName rootDir = some dir := by
      rw [Vfs.Tree.descend] at hdescend
      cases hroot : s.tree.enter bootName rootDir with
      | none => simp [hroot] at hdescend
      | some child =>
          rw [hroot] at hdescend
          exact hdescend
    have hsearch := (Vfs.Tree.enter_eq_some.mp henter).1
    refine ⟨dir, henter, (hplain.grown.searchDir hplain.grown.root hsearch).1, hbelow, htree, ?_⟩
    rw [htree, ← @Vfs.Creation.built_fcreate s.tree dir entry.name (bootPath entry) 0 hbelow]
    exact (Vfs.Creation.fcreate (bootPath entry) 0).plain_built hplain hbelow hmount hops

/-- The directory is found again behind a new child. -/
theorem enter_boot {boot : ℕ} (hplain : s.tree.Plain)
    (henter : s.tree.enter bootName rootDir = some boot) (hroot : rootDir < boot)
    (hboot : boot < s.tree.next) :
    (s.tree.addChild boot entry.name 0).enter bootName rootDir = some boot := by
  obtain ⟨hsearch, hmount⟩ := Vfs.Tree.enter_eq_some.mp henter
  rw [Vfs.Tree.enter_eq_some, Vfs.Tree.isMount_addChild hboot,
    hplain.grown.searchDir_addChild hboot hplain.grown.root fun h => absurd h hroot.ne]
  exact ⟨hsearch, hmount⟩

/-- One file more in front. -/
theorem Filled.cons {boot : ℕ} (hboot : boot < s.tree.next)
    (htree : s'.tree = s.tree.addChild boot entry.name 0)
    (hfilled : Filled s' final boot entries) : Filled s final boot (entry :: entries) := by
  have hnext : s'.tree.next = s.tree.next + 1 := by rw [htree, Vfs.Tree.addChild_next]
  refine ⟨?_, ?_, ?_⟩
  · intro i hi
    cases i with
    | zero =>
        rw [Nat.add_zero, hfilled.others s.tree.next (by omega) (by omega), htree,
          Vfs.Tree.addChild_new hboot]
        rfl
    | succ i =>
        have hrest := hfilled.files i (Nat.lt_of_succ_lt_succ hi)
        rwa [hnext, Nat.add_assoc, Nat.add_comm 1 i] at hrest
  · intro child
    rw [hfilled.children, hnext, htree, Vfs.Tree.mem_addChild hboot, List.length_cons]
    constructor
    · rintro ((hold | ⟨-, rfl⟩) | ⟨hlow, hhigh⟩)
      · exact Or.inl hold
      · exact Or.inr ⟨le_rfl, by omega⟩
      · exact Or.inr ⟨by omega, by omega⟩
    · rintro (hold | ⟨hlow, hhigh⟩)
      · exact Or.inl (Or.inl hold)
      · obtain hfirst | hlater := Nat.eq_or_lt_of_le hlow
        · exact Or.inl (Or.inr ⟨rfl, hfirst.symm⟩)
        · exact Or.inr ⟨hlater, by omega⟩
  · intro file hfile hother
    rw [hfilled.others file (by omega) hother, htree,
      Vfs.Tree.addChild_other hother (by omega)]

theorem createAll_filled {files : List ℕ} {boot : ℕ} (hplain : s.tree.Plain)
    (hentries : ∀ entry ∈ entries, entry.WellFormed)
    (henter : s.tree.enter bootName rootDir = some boot)
    (hcreate : createAll s (entries.map bootPath) = some (final, files)) :
    Filled s final boot entries := by
  induction entries generalizing s files with
  | nil =>
      simp only [List.map_nil, createAll, Option.some.injEq, Prod.mk.injEq] at hcreate
      obtain ⟨rfl, -⟩ := hcreate
      refine ⟨fun i hi => absurd hi (Nat.not_lt_zero i), ?_, fun _ _ _ => rfl⟩
      intro child
      rw [List.length_nil, Nat.add_zero]
      constructor
      · exact Or.inl
      · rintro (hold | ⟨hlow, hhigh⟩)
        · exact hold
        · exact absurd hhigh (Nat.not_lt.mpr hlow)
  | cons entry entries ih =>
      have hentry := hentries entry List.mem_cons_self
      obtain ⟨s', rest, hfirst, hnext, hrest, -⟩ := createAll_cons hcreate
      obtain ⟨dir, hdir, hroot, hbelow, htree, hplain'⟩ := fcreate_boot hplain hentry hfirst
      obtain rfl : boot = dir := Option.some.inj (henter.symm.trans hdir)
      refine Filled.cons hbelow htree (ih hplain' ?_ ?_ hrest)
      · exact fun later hlater => hentries later (List.mem_cons_of_mem _ hlater)
      · rw [htree]
        exact enter_boot hplain henter hroot hbelow

theorem enter_of_createAll {files : List ℕ} (hplain : s.tree.Plain)
    (hentries : ∀ entry ∈ entries, entry.WellFormed) (hne : entries ≠ [])
    (hcreate : createAll s (entries.map bootPath) = some (final, files)) :
    ∃ boot, s.tree.enter bootName rootDir = some boot := by
  obtain ⟨entry, rest, rfl⟩ := List.exists_cons_of_ne_nil hne
  obtain ⟨_, _, hfirst, -⟩ := createAll_cons hcreate
  obtain ⟨boot, henter, -⟩ := fcreate_boot hplain (hentries entry List.mem_cons_self) hfirst
  exact ⟨boot, henter⟩

end Create

/-! ## The whole archive -/

@[simp]
theorem dataOffset_cons (entry : Entry) (entries : List Entry) (i : ℕ) :
    dataOffset (entry :: entries) (i + 1) = entry.bytes.length + dataOffset entries i := by
  rw [dataOffset, dataOffset, List.take_succ_cons, List.flatMap_cons, List.length_append,
    Nat.add_assoc]

/-- The new files point at the data of their members, and no other file is changed. -/
structure Pointed (fs fs' : FileSystem) (ptr : ℕ) (entries : List Entry) : Prop where
  privatePtr : ∀ i < entries.length,
    fs'.privatePtr (fs.vfs.tree.next + i) = (ptr + dataOffset entries i) % 2 ^ 32
  size : ∀ i (hi : i < entries.length),
    fs'.size (fs.vfs.tree.next + i) = pagesSize entries[i]
  others : ∀ file < fs.vfs.tree.next,
    fs'.privatePtr file = fs.privatePtr file ∧ fs'.size file = fs.size file
  freed : fs'.freed = fs.freed

theorem Pointed.cons {fs fs' : FileSystem} {vfs : State} {ptr : ℕ} {entry : Entry}
    {entries : List Entry} (hnext : vfs.tree.next = fs.vfs.tree.next + 1)
    (hpointed : Pointed (fs.unpack vfs fs.vfs.tree.next ((ptr + ustarHeaderSize) % 2 ^ 32)
      (pagesSize entry)) fs' (ptr + entry.bytes.length) entries) :
    Pointed fs fs' ptr (entry :: entries) := by
  have hvfs : (fs.unpack vfs fs.vfs.tree.next ((ptr + ustarHeaderSize) % 2 ^ 32)
      (pagesSize entry)).vfs.tree.next = fs.vfs.tree.next + 1 := hnext
  have hfirst := hpointed.others fs.vfs.tree.next (by omega)
  refine ⟨?_, ?_, ?_, hpointed.freed⟩
  · intro i hi
    cases i with
    | zero =>
        rw [Nat.add_zero, hfirst.1]
        exact Function.update_self _ _ _
    | succ i =>
        have hrest := hpointed.privatePtr i (Nat.lt_of_succ_lt_succ hi)
        rwa [hvfs, Nat.add_assoc, Nat.add_comm 1 i, Nat.add_assoc, ← dataOffset_cons] at hrest
  · intro i hi
    cases i with
    | zero =>
        rw [Nat.add_zero, hfirst.2]
        exact Function.update_self _ _ _
    | succ i =>
        have hrest := hpointed.size i (Nat.lt_of_succ_lt_succ hi)
        rwa [hvfs, Nat.add_assoc, Nat.add_comm 1 i] at hrest
  · intro file hfile
    obtain ⟨hprivate, hsize⟩ := hpointed.others file (by omega)
    rw [hprivate, hsize]
    exact ⟨Function.update_of_ne hfile.ne _ _, Function.update_of_ne hfile.ne _ _⟩

/-- The loop behind the members that are done. -/
theorem readInitrd_run {before last behind : List UInt8} {ptr fuel : ℕ} {fs : FileSystem}
    {entries : List Entry} {final : State} {files : List ℕ}
    (hentries : ∀ entry ∈ entries, entry.WellFormed) (hlength : last.length = 512)
    (hmagic : (last.drop 257).take 5 ≠ ustarMagic)
    (hshort : (before ++ entries.flatMap Entry.bytes ++ last ++ behind).length < 2 ^ 32)
    (hcreate : createAll fs.vfs (entries.map bootPath) = some (final, files))
    (hfuel : entries.length < fuel) :
    ∃ fs', readInitrd (before ++ entries.flatMap Entry.bytes ++ last ++ behind) ptr fuel
        before.length fs = some (fs', 0) ∧
      fs'.vfs = final ∧ Pointed fs fs' (ptr + before.length) entries := by
  induction entries generalizing before fs fuel files with
  | nil =>
      simp only [List.map_nil, createAll, Option.some.injEq, Prod.mk.injEq] at hcreate
      obtain ⟨fuel, rfl⟩ := Nat.exists_eq_succ_of_ne_zero (Nat.ne_zero_of_lt hfuel)
      refine ⟨fs, ?_, hcreate.1, ?_⟩
      · rw [List.flatMap_nil, List.append_nil]
        exact readInitrd_last hlength hmagic
      · exact ⟨fun i hi => absurd hi (Nat.not_lt_zero i),
          fun i hi => absurd hi (Nat.not_lt_zero i), fun _ _ => ⟨rfl, rfl⟩, rfl⟩
  | cons entry entries ih =>
      have hentry := hentries entry List.mem_cons_self
      obtain ⟨fuel, rfl⟩ := Nat.exists_eq_succ_of_ne_zero (Nat.ne_zero_of_lt hfuel)
      obtain ⟨vfs, rest, hfirst, hnext, hrest, -⟩ := createAll_cons hcreate
      have hmember : before ++ (entry :: entries).flatMap Entry.bytes ++ last ++ behind =
          before ++ entry.bytes ++ (entries.flatMap Entry.bytes ++ last ++ behind) := by
        simp only [List.flatMap_cons, List.append_assoc]
      have hdone : before ++ (entry :: entries).flatMap Entry.bytes ++ last ++ behind =
          (before ++ entry.bytes) ++ entries.flatMap Entry.bytes ++ last ++ behind := by
        simp only [List.flatMap_cons, List.append_assoc]
      have hstep := @readInitrd_member _ _ _ _ ptr fuel _ fs vfs hentry hmember hshort hfirst
      rw [hdone] at hshort hstep ⊢
      obtain ⟨fs', hrun, hvfs, hpointed⟩ := @ih (before ++ entry.bytes) fuel
        (fs.unpack vfs fs.vfs.tree.next ((ptr + before.length + ustarHeaderSize) % 2 ^ 32)
          (pagesSize entry)) rest
        (fun later hlater => hentries later (List.mem_cons_of_mem _ hlater)) hshort hrest
        (Nat.lt_of_succ_lt_succ hfuel)
      refine ⟨fs', hstep.trans hrun, hvfs, ?_⟩
      rw [List.length_append, ← Nat.add_assoc] at hpointed
      exact hpointed.cons hnext

/-- The data of a member stands where its file points to. -/
theorem data_at {archive : List UInt8} {entries : List Entry} (harchive : Archive archive entries)
    {i : ℕ} (hi : i < entries.length) :
    entries[i].data <+: archive.drop (dataOffset entries i) := by
  obtain ⟨last, behind, hmembers, -⟩ := harchive.members
  have hentry := harchive.wellFormed entries[i] (List.getElem_mem hi)
  have hsplit : archive = (entries.take i).flatMap Entry.bytes ++ entries[i].bytes ++
      ((entries.drop (i + 1)).flatMap Entry.bytes ++ last ++ behind) := by
    rw [hmembers]
    conv_lhs => rw [← List.take_append_drop i entries, List.drop_eq_getElem_cons hi]
    simp only [List.flatMap_append, List.flatMap_cons, List.append_assoc]
  rw [hsplit, dataOffset]
  exact data_in_place hentry

/-- What `read_initrd` leaves: the files of `fcreate` for the members, in their order,
each of which points at its data. -/
structure Unpacked (archive : List UInt8) (ptr : ℕ) (entries : List Entry)
    (fs fs' : FileSystem) (final : State) (files : List ℕ) : Prop where
  vfs : fs'.vfs = final
  numbers : files = List.range' fs.vfs.tree.next entries.length
  next : final.tree.next = fs.vfs.tree.next + entries.length
  boot : fs.vfs.tree.Plain → entries ≠ [] →
    ∃ boot, fs.vfs.tree.enter bootName rootDir = some boot ∧
      Filled fs.vfs final boot entries
  pointed : Pointed fs fs' ptr entries
  data : ∀ i (hi : i < entries.length),
    entries[i].data <+: archive.drop (dataOffset entries i)

theorem createAll_numbers {s final : State} {paths : List CString} {files : List ℕ}
    (hcreate : createAll s paths = some (final, files)) :
    files = List.range' s.tree.next paths.length ∧
      final.tree.next = s.tree.next + paths.length := by
  induction paths generalizing s files with
  | nil =>
      simp only [createAll, Option.some.injEq, Prod.mk.injEq] at hcreate
      obtain ⟨rfl, rfl⟩ := hcreate
      exact ⟨rfl, rfl⟩
  | cons path paths ih =>
      obtain ⟨s', rest, -, hnext, hrest, rfl⟩ := createAll_cons hcreate
      obtain ⟨rfl, hfinal⟩ := ih hrest
      rw [hfinal, hnext, List.length_cons]
      exact ⟨rfl, by omega⟩

/-- The loop ends, and each member has its file. -/
theorem readInitrd_unpacks {archive : List UInt8} {entries : List Entry}
    (harchive : Archive archive entries) (ptr : ℕ) (fs : FileSystem) {final : State}
    {files : List ℕ}
    (hcreate : createAll fs.vfs (entries.map bootPath) = some (final, files)) {fuel : ℕ}
    (hfuel : entries.length < fuel) :
    ∃ fs', readInitrd archive ptr fuel 0 fs = some (fs', 0) ∧
      Unpacked archive ptr entries fs fs' final files := by
  obtain ⟨last, behind, hmembers, hlength, hmagic⟩ := harchive.members
  have hshort := harchive.short
  rw [hmembers, ← List.nil_append (entries.flatMap Entry.bytes)] at hshort
  obtain ⟨fs', hrun, hvfs, hpointed⟩ := @readInitrd_run [] last behind ptr fuel fs entries final
    files harchive.wellFormed hlength hmagic hshort hcreate hfuel
  obtain ⟨hnumbers, hnext⟩ := createAll_numbers hcreate
  rw [List.length_map] at hnumbers hnext
  rw [List.nil_append, ← hmembers] at hrun
  refine ⟨fs', hrun, hvfs, hnumbers, hnext, ?_, hpointed, fun i hi => data_at harchive hi⟩
  intro hplain hne
  obtain ⟨boot, henter⟩ := enter_of_createAll hplain harchive.wellFormed hne hcreate
  exact ⟨boot, henter, createAll_filled hplain harchive.wellFormed henter hcreate⟩

/-- A member `a` of three bytes. -/
def threeBytes : Entry where
  header := 0x61 :: (List.replicate 123 0 ++ List.replicate 10 0x30 ++ [0x33] ++
    List.replicate 122 0 ++ ustarMagic ++ List.replicate 250 0)
  name := [0x61]
  digits := List.replicate 10 0x30 ++ [0x33]
  data := [1, 2, 3]
  padding := List.replicate 509 0

theorem threeBytes_wellFormed : threeBytes.WellFormed where
  block := by decide +kernel
  magic := by decide +kernel
  name := by decide +kernel
  nonzero := by decide +kernel
  noSlash := by decide +kernel
  nonempty := by decide
  short := by decide
  size := by decide +kernel
  octal := by decide +kernel
  length := by decide +kernel
  low := by decide
  padded := by decide +kernel
  filled := by decide +kernel

/-- A member `b` of 600 bytes, in two sectors. -/
def twoSectors : Entry where
  header := 0x62 :: (List.replicate 123 0 ++ List.replicate 7 0x30 ++ [0x31, 0x31, 0x33, 0x30] ++
    List.replicate 122 0 ++ ustarMagic ++ List.replicate 250 0)
  name := [0x62]
  digits := List.replicate 7 0x30 ++ [0x31, 0x31, 0x33, 0x30]
  data := List.replicate 600 7
  padding := List.replicate 424 0

theorem twoSectors_wellFormed : twoSectors.WellFormed where
  block := by decide +kernel
  magic := by decide +kernel
  name := by decide +kernel
  nonzero := by decide +kernel
  noSlash := by decide +kernel
  nonempty := by decide
  short := by decide
  size := by decide +kernel
  octal := by decide +kernel
  length := by decide +kernel
  low := by decide +kernel
  padded := by decide +kernel
  filled := by decide +kernel

/-- The root with `/boot` in it. -/
def bootFiles : FileSystem where
  vfs := { Vfs.ramfsInit with
    tree := Vfs.ramfsInit.tree.addChild rootDir bootName Vfs.fsFileIsDir }
  privatePtr := fun _ => 0
  size := fun _ => 0
  freed := []

def twoMembers : List UInt8 :=
  threeBytes.bytes ++ twoSectors.bytes ++ List.replicate 512 0

theorem twoMembers_archive : Archive twoMembers [threeBytes, twoSectors] := by
  refine ⟨⟨List.replicate 512 0, [], ?_, by decide +kernel, by decide +kernel⟩, ?_,
    by decide +kernel⟩
  · rw [List.flatMap_cons, List.flatMap_singleton, List.append_nil]
    rfl
  · intro entry hmem
    rcases List.mem_cons.mp hmem with rfl | hmem
    · exact threeBytes_wellFormed
    · rw [List.mem_singleton.mp hmem]
      exact twoSectors_wellFormed

/-- Both members get a file that points at their data. -/
theorem twoMembers_unpacked :
    ∃ fs', readInitrd twoMembers 0x100000 3 0 bootFiles = some (fs', 0) ∧
      fs'.privatePtr 2 = 0x100200 ∧ fs'.privatePtr 3 = 0x100600 := by
  have hsome : (createAll bootFiles.vfs ([threeBytes, twoSectors].map bootPath)).isSome := by
    decide +kernel
  obtain ⟨⟨final, files⟩, hcreate⟩ := Option.isSome_iff_exists.mp hsome
  obtain ⟨fs', hrun, hunpacked⟩ :=
    readInitrd_unpacks twoMembers_archive 0x100000 bootFiles hcreate (show 2 < 3 by decide)
  exact ⟨fs', hrun, hunpacked.pointed.privatePtr 0 (by decide),
    (hunpacked.pointed.privatePtr 1 (by decide)).trans (by decide +kernel)⟩

end KimisOS.Initrd
