import KimisOS.Vfs.Siblings
import KimisOS.Vfs.RamCreate

/-!
# Where names are stored

Names go through three buffers without a look at their length: the field of 100
bytes in the header of an archive, the path of 80 bytes that `read_initrd` puts
together, and the field of 76 bytes in `vfile_t`.
-/

namespace KimisOS.RamData

open KimisOS.ByteStore
open KimisOS.Fat32
open KimisOS.Vfs

/-! ## The field of `vfile_t` -/

/-- The addresses that `strcpy` writes. -/
def strcpyAddresses (src : CString) (dest : ℕ) : List ℕ :=
  (List.range (src.length + 1)).map (dest + ·)

/-- `strcpy` of the name has stayed in its field, and the fields behind it are as
they were cleared. -/
structure NameFits (mem : ℕ → UInt8) (name : CString) (file : ℕ) : Prop where
  inside : ∀ a ∈ strcpyAddresses name file, file ≤ a ∧ a < file + nameLength
  holdsName : HoldsString mem file name
  zeros : ∀ b, refcountOffset ≤ b → b < blockSizeOffset → mem (file + b) = 0

/-- A call of `ramfs_create` that has returned a file, in a page apart from the array
of the directory.  An array that moves has left its old block by then. -/
structure AcceptedCall where
  mem : ℕ → UInt8
  root : File
  path : CString
  flags : ℕ
  ramfsOps : ℕ
  kmalloc : ℕ → ℕ
  newFile : ℕ
  isDir : root.flags &&& fsFileIsDir ≠ 0
  placed : root.Placed
  words : root.size % 4 = 0
  room : root.size + 4 < 2 ^ 31
  accepted : (ramfsCreate mem root path flags ramfsOps kmalloc newFile).returned ≠ 0
  inMemory : newFile + 4096 ≤ 2 ^ 32
  table : emptySlot mem root.privatePtr (root.size / 4) 0 ≠ none ∨
    pagesOf (root.size + 4) = pagesOf root.size →
      Apart newFile 4096 root.privatePtr root.blockLength
  grows : pagesOf root.size < pagesOf (root.size + 4) →
    kmalloc (pagesOf (root.size + 4)) ≠ 0 →
    root.Fresh (kmalloc (pagesOf (root.size + 4))) (root.size + 4) ∧
      Apart newFile 4096 (kmalloc (pagesOf (root.size + 4)))
        (pagesOf (root.size + 4) * 4096)

namespace AcceptedCall

def created (call : AcceptedCall) : Created :=
  ramfsCreate call.mem call.root call.path call.flags call.ramfsOps call.kmalloc call.newFile

/-- The component of the path that is stored. -/
def component (call : AcceptedCall) : CString := dropSlash call.path

end AcceptedCall

/-! ## `read_initrd` -/

/-- A `char` less `'0'`, as a `uint32_t`. -/
def digit (c : UInt8) : ℕ :=
  ((if c < 128 then c.toNat else c.toNat + (2 ^ 32 - 256)) + (2 ^ 32 - 48)) % 2 ^ 32

/-- The loop of `ustar_getsize`, from the last digit on. -/
def sumDigits : List UInt8 → ℕ → ℕ → ℕ
  | [], _, size => size
  | c :: digits, count, size =>
      sumDigits digits (count * 8 % 2 ^ 32) ((size + digit c * count) % 2 ^ 32)

def ustarGetsize (field : List UInt8) : ℕ := sumDigits (field.take 11).reverse 1 0

/-- `"ustar"`. -/
def ustarMagic : List UInt8 := [0x75, 0x73, 0x74, 0x61, 0x72]

/-- `"/boot/"`. -/
def bootPrefix : CString := [slash, 0x62, 0x6f, 0x6f, 0x74, slash]

def pathBufferLength : ℕ := 80

/-- What `read_initrd` reads from the header of a member, and what it makes of it. -/
structure Member where
  filename : CString
  privatePtr : ℕ
  size : ℕ
  deriving DecidableEq

/-- The string at an offset: nothing but a zero byte ends it. -/
def stringAt (archive : List UInt8) (offset : ℕ) : CString :=
  (archive.drop offset).takeWhile (· ≠ 0)

/-- The members that the loop of `read_initrd` goes through, in the archive at `ptr`.
It ends behind the last header and when `fcreate` fails. -/
def initrdMembers (archive : List UInt8) (ptr : ℕ) (fcreate : CString → Bool) :
    ℕ → ℕ → List Member
  | 0, _ => []
  | fuel + 1, offset =>
      if (archive.drop (offset + 257)).take 5 = ustarMagic then
        let filename := stringAt archive offset
        let filesize := asInt (ustarGetsize ((archive.drop (offset + 124)).take 12))
        let fsizePgs := (((filesize + 4095).tdiv 4096) % 2 ^ 32).toNat
        let next := ((offset + ((filesize + 511).tdiv 512 + 1) * 512) % 2 ^ 32).toNat
        ⟨filename, ptr + offset + 512, fsizePgs * 4096 % 2 ^ 32⟩ ::
          if fcreate (bootPrefix ++ filename) then
            initrdMembers archive ptr fcreate fuel next
          else []
      else []

/-- `strcat` behind `"/boot/"` has stayed in the buffer, and so has the name of the
file that `fcreate` makes of the path in its field. -/
structure MemberFits (member : Member) (finalFname : ℕ) : Prop where
  inBuffer : ∀ a ∈ strcpyAddresses member.filename (finalFname + bootPrefix.length),
    finalFname ≤ a ∧ a < finalFname + pathBufferLength
  component : ∀ (tree : Tree) dir (call : AcceptedCall),
    tree.target (bootPrefix ++ member.filename) = some (dir, call.component) →
    NameFits call.created.mem call.component call.newFile

/-! ## Names that fit -/

theorem mem_strcpyAddresses {src : CString} {dest a : ℕ} :
    a ∈ strcpyAddresses src dest ↔ dest ≤ a ∧ a ≤ dest + src.length := by
  rw [strcpyAddresses, List.mem_map]
  constructor
  · rintro ⟨i, hi, rfl⟩
    rw [List.mem_range] at hi
    omega
  · rintro ⟨hfrom, hto⟩
    refine ⟨a - dest, List.mem_range.mpr (by omega), ?_⟩
    omega

namespace AcceptedCall

variable (call : AcceptedCall)

theorem newFile_ne_zero : call.newFile ≠ 0 := by
  intro hnull
  have haccepted := call.accepted
  rw [ramfsCreate, if_neg call.isDir, hnull] at haccepted
  split at haccepted
  · exact haccepted rfl
  · simp only [if_true] at haccepted
    split at haccepted <;> exact haccepted rfl

/-- The array has a block for the pointer. -/
theorem block_ne_zero (hfull : emptySlot call.mem call.root.privatePtr
      (call.root.size / 4) 0 = none)
    (hgrows : pagesOf call.root.size < pagesOf (call.root.size + 4)) :
    call.kmalloc (pagesOf (call.root.size + 4)) ≠ 0 := by
  intro hnull
  have haccepted := call.accepted
  have hroom := call.room
  have hword : (call.root.size + 4) % 2 ^ 32 = call.root.size + 4 :=
    Nat.mod_eq_of_lt (by omega)
  have hnewPages := (pagesOf_word (call.root.size + 4) (by omega)).1
  have holdPages := (pagesOf_word call.root.size (by omega)).2
  rw [ramfsCreate, if_neg call.isDir, hfull] at haccepted
  simp only [hword, ramfsResize, hnewPages, holdPages, hnull, if_true,
    if_neg (show ¬ call.root.size + 4 = call.root.size by omega), if_neg hgrows.ne] at haccepted
  exact haccepted rfl

/-- Wherever its pointer has gone, the page has the name and zeros behind it. -/
theorem linked (hname : call.component.length < nameLength) :
    ∃ mem slot, Linked mem call.component call.newFile slot call.created.mem := by
  have hblock := size_le_blockLength call.root
  have hroom := call.inMemory
  cases hempty : emptySlot call.mem call.root.privatePtr (call.root.size / 4) 0 with
  | some slot =>
      obtain ⟨-, hslot, -⟩ := emptySlot_some hempty
      have hapart : Apart call.newFile sizeofVfile (call.root.privatePtr + 4 * slot) 4 := by
        have htable := call.table (.inl (by rw [hempty]; exact Option.some_ne_none slot))
        rw [Apart] at htable ⊢
        rw [sizeofVfile]
        omega
      obtain ⟨-, -, hlinked⟩ := ramfsCreate_slot call.isDir rfl hname hempty
        call.newFile_ne_zero (by omega) hapart (Eq.refl call.created)
      exact ⟨_, _, hlinked⟩
  | none =>
      have hgrew := @ramfsResize_grew call.mem call.root (call.root.size + 4) call.kmalloc
        call.placed (by omega) call.room fun hpages =>
          (call.grows hpages (call.block_ne_zero hempty hpages)).1
      generalize hresized : ramfsResize call.mem call.root (call.root.size + 4)
        call.kmalloc = resized at hgrew
      have hlength := size_le_blockLength resized.file
      rw [hgrew.size] at hlength
      have hapart : Apart call.newFile sizeofVfile
          (resized.file.privatePtr + call.root.size) 4 := by
        have hnew : Apart call.newFile 4096 resized.file.privatePtr
            resized.file.blockLength := by
          rcases hgrew.place with ⟨hsame, hlen⟩ | ⟨hpages, hmoved, hlen⟩
          · rw [hsame, hlen]
            exact call.table (.inr (hgrew.pages_eq hlen))
          · rw [hmoved, hlen]
            exact (call.grows hpages (call.block_ne_zero hempty hpages)).2
        rw [Apart] at hnew ⊢
        rw [sizeofVfile]
        omega
      obtain ⟨-, -, hlinked⟩ := ramfsCreate_full call.isDir rfl hname hempty call.words
        call.room hresized.symm hgrew call.newFile_ne_zero (by omega) hapart
        (Eq.refl call.created)
      exact ⟨_, _, hlinked⟩

theorem nameFits_iff :
    NameFits call.created.mem call.component call.newFile ↔ call.component.length ≤ 75 := by
  constructor
  · intro hfits
    have hlast := hfits.inside (call.newFile + call.component.length)
      (mem_strcpyAddresses.mpr ⟨by omega, le_rfl⟩)
    rw [nameLength] at hlast
    omega
  · intro hshort
    have hname : call.component.length < nameLength := by
      rw [nameLength]
      omega
    obtain ⟨mem, slot, hlinked⟩ := call.linked hname
    refine ⟨?_, hlinked.holdsName, hlinked.zeros⟩
    intro a ha
    rw [mem_strcpyAddresses] at ha
    omega

end AcceptedCall

/-! ## Members of the archive -/

theorem length_firstComponent (path : CString) : (firstComponent path).length ≤ path.length :=
  List.Sublist.length_le (List.takeWhile_sublist _)

theorem length_cutSlash (path : CString) : (cutSlash path).length ≤ path.length := by
  rw [cutSlash]
  split
  · rw [List.length_dropLast]
    omega
  · exact le_rfl

theorem length_dropSlash_le (path : CString) : (dropSlash path).length ≤ path.length := by
  cases path with
  | nil => exact le_rfl
  | cons c path =>
      rw [dropSlash]
      split
      · exact Nat.le_succ _
      · exact le_rfl

/-- A component is no longer than the path. -/
theorem length_targetFrom {tree : Tree} {fuel parent dir : ℕ} {relpath name : CString}
    (htarget : tree.targetFrom fuel parent relpath = some (dir, name)) :
    name.length ≤ relpath.length := by
  induction fuel generalizing parent relpath with
  | zero => simp [Tree.targetFrom] at htarget
  | succ fuel ih =>
      have hcut := length_cutSlash (dropSlash relpath)
      have hdrop := length_dropSlash_le relpath
      have hfirst := length_firstComponent (cutSlash (dropSlash relpath))
      rw [Tree.targetFrom] at htarget
      split at htarget
      · simp only [Option.some.injEq, Prod.mk.injEq] at htarget
        rw [← htarget.2]
        omega
      · split at htarget
        next newParent hopen =>
          have hrest := ih htarget
          rw [List.length_drop] at hrest
          omega
        next => simp at htarget

/-- Behind `"/boot/"`, a component is no longer than the name of the member. -/
theorem length_target_boot {tree : Tree} {dir : ℕ} {filename name : CString}
    (htarget : tree.target (bootPrefix ++ filename) = some (dir, name)) :
    name.length ≤ filename.length := by
  have hcut : cutSlash (dropSlash (bootPrefix ++ filename)) =
        [0x62, 0x6f, 0x6f, 0x74] ∧ filename = [] ∨
      cutSlash (dropSlash (bootPrefix ++ filename)) =
        [0x62, 0x6f, 0x6f, 0x74] ++ slash :: cutSlash filename := by
    cases filename with
    | nil => exact Or.inl ⟨by decide, rfl⟩
    | cons c filename =>
        refine Or.inr ?_
        rw [bootPrefix, List.cons_append, dropSlash, if_pos rfl, cutSlash, cutSlash]
        have hlast : ([0x62, 0x6f, 0x6f, 0x74, slash] ++ c :: filename).getLast? =
            (c :: filename).getLast? := by
          rw [List.getLast?_append, List.getLast?_cons]
          rfl
        rw [hlast]
        split
        · rw [List.dropLast_append_of_ne_nil (by simp)]
          rfl
        · rfl
  have hboot : slash ∉ ([0x62, 0x6f, 0x6f, 0x74] : CString) := by decide
  have hlength : (dropSlash (bootPrefix ++ filename)).length = filename.length + 5 := by
    rw [bootPrefix, List.cons_append, dropSlash, if_pos rfl, List.length_append]
    exact Nat.add_comm _ _
  have hfirst : firstComponent (cutSlash (dropSlash (bootPrefix ++ filename))) =
      [0x62, 0x6f, 0x6f, 0x74] := by
    rcases hcut with ⟨hcut, -⟩ | hcut
    · rw [hcut, Tree.firstComponent_of_not_mem hboot]
    · rw [hcut, Tree.firstComponent_append hboot]
  have hrest : ((cutSlash (dropSlash (bootPrefix ++ filename))).drop 5).length ≤
      filename.length := by
    rcases hcut with ⟨hcut, -⟩ | hcut
    · rw [hcut]
      exact Nat.zero_le _
    · rw [hcut]
      exact length_cutSlash filename
  rw [Tree.target, Tree.targetFrom] at htarget
  simp only [hfirst, hlength] at htarget
  rw [if_neg (by simp)] at htarget
  split at htarget
  next newParent hopen => exact (length_targetFrom htarget).trans hrest
  next => simp at htarget

theorem memberFits_iff (member : Member) (finalFname : ℕ) :
    MemberFits member finalFname ↔ member.filename.length ≤ 73 := by
  have hprefix : bootPrefix.length = 6 := rfl
  constructor
  · intro hfits
    have hlast := hfits.inBuffer (finalFname + bootPrefix.length + member.filename.length)
      (mem_strcpyAddresses.mpr ⟨by omega, le_rfl⟩)
    rw [pathBufferLength] at hlast
    omega
  · intro hshort
    refine ⟨?_, ?_⟩
    · intro a ha
      rw [mem_strcpyAddresses] at ha
      rw [pathBufferLength]
      omega
    · intro tree dir call htarget
      have hlength := length_target_boot htarget
      exact call.nameFits_iff.mpr (by omega)

/-- The name of a new file stays in its field exactly if it has at most 75 bytes, and
that of a member of the archive in the buffers on its way exactly if it has at most
73. -/
theorem names_fit_iff (call : AcceptedCall) (archive : List UInt8) (ptr : ℕ)
    (fcreate : CString → Bool) (fuel offset finalFname : ℕ) :
    (NameFits call.created.mem call.component call.newFile ↔
      call.component.length ≤ 75) ∧
      ∀ member ∈ initrdMembers archive ptr fcreate fuel offset,
        (MemberFits member finalFname ↔ member.filename.length ≤ 73) :=
  ⟨call.nameFits_iff, fun member _ => memberFits_iff member finalFname⟩

/-- A new file in an empty directory. -/
def inEmptyDirectory (path : CString) : AcceptedCall where
  mem := fun _ => 0
  root := ⟨0, 0, fsFileIsDir⟩
  path := path
  flags := 0
  ramfsOps := 0xc0001000
  kmalloc := fun _ => 0xc0100000
  newFile := 0xc0200000
  isDir := by decide
  placed := ⟨by decide, fun _ => rfl, by decide⟩
  words := rfl
  room := by decide
  accepted := by
    have hname : (ramfsCreate (fun _ => 0) ⟨0, 0, fsFileIsDir⟩ path 0 0xc0001000
        (fun _ => 0xc0100000) 0xc0200000).returned = 0xc0200000 := rfl
    rw [hname]
    decide
  inMemory := by decide
  table := fun _ => .inr (by decide)
  grows := fun _ _ => ⟨⟨by decide, by decide, .inr (by decide)⟩, .inr (by decide)⟩

/-- The header of an empty member `a`. -/
def oneMember : List UInt8 :=
  0x61 :: (List.replicate 123 0 ++ List.replicate 11 0x30 ++ List.replicate 122 0 ++
    ustarMagic)

theorem names_fit_oneMember :
    NameFits (inEmptyDirectory [0x61]).created.mem [0x61] 0xc0200000 ∧
      MemberFits ⟨[0x61], 0xc0300200, 0⟩ 0xc0400000 := by
  obtain ⟨hcall, hmember⟩ := names_fit_iff (inEmptyDirectory [0x61]) oneMember 0xc0300000
    (fun _ => true) 1 0 0xc0400000
  have hfits := hmember ⟨[0x61], 0xc0300200, 0⟩ (by decide)
  exact ⟨hcall.mpr (by decide), hfits.mpr (by decide)⟩

/-- A name of 76 bytes leaves its field. -/
theorem long_name_leaves_its_field :
    ¬ NameFits (inEmptyDirectory (List.replicate 76 0x61)).created.mem
      (inEmptyDirectory (List.replicate 76 0x61)).component
      (inEmptyDirectory (List.replicate 76 0x61)).newFile := by
  rw [AcceptedCall.nameFits_iff]
  decide

end KimisOS.RamData
