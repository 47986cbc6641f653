import KimisOS.Fat32.Names

/-!
# Opening a path

`resolve_path` splits a path at the slashes and looks up one component after
the other, each in the directory that the last one named.  The first is looked
up in the root directory, whichever file the caller passes as the parent.
-/

namespace KimisOS.Fat32

open KimisOS.ByteStore

/-- What an open needs besides the mount record: the first cluster of the root
directory, and the bytes that a fresh buffer holds. -/
structure Root where
  rootDirCluster : ℕ
  stale : ℕ → UInt8

/-- `file_t` of the virtual file system, as far as the driver uses it. -/
structure VFile where
  flags : ℕ
  file : OpenFile

/-- Where the directory entry of an open file is. -/
def VFile.place (file : VFile) : ℕ × ℕ := (file.file.direntCluster, file.file.direntOffset)

/-! ## Reading a directory -/

/-- The first cluster of a directory; an entry without a name stands for the
root. -/
def Root.dirCluster (root : Root) (dirent : Dirent) : ℕ :=
  if dirent.name0 ≠ 0 then dirent.cluster else root.rootDirCluster

/-- `cluster_offset_start`, computed in 32 bits. -/
def Mount.clusterOffsetStart (mount : Mount) (cluster : ℕ) : ℕ :=
  (mount.dataStartSector +
      (cluster + 2 ^ 32 - 2) % 2 ^ 32 * mount.bpb.sectorsPerCluster) % 2 ^ 32 *
    mount.bpb.bytesPerSector % 2 ^ 32

/-- The loop of `fat32_read_dirent`, with the number of clusters for which the
buffer still has room. -/
def readDirentFrom : ℕ → Volume → (ℕ → UInt8) → ℕ → ℕ → Option (Volume × (ℕ → UInt8))
  | room, vol, buffer, cluster, clusterNumber =>
      if cluster < fat32EocMin then
        match room with
        | 0 => none
        | room + 1 =>
            let clusterSizeBytes := vol.mount.bpb.clusterSizeBytes
            let buffer := store buffer (clusterNumber * clusterSizeBytes % 2 ^ 32)
              (load vol.device (vol.mount.clusterOffsetStart cluster)) clusterSizeBytes
            let get := fat32GetNextCluster vol cluster
            readDirentFrom room get.1 buffer get.2 (clusterNumber + 1)
      else some (vol, buffer)

/-- `size_to_alloc`, the pages that `resolve_path` allocates for a directory. -/
def sizeToAlloc (dirent : Dirent) : ℕ :=
  let pages := if dirent.name0 ≠ 0 then (dirent.size + 4095) % 2 ^ 32 / 4096 else 8
  if pages = 0 then 8 else pages

/-- `fat32_read_dirent` into a fresh buffer of that many pages. -/
def fat32ReadDirent (root : Root) (vol : Volume) (dirent : Dirent) (pages : ℕ) :
    Option (Volume × (ℕ → UInt8)) :=
  readDirentFrom (pages * 4096 / vol.mount.bpb.clusterSizeBytes) vol root.stale
    (root.dirCluster dirent) 0

/-! ## The components of a path -/

/-- `path_tokens`, without the limit. -/
def splitPath : CString → List CString
  | [] => [[]]
  | c :: path =>
      if c = slash then [] :: splitPath path
      else
        match splitPath path with
        | [] => [[c]]
        | component :: components => (c :: component) :: components

def maxTokens : ℕ := 1024

/-- One slash in front of the path is left out. -/
def dropSlash : CString → CString
  | [] => []
  | c :: path => if c = slash then path else c :: path

/-- The components that are looked up. -/
def pathTokens (path : CString) : List CString :=
  (splitPath (dropSlash path)).take maxTokens

theorem splitPath_ne_nil (path : CString) : splitPath path ≠ [] := by
  cases path with
  | nil => simp [splitPath]
  | cons c path =>
      rw [splitPath]
      split
      · simp
      · split <;> simp

theorem pathTokens_ne_nil (path : CString) : pathTokens path ≠ [] := by
  rw [pathTokens, Ne, List.take_eq_nil_iff, not_or]
  exact ⟨by decide, splitPath_ne_nil _⟩

/-! ## The walk -/

/-- `last_parent_dir`, `parent_dir` and `dirent_index`. -/
structure Walk where
  lastParent : Dirent
  parent : Dirent
  direntIndex : ℕ

/-- The directory entries that are all zero. -/
def Dirent.zero : Dirent := ⟨0, 0, 0, 0⟩

def Walk.start : Walk := ⟨.zero, .zero, 0⟩

/-- One round of the walk: the entry of a component in the directory that the
walk has come to. -/
def lookup (root : Root) (vol : Volume) (parent : Dirent) (token : CString) :
    Option (Volume × Option (ℕ × Dirent)) :=
  match fat32ReadDirent root vol parent (sizeToAlloc parent) with
  | none => none
  | some (vol, dirData) =>
      match fat32SearchDir token dirData with
      | none => none
      | some none => some (vol, none)
      | some (some i) => some (vol, some (i, direntAt dirData i))

/-- The loop over the components; `some` volume and nothing when one is not
found. -/
def walkTokens (root : Root) : Volume → Walk → List CString →
    Option (Volume × Option Walk)
  | vol, walk, [] => some (vol, some walk)
  | vol, walk, token :: tokens =>
      match lookup root vol walk.parent token with
      | none => none
      | some (vol, none) => some (vol, none)
      | some (vol, some (i, dirent)) =>
          walkTokens root vol ⟨walk.parent, dirent, i⟩ tokens

/-- The file that `resolve_path` returns. -/
def Walk.openFile (root : Root) (walk : Walk) : OpenFile where
  firstCluster := walk.parent.cluster
  sizeBytes := walk.parent.size
  fileFlags := walk.parent.flags
  direntCluster := root.dirCluster walk.lastParent
  direntOffset := walk.direntIndex

/-- `resolve_path`.  The path is copied into one page. -/
def resolvePath (root : Root) (vol : Volume) (path : CString) :
    Option (Volume × Option OpenFile) :=
  if path = [] then some (vol, none)
  else if 4096 ≤ path.length then none
  else
    match walkTokens root vol .start (pathTokens path) with
    | none => none
    | some (vol, walk) => some (vol, walk.map (Walk.openFile root))

def translateFat32FlagsToVfile (flags : ℕ) : ℕ := flags &&& 0x37

/-- `fat32_open`.  Of the parent it uses the flags, and those only for the empty
path, which opens the root directory. -/
def fat32Open (root : Root) (vol : Volume) (path : CString) (parent : VFile) :
    Option (Volume × Option VFile) :=
  match resolvePath root vol path with
  | none => none
  | some (vol, some file) =>
      some (vol, some ⟨translateFat32FlagsToVfile file.fileFlags, file⟩)
  | some (vol, none) =>
      if path = [] then
        some (vol, some ⟨translateFat32FlagsToVfile parent.flags,
          { firstCluster := root.rootDirCluster
            sizeBytes := 0
            fileFlags := parent.flags
            direntCluster := 0
            direntOffset := 0 }⟩)
      else some (vol, none)

/-! ## Opens only read -/

/-- A volume after some entries of the table have been read. -/
inductive Accessed (base : Volume) : Volume → Prop where
  | refl : Accessed base base
  | get {vol : Volume} {index : ℕ} (hvol : Accessed base vol)
      (hindex : index < 2 ^ 28) : Accessed base (fat32GetNextCluster vol index).1

theorem Accessed.readDirentFrom {base vol read : Volume} {room cluster number : ℕ}
    {buffer dirData : ℕ → UInt8} (hvol : Accessed base vol)
    (hread : Fat32.readDirentFrom room vol buffer cluster number = some (read, dirData)) :
    Accessed base read := by
  induction room generalizing vol buffer cluster number with
  | zero =>
      unfold Fat32.readDirentFrom at hread
      split at hread
      · cases hread
      · obtain ⟨rfl, -⟩ := Prod.mk.inj (Option.some.inj hread)
        exact hvol
  | succ room ih =>
      unfold Fat32.readDirentFrom at hread
      split at hread
      · rename_i hlt
        have hindex : cluster < 2 ^ 28 := by
          unfold fat32EocMin at hlt
          omega
        exact ih (hvol.get hindex) hread
      · obtain ⟨rfl, -⟩ := Prod.mk.inj (Option.some.inj hread)
        exact hvol

theorem Accessed.lookup {root : Root} {base vol read : Volume} {parent : Dirent}
    {token : CString} {found : Option (ℕ × Dirent)} (hvol : Accessed base vol)
    (hlookup : Fat32.lookup root vol parent token = some (read, found)) :
    Accessed base read := by
  rw [Fat32.lookup] at hlookup
  split at hlookup
  · cases hlookup
  · rename_i next dirData hread
    have hnext : Accessed base next := hvol.readDirentFrom hread
    split at hlookup
    · cases hlookup
    · obtain ⟨rfl, -⟩ := Prod.mk.inj (Option.some.inj hlookup)
      exact hnext
    · obtain ⟨rfl, -⟩ := Prod.mk.inj (Option.some.inj hlookup)
      exact hnext

/-! ## Volumes with nothing to write back -/

/-- The cache holds nothing that the device does not. -/
structure Quiet (vol : Volume) : Prop where
  cache : CacheInv (2 ^ 28) vol
  settled : writtenBack vol = vol.device

/-- A quiet volume with the device of another. -/
structure Alike (base vol : Volume) : Prop where
  quiet : Quiet vol
  device : vol.device = base.device
  geometry : SameGeometry base vol

theorem Quiet.alike {vol : Volume} (hquiet : Quiet vol) : Alike vol vol :=
  ⟨hquiet, rfl, rfl, rfl, rfl, rfl⟩

/-- The value of an entry is read from the device. -/
theorem Quiet.fatEntry_eq {vol : Volume} (hquiet : Quiet vol) {index : ℕ}
    (hindex : index < 2 ^ 28) :
    fatEntry vol index = readU32 vol.device (entryOffset vol.mount index) := by
  rw [← hquiet.cache.readU32_writtenBack hindex, hquiet.settled]

theorem Quiet.cacheEntry {vol : Volume} (hquiet : Quiet vol) {index : ℕ}
    (hindex : index < 2 ^ 28) :
    Quiet (Fat32.cacheEntry vol index) ∧
      (Fat32.cacheEntry vol index).device = vol.device := by
  obtain ⟨hcache, -⟩ := hquiet.cache.cacheEntry hindex
  unfold Fat32.cacheEntry at hcache ⊢
  split
  · exact ⟨hquiet, rfl⟩
  · rename_i hout
    rw [if_neg hout] at hcache
    refine ⟨⟨hcache, ?_⟩, ?_⟩
    · rw [recacheFat32Table_eq, writtenBack, if_neg (by simp)]
    · rw [recacheFat32Table_eq]
      exact hquiet.settled

theorem Alike.get {base vol : Volume} (halike : Alike base vol) {index : ℕ}
    (hindex : index < 2 ^ 28) :
    Alike base (fat32GetNextCluster vol index).1 ∧
      (fat32GetNextCluster vol index).2 =
        readU32 base.device (entryOffset base.mount index) := by
  obtain ⟨hquiet, hdevice⟩ := halike.quiet.cacheEntry hindex
  obtain ⟨-, hvalue, -, hgeometry, -⟩ := halike.quiet.cache.get hindex
  have hsame := halike.geometry
  constructor
  · exact ⟨hquiet, hdevice.trans halike.device, hsame.trans hgeometry⟩
  · rw [hvalue, halike.quiet.fatEntry_eq hindex, halike.device, entryOffset, entryOffset,
      hsame.fatStartSector, hsame.bpb]

section Alike

variable {root : Root} {base vol vol' : Volume}

/-- Alike volumes give the same buffer. -/
theorem readDirentFrom_alike {room : ℕ} {buffer : ℕ → UInt8} {cluster number : ℕ}
    (halike : Alike base vol) (halike' : Alike base vol') :
    (∃ read read' dirData, readDirentFrom room vol buffer cluster number =
        some (read, dirData) ∧
      readDirentFrom room vol' buffer cluster number = some (read', dirData) ∧
      Alike base read ∧ Alike base read') ∨
    (readDirentFrom room vol buffer cluster number = none ∧
      readDirentFrom room vol' buffer cluster number = none) := by
  induction room generalizing vol vol' buffer cluster number with
  | zero =>
      unfold readDirentFrom
      by_cases hlt : cluster < fat32EocMin
      · rw [if_pos hlt, if_pos hlt]
        exact .inr ⟨rfl, rfl⟩
      · rw [if_neg hlt, if_neg hlt]
        exact .inl ⟨vol, vol', buffer, rfl, rfl, halike, halike'⟩
  | succ room ih =>
      unfold readDirentFrom
      by_cases hlt : cluster < fat32EocMin
      · have hindex : cluster < 2 ^ 28 := by
          unfold fat32EocMin at hlt
          omega
        obtain ⟨hget, hvalue⟩ := halike.get hindex
        obtain ⟨hget', hvalue'⟩ := halike'.get hindex
        have hoffset : vol.mount.clusterOffsetStart cluster =
            vol'.mount.clusterOffsetStart cluster := by
          rw [Mount.clusterOffsetStart, Mount.clusterOffsetStart,
            halike.geometry.dataStartSector, halike'.geometry.dataStartSector,
            halike.geometry.bpb, halike'.geometry.bpb]
        rw [if_pos hlt, if_pos hlt]
        dsimp only
        rw [hoffset, halike.device, halike'.device, halike.geometry.bpb,
          halike'.geometry.bpb, hvalue, hvalue']
        exact ih hget hget'
      · rw [if_neg hlt, if_neg hlt]
        exact .inl ⟨vol, vol', buffer, rfl, rfl, halike, halike'⟩

/-- A lookup in alike volumes has the same result. -/
theorem lookup_alike {parent : Dirent} {token : CString}
    (halike : Alike base vol) (halike' : Alike base vol') :
    (∃ read read' found, lookup root vol parent token = some (read, found) ∧
      lookup root vol' parent token = some (read', found) ∧
      Alike base read ∧ Alike base read') ∨
    (lookup root vol parent token = none ∧ lookup root vol' parent token = none) := by
  have hsize : vol.mount.bpb.clusterSizeBytes = vol'.mount.bpb.clusterSizeBytes := by
    rw [halike.geometry.bpb, halike'.geometry.bpb]
  have hread := @readDirentFrom_alike base vol vol'
    (sizeToAlloc parent * 4096 / vol'.mount.bpb.clusterSizeBytes) root.stale
    (root.dirCluster parent) 0 halike halike'
  rw [lookup, lookup, fat32ReadDirent, fat32ReadDirent, hsize]
  rcases hread with ⟨read, read', dirData, hread, hread', hnext, hnext'⟩ | ⟨hread, hread'⟩
  · rw [hread, hread']
    dsimp only
    cases hsearch : fat32SearchDir token dirData with
    | none => exact .inr ⟨rfl, rfl⟩
    | some found =>
        cases found with
        | none => exact .inl ⟨read, read', none, rfl, rfl, hnext, hnext'⟩
        | some i => exact .inl ⟨read, read', _, rfl, rfl, hnext, hnext'⟩
  · rw [hread, hread']
    exact .inr ⟨rfl, rfl⟩


theorem Alike.accessed (hquiet : Quiet base) (haccessed : Accessed base vol) :
    Alike base vol := by
  induction haccessed with
  | refl => exact hquiet.alike
  | get _ hindex ih => exact (ih.get hindex).1

end Alike

end KimisOS.Fat32
