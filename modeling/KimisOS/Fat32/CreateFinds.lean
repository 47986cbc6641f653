import KimisOS.Fat32.AttributeBits
import KimisOS.Fat32.ExtendDirectory
import KimisOS.Fat32.LongNames

/-!
# Finding what was created

`fat32_create` stores the entries of a new file behind those of the directory.
`fat32_search_dir` goes over the directory from its start, and finds the new short
entry when it comes to the long name in front of it and that long name ends there.
-/

namespace KimisOS.Fat32

open KimisOS.ByteStore

/-! ## The contents before and after -/

/-- The entries of a directory that has `count` of them, and none behind. -/
def entriesOf (buffer : ℕ → UInt8) (count : ℕ) : ℕ → UInt8 := fun k =>
  if k < 32 * count then buffer k else 0

def Directory.contents (directory : Directory) : ℕ → UInt8 :=
  entriesOf directory.buffer directory.entryCount

/-- The new contents of the directory, which is loaded as `directory` and has room as
`extended`. -/
def Directory.newContents (scratch : Scratch) (directory extended : Directory)
    (target : Target) (place flags : ℕ) : ℕ → UInt8 :=
  entriesOf
    (placeEntries extended.buffer place target.totalDirents
      (directory.newEntries scratch target flags))
    extended.entryCount

/-- The contents are what the call hands to `fat32_write`. -/
theorem writeDirectory_eq (scratch : Scratch) (directory extended : Directory)
    (file : OpenFile) (target : Target) (place flags : ℕ) :
    writeDirectory scratch extended file target (directory.slot scratch target) place flags =
      fat32Write scratch.malloc extended.vol file
        (placeEntries extended.buffer place target.totalDirents
          (directory.newEntries scratch target flags))
        0 (extended.vol.mount.bpb.clusterSizeBytes * extended.clusterCount % 2 ^ 32) :=
  rfl

/-! ## The law and its condition -/

/-- The new file, with its short entry at `entry`, is found there with the flags that
were asked for, and the other names are found where they were. -/
structure FoundWhereStored (dirData dirData' : ℕ → UInt8) (name : CString)
    (short : ℕ → UInt8) (flags entry : ℕ) : Prop where
  found : fat32SearchDir name dirData' = some (some entry)
  stored : ∀ k < 32, dirData' (32 * entry + k) = short k
  attributes : (direntAt dirData' entry).flags &&& 0x37 = flags
  others : ∀ path : CString, (∀ c ∈ path, c ≠ 0) → ∀ i,
    fat32SearchDir path dirData = some (some i) → fat32SearchDir path dirData' = some (some i)

/-- From entry `i` on, the search comes to entry `place`: no long name in front of it
goes on up to it. -/
inductive ComesTo (dirData : ℕ → UInt8) (place : ℕ) : ℕ → Prop where
  | here : ComesTo dirData place place
  | next {i entry : ℕ} {filename : ℕ → UInt8} (hlt : i < place)
      (hat : nameAt dirData i = some (filename, entry))
      (hrest : ComesTo dirData place (entry + 1)) : ComesTo dirData place i

/-- The entries in front of the first one that has never been used. -/
def Directory.usedEntries (directory : Directory) : ℕ :=
  (List.range directory.entryCount).findIdx fun i => directory.buffer (32 * i) == 0

/-- The entries of the directory with one more cluster. -/
def Directory.extendedCount (directory : Directory) : ℕ :=
  directory.vol.mount.bpb.clusterSizeBytes * (directory.clusterCount + 1) % 2 ^ 32 / 32

/-- The search comes to the first free entry before it gives up, the entries of the new
file fit there or with one more cluster, and of its flags the short entry gets all, and
none that marks a long name. -/
structure StoredInReach (directory : Directory) (target : Target) (flags : ℕ) : Prop where
  comesTo : ComesTo directory.contents directory.usedEntries 0
  early : directory.usedEntries < 65536
  room : directory.usedEntries + target.totalDirents ≤ directory.entryCount ∨
    directory.usedEntries + target.totalDirents ≤ directory.extendedCount
  plain : flags &&& 0x17 = 0

/-! ## Where the entries go -/

section Place

variable {scratch : Scratch} {directory extended : Directory} {target : Target}
  {vol : Volume} {place flags : ℕ}

/-- Every entry that the search for free ones has passed is used. -/
theorem searchSlot_used {first : ℕ → UInt8} {count total i rounds : ℕ} {initial : UInt8}
    {slot : Slot} (htotal : 0 < total) (hslot : slot.found = false)
    (hrounds : count ≤ i + rounds) {j : ℕ} (hij : i ≤ j)
    (hj : j < if (searchSlot first count total initial rounds i slot).found then
      (searchSlot first count total initial rounds i slot).freeIndex else count) :
    first j ≠ 0 := by
  induction rounds generalizing i slot with
  | zero =>
      rw [searchSlot, hslot] at hj
      simp only [Bool.false_eq_true, if_false] at hj
      omega
  | succ rounds ih =>
      rw [searchSlot] at hj
      by_cases hi : count ≤ i
      · rw [if_pos hi, hslot] at hj
        simp only [Bool.false_eq_true, if_false] at hj
        omega
      · rw [if_neg hi, probe_eq htotal (by omega)] at hj
        dsimp only at hj
        by_cases hfree : first i = 0
        · rw [if_pos hfree] at hj
          simp only [if_true] at hj
          omega
        · rw [if_neg hfree] at hj
          rcases Nat.eq_or_lt_of_le hij with rfl | hlt
          · exact hfree
          · exact ih (decide_eq_false hfree) (by omega) hlt hj

/-- The entries go behind the used ones, and the used ones are kept. -/
structure BehindUsed (directory extended : Directory) (place : ℕ) : Prop where
  inside : place ≤ directory.entryCount
  used : ∀ i < place, directory.buffer (32 * i) ≠ 0
  unused : place < directory.entryCount → directory.buffer (32 * place) = 0
  kept : ∀ k < 32 * directory.entryCount, extended.buffer k = directory.buffer k

theorem extendDirectory_kept
    (hextend : (extendDirectory scratch directory).2 = some extended) {k : ℕ}
    (hk : k < 32 * directory.entryCount) : extended.buffer k = directory.buffer k := by
  have hle : 32 * directory.entryCount ≤
      directory.clusterCount * directory.vol.mount.bpb.clusterSizeBytes := by
    rw [Directory.entryCount, Nat.mul_comm directory.clusterCount]
    exact (Nat.mul_div_le _ _).trans (Nat.mod_le _ _)
  have hless : directory.clusterCount * directory.vol.mount.bpb.clusterSizeBytes ≤
      32 * (directory.vol.mount.bpb.clusterSizeBytes * (directory.clusterCount + 1)) := by
    rw [Nat.mul_succ, Nat.mul_comm directory.clusterCount]
    omega
  have hfree : (fat32GetFreeCluster directory.vol).2 ≠ 0 := by
    intro hfull
    rw [extendDirectory] at hextend
    dsimp only at hextend
    rw [if_pos hfull] at hextend
    cases hextend
  obtain ⟨vol', hmade⟩ := @extendDirectory_eq scratch directory hfree
  rw [hmade] at hextend
  rw [← Option.some.inj hextend]
  have hinside : store scratch.extended 0 directory.buffer
      (directory.clusterCount * directory.vol.mount.bpb.clusterSizeBytes) (0 + k) =
        directory.buffer k := store_inside (by omega)
  rw [Nat.zero_add] at hinside
  dsimp only
  rw [store_outside (by omega), hinside]

theorem makeRoom_behindUsed
    (hroom : makeRoom scratch directory (directory.slot scratch target) target.totalDirents =
      (vol, some (extended, place))) : BehindUsed directory extended place := by
  have htotal : 0 < target.totalDirents := Nat.succ_pos _
  have hused : ∀ i, i < (if (directory.slot scratch target).found then
      (directory.slot scratch target).freeIndex else directory.entryCount) →
        directory.buffer (32 * i) ≠ 0 :=
    fun i hi => @searchSlot_used (fun j => directory.buffer (32 * j)) _ _ 0 _ _ _ htotal rfl
      (by omega) i (Nat.zero_le i) hi
  have hfree : (directory.slot scratch target).found = true →
      (directory.slot scratch target).freeIndex < directory.entryCount ∧
        directory.buffer (32 * (directory.slot scratch target).freeIndex) = 0 :=
    fun hfound => searchSlot_found htotal rfl hfound
  rw [makeRoom] at hroom
  dsimp only at hroom
  split at hroom
  case isTrue =>
    obtain ⟨more, hextend, heq⟩ := Option.map_eq_some_iff.mp (Prod.mk.inj hroom).2
    obtain ⟨rfl, rfl⟩ := Prod.mk.inj heq
    cases hfound : (directory.slot scratch target).found with
    | true =>
        rw [hfound] at hused
        obtain ⟨hlt, hzero⟩ := hfree hfound
        exact ⟨hlt.le, hused, fun _ => hzero, fun k hk => extendDirectory_kept hextend hk⟩
    | false =>
        rw [hfound] at hused
        exact ⟨le_rfl, hused, fun hlt => absurd hlt (lt_irrefl _),
          fun k hk => extendDirectory_kept hextend hk⟩
  case isFalse hfits =>
    obtain ⟨rfl, rfl⟩ := Prod.mk.inj (Option.some.inj (Prod.mk.inj hroom).2)
    have hfound : (directory.slot scratch target).found = true :=
      Bool.eq_true_of_not_eq_false fun h => hfits (.inl h)
    rw [hfound] at hused
    obtain ⟨hlt, hzero⟩ := hfree hfound
    exact ⟨hlt.le, hused, fun _ => hzero, fun _ _ => rfl⟩

theorem fat32GetNextCluster_bpb (vol : Volume) (index : ℕ) :
    (fat32GetNextCluster vol index).1.mount.bpb = vol.mount.bpb := by
  rw [fat32GetNextCluster, cacheEntry]
  dsimp only
  split
  · rfl
  · rfl

theorem fat32SetNextCluster_bpb (vol : Volume) (index value : ℕ) :
    (fat32SetNextCluster vol index value).mount.bpb = vol.mount.bpb := by
  rw [fat32SetNextCluster, cacheEntry]
  dsimp only
  split
  · rfl
  · rfl

theorem fat32GetFreeCluster_bpb (vol : Volume) :
    (fat32GetFreeCluster vol).1.mount.bpb = vol.mount.bpb := by
  have hloop : ∀ rounds vol i, (findFreeCluster rounds vol i).1.mount.bpb = vol.mount.bpb := by
    intro rounds
    induction rounds with
    | zero => exact fun _ _ => rfl
    | succ rounds ih =>
        intro vol i
        rw [findFreeCluster]
        dsimp only
        split
        · exact fat32GetNextCluster_bpb vol i
        · exact (ih _ _).trans (fat32GetNextCluster_bpb vol i)
  rw [fat32GetFreeCluster]
  exact hloop _ _ _

theorem extendDirectory_count
    (hextend : (extendDirectory scratch directory).2 = some extended) :
    extended.entryCount = directory.extendedCount := by
  rw [extendDirectory] at hextend
  dsimp only at hextend
  split at hextend
  case isTrue => cases hextend
  case isFalse =>
    rw [← Option.some.inj hextend, Directory.entryCount, Directory.extendedCount]
    dsimp only
    rw [fat32SetNextCluster_bpb, fat32SetNextCluster_bpb, fat32GetFreeCluster_bpb]

/-- Whether the entries fit where they go. -/
theorem makeRoom_room
    (hroom : makeRoom scratch directory (directory.slot scratch target) target.totalDirents =
      (vol, some (extended, place))) (hname : target.name.length ≤ 255) :
    place + target.totalDirents ≤ extended.entryCount ↔
      place + target.totalDirents ≤ directory.entryCount ∨
        place + target.totalDirents ≤ directory.extendedCount := by
  have htotal : 0 < target.totalDirents ∧ target.totalDirents ≤ 21 := by
    rw [Target.totalDirents]
    omega
  have hcount : directory.entryCount < 2 ^ 27 := by
    rw [Directory.entryCount]
    omega
  rw [makeRoom] at hroom
  dsimp only at hroom
  split at hroom
  case isTrue hlacks =>
    obtain ⟨more, hextend, heq⟩ := Option.map_eq_some_iff.mp (Prod.mk.inj hroom).2
    obtain ⟨rfl, hplace⟩ := Prod.mk.inj heq
    have hover : directory.entryCount < place + target.totalDirents := by
      rw [← hplace]
      split
      case isTrue hfound =>
        rcases hlacks with hnone | hless
        · exact absurd (hnone.symm.trans hfound) (by decide)
        · exact hless.trans_le (Nat.mod_le _ _)
      case isFalse => omega
    rw [extendDirectory_count hextend]
    omega
  case isFalse hfits =>
    obtain ⟨rfl, rfl⟩ := Prod.mk.inj (Option.some.inj (Prod.mk.inj hroom).2)
    have hfound : (directory.slot scratch target).found = true :=
      Bool.eq_true_of_not_eq_false fun h => hfits (.inl h)
    obtain ⟨hlt, -⟩ : (directory.slot scratch target).freeIndex < directory.entryCount ∧
        directory.buffer (32 * (directory.slot scratch target).freeIndex) = 0 :=
      searchSlot_found htotal.1 rfl hfound
    have hinside : (directory.slot scratch target).freeIndex + target.totalDirents ≤
        directory.entryCount := by
      by_contra hover
      apply hfits
      right
      rw [Nat.mod_eq_of_lt (by omega)]
      omega
    exact iff_of_true hinside (.inl hinside)

/-- The entries go to the first one that has never been used, or behind all. -/
theorem BehindUsed.place_eq (hbehind : BehindUsed directory extended place) :
    directory.usedEntries = place := by
  have hlength : (List.range directory.entryCount).length = directory.entryCount :=
    List.length_range
  rcases Nat.eq_or_lt_of_le hbehind.inside with heq | hlt
  · rw [Directory.usedEntries, List.findIdx_eq_length_of_false, hlength, heq]
    intro i hi
    exact beq_eq_false_iff_ne.mpr (hbehind.used i (heq ▸ List.mem_range.mp hi))
  · refine (List.findIdx_eq (hlt.trans_eq hlength.symm)).mpr ⟨?_, ?_⟩
    · rw [List.getElem_range]
      exact beq_iff_eq.mpr (hbehind.unused hlt)
    · intro i hi
      rw [List.getElem_range]
      exact beq_eq_false_iff_ne.mpr (hbehind.used i hi)

end Place

/-! ## Both contents up to the new entries -/

/-- Entries stored where the used ones end. -/
structure Appends (dirData dirData' : ℕ → UInt8) (place total : ℕ)
    (entry : ℕ → ℕ → UInt8) : Prop where
  used : ∀ i < place, (direntAt dirData i).name0 ≠ 0
  unused : (direntAt dirData place).name0 = 0
  before : ∀ k < 32 * place, dirData' k = dirData k
  entries : ∀ i < total, ∀ k < 32, dirData' (32 * (place + i) + k) = entry i k

theorem BehindUsed.appends {scratch : Scratch} {directory extended : Directory}
    {target : Target} {place flags : ℕ} (hbehind : BehindUsed directory extended place)
    (hfits : place + target.totalDirents ≤ extended.entryCount) :
    Appends directory.contents (directory.newContents scratch extended target place flags)
      place target.totalDirents (directory.newEntries scratch target flags) := by
  have hinside := hbehind.inside
  constructor
  · intro i hi
    change entriesOf directory.buffer directory.entryCount (32 * i) ≠ 0
    rw [entriesOf, if_pos (by omega)]
    exact hbehind.used i hi
  · change entriesOf directory.buffer directory.entryCount (32 * place) = 0
    rw [entriesOf]
    split
    case isTrue hlt => exact hbehind.unused (by omega)
    case isFalse => rfl
  · intro k hk
    rw [Directory.newContents, Directory.contents, entriesOf, entriesOf, if_pos (by omega),
      if_pos (by omega), placeEntries, store_outside (by omega)]
    exact hbehind.kept k (by omega)
  · intro i hi k hk
    rw [Directory.newContents, entriesOf, if_pos (by omega), placeEntries, Nat.mul_add,
      Nat.add_assoc, store_inside (by omega), show (32 * i + k) / 32 = i by omega,
      show (32 * i + k) % 32 = k by omega]

section Before

variable {dirData dirData' : ℕ → UInt8} {filename built : ℕ → UInt8} {i j rounds : ℕ}
  {path : CString}

/-- A name that ends at entry `j` does not depend on what is behind that entry. -/
theorem buildLong_before (hsame : ∀ k < 32 * (j + 1), dirData' k = dirData k)
    (hbuilt : buildLong dirData rounds filename i = some (built, j)) :
    buildLong dirData' rounds filename i = some (built, j) := by
  induction rounds generalizing filename i with
  | zero => cases hbuilt
  | succ rounds ih =>
      have hle := (buildLong_runEnds hbuilt).1
      have hentry : ∀ k < 32, dirData' (32 * i + k) = dirData (32 * i + k) :=
        fun k hk => hsame _ (by omega)
      have hgoes : GoesOn dirData' i ↔ GoesOn dirData i := by
        rw [GoesOn, GoesOn, direntAt_congr hentry]
      by_cases hon : GoesOn dirData i
      · rw [buildLong_goesOn hon] at hbuilt
        rw [buildLong_goesOn (hgoes.mpr hon), lfnStart_congr fun k hk _ => hentry k hk,
          lfnChars_congr fun k hk _ => hentry k hk]
        obtain ⟨stored, hput, hrest⟩ := Option.bind_eq_some_iff.mp hbuilt
        rw [hput, Option.bind_some]
        exact ih hrest
      · rw [buildLong_stop hon] at hbuilt
        rw [buildLong_stop fun h => hon (hgoes.mp h)]
        exact hbuilt

theorem nameAt_before (hsame : ∀ k < 32 * (j + 1), dirData' k = dirData k)
    (hat : nameAt dirData i = some (filename, j)) : nameAt dirData' i = some (filename, j) := by
  have hle := nameAt_le hat
  have hentry : ∀ k < 32, dirData' (32 * i + k) = dirData (32 * i + k) :=
    fun k hk => hsame _ (by omega)
  have hdirent := direntAt_congr hentry
  by_cases hflags : (direntAt dirData i).flags = fat32LongFileName
  · rw [nameAt_long hflags] at hat
    rw [nameAt_long (by rw [hdirent, hflags])]
    exact buildLong_before hsame hat
  · rw [nameAt_short hflags] at hat
    rw [nameAt_short (by rwa [hdirent]), shortName_congr fun k hk => hentry k (by omega)]
    exact hat

end Before

section Search

variable {dirData dirData' : ℕ → UInt8} {place total i rounds : ℕ}
  {entry : ℕ → ℕ → UInt8} {path name : CString}

theorem ComesTo.le (hcomes : ComesTo dirData place i) : i ≤ place := by
  cases hcomes with
  | here => exact le_rfl
  | next hlt => exact hlt.le

theorem Appends.name0_before (happends : Appends dirData dirData' place total entry)
    (hi : i < place) : (direntAt dirData' i).name0 ≠ 0 := by
  change dirData' (32 * i) ≠ 0
  rw [happends.before _ (by omega)]
  exact happends.used i hi

/-- A search either ends in front of the new entries, in both contents alike, or comes to
them. -/
theorem ComesTo.search (hcomes : ComesTo dirData place i)
    (happends : Appends dirData dirData' place total entry) (hearly : place < 65536)
    (hrounds : 65536 ≤ i + rounds) :
    ∃ later, 65536 ≤ place + later ∧ ∀ path,
      (searchFrom path dirData rounds i ≠ some none ∧
          searchFrom path dirData' rounds i = searchFrom path dirData rounds i) ∨
        (searchFrom path dirData rounds i = some none ∧
          searchFrom path dirData' rounds i = searchFrom path dirData' later place) := by
  induction hcomes generalizing rounds with
  | here => exact ⟨rounds, hrounds, fun path => .inr ⟨searchFrom_end happends.unused, rfl⟩⟩
  | @next i last filename hlt hat hrest ih =>
      obtain ⟨rounds, rfl⟩ : ∃ more, rounds = more + 1 := ⟨rounds - 1, by omega⟩
      have hle := nameAt_le hat
      have hinside := hrest.le
      obtain ⟨later, hlater, hboth⟩ := @ih rounds (by omega)
      refine ⟨later, hlater, ?_⟩
      intro path
      have hat' : nameAt dirData' i = some (filename, last) :=
        nameAt_before (fun k hk => happends.before k (by omega)) hat
      rw [searchFrom_next (happends.used i hlt) (by omega) hat,
        searchFrom_next (happends.name0_before hlt) (by omega) hat']
      cases equalsName filename path 0 with
      | none => exact .inl ⟨by simp, rfl⟩
      | some equal =>
          rw [Option.bind_some, Option.bind_some]
          cases equal with
          | true => exact .inl ⟨by simp, rfl⟩
          | false => exact hboth path

end Search

/-! ## The new entries -/

section Stored

variable {dirData dirData' sfn stale : ℕ → UInt8} {place flags : ℕ} {name : CString}

/-- The contents with the entries of a new file. -/
def AppendsName (dirData dirData' : ℕ → UInt8) (place : ℕ) (name : CString)
    (sfn stale : ℕ → UInt8) (flags : ℕ) : Prop :=
  Appends dirData dirData' place (lfnCount name + 1)
    (newEntry name sfn stale flags (lfnCount name + 1))

theorem AppendsName.short (happends : AppendsName dirData dirData' place name sfn stale flags) :
    ∀ k < 32, dirData' (32 * (place + lfnCount name) + k) =
      shortEntry (load stale (32 * lfnCount name)) sfn flags k := by
  intro k hk
  have hentry := happends.entries (lfnCount name) (Nat.lt_succ_self _) k hk
  rwa [newEntry, if_pos rfl] at hentry

theorem AppendsName.shortFlags
    (happends : AppendsName dirData dirData' place name sfn stale flags) :
    (direntAt dirData' (place + lfnCount name)).flags = flags &&& 0x2f := by
  have hle : flags &&& 0x2f ≤ 0x2f := Nat.and_le_right
  change (dirData' (32 * (place + lfnCount name) + 11)).toNat = _
  rw [happends.short 11 (by decide)]
  change (UInt8.ofNat (flags &&& 0x2f)).toNat = _
  rw [UInt8.toNat_ofNat']
  exact Nat.mod_eq_of_lt (by omega)

/-- The loop over the long name goes on at its first entry. -/
theorem AppendsName.goesOn (happends : AppendsName dirData dirData' place name sfn stale flags)
    {i : ℕ} (hi : i < lfnCount name) (hlength : name.length ≤ 255) :
    GoesOn dirData' (place + i) ∧ (direntAt dirData' (place + i)).flags = fat32LongFileName := by
  have hlong : HoldsLong dirData' place name sfn stale flags :=
    fun j hj k hk => happends.entries j (by omega) k hk
  have hpiece := hlong.piece (show lfnCount name - (i + 1) < lfnCount name by omega)
  rw [show lfnCount name - (lfnCount name - (i + 1) + 1) = i by omega] at hpiece
  have hbound : lfnCount name - (i + 1) < 63 := by
    unfold lfnCount
    omega
  refine ⟨⟨?_, (hpiece.number hbound).1⟩, hpiece.flags⟩
  rw [hpiece.flags]
  decide

theorem lfnCount_pos (hname : 1 ≤ name.length) : 0 < lfnCount name := by
  rw [lfnCount]
  omega

/-- Of the five flags only IS_DIR gets lost, and the low ones mark a long name. -/
theorem flags_stored : ∀ flags < 64, flags &&& 0x37 = flags →
    ((flags &&& 0x2f) &&& 0x37 = flags ∧ (flags &&& 0x2f) &&& 0xf = 0 ↔
      flags &&& 0x17 = 0) ∧ flags &&& 0x2f ≠ fat32LongFileName := by
  decide

/-- A search that comes to the new entries finds the new file. -/
theorem AppendsName.found (happends : AppendsName dirData dirData' place name sfn stale flags)
    (hname : 1 ≤ name.length ∧ name.length ≤ 255) (hchars : ∀ c ∈ name, c ≠ 0 ∧ c < 0x80)
    (hearly : place < 65536) (hplain : (flags &&& 0x2f) &&& 0xf = 0) {later : ℕ}
    (hlater : 65536 ≤ place + later) :
    searchFrom name dirData' later place = some (some (place + lfnCount name)) := by
  obtain ⟨later, rfl⟩ : ∃ more, later = more + 1 := ⟨later - 1, by omega⟩
  obtain ⟨hgoes, hflags⟩ := happends.goesOn (lfnCount_pos hname.1) hname.2
  rw [Nat.add_zero] at hgoes hflags
  have hlong : HoldsLong dirData' place name sfn stale flags :=
    fun j hj k hk => happends.entries j (by omega) k hk
  have hnonzero : ∀ c ∈ name, c ≠ 0 := fun c hc => (hchars c hc).1
  have hat : nameAt dirData' place = some (stringBytes name, place + lfnCount name) := by
    rw [nameAt, if_pos hflags]
    exact hlong.build hname hchars (by rwa [happends.shortFlags])
  rw [searchFrom_round hgoes.2 hearly hat (spells_stringBytes hname.2 hnonzero) hnonzero,
    if_pos rfl]

end Stored

/-! ## Where a search ends -/

section Ends

variable {dirData dirData' : ℕ → UInt8} {filename : ℕ → UInt8} {i j last rounds : ℕ}
  {path name : CString}

/-- Behind an entry of a long name nothing is found at an entry that the long name goes
on with. -/
theorem searchFrom_stops (hfound : searchFrom path dirData rounds i = some (some (j + 1)))
    (hij : i ≤ j) (hbefore : GoesOn dirData j)
    (hlong : (direntAt dirData j).flags = fat32LongFileName) : ¬GoesOn dirData (j + 1) := by
  induction rounds generalizing i with
  | zero => cases hfound
  | succ rounds ih =>
      obtain ⟨filename, last, hat, hlast⟩ := searchFrom_inv hfound
      rcases nameAt_stops hat with ⟨⟨hle, -, hstop⟩, -⟩ | ⟨rfl, hshort⟩
      · rcases hlast with rfl | hrest
        · exact hstop
        · have hge := searchFrom_ge hrest
          have hne : last ≠ j := fun heq => hstop (heq ▸ hbefore)
          exact ih hrest (by omega)
      · rcases hlast with heq | hrest
        · omega
        · have hne : last ≠ j := fun heq => hshort (heq ▸ hlong)
          exact ih hrest (by omega)

end Ends

/-! ## When the search comes to the new entries -/

section Distinct

variable {dirData dirData' : ℕ → UInt8} {place total i rounds : ℕ} {seen : List CString}
  {entry : ℕ → ℕ → UInt8} {name : CString}

/-- A name that ended at the first free entry goes on there now, and is not found there. -/
theorem Appends.not_at_place (happends : Appends dirData dirData' place total entry)
    (hon : GoesOn dirData' place) (hlt : i < place) {filename : ℕ → UInt8} {path : CString}
    (hat : nameAt dirData i = some (filename, place)) :
    searchFrom path dirData' (rounds + 1) i ≠ some (some place) := by
  intro hfound
  have hsame : ∀ k < place, direntAt dirData' k = direntAt dirData k :=
    fun k hk => direntAt_congr fun b hb => happends.before _ (by omega)
  obtain ⟨⟨-, hgoes, -⟩, hlong⟩ := (nameAt_stops hat).resolve_right fun h => by omega
  obtain ⟨filename', last, hat', hlast⟩ := searchFrom_inv hfound
  have hle := nameAt_le hat'
  rcases nameAt_stops hat' with ⟨⟨-, -, hstop⟩, -⟩ | ⟨-, hshort⟩
  · rcases Nat.lt_trichotomy last place with hsmall | rfl | hlarge
    · apply hstop
      rw [GoesOn, hsame last hsmall]
      exact hgoes last hle hsmall
    · exact hstop hon
    · rcases hlast with rfl | hrest
      · exact lt_irrefl _ hlarge
      · have hge := searchFrom_ge hrest
        omega
  · rw [hsame i hlt] at hshort
    exact hshort hlong

/-- When the names differ, the new one is found, and the others where they were, the
search comes to the new entries. -/
theorem DistinctFrom.comesTo (hdistinct : DistinctFrom dirData seen i)
    (happends : Appends dirData dirData' place total entry) (hon : GoesOn dirData' place)
    (hname : ∀ c ∈ name, c ≠ 0) (hi : i ≤ place) (hrounds : 65536 ≤ i + rounds)
    (hnone : searchFrom name dirData rounds i = some none) {found : ℕ}
    (hfound : searchFrom name dirData' rounds i = some (some found))
    (hothers : ∀ path : CString, (∀ c ∈ path, c ≠ 0) → path ∉ seen → ∀ j,
      searchFrom path dirData rounds i = some (some j) →
        searchFrom path dirData' rounds i = some (some j)) :
    ComesTo dirData place i ∧ place < 65536 := by
  induction hdistinct generalizing rounds with
  | @last seen i hend =>
      have hearly : i < 65536 := by
        by_contra hlate
        rw [searchFrom_late (by omega)] at hfound
        cases hfound
      have hzero := hend.resolve_right (by omega)
      obtain rfl : i = place := by
        by_contra hne
        exact happends.used i (by omega) hzero
      exact ⟨.here, hearly⟩
  | @next seen i last filename nm hused hlt hat hspells hnew hrest ih =>
      obtain ⟨rounds, rfl⟩ : ∃ more, rounds = more + 1 := ⟨rounds - 1, by omega⟩
      have hless : i < place := by
        by_contra hle
        obtain rfl : i = place := by omega
        exact hused happends.unused
      have hle := nameAt_le hat
      have hinside : last ≤ place := by
        rcases nameAt_stops hat with ⟨⟨-, hgoes, -⟩, -⟩ | ⟨rfl, -⟩
        · by_contra hover
          exact (hgoes place hi (by omega)).2 happends.unused
        · exact hi
      rcases Nat.eq_or_lt_of_le hinside with rfl | hbefore
      · refine absurd (hothers nm hspells.nonzero hnew last ?_)
          (happends.not_at_place hon hless hat)
        rw [searchFrom_round hused hlt hat hspells hspells.nonzero, if_pos rfl]
      · have hat' : nameAt dirData' i = some (filename, last) :=
          nameAt_before (fun k hk => happends.before k (by omega)) hat
        have hused' := happends.name0_before hless
        rw [searchFrom_round hused hlt hat hspells hname] at hnone
        have hne : name ≠ nm := by
          rintro rfl
          rw [if_pos rfl] at hnone
          cases hnone
        rw [if_neg hne] at hnone
        rw [searchFrom_round hused' hlt hat' hspells hname, if_neg hne] at hfound
        obtain ⟨hcomes, hearly⟩ := @ih rounds hbefore (by omega) hnone hfound (by
          intro path hpath hunseen j hj
          obtain ⟨hother, hold⟩ := not_or.mp fun h => hunseen (List.mem_cons.mpr h)
          have hboth := hothers path hpath hold j
          rw [searchFrom_round hused hlt hat hspells hpath, if_neg hother,
            searchFrom_round hused' hlt hat' hspells hpath, if_neg hother] at hboth
          exact hboth hj)
        exact ⟨.next hless hat hcomes, hearly⟩

end Distinct

/-! ## The call -/

section Call

variable {root : Root} {scratch : Scratch} {rounds : ℕ} {vol : Volume} {parent : VFile}
  {path : CString} {flags : ℕ} {target : Target} {made : Created}

/-- A call that returns a file has loaded the directory and made room for the entries. -/
theorem fat32Create_stores
    (hcreate : fat32Create root scratch rounds vol parent path flags = some made)
    (hfile : made.file ≠ none) (htarget : Fat32.target path = some target) :
    ∃ opened directory vol₁ loaded vol₂ extended place,
      Reaches root scratch vol parent path target opened directory ∧
      loadDirectory scratch rounds opened directory.file = some (vol₁, some loaded) ∧
      makeRoom scratch loaded (loaded.slot scratch target) target.totalDirents =
        (vol₂, some (extended, place)) := by
  rw [fat32Create] at hcreate
  cases hentries : createEntries root scratch rounds vol parent path flags with
  | none =>
      rw [hentries] at hcreate
      cases hcreate
  | some result =>
      obtain ⟨vol', file', stored⟩ := result
      rw [hentries] at hcreate
      cases stored with
      | none =>
          obtain rfl := Option.some.inj hcreate
          exact absurd rfl hfile
      | some target' =>
          by_cases hsome : ∃ target opened directory,
              Reaches root scratch vol parent path target opened directory
          · obtain ⟨other, opened, directory, hreaches⟩ := hsome
            obtain rfl := Option.some.inj (htarget.symm.trans hreaches.targetOf)
            rw [hreaches.createEntries_eq] at hentries
            obtain ⟨⟨volₘ, fileₘ, made⟩, hmade, heq⟩ := Option.map_eq_some_iff.mp hentries
            cases made with
            | false => cases (Prod.mk.inj (Prod.mk.inj heq).2).2
            | true =>
                obtain ⟨vol₁, loaded, vol₂, extended, place, hload, hroom, -⟩ :=
                  createIn_made hmade
                exact ⟨opened, directory, vol₁, loaded, vol₂, extended, place, hreaches, hload,
                  hroom⟩
          · push Not at hsome
            cases (createEntries_early .refl hsome hentries).1

end Call

/-! ## The law holds exactly in reach -/

section Law

variable {scratch : Scratch} {directory extended : Directory} {target : Target}
  {vol : Volume} {place flags : ℕ}

/-- The new file is found in the new contents of the directory, and the others are. -/
def Directory.Finds (scratch : Scratch) (directory extended : Directory) (target : Target)
    (place flags : ℕ) : Prop :=
  FoundWhereStored directory.contents
    (directory.newContents scratch extended target place flags) target.name
    (directory.newEntries scratch target flags (lfnCount target.name)) flags
    (place + lfnCount target.name)

theorem BehindUsed.appendsName (hbehind : BehindUsed directory extended place)
    (hfits : place + target.totalDirents ≤ extended.entryCount) :
    AppendsName directory.contents
      (directory.newContents scratch extended target place flags) place target.name
      (shortFilename scratch.stack (target.bytes scratch.truncPath) target.name
        (directory.slot scratch target).shortFilenameMatches)
      scratch.dirents flags :=
  hbehind.appends hfits

/-- A short name starts with the first character of the name. -/
theorem newEntries_first (hname : 1 ≤ target.name.length) :
    directory.newEntries scratch target flags (lfnCount target.name) 0 =
      target.name.getD 0 0 := by
  have hsfn : directory.newEntries scratch target flags (lfnCount target.name) 0 =
      shortFilename scratch.stack (target.bytes scratch.truncPath) target.name
        (directory.slot scratch target).shortFilenameMatches 0 := by
    rw [Directory.newEntries, newEntry,
      if_pos (show lfnCount target.name + 1 = target.totalDirents from rfl)]
    rfl
  have hbytes : target.bytes scratch.truncPath 0 = target.name.getD 0 0 := by
    rw [Target.bytes]
    exact if_pos hname
  rw [hsfn, shortFilename, store_outside (by omega), store_outside (by omega)]
  exact (@store_inside _ 0 2 _ 0 (by decide)).trans hbytes

theorem StoredInReach.finds (hreach : StoredInReach directory target flags)
    (hroom : makeRoom scratch directory (directory.slot scratch target) target.totalDirents =
      (vol, some (extended, place)))
    (hname : 1 ≤ target.name.length ∧ target.name.length ≤ 255)
    (hchars : ∀ c ∈ target.name, c ≠ 0 ∧ c < 0x80) (hflags : flags &&& 0x37 = flags)
    (hnew : fat32SearchDir target.name directory.contents = some none) :
    directory.Finds scratch extended target place flags := by
  have hbehind := makeRoom_behindUsed hroom
  obtain ⟨hcomes, hearly, hfits, hplain⟩ := hreach
  rw [hbehind.place_eq] at hcomes hearly hfits
  have happends := @BehindUsed.appendsName scratch _ _ _ _ flags hbehind
    ((makeRoom_room hroom hname.2).mpr hfits)
  have hlt : flags < 64 := by
    have hle : flags &&& 0x37 ≤ 0x37 := Nat.and_le_right
    omega
  obtain ⟨hattributes, hlow⟩ := (flags_stored flags hlt hflags).1.mpr hplain
  obtain ⟨later, hlater, hsearch⟩ := hcomes.search happends hearly
    (show 65536 ≤ 0 + 65536 by omega)
  constructor
  · obtain ⟨hold, -⟩ | ⟨-, hhere⟩ := hsearch target.name
    · exact absurd hnew hold
    · rw [fat32SearchDir, hhere]
      exact happends.found hname hchars hearly hlow hlater
  · exact happends.entries (lfnCount target.name) (Nat.lt_succ_self _)
  · rw [happends.shortFlags]
    exact hattributes
  · intro path hpath i hfound
    obtain ⟨-, hsame⟩ | ⟨hnone, -⟩ := hsearch path
    · exact hsame.trans hfound
    · exact absurd (hfound.symm.trans hnone) (by simp)

/-- An entry that is found in the new contents got into the directory. -/
theorem Directory.Finds.room (hfinds : directory.Finds scratch extended target place flags)
    (hname : 1 ≤ target.name.length) (hchars : ∀ c ∈ target.name, c ≠ 0 ∧ c < 0x80) :
    place + target.totalDirents ≤ extended.entryCount := by
  by_contra hfits
  have hout : extended.entryCount ≤ place + lfnCount target.name := by
    rw [Target.totalDirents] at hfits
    rw [lfnCount]
    omega
  have hfirst := hfinds.stored 0 (by decide)
  rw [newEntries_first hname, Nat.add_zero, Directory.newContents, entriesOf,
    if_neg (by omega)] at hfirst
  have hmem := List.getElem_mem (show 0 < target.name.length from hname)
  rw [List.getD_eq_getElem _ _ hname] at hfirst
  exact (hchars _ hmem).1 hfirst.symm

theorem Directory.Finds.plain (hfinds : directory.Finds scratch extended target place flags)
    (hbehind : BehindUsed directory extended place)
    (hname : 1 ≤ target.name.length ∧ target.name.length ≤ 255)
    (hchars : ∀ c ∈ target.name, c ≠ 0 ∧ c < 0x80) (hflags : flags &&& 0x37 = flags) :
    flags &&& 0x17 = 0 := by
  have happends := @BehindUsed.appendsName scratch _ _ _ _ flags hbehind
    (hfinds.room hname.1 hchars)
  have hlt : flags < 64 := by
    have hle : flags &&& 0x37 ≤ 0x37 := Nat.and_le_right
    omega
  have hattributes := hfinds.attributes
  rw [happends.shortFlags] at hattributes
  refine (flags_stored flags hlt hflags).1.mp ⟨hattributes, ?_⟩
  by_contra hlow
  have hpos := lfnCount_pos hname.1
  obtain ⟨hon, hlong⟩ := happends.goesOn
    (show lfnCount target.name - 1 < lfnCount target.name by omega) hname.2
  have hshort : place + lfnCount target.name = place + (lfnCount target.name - 1) + 1 := by
    omega
  have hfound := hfinds.found
  rw [hshort] at hfound
  apply searchFrom_stops hfound (Nat.zero_le _) hon hlong
  rw [← hshort]
  refine ⟨by rwa [happends.shortFlags], ?_⟩
  have hfirst := hfinds.stored 0 (by decide)
  rw [newEntries_first hname.1, List.getD_eq_getElem _ _ hname.1, Nat.add_zero] at hfirst
  change directory.newContents scratch extended target place flags _ ≠ 0
  rw [hfirst]
  exact (hchars _ (List.getElem_mem hname.1)).1

theorem Directory.Finds.storedInReach
    (hfinds : directory.Finds scratch extended target place flags)
    (hroom : makeRoom scratch directory (directory.slot scratch target) target.totalDirents =
      (vol, some (extended, place)))
    (hname : 1 ≤ target.name.length ∧ target.name.length ≤ 255)
    (hchars : ∀ c ∈ target.name, c ≠ 0 ∧ c < 0x80) (hflags : flags &&& 0x37 = flags)
    (hnew : fat32SearchDir target.name directory.contents = some none)
    (hdistinct : DistinctNames directory.contents) :
    StoredInReach directory target flags := by
  have hbehind := makeRoom_behindUsed hroom
  have hfits := hfinds.room hname.1 hchars
  have happends := @BehindUsed.appendsName scratch _ _ _ _ flags hbehind hfits
  obtain ⟨hon, -⟩ := happends.goesOn (lfnCount_pos hname.1) hname.2
  rw [Nat.add_zero] at hon
  obtain ⟨hcomes, hearly⟩ := hdistinct.comesTo happends hon (fun c hc => (hchars c hc).1)
    (Nat.zero_le _) le_rfl hnew hfinds.found fun path hpath _ => hfinds.others path hpath
  rw [← hbehind.place_eq] at hcomes hearly
  refine ⟨hcomes, hearly, ?_, hfinds.plain hbehind hname hchars hflags⟩
  rw [hbehind.place_eq]
  exact (makeRoom_room hroom hname.2).mp hfits

end Law

/-- After every call that returns a file, with a name that was not in the directory, the new
file is found where its short entry was stored, with its flags, and every other name where
it was, when the entries are stored in reach; and, where no two entries had the same name,
only then. -/
theorem create_finds_iff (root : Root) (scratch : Scratch) (rounds : ℕ) (vol : Volume)
    (parent : VFile) (path : CString) (flags : ℕ) (target : Target) (made : Created)
    (hcreate : fat32Create root scratch rounds vol parent path flags = some made)
    (hfile : made.file ≠ none) (htarget : Fat32.target path = some target)
    (hname : 1 ≤ target.name.length ∧ target.name.length ≤ 255)
    (hchars : ∀ c ∈ target.name, c ≠ 0 ∧ c < 0x80) (hflags : flags &&& 0x37 = flags) :
    ∃ opened file vol₁ directory vol₂ extended place,
      Reaches root scratch vol parent path target opened file ∧
      loadDirectory scratch rounds opened file.file = some (vol₁, some directory) ∧
      makeRoom scratch directory (directory.slot scratch target) target.totalDirents =
        (vol₂, some (extended, place)) ∧
      (fat32SearchDir target.name directory.contents = some none →
        (StoredInReach directory target flags →
          directory.Finds scratch extended target place flags) ∧
        (DistinctNames directory.contents →
          (directory.Finds scratch extended target place flags ↔
            StoredInReach directory target flags))) := by
  obtain ⟨opened, file, vol₁, directory, vol₂, extended, place, hreaches, hload, hroom⟩ :=
    fat32Create_stores hcreate hfile htarget
  refine ⟨opened, file, vol₁, directory, vol₂, extended, place, hreaches, hload, hroom, ?_⟩
  intro hnew
  have henough : StoredInReach directory target flags →
      directory.Finds scratch extended target place flags :=
    fun hreach => hreach.finds hroom hname hchars hflags hnew
  refine ⟨henough, fun hdistinct => ⟨?_, henough⟩⟩
  intro hfinds
  exact hfinds.storedInReach hroom hname hchars hflags hnew hdistinct

/-! ## Creating a file in an empty directory -/

/-- What is loaded of the empty root directory of the small volume, and the room in it. -/
theorem smallRoot_loads : ∃ vol₁ directory,
    loadDirectory (zeroScratch .all) 4 smallVolume smallRoot.file = some (vol₁, some directory) ∧
      fat32SearchDir [0x42] directory.contents = some none ∧
      ∃ vol₂ extended, makeRoom (zeroScratch .all) directory
          (directory.slot (zeroScratch .all) targetB) targetB.totalDirents =
            (vol₂, some (extended, 0)) ∧ extended.entryCount = 16 := by
  have hrun : ((loadDirectory (zeroScratch .all) 4 smallVolume smallRoot.file).bind
      Prod.snd).map (fun directory : Directory =>
        (fat32SearchDir [0x42] directory.contents,
          (makeRoom (zeroScratch .all) directory
            (directory.slot (zeroScratch .all) targetB) targetB.totalDirents).2.map
              fun room => (room.2, room.1.entryCount))) =
      some (some none, some (0, 16)) := by
    decide +kernel
  obtain ⟨directory, hsome, hfacts⟩ := Option.map_eq_some_iff.mp hrun
  obtain ⟨⟨vol₁, loaded⟩, hload, hdirectory⟩ := Option.bind_eq_some_iff.mp hsome
  dsimp only at hdirectory
  subst hdirectory
  obtain ⟨hsearch, hroom⟩ := Prod.mk.inj hfacts
  obtain ⟨⟨extended, place⟩, hmade, hplace⟩ := Option.map_eq_some_iff.mp hroom
  obtain ⟨rfl, hcount⟩ := Prod.mk.inj hplace
  exact ⟨vol₁, directory, hload, hsearch, _, extended, Prod.ext rfl hmade, hcount⟩

theorem targetB_chars : ∀ c ∈ targetB.name, c ≠ 0 ∧ c < 0x80 := by
  intro c hc
  obtain rfl := List.mem_singleton.mp hc
  decide

/-- With ARCHIVE only, the new file is found with its flags. -/
theorem create_finds_archive : ∃ made,
    fat32Create ⟨2, fun _ => 0⟩ (zeroScratch .all) 4 smallVolume smallRoot [0x42] 0x20 =
        some made ∧ made.file ≠ none ∧
      ∃ directory vol₁ vol₂ extended place,
        loadDirectory (zeroScratch .all) 4 smallVolume smallRoot.file =
          some (vol₁, some directory) ∧
        makeRoom (zeroScratch .all) directory (directory.slot (zeroScratch .all) targetB)
          targetB.totalDirents = (vol₂, some (extended, place)) ∧
        directory.Finds (zeroScratch .all) extended targetB place 0x20 := by
  obtain ⟨made, hcreate⟩ : ∃ made, fat32Create ⟨2, fun _ => 0⟩ (zeroScratch .all) 4 smallVolume
      smallRoot [0x42] 0x20 = some made := Option.isSome_iff_exists.mp (by decide +kernel)
  have hrun : (fat32Create ⟨2, fun _ => 0⟩ (zeroScratch .all) 4 smallVolume smallRoot [0x42]
      0x20).map (fun made => made.file.isSome) = some true := by decide +kernel
  rw [hcreate] at hrun
  have hfile : made.file ≠ none :=
    Option.isSome_iff_ne_none.mp (Option.some.inj hrun)
  obtain ⟨opened, file, vol₁, directory, vol₂, extended, place, hreaches, hload, hroom, hlaw⟩ :=
    create_finds_iff _ _ _ _ _ _ _ targetB made hcreate hfile rfl (by decide) targetB_chars
      (by decide)
  obtain ⟨-, rfl, rfl⟩ := smallRoot_reaches hreaches
  obtain ⟨vol₁', directory', hload', hsearch, vol₂', extended', hroom', hcount⟩ :=
    smallRoot_loads
  obtain ⟨rfl, heq⟩ := Prod.mk.inj (Option.some.inj (hload.symm.trans hload'))
  obtain rfl := Option.some.inj heq
  obtain ⟨rfl, hmade⟩ := Prod.mk.inj (hroom.symm.trans hroom')
  obtain ⟨rfl, rfl⟩ := Prod.mk.inj (Option.some.inj hmade)
  refine ⟨made, hcreate, hfile, directory, vol₁, vol₂, extended, 0, hload, hroom, ?_⟩
  have hused : directory.usedEntries = 0 := (makeRoom_behindUsed hroom).place_eq
  have hfits := (makeRoom_room hroom (by decide)).mp (by rw [hcount]; decide)
  rw [← hused] at hfits
  exact (hlaw hsearch).1 ⟨by rw [hused]; exact .here, by omega, hfits, by decide⟩

/-- A directory is created, and its entry says that it is none. -/
theorem create_losesDirectory : ∃ made,
    fat32Create ⟨2, fun _ => 0⟩ (zeroScratch .all) 4 smallVolume smallRoot [0x42] 0x10 =
        some made ∧ made.file ≠ none ∧
      ∃ directory vol₁ vol₂ extended place,
        loadDirectory (zeroScratch .all) 4 smallVolume smallRoot.file =
          some (vol₁, some directory) ∧
        makeRoom (zeroScratch .all) directory (directory.slot (zeroScratch .all) targetB)
          targetB.totalDirents = (vol₂, some (extended, place)) ∧
        fat32SearchDir [0x42] directory.contents = some none ∧
        ¬directory.Finds (zeroScratch .all) extended targetB place 0x10 := by
  obtain ⟨made, hcreate⟩ : ∃ made, fat32Create ⟨2, fun _ => 0⟩ (zeroScratch .all) 4 smallVolume
      smallRoot [0x42] 0x10 = some made := Option.isSome_iff_exists.mp (by decide +kernel)
  have hrun : (fat32Create ⟨2, fun _ => 0⟩ (zeroScratch .all) 4 smallVolume smallRoot [0x42]
      0x10).map (fun made => made.file.isSome) = some true := by decide +kernel
  rw [hcreate] at hrun
  obtain ⟨vol₁, directory, hload, hsearch, vol₂, extended, hroom, -⟩ := smallRoot_loads
  refine ⟨made, hcreate, Option.isSome_iff_ne_none.mp (Option.some.inj hrun), directory, vol₁,
    vol₂, extended, 0, hload, hroom, hsearch, ?_⟩
  intro hfinds
  have hplain := hfinds.plain (makeRoom_behindUsed hroom) (by decide) targetB_chars (by decide)
  exact absurd hplain (by decide)

end KimisOS.Fat32
