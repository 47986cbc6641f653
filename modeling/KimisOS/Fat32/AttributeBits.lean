import KimisOS.Fat32.SearchBounds

/-!
# Attributes and lookups

The bits READ_ONLY, HIDDEN, SYSTEM and VOLUME_ID together mark an entry of a long
name.  The loop over a long name goes on while one of them is set, so a short entry
with one of them, behind a long name, is taken for a part of the name.
-/

namespace KimisOS.Fat32

/-! ## The law -/

/-- Only the bits READ_ONLY, HIDDEN, SYSTEM and ARCHIVE of short entries differ, and
no short entry becomes one of a long name. -/
structure OnlyAttributes (dirData dirData' : ℕ → UInt8) : Prop where
  bytes : ∀ a, a % 32 ≠ 11 → dirData' a = dirData a
  long : ∀ i, (direntAt dirData i).flags = fat32LongFileName →
    (direntAt dirData' i).flags = fat32LongFileName
  short : ∀ i, (direntAt dirData i).flags ≠ fat32LongFileName →
    (direntAt dirData' i).flags ≠ fat32LongFileName ∧
      (direntAt dirData' i).flags &&& 0xd8 = (direntAt dirData i).flags &&& 0xd8

/-- Every name is found at the same place. -/
def SameLookups (dirData dirData' : ℕ → UInt8) : Prop :=
  ∀ path : CString, (∀ c ∈ path, c ≠ 0) →
    fat32SearchDir path dirData' = fat32SearchDir path dirData

/-- From entry `i` on, the entries of a long name are followed by their short entry,
and behind all of them is a zero. -/
inductive WellFormedFrom (dirData : ℕ → UInt8) : ℕ → Prop where
  | last {i : ℕ} (hend : (direntAt dirData i).name0 = 0) : WellFormedFrom dirData i
  | short {i : ℕ} (hname : (direntAt dirData i).name0 ≠ 0)
      (hflags : (direntAt dirData i).flags ≠ fat32LongFileName)
      (hrest : WellFormedFrom dirData (i + 1)) : WellFormedFrom dirData i
  | long {i j : ℕ} (hij : i < j)
      (hrun : ∀ k, i ≤ k → k < j → (direntAt dirData k).name0 ≠ 0 ∧
        (direntAt dirData k).flags = fat32LongFileName)
      (hname : (direntAt dirData j).name0 ≠ 0)
      (hflags : (direntAt dirData j).flags ≠ fat32LongFileName)
      (hrest : WellFormedFrom dirData (j + 1)) : WellFormedFrom dirData i

/-! ## The condition -/

/-- The loop over a long name, from entry `i` on, ends at entry `j`. -/
def RunEnds (dirData : ℕ → UInt8) (i j : ℕ) : Prop :=
  i ≤ j ∧ (∀ k, i ≤ k → k < j → GoesOn dirData k) ∧ ¬ GoesOn dirData j

/-- Every long name that a search comes to, from entry `i` on, ends at the same entry
in both directories. -/
inductive SameRuns (dirData dirData' : ℕ → UInt8) : ℕ → Prop where
  | last {i : ℕ} (hend : (direntAt dirData i).name0 = 0 ∨ 65536 ≤ i) :
      SameRuns dirData dirData' i
  | short {i : ℕ} (hname : (direntAt dirData i).name0 ≠ 0) (hlt : i < 65536)
      (hflags : (direntAt dirData i).flags ≠ fat32LongFileName)
      (hrest : SameRuns dirData dirData' (i + 1)) : SameRuns dirData dirData' i
  | long {i j : ℕ} (hname : (direntAt dirData i).name0 ≠ 0) (hlt : i < 65536)
      (hflags : (direntAt dirData i).flags = fat32LongFileName)
      (hrun : RunEnds dirData i j) (hrun' : RunEnds dirData' i j)
      (hrest : SameRuns dirData dirData' (j + 1)) : SameRuns dirData dirData' i

/-- The names that a search compares with, from entry `i` on, are strings in their
array, and all different, also from those already seen. -/
inductive DistinctFrom (dirData : ℕ → UInt8) : List CString → ℕ → Prop where
  | last {seen : List CString} {i : ℕ}
      (hend : (direntAt dirData i).name0 = 0 ∨ 65536 ≤ i) : DistinctFrom dirData seen i
  | next {seen : List CString} {i entry : ℕ} {filename : ℕ → UInt8} {name : CString}
      (hname : (direntAt dirData i).name0 ≠ 0) (hlt : i < 65536)
      (hat : nameAt dirData i = some (filename, entry)) (hspells : Spells filename name)
      (hnew : name ∉ seen) (hrest : DistinctFrom dirData (name :: seen) (entry + 1)) :
      DistinctFrom dirData seen i

/-- No two entries have the same name. -/
def DistinctNames (dirData : ℕ → UInt8) : Prop := DistinctFrom dirData [] 0

/-! ## What the attributes do not change -/

section Bytes

variable {dirData dirData' : ℕ → UInt8} {i : ℕ}

theorem OnlyAttributes.name0 (honly : OnlyAttributes dirData dirData') (i : ℕ) :
    (direntAt dirData' i).name0 = (direntAt dirData i).name0 :=
  honly.bytes (32 * i) (by omega)

theorem OnlyAttributes.flags_iff (honly : OnlyAttributes dirData dirData') (i : ℕ) :
    (direntAt dirData' i).flags = fat32LongFileName ↔
      (direntAt dirData i).flags = fat32LongFileName := by
  constructor
  · intro hflags'
    by_contra hflags
    exact (honly.short i hflags).1 hflags'
  · exact honly.long i

theorem OnlyAttributes.entry (honly : OnlyAttributes dirData dirData') (i : ℕ) :
    ∀ k < 32, k ≠ 11 → dirData' (32 * i + k) = dirData (32 * i + k) := by
  intro k hk hne
  exact honly.bytes _ (by omega)

theorem OnlyAttributes.shortName (honly : OnlyAttributes dirData dirData') (i : ℕ) :
    fat32CopyShortFilename dirData' i = fat32CopyShortFilename dirData i :=
  shortName_congr fun k hk => honly.entry i k (by omega) (by omega)

/-- A loop that ends at the same entry builds the same name. -/
theorem OnlyAttributes.buildLong (honly : OnlyAttributes dirData dirData')
    {filename : ℕ → UInt8} {rounds j : ℕ} (hrun : RunEnds dirData i j)
    (hrun' : RunEnds dirData' i j) :
    Fat32.buildLong dirData' rounds filename i = Fat32.buildLong dirData rounds filename i := by
  obtain ⟨hij, hgoes, hstop⟩ := hrun
  obtain ⟨-, hgoes', hstop'⟩ := hrun'
  induction rounds generalizing filename i with
  | zero => rfl
  | succ rounds ih =>
      rcases Nat.eq_or_lt_of_le hij with rfl | hlt
      · rw [buildLong_stop hstop, buildLong_stop hstop']
      · rw [buildLong_goesOn (hgoes i le_rfl hlt), buildLong_goesOn (hgoes' i le_rfl hlt),
          lfnStart_congr (honly.entry i), lfnChars_congr (honly.entry i)]
        congr 1
        funext stored
        exact ih (by omega) (fun k hk => hgoes k (by omega)) fun k hk => hgoes' k (by omega)

end Bytes

/-! ## One round of a search -/

section Round

variable {dirData : ℕ → UInt8} {filename : ℕ → UInt8} {i entry found rounds : ℕ}
  {name name' path : CString}

theorem buildLong_runEnds {built : ℕ → UInt8}
    (hbuilt : buildLong dirData rounds filename i = some (built, entry)) :
    RunEnds dirData i entry := by
  induction rounds generalizing filename i with
  | zero => cases hbuilt
  | succ rounds ih =>
      by_cases hgoes : GoesOn dirData i
      · rw [buildLong_goesOn hgoes] at hbuilt
        obtain ⟨stored, -, hrest⟩ := Option.bind_eq_some_iff.mp hbuilt
        obtain ⟨hle, hrun, hstop⟩ := ih hrest
        refine ⟨by omega, ?_, hstop⟩
        intro k hk hlt
        rcases Nat.eq_or_lt_of_le hk with rfl | hmore
        · exact hgoes
        · exact hrun k hmore hlt
      · rw [buildLong_stop hgoes] at hbuilt
        obtain ⟨-, rfl⟩ := Prod.mk.inj (Option.some.inj hbuilt)
        exact ⟨le_rfl, fun k hk hlt => absurd hlt (by omega), hgoes⟩

theorem nameAt_long (hflags : (direntAt dirData i).flags = fat32LongFileName) :
    nameAt dirData i = buildLong dirData (2 ^ 27) (fun _ => 0) i := by
  rw [nameAt, if_pos hflags, fat32BuildFilenameLong, if_neg (not_not.mpr hflags)]

theorem nameAt_short (hflags : (direntAt dirData i).flags ≠ fat32LongFileName) :
    nameAt dirData i = some (fat32CopyShortFilename dirData i, i) := by
  rw [nameAt, if_neg hflags]

theorem nameAt_stops (hat : nameAt dirData i = some (filename, entry)) :
    RunEnds dirData i entry ∧ (direntAt dirData i).flags = fat32LongFileName ∨
      entry = i ∧ (direntAt dirData i).flags ≠ fat32LongFileName := by
  by_cases hflags : (direntAt dirData i).flags = fat32LongFileName
  · rw [nameAt_long hflags] at hat
    exact .inl ⟨buildLong_runEnds hat, hflags⟩
  · rw [nameAt_short hflags] at hat
    exact .inr ⟨(Prod.mk.inj (Option.some.inj hat)).2.symm, hflags⟩

theorem nameAt_le (hat : nameAt dirData i = some (filename, entry)) : i ≤ entry := by
  rcases nameAt_stops hat with ⟨⟨hle, -, -⟩, -⟩ | ⟨rfl, -⟩
  · exact hle
  · exact le_rfl

/-- An array holds one string only. -/
theorem Spells.unique (hspells : Spells filename name) (hspells' : Spells filename name') :
    name' = name := by
  have hequals := hspells.equalsName hspells'.nonzero
  rw [hspells'.equalsName hspells'.nonzero] at hequals
  simpa using hequals

theorem searchFrom_next (hname : (direntAt dirData i).name0 ≠ 0) (hlt : i < 65536)
    (hat : nameAt dirData i = some (filename, entry)) :
    searchFrom path dirData (rounds + 1) i =
      (equalsName filename path 0).bind fun equal =>
        if equal then some (some entry) else searchFrom path dirData rounds (entry + 1) := by
  rw [searchFrom, if_pos ⟨hname, hlt⟩, hat]
  dsimp only
  cases equalsName filename path 0 with
  | none => rfl
  | some equal =>
      cases equal with
      | true => rfl
      | false => rfl

theorem searchFrom_round (hname : (direntAt dirData i).name0 ≠ 0) (hlt : i < 65536)
    (hat : nameAt dirData i = some (filename, entry)) (hspells : Spells filename name)
    (hpath : ∀ c ∈ path, c ≠ 0) :
    searchFrom path dirData (rounds + 1) i =
      if path = name then some (some entry)
      else searchFrom path dirData rounds (entry + 1) := by
  rw [searchFrom_next hname hlt hat, hspells.equalsName hpath, Option.bind_some]
  simp only [decide_eq_true_eq]

theorem searchFrom_end (hend : (direntAt dirData i).name0 = 0) :
    searchFrom path dirData rounds i = some none := by
  cases rounds with
  | zero => rfl
  | succ rounds =>
      rw [searchFrom, if_neg]
      exact fun hgoes => hgoes.1 hend

theorem searchFrom_late (hlate : 65536 ≤ i) : searchFrom path dirData rounds i = some none := by
  cases rounds with
  | zero => rfl
  | succ rounds =>
      rw [searchFrom, if_neg]
      exact fun hgoes => absurd hgoes.2 (by omega)

/-- What was found is where the name of the round ends, or is found later. -/
theorem searchFrom_inv (hfound : searchFrom path dirData (rounds + 1) i = some (some found)) :
    ∃ filename entry, nameAt dirData i = some (filename, entry) ∧
      (entry = found ∨ searchFrom path dirData rounds (entry + 1) = some (some found)) := by
  by_cases hgoes : (direntAt dirData i).name0 ≠ 0 ∧ i < 65536
  · cases hat : nameAt dirData i with
    | none =>
        rw [searchFrom, if_pos hgoes, hat] at hfound
        cases hfound
    | some result =>
        obtain ⟨filename, entry⟩ := result
        refine ⟨filename, entry, rfl, ?_⟩
        rw [searchFrom_next hgoes.1 hgoes.2 hat] at hfound
        obtain ⟨equal, -, hrest⟩ := Option.bind_eq_some_iff.mp hfound
        cases equal with
        | true => exact .inl (Option.some.inj (Option.some.inj hrest))
        | false => exact .inr hrest
  · rw [searchFrom, if_neg hgoes] at hfound
    cases hfound

/-- A search goes forward. -/
theorem searchFrom_ge (hfound : searchFrom path dirData rounds i = some (some found)) :
    i ≤ found := by
  induction rounds generalizing i with
  | zero => cases hfound
  | succ rounds ih =>
      obtain ⟨filename, entry, hat, hentry⟩ := searchFrom_inv hfound
      have hle := nameAt_le hat
      rcases hentry with rfl | hrest
      · exact hle
      · have hlater := ih hrest
        omega

end Round

/-! ## Two searches -/

section Searches

variable {dirData dirData' : ℕ → UInt8} {i rounds : ℕ} {seen : List CString}
  {path : CString}

/-- As long as the long names end at the same entries, so do the searches. -/
theorem SameRuns.search (hruns : SameRuns dirData dirData' i)
    (honly : OnlyAttributes dirData dirData') :
    searchFrom path dirData' rounds i = searchFrom path dirData rounds i := by
  induction hruns generalizing rounds with
  | @last i hend =>
      rcases hend with hzero | hlate
      · rw [searchFrom_end hzero, searchFrom_end (by rwa [honly.name0])]
      · rw [searchFrom_late hlate, searchFrom_late hlate]
  | @short i hname hlt hflags _ ih =>
      cases rounds with
      | zero => rfl
      | succ rounds =>
          have hflags' : (direntAt dirData' i).flags ≠ fat32LongFileName :=
            fun heq => hflags ((honly.flags_iff i).mp heq)
          rw [searchFrom, searchFrom, honly.name0, if_pos ⟨hname, hlt⟩,
            if_pos ⟨hname, hlt⟩, nameAt_short hflags, nameAt_short hflags',
            honly.shortName]
          dsimp only
          rw [ih]
  | @long i j hname hlt hflags hrun hrun' _ ih =>
      cases rounds with
      | zero => rfl
      | succ rounds =>
          have hsame : nameAt dirData' i = nameAt dirData i := by
            rw [nameAt_long hflags, nameAt_long (honly.long i hflags)]
            exact honly.buildLong hrun hrun'
          rw [searchFrom, searchFrom, honly.name0, if_pos ⟨hname, hlt⟩,
            if_pos ⟨hname, hlt⟩, hsame]
          cases hat : nameAt dirData i with
          | none => rfl
          | some result =>
              obtain ⟨filename, entry⟩ := result
              rw [nameAt_long hflags] at hat
              obtain ⟨hle, hgoes, hstop⟩ := buildLong_runEnds hat
              obtain ⟨hij, hgoes', hstop'⟩ := hrun
              obtain rfl : entry = j := by
                by_contra hne
                rcases Nat.lt_or_gt_of_ne hne with hless | hmore
                · exact hstop (hgoes' entry hle hless)
                · exact hstop' (hgoes j hij hmore)
              dsimp only
              rw [ih]

/-- A name that is new to one directory and ends earlier there is not found at the
same place in the other. -/
theorem searchFrom_earlier {dirData dirData' filename filename' : ℕ → UInt8}
    {name name' : CString} {entry entry' : ℕ}
    (hname : (direntAt dirData i).name0 ≠ 0) (hname' : (direntAt dirData' i).name0 ≠ 0)
    (hlt : i < 65536) (hat : nameAt dirData i = some (filename, entry))
    (hat' : nameAt dirData' i = some (filename', entry')) (hspells : Spells filename name)
    (hspells' : Spells filename' name') (hearlier : entry < entry') :
    searchFrom name dirData' (rounds + 1) i ≠ searchFrom name dirData (rounds + 1) i := by
  intro hsame
  rw [searchFrom_round hname hlt hat hspells hspells.nonzero, if_pos rfl,
    searchFrom_round hname' hlt hat' hspells' hspells.nonzero] at hsame
  split at hsame
  · have heq := Option.some.inj (Option.some.inj hsame)
    omega
  · have hge := searchFrom_ge hsame
    omega

/-- When all names differ, and each is found at the same place, the long names end at
the same entries. -/
theorem DistinctFrom.sameRuns (hdistinct : DistinctFrom dirData seen i)
    (hdistinct' : DistinctFrom dirData' seen i) (honly : OnlyAttributes dirData dirData')
    (hrounds : 65536 ≤ i + rounds)
    (hsame : ∀ path : CString, (∀ c ∈ path, c ≠ 0) → path ∉ seen →
      searchFrom path dirData' rounds i = searchFrom path dirData rounds i) :
    SameRuns dirData dirData' i := by
  induction hdistinct generalizing rounds with
  | last hend => exact .last hend
  | @next seen i entry filename name hname hlt hat hspells hnew hrest ih =>
      obtain ⟨rounds, rfl⟩ : ∃ more, rounds = more + 1 := ⟨rounds - 1, by omega⟩
      have hle := nameAt_le hat
      cases hdistinct' with
      | last hend =>
          rw [honly.name0] at hend
          exact absurd (hend.resolve_left hname) (by omega)
      | @next _ _ entry' filename' name' hname' _ hat' hspells' hnew' hrest' =>
          -- the round has the same name and the same entry in both directories
          have hentry : entry' = entry := by
            by_contra hne
            rcases Nat.lt_or_gt_of_ne hne with hless | hmore
            · exact searchFrom_earlier hname' hname hlt hat' hat hspells' hspells hless
                (hsame name' hspells'.nonzero hnew').symm
            · exact searchFrom_earlier hname hname' hlt hat hat' hspells hspells' hmore
                (hsame name hspells.nonzero hnew)
          subst hentry
          have hround : nameAt dirData' i = nameAt dirData i →
              SameRuns dirData dirData' (entry' + 1) := by
            intro hnames
            rw [hat, hat'] at hnames
            obtain ⟨rfl, -⟩ := Prod.mk.inj (Option.some.inj hnames)
            obtain rfl := hspells.unique hspells'
            refine @ih rounds hrest' (by omega) ?_
            intro path hpath hunseen
            obtain ⟨hother, hold⟩ := not_or.mp fun h => hunseen (List.mem_cons.mpr h)
            have hboth := hsame path hpath hold
            rwa [searchFrom_round hname hlt hat hspells hpath, if_neg hother,
              searchFrom_round hname' hlt hat' hspells' hpath, if_neg hother] at hboth
          by_cases hflags : (direntAt dirData i).flags = fat32LongFileName
          · have hat2 := hat
            have hat2' := hat'
            rw [nameAt_long hflags] at hat2
            rw [nameAt_long (honly.long i hflags)] at hat2'
            have hrun := buildLong_runEnds hat2
            have hrun' := buildLong_runEnds hat2'
            refine .long hname hlt hflags hrun hrun' (hround ?_)
            rw [nameAt_long hflags, nameAt_long (honly.long i hflags)]
            exact honly.buildLong hrun hrun'
          · have hflags' : (direntAt dirData' i).flags ≠ fat32LongFileName :=
              fun heq => hflags ((honly.flags_iff i).mp heq)
            have hindex : entry' = i := by
              rw [nameAt_short hflags] at hat
              exact (Prod.mk.inj (Option.some.inj hat)).2.symm
            subst hindex
            refine .short hname hlt hflags (hround ?_)
            rw [nameAt_short hflags, nameAt_short hflags', honly.shortName]

end Searches

/-- Directories that differ in attributes of short entries give the same lookups when
every long name ends at the same entry in both; and, where no two entries have the same
name, only then. -/
theorem sameLookups_iff (dirData dirData' : ℕ → UInt8)
    (honly : OnlyAttributes dirData dirData') :
    (SameRuns dirData dirData' 0 → SameLookups dirData dirData') ∧
      (DistinctNames dirData → DistinctNames dirData' →
        (SameLookups dirData dirData' ↔ SameRuns dirData dirData' 0)) := by
  have henough : SameRuns dirData dirData' 0 → SameLookups dirData dirData' :=
    fun hruns path _ => hruns.search honly
  refine ⟨henough, fun hdistinct hdistinct' => ⟨?_, henough⟩⟩
  intro hsame
  exact hdistinct.sameRuns hdistinct' honly le_rfl fun path hpath _ => hsame path hpath

/-- A directory with one short entry. -/
def oneShort (flags : UInt8) : ℕ → UInt8 := fun a =>
  if a = 0 then 0x41 else if a = 11 then flags else 0

theorem oneShort_flags (flags : UInt8) (i : ℕ) :
    (direntAt (oneShort flags) i).flags = if i = 0 then flags.toNat else 0 := by
  change (oneShort flags (32 * i + 11)).toNat = _
  rw [oneShort, if_neg (by omega)]
  by_cases hzero : i = 0
  · rw [if_pos (by omega), if_pos hzero]
  · rw [if_neg (by omega), if_neg hzero]
    rfl

/-- Making a file with a short name read-only. -/
theorem sameLookups_short : SameLookups (oneShort 0x20) (oneShort 0x21) := by
  refine (sameLookups_iff (oneShort 0x20) (oneShort 0x21) ⟨?_, ?_, ?_⟩).1
    (.short (by decide) (by decide) (by decide) (.last (.inl (by decide))))
  · intro a ha
    have hne : a ≠ 11 := by
      rintro rfl
      exact ha rfl
    rw [oneShort, oneShort, if_neg hne, if_neg hne]
  · intro i hflags
    rw [oneShort_flags] at hflags
    split at hflags
    · exact absurd hflags (by decide)
    · exact absurd hflags (by decide)
  · intro i _
    rw [oneShort_flags, oneShort_flags]
    split
    · decide
    · decide

/-- A directory with the long name `a`, its short entry and nothing behind it. -/
def oneLong (flags : UInt8) : ℕ → UInt8 := fun a =>
  if a = 0 then 0x41 else if a = 1 then 0x61 else if a = 11 then 0x0f
  else if a = 32 then 0x41 else if a = 43 then flags else 0

theorem oneLong_flags (flags : UInt8) (i : ℕ) :
    (direntAt (oneLong flags) i).flags =
      if i = 0 then 0x0f else if i = 1 then flags.toNat else 0 := by
  change (oneLong flags (32 * i + 11)).toNat = _
  rw [oneLong, if_neg (by omega), if_neg (by omega)]
  by_cases hzero : i = 0
  · rw [if_pos (by omega), if_pos hzero]
    rfl
  · rw [if_neg (by omega), if_neg (by omega), if_neg hzero]
    by_cases hone : i = 1
    · rw [if_pos (by omega), if_pos hone]
    · rw [if_neg (by omega), if_neg hone]
      rfl

/-- Once the file is read-only, its long name is found one entry too late. -/
theorem sameLookups_readOnly :
    WellFormedFrom (oneLong 0x20) 0 ∧ OnlyAttributes (oneLong 0x20) (oneLong 0x21) ∧
      ¬ SameLookups (oneLong 0x20) (oneLong 0x21) := by
  refine ⟨?_, ⟨?_, ?_, ?_⟩, ?_⟩
  · refine .long (j := 1) (by decide) ?_ (by decide) (by decide) (.last (by decide))
    intro k _ hk
    obtain rfl : k = 0 := by omega
    exact ⟨by decide, by decide⟩
  · intro a ha
    have hne : a ≠ 43 := by
      rintro rfl
      exact ha rfl
    rw [oneLong, oneLong, if_neg hne, if_neg hne]
  · intro i hflags
    rw [oneLong_flags] at hflags ⊢
    split at hflags
    case isTrue hzero => rw [if_pos hzero, hflags]
    case isFalse hzero =>
      split at hflags
      · exact absurd hflags (by decide)
      · exact absurd hflags (by decide)
  · intro i hflags
    rw [oneLong_flags] at hflags
    rw [oneLong_flags, oneLong_flags]
    split at hflags
    case isTrue => exact absurd rfl hflags
    case isFalse hzero =>
      rw [if_neg hzero, if_neg hzero]
      split
      · decide
      · decide
  · intro hsame
    have hbefore : fat32SearchDir [0x61] (oneLong 0x20) = some (some 1) := by
      decide +kernel
    have hafter : fat32SearchDir [0x61] (oneLong 0x21) = some (some 2) := by
      decide +kernel
    have hlookup := hsame [0x61] (by simp)
    rw [hbefore, hafter] at hlookup
    exact absurd hlookup (by decide)

end KimisOS.Fat32
