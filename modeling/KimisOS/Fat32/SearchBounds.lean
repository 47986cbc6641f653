import KimisOS.Fat32.Names

/-!
# The bounds of a search

`fat32_search_dir` gets a buffer without its length and stops at an entry that
starts with zero, or at number 65536.  The loop over the entries of a long name
stops for its attribute bits or a zero only, and stores 13 characters where the
sequence number of an entry says.
-/

namespace KimisOS.Fat32

open KimisOS.ByteStore

/-! ## The search with its bounds -/

/-- The array of the name, and what lies behind it on the stack. -/
def stackBytes (filename beyond : ℕ → UInt8) : ℕ → UInt8 := fun k =>
  if k < 256 then filename k else beyond k

/-- `strcmp` finds no difference. -/
def strcmpEqual (mem : ℕ → UInt8) : CString → ℕ → Bool
  | [], i => mem i == 0
  | c :: path, i => if c = mem i then strcmpEqual mem path (i + 1) else false

/-- The loop over the entries of a long name goes on. -/
def GoesOn (dirData : ℕ → UInt8) (i : ℕ) : Prop :=
  (direntAt dirData i).flags &&& fat32LongFileName ≠ 0 ∧ (direntAt dirData i).name0 ≠ 0

instance (dirData : ℕ → UInt8) (i : ℕ) : Decidable (GoesOn dirData i) :=
  inferInstanceAs (Decidable (_ ∧ _))

/-- The loop of `fat32_build_filename_long`, with the number of entries of the buffer
from `index` on; `none` when it reads behind them or writes outside the array. -/
def buildLongInside (dirData : ℕ → UInt8) :
    ℕ → (ℕ → UInt8) → ℕ → Option ((ℕ → UInt8) × ℕ)
  | 0, _, _ => none
  | left + 1, filename, index =>
      if GoesOn dirData index then
        match putChars filename (lfnStart dirData index) (lfnChars dirData index) with
        | none => none
        | some filename => buildLongInside dirData left filename (index + 1)
      else some (filename, index)

/-- The places that `fat32_copy_short_filename` writes: the base, the blanks that it
clears, the dot and the extension. -/
def shortPlaces (dirData : ℕ → UInt8) (i : ℕ) : List ℕ :=
  let last := lastChar dirData i 8
  List.range 8 ++ (List.range 9).filter (fun j => decide (last < j)) ++
    [last + 1, last + 2, last + 3, last + 4]

/-- The name that a round compares with; `none` for an access outside. -/
def nameInside (entries : ℕ) (dirData : ℕ → UInt8) (i : ℕ) :
    Option ((ℕ → UInt8) × ℕ) :=
  if (direntAt dirData i).flags = fat32LongFileName then
    buildLongInside dirData (entries - i) (fun _ => 0) i
  else if ∀ place ∈ shortPlaces dirData i, place < 256 then
    some (fat32CopyShortFilename dirData i, i)
  else none

/-- The loop of `fat32_search_dir` in a buffer of so many entries; `none` for an
access outside. -/
def searchInside (entries : ℕ) (beyond : ℕ → UInt8) (path : CString)
    (dirData : ℕ → UInt8) : ℕ → ℕ → Option (Option ℕ)
  | rounds, i =>
      if entries ≤ i then none
      else if (direntAt dirData i).name0 ≠ 0 ∧ i < 65536 then
        match rounds with
        | 0 => some none
        | rounds + 1 =>
            match nameInside entries dirData i with
            | none => none
            | some (filename, entry) =>
                if strcmpEqual (stackBytes filename beyond) path 0 then some (some entry)
                else searchInside entries beyond path dirData rounds (entry + 1)
      else some none

/-- Whatever is looked up, no entry behind the buffer is read and nothing is written
outside the array of the name. -/
def SearchStaysInside (entries : ℕ) (dirData : ℕ → UInt8) : Prop :=
  ∀ (path : CString) (beyond : ℕ → UInt8), (∀ c ∈ path, c ≠ 0) →
    searchInside entries beyond path dirData 65536 0 ≠ none

/-! ## The condition -/

/-- The characters of an entry have places in the array. -/
def SequenceFits (dirData : ℕ → UInt8) (i : ℕ) : Prop :=
  lfnChars dirData i = [] ∨
    (1 ≤ (dirData (32 * i)).toNat % 64 ∧
      13 * ((dirData (32 * i)).toNat % 64 - 1) + (lfnChars dirData i).length ≤ 256)

/-- The entries from `i` on end, in the buffer, with a zero or number 65536, when
those of a long name are passed together with the entry behind them. -/
inductive Terminated (entries : ℕ) (dirData : ℕ → UInt8) : ℕ → Prop where
  | last {i : ℕ} (hi : i < entries)
      (hend : (direntAt dirData i).name0 = 0 ∨ 65536 ≤ i) : Terminated entries dirData i
  | short {i : ℕ} (hi : i < entries) (hname : (direntAt dirData i).name0 ≠ 0)
      (hlt : i < 65536) (hflags : (direntAt dirData i).flags ≠ fat32LongFileName)
      (hrest : Terminated entries dirData (i + 1)) : Terminated entries dirData i
  | long {i j : ℕ} (hname : (direntAt dirData i).name0 ≠ 0) (hlt : i < 65536)
      (hflags : (direntAt dirData i).flags = fat32LongFileName)
      (hij : i ≤ j) (hj : j < entries)
      (hrun : ∀ k, i ≤ k → k < j → GoesOn dirData k ∧ SequenceFits dirData k)
      (hstop : ¬ GoesOn dirData j)
      (hrest : Terminated entries dirData (j + 1)) : Terminated entries dirData i

/-! ## One name -/

section Name

variable {dirData filename : ℕ → UInt8} {i index left : ℕ}

theorem shortPlaces_lt (dirData : ℕ → UInt8) (i : ℕ) :
    ∀ place ∈ shortPlaces dirData i, place < 256 := by
  have hlast : ∀ j, lastChar dirData i j ≤ j := by
    intro j
    induction j with
    | zero => exact le_rfl
    | succ j ih =>
        rw [lastChar]
        split
        · exact ih.trans (Nat.le_succ j)
        · exact le_rfl
  have hbound := hlast 8
  intro place hplace
  simp only [shortPlaces, List.mem_append, List.mem_range, List.mem_filter,
    List.mem_cons, List.not_mem_nil, or_false] at hplace
  omega

/-- The characters of an entry are stored in the array exactly when they fit. -/
theorem putChars_isSome_iff :
    (∃ stored, putChars filename (lfnStart dirData i) (lfnChars dirData i) =
      some stored) ↔ SequenceFits dirData i := by
  have hplace : lfnChars dirData i = [] ∨
      lfnStart dirData i + (lfnChars dirData i).length ≤ 256 ↔
        SequenceFits dirData i := by
    rw [SequenceFits]
    by_cases hempty : lfnChars dirData i = []
    · simp [hempty]
    · have hlength := List.length_pos_iff.mpr hempty
      refine or_congr_right ?_
      rw [lfnStart, lfnEntryCharCount]
      omega
  rw [putChars, ← hplace]
  split
  case isTrue hfits => exact ⟨fun _ => hfits, fun _ => ⟨_, rfl⟩⟩
  case isFalse houtside =>
    refine ⟨?_, fun hfits => absurd hfits houtside⟩
    rintro ⟨stored, hstored⟩
    cases hstored

/-- The loop over a long name ends at the first entry that does not go on, when it is
in the buffer and all characters before it fit. -/
theorem buildLongInside_spec {j : ℕ} :
    (∃ built, buildLongInside dirData left filename index = some (built, j)) ↔
      index ≤ j ∧ j < index + left ∧
        (∀ k, index ≤ k → k < j → GoesOn dirData k ∧ SequenceFits dirData k) ∧
        ¬ GoesOn dirData j := by
  induction left generalizing filename index with
  | zero =>
      constructor
      · rintro ⟨built, hbuilt⟩
        cases hbuilt
      · rintro ⟨hle, hlt, -⟩
        omega
  | succ left ih =>
      rw [buildLongInside]
      by_cases hgoes : GoesOn dirData index
      · rw [if_pos hgoes]
        by_cases hfits : SequenceFits dirData index
        · obtain ⟨stored, hstored⟩ := (@putChars_isSome_iff dirData filename index).mpr hfits
          rw [hstored]
          dsimp only
          rw [ih]
          constructor
          · rintro ⟨hle, hlt, hrun, hstop⟩
            refine ⟨by omega, by omega, ?_, hstop⟩
            intro k hk hkj
            rcases Nat.eq_or_lt_of_le hk with rfl | hmore
            · exact ⟨hgoes, hfits⟩
            · exact hrun k hmore hkj
          · rintro ⟨hle, hlt, hrun, hstop⟩
            have hne : index ≠ j := by
              rintro rfl
              exact hstop hgoes
            exact ⟨by omega, by omega, fun k hk hkj => hrun k (by omega) hkj, hstop⟩
        · have hnone : putChars filename (lfnStart dirData index)
              (lfnChars dirData index) = none := by
            rw [Option.eq_none_iff_forall_ne_some]
            intro stored hstored
            exact hfits (putChars_isSome_iff.mp ⟨stored, hstored⟩)
          rw [hnone]
          constructor
          · rintro ⟨built, hbuilt⟩
            cases hbuilt
          · rintro ⟨hle, -, hrun, hstop⟩
            have hne : index ≠ j := by
              rintro rfl
              exact hstop hgoes
            exact absurd (hrun index le_rfl (by omega)).2 hfits
      · rw [if_neg hgoes]
        constructor
        · rintro ⟨built, hbuilt⟩
          obtain ⟨-, rfl⟩ := Prod.mk.inj (Option.some.inj hbuilt)
          exact ⟨le_rfl, by omega, fun k hk hkj => absurd hkj (by omega), hgoes⟩
        · rintro ⟨hle, -, hrun, -⟩
          obtain rfl : index = j := by
            by_contra hne
            exact hgoes (hrun index le_rfl (by omega)).1
          exact ⟨filename, rfl⟩

end Name

/-! ## The search without bounds -/

section Unbounded

variable {dirData filename beyond : ℕ → UInt8} {path : CString} {rounds left i : ℕ}

theorem strcmpEqual_of_equalsName {equal : Bool}
    (hequals : equalsName filename path i = some equal) :
    strcmpEqual (stackBytes filename beyond) path i = equal := by
  induction path generalizing i with
  | nil =>
      rw [equalsName] at hequals
      split at hequals
      case isTrue hi =>
        rw [strcmpEqual, stackBytes, if_pos hi]
        exact Option.some.inj hequals
      case isFalse => cases hequals
  | cons c path ih =>
      rw [equalsName] at hequals
      split at hequals
      case isTrue hi =>
        rw [strcmpEqual, stackBytes, if_pos hi]
        split
        case isTrue hsame =>
          rw [if_pos hsame] at hequals
          exact ih hequals
        case isFalse hdiffer =>
          rw [if_neg hdiffer] at hequals
          exact Option.some.inj hequals
      case isFalse => cases hequals

theorem buildLong_goesOn (hgoes : GoesOn dirData i) :
    buildLong dirData (rounds + 1) filename i =
      (putChars filename (lfnStart dirData i) (lfnChars dirData i)).bind fun stored =>
        buildLong dirData rounds stored (i + 1) := by
  rw [buildLong]
  exact if_pos hgoes

theorem buildLong_stop (hstop : ¬ GoesOn dirData i) :
    buildLong dirData (rounds + 1) filename i = some (filename, i) := by
  rw [buildLong]
  exact if_neg hstop

theorem buildLongInside_eq {built built' : (ℕ → UInt8) × ℕ}
    (hbuilt : buildLong dirData rounds filename i = some built)
    (hbuilt' : buildLongInside dirData left filename i = some built') :
    built' = built := by
  induction rounds generalizing left filename i with
  | zero => cases hbuilt
  | succ rounds ih =>
      cases left with
      | zero => cases hbuilt'
      | succ left =>
          rw [buildLongInside] at hbuilt'
          by_cases hgoes : GoesOn dirData i
          · rw [buildLong_goesOn hgoes] at hbuilt
            rw [if_pos hgoes] at hbuilt'
            cases hput : putChars filename (lfnStart dirData i) (lfnChars dirData i) with
            | none =>
                rw [hput] at hbuilt'
                cases hbuilt'
            | some stored =>
                rw [hput] at hbuilt hbuilt'
                exact ih hbuilt hbuilt'
          · rw [buildLong_stop hgoes] at hbuilt
            rw [if_neg hgoes] at hbuilt'
            exact Option.some.inj (hbuilt'.symm.trans hbuilt)

theorem nameInside_eq {entries : ℕ} {name name' : (ℕ → UInt8) × ℕ}
    (hname : nameAt dirData i = some name)
    (hname' : nameInside entries dirData i = some name') : name' = name := by
  rw [nameAt] at hname
  rw [nameInside] at hname'
  by_cases hflags : (direntAt dirData i).flags = fat32LongFileName
  · rw [if_pos hflags, fat32BuildFilenameLong, if_neg (not_not.mpr hflags)] at hname
    rw [if_pos hflags] at hname'
    exact buildLongInside_eq hname hname'
  · rw [if_neg hflags] at hname
    rw [if_neg hflags, if_pos (shortPlaces_lt dirData i)] at hname'
    exact Option.some.inj (hname'.symm.trans hname)

/-- Where both have a result, it is the same. -/
theorem searchInside_eq {entries : ℕ} {found found' : Option ℕ}
    (hfound : searchFrom path dirData rounds i = some found)
    (hfound' : searchInside entries beyond path dirData rounds i = some found') :
    found' = found := by
  induction rounds generalizing i with
  | zero =>
      rw [searchFrom] at hfound
      rw [searchInside] at hfound'
      split at hfound'
      · cases hfound'
      · rw [ite_self] at hfound'
        exact Option.some.inj (hfound'.symm.trans hfound)
  | succ rounds ih =>
      rw [searchFrom] at hfound
      rw [searchInside] at hfound'
      split at hfound'
      case isTrue => cases hfound'
      case isFalse =>
        split at hfound'
        case isFalse hstop =>
          rw [if_neg hstop] at hfound
          exact Option.some.inj (hfound'.symm.trans hfound)
        case isTrue hgoes =>
          rw [if_pos hgoes] at hfound
          cases hname : nameAt dirData i with
          | none =>
              rw [hname] at hfound
              cases hfound
          | some name =>
              cases hname' : nameInside entries dirData i with
              | none =>
                  rw [hname'] at hfound'
                  cases hfound'
              | some name' =>
                  obtain rfl := nameInside_eq hname hname'
                  rw [hname] at hfound
                  rw [hname'] at hfound'
                  dsimp only at hfound hfound'
                  cases hequals : equalsName name'.1 path 0 with
                  | none =>
                      rw [hequals] at hfound
                      cases hfound
                  | some equal =>
                      rw [hequals] at hfound
                      rw [strcmpEqual_of_equalsName hequals] at hfound'
                      cases equal with
                      | true => exact Option.some.inj (hfound'.symm.trans hfound)
                      | false => exact ih hfound hfound'

end Unbounded

/-! ## The search -/

section Search

variable {entries rounds i : ℕ} {beyond dirData : ℕ → UInt8} {path : CString}

theorem Terminated.inside (hterminated : Terminated entries dirData i)
    (hrounds : 65536 ≤ i + rounds) :
    searchInside entries beyond path dirData rounds i ≠ none := by
  induction hterminated generalizing rounds with
  | @last i hi hend =>
      have hstop : ¬ ((direntAt dirData i).name0 ≠ 0 ∧ i < 65536) := by
        rintro ⟨hname, hlt⟩
        exact hend.elim hname (by omega)
      rw [searchInside.eq_def]
      dsimp only
      rw [if_neg (by omega), if_neg hstop]
      exact Option.some_ne_none none
  | @short i hi hname hlt hflags hrest ih =>
      obtain ⟨rounds, rfl⟩ : ∃ more, rounds = more + 1 := ⟨rounds - 1, by omega⟩
      rw [searchInside, if_neg (by omega), if_pos ⟨hname, hlt⟩, nameInside, if_neg hflags,
        if_pos (shortPlaces_lt dirData i)]
      dsimp only
      split
      · exact Option.some_ne_none _
      · exact ih (by omega)
  | @long i j hname hlt hflags hij hj hrun hstop hrest ih =>
      obtain ⟨rounds, rfl⟩ : ∃ more, rounds = more + 1 := ⟨rounds - 1, by omega⟩
      obtain ⟨built, hbuilt⟩ := (@buildLongInside_spec dirData (fun _ => 0) i
        (entries - i) j).mpr ⟨hij, by omega, hrun, hstop⟩
      rw [searchInside, if_neg (by omega), if_pos ⟨hname, hlt⟩, nameInside, if_pos hflags,
        hbuilt]
      dsimp only
      split
      · exact Option.some_ne_none _
      · exact ih (by omega)

/-- A name that no entry has: it is longer than the array. -/
def neverFound : CString := List.replicate 300 1

theorem strcmpEqual_char {mem : ℕ → UInt8} {k : ℕ} (hequal : strcmpEqual mem path i = true)
    (hk : k < path.length) : mem (i + k) = path.getD k 0 := by
  induction path generalizing i k with
  | nil => exact absurd hk (Nat.not_lt_zero k)
  | cons c path ih =>
      rw [strcmpEqual] at hequal
      split at hequal
      case isTrue hsame =>
        cases k with
        | zero => exact hsame.symm
        | succ k =>
            have hrest := ih hequal (Nat.lt_of_succ_lt_succ hk)
            rw [List.getD_cons_succ, ← hrest, Nat.add_right_comm, Nat.add_assoc]
      case isFalse => cases hequal

theorem neverFound_ne (filename : ℕ → UInt8) :
    strcmpEqual (stackBytes filename fun _ => 0) neverFound 0 = false := by
  rw [Bool.eq_false_iff]
  intro hequal
  have hlong : 256 < neverFound.length := by
    rw [neverFound, List.length_replicate]
    decide
  have hchar := strcmpEqual_char hequal hlong
  have hone : neverFound.getD 256 0 = 1 := by
    rw [List.getD_eq_getElem?_getD, neverFound, List.getElem?_replicate,
      if_pos (by decide), Option.getD_some]
  rw [hone, stackBytes, if_neg (by omega)] at hchar
  exact absurd hchar (by decide)

/-- A search that never finds anything passes all entries. -/
theorem Terminated.of_inside
    (hinside : searchInside entries (fun _ => 0) neverFound dirData rounds i ≠ none)
    (hrounds : 65536 ≤ i + rounds) : Terminated entries dirData i := by
  induction rounds generalizing i with
  | zero =>
      rw [searchInside] at hinside
      split at hinside
      case isTrue => exact absurd rfl hinside
      case isFalse hi => exact .last (by omega) (.inr (by omega))
  | succ rounds ih =>
      rw [searchInside] at hinside
      split at hinside
      case isTrue => exact absurd rfl hinside
      case isFalse hi =>
        split at hinside
        case isFalse hstop =>
          refine .last (by omega) ?_
          by_contra hneither
          obtain ⟨hname, hlt⟩ := not_or.mp hneither
          exact hstop ⟨hname, by omega⟩
        case isTrue hgoes =>
          obtain ⟨hname, hlt⟩ := hgoes
          rw [nameInside] at hinside
          by_cases hflags : (direntAt dirData i).flags = fat32LongFileName
          · rw [if_pos hflags] at hinside
            cases hbuilt : buildLongInside dirData (entries - i) (fun _ => 0) i with
            | none =>
                rw [hbuilt] at hinside
                exact absurd rfl hinside
            | some result =>
                obtain ⟨built, j⟩ := result
                obtain ⟨hij, hj, hrun, hstop⟩ := buildLongInside_spec.mp ⟨built, hbuilt⟩
                rw [hbuilt] at hinside
                dsimp only at hinside
                rw [neverFound_ne, if_neg Bool.false_ne_true] at hinside
                exact .long hname hlt hflags hij (by omega) hrun hstop
                  (ih hinside (by omega))
          · rw [if_neg hflags, if_pos (shortPlaces_lt dirData i)] at hinside
            dsimp only at hinside
            rw [neverFound_ne, if_neg Bool.false_ne_true] at hinside
            exact .short (by omega) hname hlt hflags (ih hinside (by omega))

end Search

/-- A search stays inside a buffer, whatever it looks for, exactly when the entries
are terminated in the buffer and all characters fit. -/
theorem searchStaysInside_iff (entries : ℕ) (dirData : ℕ → UInt8) :
    SearchStaysInside entries dirData ↔ Terminated entries dirData 0 := by
  constructor
  · intro hinside
    refine Terminated.of_inside (hinside neverFound (fun _ => 0) ?_) le_rfl
    intro c hc
    rw [List.eq_of_mem_replicate hc]
    decide
  · intro hterminated path beyond _
    exact hterminated.inside le_rfl

/-- A deleted entry of a long name: the first byte is 0xE5, and the attributes are
still those of a long name. -/
def deletedLong : ℕ → UInt8 := fun k =>
  if k = 0 then 0xe5 else if k = 1 then 0x61 else if k = 11 then 0x0f else 0

/-- Its characters are stored behind the array. -/
theorem searchStaysInside_deleted : ¬ SearchStaysInside 16 deletedLong := by
  intro hinside
  refine hinside [0x61] (fun _ => 0) (by simp) ?_
  change searchInside 16 (fun _ => 0) [0x61] deletedLong (65535 + 1) 0 = none
  have hbuilt : buildLongInside deletedLong (15 + 1) (fun _ => 0) 0 = none := by
    rw [buildLongInside, if_pos (by decide), putChars, if_neg (by decide)]
  rw [searchInside, if_neg (by decide), if_pos (by decide), nameInside,
    if_pos (by decide), show 16 - 0 = 15 + 1 by rfl, hbuilt]

end KimisOS.Fat32
