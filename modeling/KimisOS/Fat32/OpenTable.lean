import Mathlib

/-!
# The table of open files

`fat32_cache_open` looks for an empty place from the last index on, and gets a
larger table when there is none.  The loop that should clear the new table sets
the pointer to it instead, so after its first growth the table is at address 0.
-/

namespace KimisOS.Fat32

/-- Pages that `malloc` has handed out. -/
structure Grant where
  start : ℕ
  pages : ℕ
  deriving DecidableEq

/-- The four bytes from an address on are in the pages. -/
def Grant.HasWord (grant : Grant) (address : ℕ) : Prop :=
  grant.start ≤ address ∧ address + 4 ≤ grant.start + grant.pages * 4096

instance (grant : Grant) (address : ℕ) : Decidable (grant.HasWord address) :=
  inferInstanceAs (Decidable (_ ∧ _))

/-- The globals `first_free_open_file_index`, `open_file_cache_size` and
`open_file_cache`, and the memory: its words, and what was handed out and not freed
yet. -/
structure FileTable where
  firstFreeOpenFileIndex : ℕ
  openFileCacheSize : ℕ
  openFileCache : ℕ
  words : ℕ → ℕ
  grants : List Grant
  mallocs : ℕ

/-- The globals before the first call. -/
def FileTable.init (words : ℕ → ℕ) : FileTable := ⟨0, 0, 0, words, [], 0⟩

/-- The place of an index. -/
def FileTable.place (table : FileTable) (i : ℕ) : ℕ :=
  (table.openFileCache + 4 * i) % 2 ^ 32

/-- A word that is read, `none` outside the memory of the table. -/
def FileTable.loadWord (table : FileTable) (address : ℕ) : Option ℕ :=
  if ∃ grant ∈ table.grants, grant.HasWord address then some (table.words address)
  else none

def FileTable.storeWord (table : FileTable) (address value : ℕ) : Option FileTable :=
  if ∃ grant ∈ table.grants, grant.HasWord address then
    some { table with words := Function.update table.words address value }
  else none

/-! ## The function -/

/-- The search for an empty place, with the number of indices left. -/
def insertFrom (file : ℕ) : ℕ → FileTable → ℕ → Option (FileTable × Option ℕ)
  | 0, table, _ => some (table, none)
  | rounds + 1, table, i =>
      match table.loadWord (table.place i) with
      | none => none
      | some entry =>
          if entry ≠ 0 then insertFrom file rounds table (i + 1)
          else
            match { table with firstFreeOpenFileIndex := i }.storeWord
              (table.place i) file with
            | none => none
            | some table => some (table, some i)

/-- The loop behind `malloc`.  Each round assigns to the pointer. -/
def clearNewCache : ℕ → ℕ → ℕ
  | 0, newCache => newCache
  | rounds + 1, _ => clearNewCache rounds 0

/-- `memcpy` of the old entries, from entry `i` on. -/
def copyEntries (src dest : ℕ) : ℕ → FileTable → ℕ → Option FileTable
  | 0, table, _ => some table
  | rounds + 1, table, i =>
      match table.loadWord ((src + 4 * i) % 2 ^ 32) with
      | none => none
      | some entry =>
          match table.storeWord ((dest + 4 * i) % 2 ^ 32) entry with
          | none => none
          | some table => copyEntries src dest rounds table (i + 1)

/-- `new_pages`.  The pages in use are computed from the number of entries. -/
def FileTable.newPages (table : FileTable) : ℕ :=
  (table.openFileCacheSize + 4095) % 2 ^ 32 / 4096 + 4

section Open

/- The addresses that `malloc` returns, one call after the other. -/
variable (malloc : ℕ → ℕ)

/-- `malloc` of the new table. -/
def FileTable.granted (table : FileTable) : FileTable :=
  { table with
    grants := ⟨malloc table.mallocs, table.newPages⟩ :: table.grants
    mallocs := table.mallocs + 1 }

/-- The lines of `fat32_cache_open` that get a larger table. -/
def FileTable.grow (table : FileTable) : Option FileTable :=
  let newSize := table.newPages * 4096 % 2 ^ 32 / 4
  let newCache := clearNewCache newSize (malloc table.mallocs)
  match copyEntries table.openFileCache newCache table.openFileCacheSize
      (table.granted malloc) 0 with
  | none => none
  | some copied =>
      some { copied with
        openFileCacheSize := newSize
        openFileCache := newCache
        grants := copied.grants.filter fun grant => grant.start ≠ table.openFileCache }

/-- `fat32_cache_open`, with a bound for its calls of itself; `none` when that is too
small, or an access leaves the memory of the table. -/
def fat32CacheOpen : ℕ → FileTable → ℕ → Option (FileTable × ℕ)
  | 0, _, _ => none
  | depth + 1, table, file =>
      match insertFrom file (table.openFileCacheSize - table.firstFreeOpenFileIndex) table
          table.firstFreeOpenFileIndex with
      | none => none
      | some (table, some i) => some (table, i)
      | some (table, none) =>
          match table.grow malloc with
          | none => none
          | some table => fat32CacheOpen depth table file

/-- A sequence of calls, with the indices that they return. -/
def openAll (depth : ℕ) : FileTable → List ℕ → Option (FileTable × List ℕ)
  | table, [] => some (table, [])
  | table, file :: files =>
      match fat32CacheOpen malloc depth table file with
      | none => none
      | some (table, i) =>
          match openAll depth table files with
          | none => none
          | some (table, indices) => some (table, i :: indices)

/-- All calls return, inside the memory of the table, and in the end each file is at
the index of its own that its call returned. -/
def KeepsHandles (table : FileTable) (files : List ℕ) : Prop :=
  ∃ (depth : ℕ) (final : FileTable) (indices : List ℕ),
    openAll malloc depth table files = some (final, indices) ∧
    indices.Nodup ∧ indices.length = files.length ∧
    ∀ (k i file : ℕ), indices[k]? = some i → files[k]? = some file →
      final.loadWord (final.place i) = some file

/-! ## After a growth -/

theorem clearNewCache_eq {rounds : ℕ} (hrounds : 0 < rounds) (newCache : ℕ) :
    clearNewCache rounds newCache = 0 := by
  induction rounds generalizing newCache with
  | zero => exact absurd hrounds (lt_irrefl 0)
  | succ rounds ih =>
      rw [clearNewCache]
      by_cases hlast : rounds = 0
      · rw [hlast, clearNewCache]
      · exact ih (Nat.pos_of_ne_zero hlast) 0

/-- The null pointer is nobody's memory. -/
theorem not_hasWord_zero {grant : Grant} (hstart : 0 < grant.start) : ¬ grant.HasWord 0 := by
  intro hword
  exact absurd hword.1 (by omega)

variable {malloc} {table : FileTable}

theorem loadWord_zero (hgrants : ∀ grant ∈ table.grants, 0 < grant.start) :
    table.loadWord 0 = none := by
  rw [FileTable.loadWord, if_neg]
  rintro ⟨grant, hmem, hword⟩
  exact not_hasWord_zero (hgrants grant hmem) hword

/-- The first growth leaves a null pointer, and says that there are entries. -/
theorem grow_init {words : ℕ → ℕ} {grown : FileTable} (hmalloc : ∀ n, 0 < malloc n)
    (hgrow : (FileTable.init words).grow malloc = some grown) :
    grown.openFileCache = 0 ∧ grown.openFileCacheSize = 4096 ∧
      grown.firstFreeOpenFileIndex = 0 ∧ ∀ grant ∈ grown.grants, 0 < grant.start := by
  have hsize : (FileTable.init words).newPages * 4096 % 2 ^ 32 / 4 = 4096 := by
    simp [FileTable.newPages, FileTable.init]
  rw [FileTable.grow, hsize, clearNewCache_eq (by decide)] at hgrow
  simp only [FileTable.init, copyEntries, Option.some.injEq] at hgrow
  subst hgrow
  refine ⟨rfl, rfl, rfl, ?_⟩
  intro grant hmem
  obtain rfl := List.mem_singleton.mp (List.mem_filter.mp hmem).1
  exact hmalloc 0

/-- The first call reads the first entry of a table at address 0. -/
theorem fat32CacheOpen_init (hmalloc : ∀ n, 0 < malloc n) (words : ℕ → ℕ)
    (depth file : ℕ) : fat32CacheOpen malloc depth (.init words) file = none := by
  cases depth with
  | zero => rfl
  | succ depth =>
      rw [fat32CacheOpen]
      simp only [FileTable.init, Nat.sub_self, insertFrom]
      cases hgrow : (FileTable.mk 0 0 0 words [] 0).grow malloc with
      | none => rfl
      | some grown =>
          obtain ⟨hcache, hsize, hfirst, hgrants⟩ := grow_init hmalloc hgrow
          have hplace : grown.place 0 = 0 := by
            rw [FileTable.place, hcache, Nat.zero_add, Nat.mul_zero, Nat.zero_mod]
          dsimp only
          cases depth with
          | zero => rfl
          | succ depth =>
              rw [fat32CacheOpen, hsize, hfirst, Nat.sub_zero]
              have hinsert : insertFrom file 4096 grown 0 = none := by
                rw [insertFrom, hplace, loadWord_zero hgrants]
              rw [hinsert]

/-- The table keeps the files of a sequence of calls only when there are no calls. -/
theorem keepsHandles_iff (malloc : ℕ → ℕ) (hmalloc : ∀ n, 0 < malloc n) (words : ℕ → ℕ)
    (files : List ℕ) : KeepsHandles malloc (.init words) files ↔ files = [] := by
  constructor
  · rintro ⟨depth, final, indices, hopen, -⟩
    cases files with
    | nil => rfl
    | cons file files =>
        rw [openAll, fat32CacheOpen_init hmalloc] at hopen
        cases hopen
  · rintro rfl
    exact ⟨0, .init words, [], rfl, List.nodup_nil, rfl, by simp⟩

end Open

theorem keepsHandles_nil : KeepsHandles (fun _ => 4096) (.init fun _ => 0) [] := by
  exact (keepsHandles_iff (fun _ => 4096) (fun _ => by decide) (fun _ => 0) []).mpr rfl

/-- The first file that is opened is not kept. -/
theorem keepsHandles_first :
    ¬ ∀ files, KeepsHandles (fun n => 0x100000 * (n + 1)) (.init fun _ => 0) files := by
  intro hall
  obtain ⟨depth, final, indices, hopen, -⟩ := hall [0x2000]
  rw [openAll, fat32CacheOpen_init fun n => by omega] at hopen
  cases hopen

end KimisOS.Fat32
