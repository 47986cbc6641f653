import KimisOS.Tools.WriteFile

/-!
# Files in the root directory

`create_file` fills in the first unused entry of the root directory.  The
driver finds in it the name, the size and the first cluster of the file.
-/

namespace KimisOS.Diskwrite

open KimisOS.ByteStore
open KimisOS.Fat32 (CString Dirent ShortEntry direntAt direntAt_congr slash)

/-- An input file whose path is a name with an extension. -/
structure NamedFile where
  base : CString
  ext : CString
  bytes : List UInt8
  baseLength : 1 ≤ base.length ∧ base.length ≤ 8
  extLength : 1 ≤ ext.length ∧ ext.length ≤ 3
  baseChars : ∀ c ∈ base, c ≠ dot ∧ c ≠ slash ∧ c ≠ 0x20 ∧ c ≠ 0
  extChars : ∀ c ∈ ext, c ≠ dot ∧ c ≠ slash ∧ c ≠ 0x20 ∧ c ≠ 0

def NamedFile.path (file : NamedFile) : CString := file.base ++ dot :: file.ext

def NamedFile.inputFile (file : NamedFile) : InputFile := ⟨file.path, file.bytes⟩

theorem NamedFile.path_ne_zero (file : NamedFile) : ∀ c ∈ file.path, c ≠ 0 := by
  intro c hc
  rcases List.mem_append.mp hc with hmem | hmem
  · exact (file.baseChars c hmem).2.2.2
  · rcases List.mem_cons.mp hmem with rfl | hmem
    · decide
    · exact (file.extChars c hmem).2.2.2

/-- The tool takes the path apart at the dot. -/
theorem NamedFile.path_split (file : NamedFile) :
    file.path.takeWhile (· != dot) = file.base ∧
      (file.path.dropWhile (· != dot)).tail? = some file.ext ∧
      file.ext.take 3 = file.ext := by
  have hbase : ∀ c ∈ file.base, (c != dot) = true := by
    intro c hc
    exact bne_iff_ne.mpr (file.baseChars c hc).1
  refine ⟨?_, ?_, List.take_of_length_le file.extLength.2⟩
  · rw [NamedFile.path, List.takeWhile_append_of_pos hbase]
    simp
  · rw [NamedFile.path, List.dropWhile_append_of_pos hbase]
    simp

/-! ## One entry -/

/-- Entry `i` of the directory is the one of a file. -/
structure Listed (files : ℕ → UInt8) (i : ℕ) (file : NamedFile) (firstCluster : ℕ) :
    Prop where
  short : ShortEntry files i file.base file.ext
  cluster : (direntAt files i).cluster = firstCluster
  size : (direntAt files i).size = file.bytes.length

section Listed

variable {files files' : ℕ → UInt8} {i : ℕ} {file : NamedFile} {firstCluster : ℕ}

theorem Listed.congr (hlisted : Listed files i file firstCluster)
    (hbytes : ∀ j < 32, files' (32 * i + j) = files (32 * i + j)) :
    Listed files' i file firstCluster := by
  have hdirent := direntAt_congr hbytes
  have hshort := hlisted.short
  refine ⟨⟨hshort.baseLength, hshort.extLength, hshort.baseChars, hshort.extChars,
    ?_, ?_, ?_⟩, ?_, ?_⟩
  · intro j hj
    rw [hbytes j (by omega)]
    exact hshort.baseBytes j hj
  · intro j hj
    rw [Nat.add_assoc, hbytes (8 + j) (by omega), ← Nat.add_assoc]
    exact hshort.extBytes j hj
  · rw [hdirent]
    exact hshort.flags
  · rw [hdirent]
    exact hlisted.cluster
  · rw [hdirent]
    exact hlisted.size

/-! ## Filling in an entry -/

variable {base ext : CString} {size : ℕ}

/-- The other entries stay. -/
theorem setFile_outside (hbase : base.length ≤ 8) (hext : ext.length ≤ 3) {a : ℕ}
    (ha : a < 32 * i ∨ 32 * i + 32 ≤ a) :
    setFile files i base ext size firstCluster a = files a := by
  rw [setFile, store_outside (by omega), store_outside (by omega), writeU32,
    store_outside (by omega), store_outside (by omega), store_outside (by omega)]

/-- A string in a place that was zero. -/
theorem store_string {mem : ℕ → UInt8} {address room : ℕ} {chars : CString}
    (hzero : ∀ j < room, mem (address + j) = 0) {j : ℕ} (hj : j < room) :
    store mem address (fun k => chars.getD k 0) chars.length (address + j) =
      chars.getD j 0 := by
  by_cases hlt : j < chars.length
  · rw [store_inside hlt]
  · rw [store_outside (by omega), hzero j hj, List.getD_eq_default _ _ (by omega)]

theorem setFile_name (hzero : ∀ j < 32, files (32 * i + j) = 0) {j : ℕ} (hj : j < 8) :
    setFile files i base ext size firstCluster (32 * i + j) = base.getD j 0 := by
  rw [setFile, store_outside (by omega), store_outside (by omega), writeU32,
    store_outside (by omega), store_outside (by omega)]
  exact store_string (fun j hj => hzero j (by omega)) hj

theorem setFile_ext (hbase : base.length ≤ 8)
    (hzero : ∀ j < 32, files (32 * i + j) = 0) {j : ℕ} (hj : j < 3) :
    setFile files i base ext size firstCluster (32 * i + 8 + j) = ext.getD j 0 := by
  rw [setFile, store_outside (by omega), store_outside (by omega), writeU32,
    store_outside (by omega)]
  apply store_string _ hj
  intro j hj
  rw [store_outside (by omega), Nat.add_assoc]
  exact hzero _ (by omega)

theorem setFile_flags (hbase : base.length ≤ 8) (hext : ext.length ≤ 3)
    (hzero : ∀ j < 32, files (32 * i + j) = 0) :
    setFile files i base ext size firstCluster (32 * i + 11) = 0 := by
  rw [setFile, store_outside (by omega), store_outside (by omega), writeU32,
    store_outside (by omega), store_outside (by omega), store_outside (by omega)]
  exact hzero 11 (by decide)

theorem setFile_size (hsize : size < 2 ^ 32) :
    readU32 (setFile files i base ext size firstCluster) (32 * i + 28) = size := by
  rw [setFile, readU32_store_outside (by omega), readU32_store_outside (by omega),
    readU32_writeU32_self, Nat.mod_eq_of_lt hsize]

theorem setFile_high (hcluster : firstCluster < 2 ^ 32) :
    readU16 (setFile files i base ext size firstCluster) (32 * i + 20) =
      firstCluster / 65536 := by
  rw [setFile, readU16_store]
  exact Nat.mod_eq_of_lt (by omega)

theorem setFile_low (firstCluster : ℕ) :
    readU16 (setFile files i base ext size firstCluster) (32 * i + 26) =
      firstCluster % 65536 := by
  rw [setFile, readU16_store_outside (by omega), readU16_store, Nat.mod_mod]

theorem startCluster_setFile (hcluster : firstCluster < 2 ^ 32) :
    startCluster (setFile files i base ext size firstCluster) i = firstCluster := by
  rw [startCluster, setFile_high hcluster, setFile_low firstCluster]
  omega

/-- The driver finds what the tool has filled in. -/
theorem Listed.setFile (file : NamedFile) (hzero : ∀ j < 32, files (32 * i + j) = 0)
    (hsize : file.bytes.length < 2 ^ 32) (hcluster : firstCluster < 2 ^ 32) :
    Listed (setFile files i file.base file.ext file.bytes.length firstCluster) i file
      firstCluster := by
  have hbase := file.baseLength
  have hext := file.extLength
  refine ⟨⟨hbase, hext, ?_, ?_, ?_, ?_, ?_⟩, ?_, ?_⟩
  · intro c hc
    exact ⟨(file.baseChars c hc).2.2.2, (file.baseChars c hc).2.2.1⟩
  · intro c hc
    exact (file.extChars c hc).2.2.2
  · intro j hj
    exact setFile_name hzero hj
  · intro j hj
    exact setFile_ext hbase.2 hzero hj
  · rw [direntAt]
    dsimp only
    rw [setFile_flags hbase.2 hext.2 hzero]
    decide
  · rw [direntAt]
    dsimp only
    rw [setFile_high hcluster, setFile_low firstCluster]
    omega
  · rw [direntAt]
    exact setFile_size hsize

end Listed

end KimisOS.Diskwrite
