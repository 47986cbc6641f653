import KimisOS.Core.Run
import KimisOS.Fat32.Write

/-!
# The write-back of the table

A window has 64 KiB, whatever the size of the table.  The last window then also
holds bytes behind the table, and its write-back puts them on the device.  They
are still those of the device unless file data has been written there while the
window was in the cache.
-/

namespace KimisOS.Fat32

open KimisOS.ByteStore KimisOS.Run

/-- The byte of the device belongs to the first table. -/
def Mount.InFat (mount : Mount) (a : ℕ) : Prop :=
  mount.windowOffset 0 ≤ a ∧
    a < mount.windowOffset 0 + mount.bpb.sectorsPerFat * mount.bpb.bytesPerSector

instance (mount : Mount) (a : ℕ) : Decidable (mount.InFat a) :=
  inferInstanceAs (Decidable (_ ∧ _))

/-- The byte of the device is in the cached window. -/
def Mount.Cached (mount : Mount) (a : ℕ) : Prop :=
  mount.fatCacheAllocated = true ∧ mount.windowOffset mount.fatCacheStart ≤ a ∧
    a < mount.windowOffset mount.fatCacheStart + 65536

/-- Accesses to the table, and writes of file data. -/
inductive VolumeOp where
  | get (index : ℕ)
  | set (index : ℕ) (value : UInt32)
  | write (offset count : ℕ) (bytes : ℕ → UInt8)

def volumeStep (vol : Volume) : VolumeOp → Option Volume
  | .get index => some (fat32GetNextCluster vol index).1
  | .set index value => some (fat32SetNextCluster vol index value.toNat)
  | .write offset count bytes => some (fwrite vol bytes offset count)

/-- Entries are of 28-bit numbers and only entries of the table are set; file
data changes no byte behind the table that is in the cached window. -/
def Harmless (vol : Volume) : VolumeOp → Prop
  | .get index => index < 2 ^ 28
  | .set index _ => index < 2 ^ 28 ∧ ∀ k < 4,
      vol.mount.InFat (vol.mount.windowOffset (index / 16384 * 16384) +
        (4 * (index % 16384) + k))
  | .write offset count bytes => ∀ k < count, ¬vol.mount.InFat (offset + k) →
      vol.mount.Cached (offset + k) → bytes k = vol.device (offset + k)

/-- The cache is empty, or it holds a window that agrees with the device on the
bytes outside the table. -/
structure WindowInv (vol : Volume) : Prop where
  empty : vol.mount.fatCacheAllocated = false → vol.mount.fatCacheSize = 0
  size : vol.mount.fatCacheAllocated = true → vol.mount.fatCacheSize = 16384
  window : vol.mount.fatCacheAllocated = true → ∃ index < 2 ^ 28,
    vol.mount.fatCacheStart = index / 16384 * 16384
  mirrors : ∀ a, ¬vol.mount.InFat a → vol.mount.Cached a →
    vol.mount.fatCache (a - vol.mount.windowOffset vol.mount.fatCacheStart) = vol.device a

section Invariant

variable {vol : Volume}

theorem WindowInv.start_eq (hinv : WindowInv vol) {index : ℕ} (hindex : index < 2 ^ 28)
    (hcovered : fat32CheckBounds vol.mount index = true) :
    vol.mount.fatCacheAllocated = true ∧
      vol.mount.fatCacheStart = index / 16384 * 16384 := by
  cases halloc : vol.mount.fatCacheAllocated with
  | false => simp [fat32CheckBounds, hinv.empty halloc] at hcovered
  | true =>
      obtain ⟨start, hstart, hwindow⟩ := hinv.window halloc
      simp only [fat32CheckBounds, hinv.size halloc, Bool.and_eq_true, bne_iff_ne,
        decide_eq_true_eq, hwindow] at hcovered
      have heq : start / 16384 = index / 16384 := by omega
      rw [hwindow, heq]
      exact ⟨rfl, rfl⟩

/-- The write-back changes bytes of the table only. -/
theorem WindowInv.writtenBack_outside (hinv : WindowInv vol) {a : ℕ}
    (ha : ¬vol.mount.InFat a) : writtenBack vol a = vol.device a := by
  unfold writtenBack
  split
  case isTrue hdirty =>
    by_cases hcached : vol.mount.Cached a
    · have hat : a = vol.mount.windowOffset vol.mount.fatCacheStart +
          (a - vol.mount.windowOffset vol.mount.fatCacheStart) := by
        have := hcached.2.1
        omega
      have hlt : a - vol.mount.windowOffset vol.mount.fatCacheStart < 65536 := by
        have := hcached.2
        omega
      rw [← hinv.mirrors a ha hcached]
      conv_lhs => rw [hat]
      exact store_inside hlt
    · apply store_outside
      by_contra hinside
      exact hcached ⟨hdirty.1, by omega, by omega⟩
  case isFalse => rfl

theorem windowInv_recache (vol : Volume) {index : ℕ} (hindex : index < 2 ^ 28) :
    WindowInv (recacheFat32Table vol index) := by
  rw [recacheFat32Table_eq]
  refine ⟨?_, fun _ => rfl, fun _ => ⟨index, hindex, rfl⟩, ?_⟩
  · intro hempty
    cases hempty
  · intro a _ hcached
    change load (writtenBack vol) (vol.mount.windowOffset (index / 16384 * 16384))
      (a - vol.mount.windowOffset (index / 16384 * 16384)) = writtenBack vol a
    have hle : vol.mount.windowOffset (index / 16384 * 16384) ≤ a := hcached.2.1
    rw [load, Nat.add_sub_of_le hle]

theorem WindowInv.cacheEntry (hinv : WindowInv vol) {index : ℕ} (hindex : index < 2 ^ 28) :
    WindowInv (cacheEntry vol index) ∧
      (Fat32.cacheEntry vol index).mount.fatCacheStart = index / 16384 * 16384 ∧
      SameGeometry vol (Fat32.cacheEntry vol index) := by
  unfold Fat32.cacheEntry
  split
  case isTrue hcovered =>
    exact ⟨hinv, (hinv.start_eq hindex hcovered).2, rfl, rfl, rfl, rfl⟩
  case isFalse =>
    refine ⟨windowInv_recache vol hindex, ?_⟩
    rw [recacheFat32Table_eq]
    exact ⟨rfl, rfl, rfl, rfl, rfl⟩

theorem SameGeometry.windowOffset {vol' : Volume} (hsame : SameGeometry vol vol')
    (start : ℕ) : vol'.mount.windowOffset start = vol.mount.windowOffset start := by
  rw [Mount.windowOffset, Mount.windowOffset, hsame.fatStartSector, hsame.blockSizeBytes]

theorem SameGeometry.inFat {vol' : Volume} (hsame : SameGeometry vol vol') (a : ℕ) :
    vol'.mount.InFat a ↔ vol.mount.InFat a := by
  rw [Mount.InFat, Mount.InFat, hsame.windowOffset, hsame.bpb]

/-- Setting an entry of the table changes bytes of the table only. -/
theorem WindowInv.set (hinv : WindowInv vol) {index : ℕ} (hindex : index < 2 ^ 28)
    (value : ℕ)
    (hentry : ∀ k < 4, vol.mount.InFat
      (vol.mount.windowOffset (index / 16384 * 16384) + (4 * (index % 16384) + k))) :
    WindowInv (fat32SetNextCluster vol index value) := by
  obtain ⟨hnew, hstart, hsame⟩ := hinv.cacheEntry hindex
  refine ⟨hnew.empty, hnew.size, hnew.window, ?_⟩
  intro a ha hcached
  have hlocal : index - index / 16384 * 16384 = index % 16384 := by omega
  have hkept := hnew.mirrors a ha hcached
  have hle : vol.mount.windowOffset (index / 16384 * 16384) ≤ a := by
    have := hcached.2.1
    change (Fat32.cacheEntry vol index).mount.windowOffset
      (Fat32.cacheEntry vol index).mount.fatCacheStart ≤ a at this
    rwa [hstart, hsame.windowOffset] at this
  rw [hstart, hsame.windowOffset] at hkept
  change writeU32 (Fat32.cacheEntry vol index).mount.fatCache
    (4 * (index - (Fat32.cacheEntry vol index).mount.fatCacheStart)) value
    (a - (Fat32.cacheEntry vol index).mount.windowOffset
      (Fat32.cacheEntry vol index).mount.fatCacheStart) = _
  rw [hstart, hsame.windowOffset, hlocal, writeU32, store_outside]
  · exact hkept
  · by_contra hinside
    refine ha ((hsame.inFat a).mpr ?_)
    have hin := hentry (a - vol.mount.windowOffset (index / 16384 * 16384) -
      4 * (index % 16384)) (by omega)
    have hat : vol.mount.windowOffset (index / 16384 * 16384) + (4 * (index % 16384) +
        (a - vol.mount.windowOffset (index / 16384 * 16384) - 4 * (index % 16384))) = a := by
      omega
    rwa [hat] at hin

theorem WindowInv.fwrite (hinv : WindowInv vol) {bytes : ℕ → UInt8} {offset count : ℕ}
    (hclear : ∀ k < count, ¬vol.mount.InFat (offset + k) →
      vol.mount.Cached (offset + k) → bytes k = vol.device (offset + k)) :
    WindowInv (fwrite vol bytes offset count) := by
  refine ⟨hinv.empty, hinv.size, hinv.window, ?_⟩
  intro a ha hcached
  change vol.mount.fatCache (a - vol.mount.windowOffset vol.mount.fatCacheStart) =
    store vol.device offset bytes count a
  rw [hinv.mirrors a ha hcached]
  by_cases hinside : offset ≤ a ∧ a < offset + count
  · obtain ⟨k, rfl⟩ := Nat.exists_eq_add_of_le hinside.1
    rw [store_inside (by omega), hclear k (by omega) ha hcached]
  · rw [store_outside (by omega)]

end Invariant

theorem windowInv_step (vol : Volume) (op : VolumeOp) (next : Volume)
    (hinv : WindowInv vol) (hharmless : Harmless vol op)
    (hstep : volumeStep vol op = some next) : WindowInv next := by
  cases op with
  | get index =>
      obtain rfl := Option.some.inj hstep
      exact (hinv.cacheEntry hharmless).1
  | set index value =>
      obtain rfl := Option.some.inj hstep
      exact hinv.set hharmless.1 value.toNat hharmless.2
  | write offset count bytes =>
      obtain rfl := Option.some.inj hstep
      exact hinv.fwrite hharmless

/-- From a fresh mount on, wherever a run of harmless steps leads, a write-back
changes no byte outside the table. -/
theorem writeBack_inside_fat (vol : Volume) (ops : List VolumeOp) (reached : Volume)
    (hfresh : FreshCache vol.mount) (hharmless : Meets volumeStep Harmless vol ops)
    (hrun : exec volumeStep vol ops = some reached) (index a : ℕ)
    (ha : ¬reached.mount.InFat a) :
    (recacheFat32Table reached index).device a = reached.device a := by
  have hnever : vol.mount.fatCacheAllocated ≠ true := by
    rw [hfresh.notAllocated]
    exact Bool.false_ne_true
  have hinit : WindowInv vol :=
    ⟨fun _ => hfresh.sizeZero, fun h => absurd h hnever, fun h => absurd h hnever,
      fun _ _ hcached => absurd hcached.1 hnever⟩
  have hinv := exec_invariant windowInv_step hinit hharmless hrun
  rw [recacheFat32Table_eq]
  exact hinv.writtenBack_outside ha

/-- A volume with a table of 129 sectors, on a device of zeros. -/
def oddVolume : Volume where
  mount :=
    { bpb := ⟨512, 1, 1, 1, 16640, 129⟩
      blockSizeBytes := 512
      cacheDirty := false
      fatSearchStart := 0
      fatStartSector := 1
      dataStartSector := 130
      fatCacheStart := 0
      fatCacheSize := 0
      fatCacheAllocated := false
      fatCache := fun _ => 0 }
  device := fun _ => 0

/-- File data far behind the window. -/
theorem writeBack_inside_fat_far :
    ∃ reached, exec volumeStep oddVolume
        [.set 16400 7, .write 200000 512 (fun _ => 1)] = some reached ∧
      (recacheFat32Table reached 0).device 66560 = reached.device 66560 := by
  refine ⟨_, rfl, ?_⟩
  apply writeBack_inside_fat oddVolume [.set 16400 7, .write 200000 512 (fun _ => 1)] _
    ⟨rfl, rfl⟩ _ rfl
  · decide +kernel
  · refine ⟨⟨by decide, ?_⟩, ?_, trivial⟩
    · decide +kernel
    · intro k hk _ hcached
      have hlt : 200000 + k < 131584 := hcached.2.2
      omega

/-- The first data cluster is written while the last window of the table is in
the cache, and the write-back of the window restores its old byte. -/
theorem writeBack_restores_data :
    ∃ reached, exec volumeStep oddVolume
        [.set 16400 7, .write 66560 512 (fun _ => 1)] = some reached ∧
      ¬reached.mount.InFat 66560 ∧ reached.device 66560 = 1 ∧
      (recacheFat32Table reached 0).device 66560 = 0 := by
  refine ⟨_, rfl, ?_, ?_, ?_⟩
  · decide +kernel
  · decide +kernel
  · decide +kernel

end KimisOS.Fat32
