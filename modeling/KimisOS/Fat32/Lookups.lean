import KimisOS.Fat32.Flat

/-!
# What lookups do to the device

Looking up entries of the table keeps the table, but a lookup outside the
cached window brings a dirty window to the device first.  Everything that is
read after such a lookup is read from the device with the window on it, which
may differ from the device before behind the table.
-/

namespace KimisOS.Fat32

open KimisOS.ByteStore

/-- The device after the entries of these clusters have been looked up. -/
def deviceAfter (vol : Volume) (visited : List ℕ) : ℕ → UInt8 :=
  if ∀ cluster ∈ visited, fat32CheckBounds vol.mount cluster = true then vol.device
  else writtenBack vol

/-- The volume after the entries of these clusters have been looked up. -/
structure LookedUp (count : ℕ) (vol : Volume) (visited : List ℕ) (reached : Volume) :
    Prop where
  cache : CacheInv count reached
  entries : ∀ index < count, fatEntry reached index = fatEntry vol index
  geometry : SameGeometry vol reached
  device : reached.device = deviceAfter vol visited
  window : (reached = vol ∧
      ∀ cluster ∈ visited, fat32CheckBounds vol.mount cluster = true) ∨
    (writtenBack reached = reached.device ∧
      ¬∀ cluster ∈ visited, fat32CheckBounds vol.mount cluster = true)

section LookedUp

variable {count : ℕ} {vol reached : Volume} {visited : List ℕ}

@[simp]
theorem deviceAfter_nil (vol : Volume) : deviceAfter vol [] = vol.device := by
  rw [deviceAfter, if_pos]
  intro cluster hmem
  cases hmem

theorem LookedUp.refl (hcache : CacheInv count vol) : LookedUp count vol [] vol where
  cache := hcache
  entries := fun _ _ => rfl
  geometry := ⟨rfl, rfl, rfl, rfl⟩
  device := (deviceAfter_nil vol).symm
  window := .inl ⟨rfl, fun _ hmem => absurd hmem List.not_mem_nil⟩

theorem fat32GetNextCluster_cached {index : ℕ}
    (hbounds : fat32CheckBounds vol.mount index = true) :
    (fat32GetNextCluster vol index).1 = vol := by
  rw [fat32GetNextCluster, cacheEntry, if_pos hbounds]

/-- Loading a window writes the other one back. -/
theorem fat32GetNextCluster_loads {index : ℕ}
    (hbounds : fat32CheckBounds vol.mount index ≠ true) :
    (fat32GetNextCluster vol index).1.device = writtenBack vol ∧
      writtenBack (fat32GetNextCluster vol index).1 = writtenBack vol := by
  rw [fat32GetNextCluster, cacheEntry, if_neg hbounds, recacheFat32Table_eq]
  refine ⟨rfl, ?_⟩
  rw [writtenBack, if_neg]
  simp

theorem LookedUp.get (hlooked : LookedUp count vol visited reached) {index : ℕ}
    (hindex : index < count) :
    LookedUp count vol (visited ++ [index]) (fat32GetNextCluster reached index).1 ∧
      (fat32GetNextCluster reached index).2 = fatEntry vol index := by
  obtain ⟨hcache, hvalue, hsame, hgeometry, -⟩ := hlooked.cache.get hindex
  have hentries : ∀ other < count,
      fatEntry (fat32GetNextCluster reached index).1 other = fatEntry vol other := by
    intro other hother
    exact (hsame other hother).trans (hlooked.entries other hother)
  have hkept : SameGeometry vol (fat32GetNextCluster reached index).1 :=
    hlooked.geometry.trans hgeometry
  have hall : (∀ cluster ∈ visited ++ [index],
      fat32CheckBounds vol.mount cluster = true) ↔
        (∀ cluster ∈ visited, fat32CheckBounds vol.mount cluster = true) ∧
          fat32CheckBounds vol.mount index = true := by
    simp [or_imp, forall_and]
  refine ⟨?_, hvalue.trans (hlooked.entries index hindex)⟩
  obtain ⟨rfl, hinside⟩ | ⟨hsettled, hleft⟩ := hlooked.window
  · by_cases hbounds : fat32CheckBounds reached.mount index = true
    · refine ⟨hcache, hentries, hkept, ?_, .inl ⟨?_, hall.mpr ⟨hinside, hbounds⟩⟩⟩
      · rw [deviceAfter, if_pos (hall.mpr ⟨hinside, hbounds⟩),
          fat32GetNextCluster_cached hbounds]
      · exact fat32GetNextCluster_cached hbounds
    · have hout : ¬∀ cluster ∈ visited ++ [index],
          fat32CheckBounds reached.mount cluster = true := fun h => hbounds (hall.mp h).2
      obtain ⟨hdevice, hback⟩ := fat32GetNextCluster_loads hbounds
      refine ⟨hcache, hentries, hkept, ?_, .inr ⟨hback.trans hdevice.symm, hout⟩⟩
      rw [deviceAfter, if_neg hout, hdevice]
  · have hout : ¬∀ cluster ∈ visited ++ [index],
        fat32CheckBounds vol.mount cluster = true := fun h => hleft (hall.mp h).1
    have hbefore : reached.device = writtenBack vol := by
      rw [hlooked.device, deviceAfter, if_neg hleft]
    have hquiet : (fat32GetNextCluster reached index).1.device = reached.device ∧
        writtenBack (fat32GetNextCluster reached index).1 =
          (fat32GetNextCluster reached index).1.device := by
      by_cases hbounds : fat32CheckBounds reached.mount index = true
      · rw [fat32GetNextCluster_cached hbounds]
        exact ⟨rfl, hsettled⟩
      · obtain ⟨hdevice, hback⟩ := fat32GetNextCluster_loads hbounds
        exact ⟨hdevice.trans hsettled, hback.trans hdevice.symm⟩
    refine ⟨hcache, hentries, hkept, ?_, .inr ⟨hquiet.2, hout⟩⟩
    rw [deviceAfter, if_neg hout, hquiet.1, hbefore]

end LookedUp

end KimisOS.Fat32
