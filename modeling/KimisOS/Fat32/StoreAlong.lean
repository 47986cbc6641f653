import KimisOS.Fat32.CreateFailure
import KimisOS.Fat32.EntryWriteback
import KimisOS.Fat32.ReadBytes
import KimisOS.Fat32.Reopen

/-!
# Storing along a chain

A write that the chain is long enough for sets no entry of the table: the bytes get into
the clusters one behind the other, and at the end the directory entry is written back.
-/

namespace KimisOS.Fat32

open KimisOS.ByteStore

/-! ## The bytes of the data area -/

/-- A window that is still to be written back ends before the data area. -/
def Volume.EndsBeforeData (bpb : Bpb) (vol : Volume) : Prop :=
  vol.mount.fatCacheAllocated = true ∧ vol.mount.cacheDirty = true →
    vol.mount.windowOffset vol.mount.fatCacheStart + 65536 ≤ bpb.dataOffset

/-- The data area is the same, and write-backs will not change it. -/
structure SameData (bpb : Bpb) (vol vol' : Volume) : Prop where
  geometry : SameGeometry vol vol'
  ends : vol'.EndsBeforeData bpb
  bytes : ∀ a, bpb.dataOffset ≤ a → vol'.device a = vol.device a

section Data

variable {bpb : Bpb} {clusters : ℕ} {base vol vol' : Volume} {file : OpenFile}

theorem Volume.EndsBeforeData.settled (hends : vol.EndsBeforeData bpb) :
    vol.Settled bpb := by
  intro a ha
  rw [writtenBack]
  split
  case isTrue hdirty => exact store_outside (.inr ((hends hdirty).trans ha))
  case isFalse => rfl

theorem Volume.EndsBeforeData.refl (hends : vol.EndsBeforeData bpb) : SameData bpb vol vol :=
  ⟨⟨rfl, rfl, rfl, rfl⟩, hends, fun _ _ => rfl⟩

theorem Volume.EndsBeforeData.fwrite (hends : vol.EndsBeforeData bpb)
    (bytes : ℕ → UInt8) (offset count : ℕ) :
    (Fat32.fwrite vol bytes offset count).EndsBeforeData bpb := hends

theorem fwrite_device (vol : Volume) (bytes : ℕ → UInt8) (offset count : ℕ) :
    (fwrite vol bytes offset count).device = store vol.device offset bytes count := rfl

theorem SameData.get (hsame : SameData bpb base vol) (index : ℕ) :
    SameData bpb base (fat32GetNextCluster vol index).1 := by
  change SameData bpb base (cacheEntry vol index)
  rcases cacheEntry_eq vol index with ⟨-, heq⟩ | ⟨-, heq⟩
  · rw [heq]
    exact hsame
  · rw [heq, recacheFat32Table_eq]
    refine ⟨hsame.geometry.trans ⟨rfl, rfl, rfl, rfl⟩, ?_, ?_⟩
    · rintro ⟨-, hdirty⟩
      cases hdirty
    · intro a ha
      exact (hsame.ends.settled a ha).trans (hsame.bytes a ha)

theorem Accessed.sameData (haccessed : Accessed vol vol') (hsame : SameData bpb base vol) :
    SameData bpb base vol' := by
  induction haccessed with
  | refl => exact hsame
  | get _ _ ih => exact ih.get _

theorem SameData.walk {steps left cluster : ℕ} {reached : Volume} {result : Option ℕ}
    (hsame : SameData bpb base vol)
    (hwalk : direntClusterFrom steps left vol cluster = (reached, result)) :
    SameData bpb base reached := by
  induction left generalizing vol cluster with
  | zero =>
      obtain ⟨rfl, -⟩ := Prod.mk.inj hwalk
      exact hsame
  | succ left ih =>
      rw [direntClusterFrom] at hwalk
      split at hwalk
      case isTrue =>
        obtain ⟨rfl, -⟩ := Prod.mk.inj hwalk
        exact hsame
      case isFalse => exact ih (hsame.get cluster) hwalk

theorem Bpb.dataOffset_le_fileAddress (bpb : Bpb) (chain : List ℕ) (x : ℕ) :
    bpb.dataOffset ≤ bpb.fileAddress chain x := by
  rw [Bpb.fileAddress]
  exact (bpb.dataOffset_le_clusterStart _).trans (Nat.le_add_right _ _)

/-- Bytes of the file are read as they are on the device. -/
theorem Volume.EndsBeforeData.readByte_eq (hends : vol.EndsBeforeData bpb) (chain : List ℕ)
    (x : ℕ) : readByte bpb vol chain x = vol.device (bpb.fileAddress chain x) := by
  apply readByte_eq_iff.mpr
  right
  exact hends.settled _ (bpb.dataOffset_le_fileAddress chain x)

end Data

/-! ## The write-back of the entry -/

section Writeback

variable {bpb : Bpb} {clusters index a : ℕ} {vol vol' : Volume} {mount : Mount}
  {file : OpenFile} {device page : ℕ → UInt8}

theorem IsField.bounds {k : ℕ} (hk : IsField k) : 0 < k ∧ k < 32 := by
  rcases hk with rfl | hk | hk <;> omega

theorem Geometry.sector_dvd (hgeo : Geometry bpb clusters) : 32 ∣ bpb.bytesPerSector := by
  obtain ⟨k, hpower⟩ := hgeo.powerOfTwo
  have hdvd : bpb.bytesPerSector ∣ 2 ^ k := ⟨bpb.sectorsPerCluster, hpower.symm⟩
  obtain ⟨j, -, hj⟩ := (Nat.dvd_prime_pow Nat.prime_two).mp hdvd
  have hge := hgeo.sector
  rw [hj] at hge ⊢
  have hfive : 5 ≤ j := by
    by_contra hless
    have hle : 2 ^ j ≤ 2 ^ 4 := Nat.pow_le_pow_right (by decide) (by omega)
    omega
  exact Nat.pow_dvd_pow 2 hfive

/-- Entries start at multiples of 32. -/
theorem Mounted.clusterOffset_dvd (hmounted : Mounted bpb mount)
    (hgeo : Geometry bpb clusters) (cluster : ℕ) :
    32 ∣ mount.clusterOffset cluster % 2 ^ 32 := by
  have hsector := hgeo.sector_dvd
  have hword : 32 ∣ 2 ^ 32 := by norm_num
  rw [Nat.dvd_mod_iff hword, Mount.clusterOffset, hmounted.bpb_eq]
  apply Nat.dvd_add
  · rw [Nat.dvd_mod_iff hword]
    exact Dvd.dvd.mul_left hgeo.entry_dvd _
  · rw [Nat.dvd_mod_iff hword]
    exact Dvd.dvd.mul_left hsector _

/-- A byte of a page that is written back is as before, or one of the fields. -/
theorem page_byte (a b : ℕ) :
    store device a (setDirent (load device a) index file) 4096 b = device b ∨
      ∃ k, IsField k ∧ b = a + 32 * index + k ∧
        store device a (setDirent (load device a) index file) 4096 b = file.fieldByte k := by
  by_cases hin : a ≤ b ∧ b < a + 4096
  · obtain ⟨j, rfl⟩ := Nat.exists_eq_add_of_le hin.1
    rw [store_inside (by omega)]
    by_cases hfield : ∃ k, IsField k ∧ j = 32 * index + k
    · obtain ⟨k, hk, rfl⟩ := hfield
      exact .inr ⟨k, hk, by omega, setDirent_field hk⟩
    · left
      apply setDirent_kept
      intro k hk heq
      exact hfield ⟨k, hk, heq⟩
  · exact .inl (store_outside (by omega))

/-- `dirent_writeback` keeps the first bytes of entries. -/
theorem direntWriteback_first (hends : vol.EndsBeforeData bpb)
    (hgeo : Geometry bpb clusters) (hmounted : Mounted bpb vol.mount)
    (ha : bpb.dataOffset ≤ a) (hentry : 32 ∣ a) :
    (direntWriteback vol file).EndsBeforeData bpb ∧
      (direntWriteback vol file).device a = vol.device a := by
  obtain ⟨reached, result, hwalk⟩ : ∃ reached result,
      direntClusterFrom (file.direntOffset / (vol.mount.bpb.clusterSizeBytes / 32))
        (file.direntOffset / (vol.mount.bpb.clusterSizeBytes / 32)) vol file.direntCluster =
          (reached, result) := ⟨_, _, rfl⟩
  have hsame := hends.refl.walk hwalk
  cases result with
  | none =>
      rw [direntWriteback, hwalk]
      exact ⟨hsame.ends, hsame.bytes a ha⟩
  | some cluster =>
      rw [direntWriteback_eq hwalk, fwrite_device, ← hsame.bytes a ha]
      refine ⟨hsame.ends.fwrite _ _ _, ?_⟩
      have hplace := (hmounted.congr hsame.geometry).clusterOffset_dvd hgeo cluster
      generalize reached.mount.clusterOffset cluster % 2 ^ 32 = offset at hplace ⊢
      rcases @page_byte _ file reached.device offset a with hkept | ⟨k, hk, heq, -⟩
      · exact hkept
      · have hbounds := hk.bounds
        omega

end Writeback

/-! ## Storing along a chain -/

section Along

variable {bpb : Bpb} {clusters rounds remaining p current head : ℕ} {vol : Volume}
  {table : ℕ → ℕ} {chain : List ℕ} {buffer : ℕ → UInt8}

/-- From place `p` on, the clusters hold these bytes of the buffer, and those in front of
it are as before. -/
structure StoredFrom (bpb : Bpb) (chain : List ℕ) (buffer : ℕ → UInt8) (p remaining : ℕ)
    (device device' : ℕ → UInt8) : Prop where
  bytes : ∀ x, p * bpb.clusterSizeBytes ≤ x → x < p * bpb.clusterSizeBytes + remaining →
    device' (bpb.fileAddress chain x) = buffer x
  before : ∀ x < p * bpb.clusterSizeBytes,
    device' (bpb.fileAddress chain x) = device (bpb.fileAddress chain x)

/-- One cluster, and then the rest. -/
theorem StoredFrom.round {device written device' : ℕ → UInt8} (hgeo : Geometry bpb clusters)
    (hchain : IsChain table (clusters + 2) head chain) (hp : chain[p]? = some current)
    (hwritten : written = store device (bpb.clusterStart current)
      (load buffer (p * bpb.clusterSizeBytes)) (min remaining bpb.clusterSizeBytes))
    (hrest : StoredFrom bpb chain buffer (p + 1)
      (remaining - min remaining bpb.clusterSizeBytes) written device') :
    StoredFrom bpb chain buffer p remaining device device' := by
  have hcs := hgeo.clusterSize_ge
  have hlt := (List.getElem?_eq_some_iff.mp hp).1
  have hbytes := hrest.bytes
  have hbefore := hrest.before
  rw [Nat.succ_mul] at hbytes hbefore
  constructor
  · intro x hfrom hto
    by_cases hhere : x < p * bpb.clusterSizeBytes + bpb.clusterSizeBytes
    · obtain ⟨r, rfl⟩ := Nat.exists_eq_add_of_le hfrom
      rw [hbefore _ hhere, hwritten, hgeo.fileAddress_eq hp (by omega),
        store_inside (by omega), load]
    · exact hbytes x (by omega) (by omega)
  · intro x hx
    have hplace : x / bpb.clusterSizeBytes < p := by
      rw [Nat.div_lt_iff_lt_mul (by omega)]
      exact hx
    rw [hbefore x (by omega), hwritten]
    apply store_outside
    by_contra hinside
    obtain ⟨r, hr⟩ := Nat.exists_eq_add_of_le (show bpb.clusterStart current ≤
      bpb.fileAddress chain x by omega)
    have hless : r < bpb.clusterSizeBytes := by omega
    rw [← hgeo.fileAddress_eq hp hless] at hr
    have hdiv : (p * bpb.clusterSizeBytes + r) / bpb.clusterSizeBytes = p := by
      rw [Nat.mul_comm, Nat.mul_add_div (by omega), Nat.div_eq_of_lt hless, Nat.add_zero]
    have hsame := hgeo.fileAddress_inj hchain (by omega) (by omega) hr
    omega

/-- The chain has been followed and stored into, and no entry has been set. -/
structure StoredAlong (bpb : Bpb) (clusters : ℕ) (table : ℕ → ℕ) (chain : List ℕ)
    (buffer : ℕ → UInt8) (p remaining : ℕ) (vol vol' : Volume) : Prop where
  consistent : Consistent bpb clusters vol'
  entries : ∀ index < clusters + 2, fatEntry vol' index = table index
  ends : vol.EndsBeforeData bpb → vol'.EndsBeforeData bpb
  stored : vol.EndsBeforeData bpb →
    StoredFrom bpb chain buffer p remaining vol.device vol'.device

/-- The table that a consistent volume shows. -/
theorem Consistent.showsTable (hconsistent : Consistent bpb clusters vol)
    (hentries : ∀ index < clusters + 2, fatEntry vol index = table index) :
    Shows bpb clusters vol ⟨table, vol.device, vol.mount.fatSearchStart⟩ :=
  ⟨hconsistent.geometry, hconsistent.mounted, hconsistent.cache, hentries,
    fun _ _ _ => rfl, rfl⟩

theorem StoredAlong.nothing (hconsistent : Consistent bpb clusters vol)
    (hentries : ∀ index < clusters + 2, fatEntry vol index = table index) :
    StoredAlong bpb clusters table chain buffer p 0 vol vol :=
  ⟨hconsistent, hentries, id, fun _ => ⟨fun x _ _ => by omega, fun _ _ => rfl⟩⟩

/-- The loop over a chain that is long enough sets no entry. -/
theorem writeClusters_along (hconsistent : Consistent bpb clusters vol)
    (hentries : ∀ index < clusters + 2, fatEntry vol index = table index)
    (hchain : IsChain table (clusters + 2) head chain)
    (hp : remaining ≠ 0 → chain[p]? = some current)
    (hfits : remaining ≤ (chain.length - p) * bpb.clusterSizeBytes)
    (hrounds : remaining ≤ rounds) :
    ∃ vol', writeClusters buffer rounds vol current remaining p = (vol', none) ∧
      StoredAlong bpb clusters table chain buffer p remaining vol vol' := by
  have hgeo := hconsistent.geometry
  have hcs := hgeo.clusterSize_ge
  induction rounds generalizing vol p current remaining with
  | zero =>
      obtain rfl : remaining = 0 := by omega
      exact ⟨vol, writeClusters_done _ _ _ _ _, .nothing hconsistent hentries⟩
  | succ rounds ih =>
      by_cases hremaining : remaining = 0
      · subst hremaining
        exact ⟨vol, writeClusters_done _ _ _ _ _, .nothing hconsistent hentries⟩
      · have hplace := hp hremaining
        have hshows := hconsistent.showsTable hentries
        have hsize : vol.mount.bpb.clusterSizeBytes = bpb.clusterSizeBytes := by
          rw [hshows.mounted.bpb_eq]
        have hstart := hshows.clusterOffset_eq (hchain.range current
          (List.mem_of_getElem? hplace))
        rw [← Bpb.clusterStart] at hstart
        generalize hwritten : fwrite vol (load buffer (p * bpb.clusterSizeBytes))
          (bpb.clusterStart current) (min remaining bpb.clusterSizeBytes) = written
        have hwrite := hshows.fwrite (load buffer (p * bpb.clusterSizeBytes))
          (min remaining bpb.clusterSizeBytes) (bpb.dataOffset_le_clusterStart current)
        rw [hwritten] at hwrite
        obtain ⟨hread, hnext⟩ := hwrite.next hchain hplace
        have hread' : Consistent bpb clusters (fat32GetNextCluster written current).1 :=
          ⟨hread.geometry, hread.mounted, hread.cache⟩
        -- behind the last cluster nothing is left
        have hmore : fat32EocMin ≤ (fat32GetNextCluster written current).2 →
            remaining - min remaining bpb.clusterSizeBytes = 0 := by
          intro heoc
          rcases hnext with ⟨hless, -⟩ | ⟨-, hlast⟩
          · omega
          · rw [show chain.length - p = 1 by omega, Nat.one_mul] at hfits
            omega
        have hp' : remaining - min remaining bpb.clusterSizeBytes ≠ 0 →
            chain[p + 1]? = some (fat32GetNextCluster written current).2 := by
          intro hleft
          rcases hnext with ⟨-, hp'⟩ | ⟨heoc, -⟩
          · exact hp'
          · exact absurd (hmore heoc) hleft
        have hfits' : remaining - min remaining bpb.clusterSizeBytes ≤
            (chain.length - (p + 1)) * bpb.clusterSizeBytes := by
          have hlt := (List.getElem?_eq_some_iff.mp hplace).1
          rw [show chain.length - p = chain.length - (p + 1) + 1 by omega, Nat.succ_mul]
            at hfits
          omega
        obtain ⟨vol', hloop, halong⟩ := ih hread' hread.entries hp' hfits' (by omega)
        refine ⟨vol', ?_, halong.consistent, halong.entries, ?_, ?_⟩
        · have hround : fwrite vol (load buffer (p * bpb.clusterSizeBytes % 2 ^ 32))
              (vol.mount.clusterOffset current) (min remaining bpb.clusterSizeBytes) =
                written := by
            rw [Nat.mod_eq_of_lt (hgeo.place_lt hchain hplace), hstart]
            exact hwritten
          have hgoes : ¬(fat32EocMin ≤ (fat32GetNextCluster written current).2 ∧
              remaining - min remaining bpb.clusterSizeBytes > 0) := by
            rintro ⟨heoc, hleft⟩
            have hnone := hmore heoc
            omega
          rw [writeClusters_next hremaining hsize hround hgoes]
          exact hloop
        · intro hends
          have hends' : written.EndsBeforeData bpb := hwritten ▸ hends.fwrite _ _ _
          exact halong.ends (hends'.refl.get current).ends
        · intro hends
          have hends' : written.EndsBeforeData bpb := hwritten ▸ hends.fwrite _ _ _
          have hkept := hends'.refl.get current
          have hrest := halong.stored hkept.ends
          have hdevice : written.device = store vol.device (bpb.clusterStart current)
              (load buffer (p * bpb.clusterSizeBytes))
              (min remaining bpb.clusterSizeBytes) := by
            rw [← hwritten, fwrite_device]
          refine StoredFrom.round hgeo hchain hplace hdevice ⟨hrest.bytes, ?_⟩
          intro x hx
          rw [hrest.before x hx]
          exact hkept.bytes _ (bpb.dataOffset_le_fileAddress chain x)

/-- The whole write, of as many bytes as the chain has room for. -/
theorem fat32Write_along {malloc : ℕ → Bool} {file : OpenFile} {count : ℕ}
    (hconsistent : Consistent bpb clusters vol)
    (hentries : ∀ index < clusters + 2, fatEntry vol index = table index)
    (hchain : IsChain table (clusters + 2) file.firstCluster chain)
    (hhas : file.firstCluster ≠ 0) (hfits : count ≤ chain.length * bpb.clusterSizeBytes) :
    ∃ vol', StoredAlong bpb clusters table chain buffer 0 count vol vol' ∧
      (fat32Write malloc vol file buffer 0 count).vol =
        direntWriteback vol' (file.extended 0 count) := by
  have hgeo := hconsistent.geometry
  have hcs := hgeo.clusterSize_ge
  have hsize : vol.mount.bpb.clusterSizeBytes = bpb.clusterSizeBytes := by
    rw [hconsistent.mounted.bpb_eq]
  have hplace := hchain.first hhas
  have hbelow := hgeo.chain_le hchain
  have hstart : udiv64 0 bpb.clusterSizeBytes = some 0 := by
    rw [udiv64, Nat.zero_div, if_pos (by decide)]
  have hquotient : (count + bpb.clusterSizeBytes - 1) % 2 ^ 64 / bpb.clusterSizeBytes <
      2 ^ 32 := by
    rw [Nat.div_lt_iff_lt_mul (by omega)]
    omega
  have hclusters : udiv64 ((count + bpb.clusterSizeBytes - 1) % 2 ^ 64)
      bpb.clusterSizeBytes =
        some ((count + bpb.clusterSizeBytes - 1) % 2 ^ 64 / bpb.clusterSizeBytes) := by
    rw [udiv64, if_pos hquotient]
  obtain ⟨vol', hloop, halong⟩ := writeClusters_along hconsistent hentries hchain
    (fun _ => hplace) (by rw [Nat.sub_zero]; exact hfits) (le_refl count)
  refine ⟨vol', halong, ?_⟩
  rw [fat32Write_from (if_neg hhas) hhas hsize hstart hclusters rfl,
    writeFrom_aligned hsize (Nat.zero_and _), writeRest_whole hloop]

end Along

end KimisOS.Fat32
