import KimisOS.Fat32.MountTable
import KimisOS.Fat32.Accessed

/-!
# Usable volumes

`fat32_mount` divides by the sectors of a cluster, and so does the search for a
free cluster; `resolve_path` divides by the bytes of a cluster.  The check in
front of a mount refuses a sector only when its signature is wrong and its small
sector count is not zero, so a blank sector passes it.
-/

namespace KimisOS.Fat32

/-! ## Divisions -/

/-- How a call stops: a division by zero, or an access outside its memory. -/
inductive Fault where
  | divByZero
  | outside
  deriving DecidableEq

/-- The division instruction traps when the divisor is zero. -/
def divide (dividend divisor : ℕ) : Except Fault ℕ :=
  if divisor = 0 then .error .divByZero else .ok (dividend / divisor)

theorem divide_of_pos {divisor : ℕ} (hpos : 0 < divisor) (dividend : ℕ) :
    divide dividend divisor = .ok (dividend / divisor) :=
  if_neg hpos.ne'

/-- `sector_count` of `fat32_get_free_cluster`. -/
def Bpb.dataSectors (bpb : Bpb) : ℕ :=
  (bpb.sectorCount + 2 ^ 32 -
    (bpb.reservedSectors + bpb.fatCount * bpb.sectorsPerFat) % 2 ^ 32) % 2 ^ 32

/-- `fat32_get_free_cluster` with its division. -/
def fat32GetFreeClusterTrap (vol : Volume) : Except Fault (Volume × ℕ) :=
  match divide vol.mount.bpb.dataSectors vol.mount.bpb.sectorsPerCluster with
  | .error fault => .error fault
  | .ok entryCount =>
      .ok (findFreeCluster (entryCount - vol.mount.fatSearchStart) vol
        vol.mount.fatSearchStart)

/-- With a divisor the search is the one without traps. -/
theorem fat32GetFreeClusterTrap_eq {vol : Volume}
    (hpos : 0 < vol.mount.bpb.sectorsPerCluster) :
    fat32GetFreeClusterTrap vol = .ok (fat32GetFreeCluster vol) := by
  rw [fat32GetFreeClusterTrap, divide_of_pos hpos, fat32GetFreeCluster]
  rfl

/-- `size_clusters` of the file that `resolve_path` returns. -/
def sizeClusters (bpb : Bpb) (size : ℕ) : Except Fault ℕ :=
  divide ((size + bpb.clusterSizeBytes + 2 ^ 32 - 1) % 2 ^ 32) bpb.clusterSizeBytes

/-- `resolve_path` with its division, and the clusters of the file. -/
def resolvePathTrap (root : Root) (vol : Volume) (path : CString) :
    Except Fault (Volume × Option (OpenFile × ℕ)) :=
  match resolvePath root vol path with
  | none => .error .outside
  | some (vol, none) => .ok (vol, none)
  | some (vol, some file) =>
      match sizeClusters vol.mount.bpb file.sizeBytes with
      | .error fault => .error fault
      | .ok clusters => .ok (vol, some (file, clusters))

/-- `fat32_open`, with what stops the search for the path. -/
def fat32OpenTrap (root : Root) (vol : Volume) (path : CString) (parent : VFile) :
    Except Fault (Volume × Option VFile) :=
  match resolvePathTrap root vol path with
  | .error fault => .error fault
  | .ok _ =>
      match fat32Open root vol path parent with
      | none => .error .outside
      | some result => .ok result

/-! ## The law and its condition -/

/-- The fields that the driver reads later on. -/
def BootSector.toBpb (sector : BootSector) : Bpb :=
  ⟨sector.bytesPerSector, sector.sectorsPerCluster, sector.reservedSectors,
    sector.fatCount, sector.sectorCount, sector.sectorsPerFat⟩

structure BootSector.Usable (sector : BootSector) : Prop where
  valid : fat32CheckValid sector = true
  sectorsPerCluster : 0 < sector.sectorsPerCluster
  bytesPerSector : 0 < sector.bytesPerSector

/-- Only usable volumes are mounted, and nothing divides by zero. -/
structure MountsUsable (table : MountTable) (call : MountCall) : Prop where
  returns : fat32Mount table call ≠ none
  usable : ∀ next status, fat32Mount table call = some (next, status) →
    (status = mountFailed ∧ next.slots = table.slots) ∨ call.bpb.Usable
  getFree : ∀ next, fat32Mount table call = some (next, 0) →
    ∀ vol : Volume, vol.mount.bpb = call.bpb.toBpb →
      fat32GetFreeClusterTrap vol ≠ .error .divByZero
  opens : ∀ next, fat32Mount table call = some (next, 0) →
    ∀ (root : Root) (vol : Volume) (path : CString) (parent : VFile),
      vol.mount.bpb = call.bpb.toBpb →
        fat32OpenTrap root vol path parent ≠ .error .divByZero

/-- The sector is refused or usable, or the mount is taken back before the slot
has changed. -/
def HandledSector (table : MountTable) (call : MountCall) : Prop :=
  call.Refused ∨ call.bpb.Usable ∨
    (0 < call.bpb.sectorsPerCluster ∧ call.mountfile = none ∧
      table.slots table.freeIndex = .zero)

/-! ## One call -/

section Call

variable {table : MountTable} {call : MountCall}

theorem fat32Mount_refused (hbuffer : call.bpbBuffer ≠ 0) (hrefused : call.Refused) :
    fat32Mount table call = some (table, mountFailed) := by
  rw [fat32Mount]
  cases hdev : call.devFile with
  | none => rfl
  | some devFile =>
      obtain ⟨hinvalid, hsmall⟩ := hrefused.resolve_left (by simp [hdev])
      simp only [if_neg hbuffer, hinvalid, Bool.not_false, Bool.true_and,
        decide_eq_true hsmall, if_true]

/-- A sector that is not refused goes through when its clusters have sectors. -/
theorem fat32Mount_accepted (hbuffer : call.bpbBuffer ≠ 0) (haccepted : ¬ call.Refused) :
    ∃ devFile, call.devFile = some devFile ∧
      fat32Mount table call =
        if call.bpb.sectorsPerCluster = 0 then none
        else
          match call.mountfile with
          | none =>
              some (⟨Function.update table.slots table.freeIndex .zero, table.mounted⟩,
                mountFailed)
          | some file =>
              some (⟨Function.update table.slots table.freeIndex (call.slot devFile),
                table.mounted ++
                  [call.mountFile file table.freeIndex (call.slot devFile)]⟩, 0) := by
  obtain ⟨hdevNone, hchecked⟩ := not_or.mp haccepted
  obtain ⟨devFile, hdev⟩ := Option.ne_none_iff_exists'.mp hdevNone
  refine ⟨devFile, hdev, ?_⟩
  have hpassed : ¬ ((!fat32CheckValid call.bpb &&
      decide (0 < call.bpb.sectorsSmall)) = true) := by
    rw [Bool.and_eq_true, Bool.not_eq_true', decide_eq_true_eq]
    exact hchecked
  cases hfile : call.mountfile with
  | none => simp only [fat32Mount, hdev, if_neg hbuffer, if_neg hpassed, hfile]
  | some file => simp only [fat32Mount, hdev, if_neg hbuffer, if_neg hpassed, hfile]

end Call

theorem BootSector.Usable.clusterSizeBytes {sector : BootSector} (husable : sector.Usable) :
    0 < sector.toBpb.clusterSizeBytes :=
  Nat.mul_pos husable.bytesPerSector husable.sectorsPerCluster

theorem BootSector.Usable.getFree {sector : BootSector} (husable : sector.Usable)
    {vol : Volume} (hbpb : vol.mount.bpb = sector.toBpb) :
    fat32GetFreeClusterTrap vol ≠ .error .divByZero := by
  have hpos : 0 < vol.mount.bpb.sectorsPerCluster := by
    rw [hbpb]
    exact husable.sectorsPerCluster
  rw [fat32GetFreeClusterTrap_eq hpos]
  exact fun hfault => nomatch hfault

theorem BootSector.Usable.opens {sector : BootSector} (husable : sector.Usable)
    {root : Root} {vol : Volume} {path : CString} {parent : VFile}
    (hbpb : vol.mount.bpb = sector.toBpb) :
    fat32OpenTrap root vol path parent ≠ .error .divByZero := by
  have hresolve : resolvePathTrap root vol path ≠ .error .divByZero := by
    rw [resolvePathTrap]
    cases hfound : resolvePath root vol path with
    | none => simp
    | some found =>
        obtain ⟨vol', file⟩ := found
        cases file with
        | none => simp
        | some file =>
            have hpos : 0 < vol'.mount.bpb.clusterSizeBytes := by
              rw [(Accessed.refl.resolvePath hfound).geometry.bpb, hbpb]
              exact husable.clusterSizeBytes
            dsimp only
            rw [sizeClusters, divide_of_pos hpos]
            exact fun hfault => nomatch hfault
  rw [fat32OpenTrap]
  cases htrap : resolvePathTrap root vol path with
  | error fault =>
      rw [htrap] at hresolve
      intro hfault
      exact hresolve (congrArg Except.error (Except.error.inj hfault))
  | ok result =>
      dsimp only
      cases fat32Open root vol path parent with
      | none => simp
      | some opened => simp

theorem MountsUsable.of_failed {table : MountTable} {call : MountCall}
    (hmount : fat32Mount table call = some (table, mountFailed)) :
    MountsUsable table call := by
  have hnever : ∀ next, fat32Mount table call ≠ some (next, 0) := by
    intro next hnext
    rw [hmount] at hnext
    exact absurd (Prod.mk.inj (Option.some.inj hnext)).2 (by decide)
  refine ⟨by simp [hmount], ?_, fun next hnext => absurd hnext (hnever next),
    fun next hnext => absurd hnext (hnever next)⟩
  intro next status hnext
  rw [hmount] at hnext
  obtain ⟨rfl, rfl⟩ := Prod.mk.inj (Option.some.inj hnext)
  exact .inl ⟨rfl, rfl⟩

/-- Only usable volumes are mounted, and nothing divides by zero, exactly when the
sector is refused or usable, or the mount is taken back. -/
theorem mountsUsable_iff (table : MountTable) (call : MountCall)
    (hbuffer : call.bpbBuffer ≠ 0) :
    MountsUsable table call ↔ HandledSector table call := by
  constructor
  · intro hlaw
    by_cases hrefused : call.Refused
    · exact .inl hrefused
    right
    obtain ⟨devFile, -, hmount⟩ := @fat32Mount_accepted table call hbuffer hrefused
    by_cases hzero : call.bpb.sectorsPerCluster = 0
    · rw [if_pos hzero] at hmount
      exact absurd hmount hlaw.returns
    rw [if_neg hzero] at hmount
    cases hfile : call.mountfile with
    | none =>
        rw [hfile] at hmount
        rcases hlaw.usable _ _ hmount with ⟨-, hslots⟩ | husable
        · have hslot := congrFun hslots table.freeIndex
          dsimp only at hslot
          rw [Function.update_self] at hslot
          exact .inr ⟨Nat.pos_of_ne_zero hzero, rfl, hslot.symm⟩
        · exact .inl husable
    | some file =>
        rw [hfile] at hmount
        rcases hlaw.usable _ _ hmount with ⟨hstatus, -⟩ | husable
        · exact absurd hstatus (by decide)
        · exact .inl husable
  · intro hhandled
    by_cases hrefused : call.Refused
    · exact MountsUsable.of_failed (fat32Mount_refused hbuffer hrefused)
    obtain ⟨devFile, -, hmount⟩ := @fat32Mount_accepted table call hbuffer hrefused
    rcases hhandled.resolve_left hrefused with husable | ⟨hpos, hfile, hslot⟩
    · refine ⟨?_, fun _ _ _ => .inr husable, fun _ _ _ => husable.getFree,
        fun _ _ _ _ _ _ => husable.opens⟩
      rw [hmount, if_neg husable.sectorsPerCluster.ne']
      cases call.mountfile <;> simp
    · rw [if_neg hpos.ne', hfile] at hmount
      have hsame : Function.update table.slots table.freeIndex .zero = table.slots := by
        rw [← hslot, Function.update_eq_self]
      rw [hsame] at hmount
      exact .of_failed hmount

/-- A boot sector with sectors of 512 bytes, one in a cluster. -/
def usableDevice (a : ℕ) : UInt8 :=
  if a = 12 then 2 else if a = 13 then 1 else if a = 66 then 0x29 else 0

theorem mountsUsable_plain : MountsUsable .init ⟨some 1, usableDevice, 0, 1, some 1⟩ := by
  refine (mountsUsable_iff .init ⟨some 1, usableDevice, 0, 1, some 1⟩ (by decide)).mpr ?_
  exact .inr (.inl ⟨by decide, by decide, by decide⟩)

/-- The mount of a blank device divides by zero. -/
theorem mountsUsable_blank :
    fat32Mount .init ⟨some 1, fun _ => 0, 0, 1, some 1⟩ = none ∧
      ¬ MountsUsable .init ⟨some 1, fun _ => 0, 0, 1, some 1⟩ := by
  have hmount : fat32Mount .init ⟨some 1, fun _ => 0, 0, 1, some 1⟩ = none := by
    obtain ⟨devFile, -, hmount⟩ := @fat32Mount_accepted .init
      ⟨some 1, fun _ => 0, 0, 1, some 1⟩ (by decide) (by decide)
    rw [hmount]
    exact if_pos rfl
  exact ⟨hmount, fun hlaw => hlaw.returns hmount⟩

end KimisOS.Fat32
