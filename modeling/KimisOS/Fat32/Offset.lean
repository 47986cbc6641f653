import KimisOS.Fat32.Session
import KimisOS.Fat32.Integrity
import KimisOS.Fat32.Read

/-!
# Mounting at an offset

Only the boot sector is read at the offset that `fat32_mount` is given.  All
other accesses count from the start of the device.  A volume that starts there
behaves as it would on a device of its own; one behind it does not.
-/

namespace KimisOS.Fat32

open KimisOS.ByteStore

/-- The same call for the volume as a device of its own, which starts where the
volume does. -/
def MountCall.view (call : MountCall) : MountCall :=
  { call with device := load call.device call.offset, offset := 0 }

/-- The answers, and the bytes from the start of the volume on. -/
def observe (offset : ℕ) (out : Option (Session × List Answer)) :
    Option ((ℕ → UInt8) × List Answer) :=
  out.map fun out => (load out.1.vol.device offset, out.2)

/-- The volume behaves as on a device of its own: the mount has the same result,
and when it succeeds, every sequence of calls does. -/
structure OffsetTransparent (table : MountTable) (call : MountCall) (env : Env)
    (blockSizeBytes flags : ℕ) (fresh : OpenFile) : Prop where
  mount : (fat32Mount table call).map Prod.snd = (fat32Mount table call.view).map Prod.snd
  run : (fat32Mount table call).map Prod.snd = some 0 → ∀ calls,
    observe call.offset ((call.session env blockSizeBytes flags fresh).run env calls) =
      observe 0 ((call.view.session env blockSizeBytes flags fresh).run env calls)

/-- A volume of the size that its parameter block gives, with its root directory
inside. -/
structure ValidVolume (boot : BootSector) (clusters : ℕ) : Prop where
  signature : fat32CheckValid boot = true
  geometry : Geometry boot.bpb clusters
  root : 2 ≤ boot.rootDirCluster ∧ boot.rootDirCluster < clusters + 2

section Offset

variable {call : MountCall} {env : Env} {blockSizeBytes flags : ℕ} {fresh : OpenFile}
  {table : MountTable} {clusters : ℕ}

@[simp]
theorem load_zero (mem : ℕ → UInt8) : load mem 0 = mem := by
  funext k
  rw [load, Nat.zero_add]

/-- The parameter block is the one of the volume. -/
theorem MountCall.view_bpb (call : MountCall) : call.view.bpb = call.bpb := by
  have hshift : ∀ k, load call.device call.offset (0 + k) = call.device (call.offset + k) := by
    intro k
    rw [Nat.zero_add, load]
  simp only [MountCall.bpb, MountCall.view, readBpb, readU16, readU32, Nat.add_assoc, hshift]

theorem view_of_offset_zero (hzero : call.offset = 0) : call.view = call := by
  rw [MountCall.view, hzero, load_zero]
  cases call
  cases hzero
  rfl

/-- A byte written behind the first one of a file reaches the device at once. -/
theorem fat32Write_byte {bpb : Bpb} {vol : Volume} {file : OpenFile} {malloc : ℕ → Bool}
    (hgeo : Geometry bpb clusters) (hsome : 0 < clusters) (hbpb : vol.mount.bpb = bpb)
    (hfirst : file.firstCluster ≠ 0) (buffer : ℕ → UInt8) :
    fat32Write malloc vol file buffer 1 1 =
      ⟨fwrite vol buffer (vol.mount.clusterOffset file.firstCluster + 1) 1, file,
        some 1⟩ := by
  have hcs := hgeo.clusterSize_ge
  have hbelow := hgeo.below
  have hfits : bpb.clusterSizeBytes ≤ clusters * bpb.clusterSizeBytes :=
    Nat.le_mul_of_pos_left _ hsome
  have hsize : vol.mount.bpb.clusterSizeBytes = bpb.clusterSizeBytes := by rw [hbpb]
  have hone : 1 &&& (bpb.clusterSizeBytes - 1) = 1 := by
    rw [hgeo.and_eq_mod, Nat.mod_eq_of_lt (by omega)]
  have hstart := hgeo.udiv64_eq (show 1 < 2 ^ 41 by decide)
  rw [Nat.div_eq_of_lt (show 1 < bpb.clusterSizeBytes by omega)] at hstart
  have hclusters := hgeo.udiv64_eq
    (show (1 + bpb.clusterSizeBytes - 1) % 2 ^ 64 < 2 ^ 41 by omega)
  have hmin : min 1 (bpb.clusterSizeBytes - 1) = 1 := min_eq_left (by omega)
  rw [fat32Write_from (by rw [firstClusterFor, if_neg hfirst]) hfirst hsize hstart
    hclusters rfl, writeFrom_inside hsize hone one_ne_zero rfl (by omega), hmin]
  rfl

theorem ValidVolume.some_cluster {boot : BootSector} (hvalid : ValidVolume boot clusters) :
    0 < clusters ∧ boot.rootDirCluster ≠ 0 := by
  have hroot := hvalid.root
  omega

/-- What a session sees of a byte that is written to the file of the mount. -/
theorem observe_byte (hvalid : ValidVolume call.bpb clusters) (offset : ℕ)
    (buffer : ℕ → UInt8) : ∃ answers,
    observe offset ((call.session env blockSizeBytes flags fresh).run env
      [.write 0 buffer 1 1]) =
        some (load (store call.device
          ((call.session env blockSizeBytes flags fresh).vol.mount.clusterOffset
            call.bpb.rootDirCluster + 1) buffer 1) offset, answers) := by
  obtain ⟨hsome, hroot⟩ := hvalid.some_cluster
  have hwrite := @fat32Write_byte clusters call.bpb.bpb
    (call.session env blockSizeBytes flags fresh).vol
    { fresh with firstCluster := call.bpb.rootDirCluster } env.scratch.malloc
    hvalid.geometry hsome rfl hroot buffer
  refine ⟨[.written 1], ?_⟩
  have hcall : (call.session env blockSizeBytes flags fresh).call env
      (.write 0 buffer 1 1) = (call.session env blockSizeBytes flags fresh).write env 0
        ⟨flags, { fresh with firstCluster := call.bpb.rootDirCluster }⟩ buffer 1 1 := rfl
  rw [Session.run, hcall, Session.write]
  dsimp only
  rw [hwrite]
  rfl

/-- The place at which the byte is written does not depend on the offset, so a
volume behind the start of the device does not get it. -/
theorem offset_eq_zero (hmount : (fat32Mount table call).map Prod.snd = some 0)
    (hvalid : ValidVolume call.bpb clusters)
    (htransparent : OffsetTransparent table call env blockSizeBytes flags fresh) :
    call.offset = 0 := by
  by_contra hoffset
  have hview : ValidVolume call.view.bpb clusters := by
    rw [call.view_bpb]
    exact hvalid
  obtain ⟨x, hx⟩ : ∃ x, (call.session env blockSizeBytes flags fresh).vol.mount.clusterOffset
      call.bpb.rootDirCluster + 1 = x := ⟨_, rfl⟩
  have hplace : (call.view.session env blockSizeBytes flags fresh).vol.mount.clusterOffset
      call.view.bpb.rootDirCluster + 1 = x := by
    rw [← hx]
    simp only [Mount.clusterOffset, MountCall.session, FatMount.volume, MountCall.slot,
      call.view_bpb]
  -- a value that the byte does not have yet
  have hrun := htransparent.run hmount [.write 0 (fun _ => call.view.device x + 1) 1 1]
  obtain ⟨answers, hdevice⟩ := @observe_byte call env blockSizeBytes flags fresh clusters
    hvalid call.offset fun _ => call.view.device x + 1
  obtain ⟨answers', hown⟩ := @observe_byte call.view env blockSizeBytes flags fresh clusters
    hview 0 fun _ => call.view.device x + 1
  rw [hdevice, hown, hx, hplace] at hrun
  have hbyte := congrFun (congrArg Prod.fst (Option.some.inj hrun)) x
  have hleft : load (store call.device x (fun _ => call.view.device x + 1) 1) call.offset x =
      call.view.device x :=
    store_outside (.inr (Nat.add_comm x 1 ▸ Nat.add_le_add_right
      (Nat.one_le_iff_ne_zero.mpr hoffset) x))
  have hright : load (store call.view.device x (fun _ => call.view.device x + 1) 1) 0 x =
      call.view.device x + 1 := by
    rw [load_zero]
    exact store_inside Nat.one_pos
  dsimp only at hbyte
  rw [hleft, hright] at hbyte
  exact absurd hbyte (by simp)

end Offset

/-- A mounted volume behaves as on a device of its own exactly when it starts
where its device does. -/
theorem mount_offset_iff {table : MountTable} {call : MountCall} {env : Env}
    {blockSizeBytes flags clusters : ℕ} {fresh : OpenFile}
    (hmount : (fat32Mount table call).map Prod.snd = some 0)
    (hvalid : ValidVolume call.bpb clusters) :
    OffsetTransparent table call env blockSizeBytes flags fresh ↔ call.offset = 0 := by
  constructor
  · exact offset_eq_zero hmount hvalid
  · intro hzero
    refine ⟨?_, ?_⟩
    · rw [view_of_offset_zero hzero]
    · intro _ calls
      rw [view_of_offset_zero hzero, hzero]

/-! ## A volume in the second sector -/

/-- The boot sector of a volume of six clusters. -/
def smallBootSector : ℕ → UInt8
  | 12 => 2
  | 13 => 1
  | 14 => 1
  | 16 => 1
  | 32 => 8
  | 36 => 1
  | 44 => 2
  | 48 => 1
  | 66 => 0x29
  | _ => 0

/-- The call that mounts this volume from the given sector of a disk. -/
def smallMount (sector : ℕ) : MountCall where
  devFile := some 1
  device := fun a => if a < 512 * sector then 0 else smallBootSector (a - 512 * sector)
  offset := 512 * sector
  bpbBuffer := 2
  mountfile := some 3

def smallEnv : Env where
  stale := fun _ => 0
  scratch :=
    { grants := .all
      malloc := fun _ => true
      truncPath := fun _ => 0
      stack := fun _ => 0
      directory := fun _ => 0
      extended := fun _ => 0
      dirents := fun _ => 0 }
  rounds := 0

theorem smallMount_valid {sector : ℕ}
    (hbpb : (smallMount sector).bpb = ⟨512, 1, 1, 1, 0, 8, 1, 2, 1, 0x29⟩) :
    ValidVolume (smallMount sector).bpb 6 := by
  rw [hbpb]
  refine ⟨rfl, ⟨?_, ?_, ?_, ?_, ?_, ?_, ?_, ?_, ⟨9, rfl⟩⟩, ?_⟩
  all_goals decide

theorem mount_offset_first :
    OffsetTransparent .init (smallMount 0) smallEnv 512 0 ⟨0, 0, 0, 0, 0⟩ :=
  (mount_offset_iff (by decide +kernel) (smallMount_valid (by decide +kernel))).mpr rfl

/-- In the second sector the volume does not get the bytes that are written to
it. -/
theorem mount_offset_forgotten : (fat32Mount .init (smallMount 1)).map Prod.snd = some 0 ∧
    ValidVolume (smallMount 1).bpb 6 ∧
    ¬OffsetTransparent .init (smallMount 1) smallEnv 512 0 ⟨0, 0, 0, 0, 0⟩ := by
  have hvalid : ValidVolume (smallMount 1).bpb 6 := smallMount_valid (by decide +kernel)
  have hmount : (fat32Mount .init (smallMount 1)).map Prod.snd = some 0 := by
    decide +kernel
  refine ⟨hmount, hvalid, ?_⟩
  intro htransparent
  exact absurd (offset_eq_zero hmount hvalid htransparent) (by decide)

end KimisOS.Fat32
