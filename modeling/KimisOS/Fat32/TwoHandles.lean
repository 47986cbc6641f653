import KimisOS.Core.Run
import KimisOS.Fat32.EntryHead

/-!
# Two handles of one file

Each open makes a record of its own with the first cluster and the size of the
file, and a write publishes the record of its handle to the directory entry.
Two handles agree on a file that has a first cluster when it is opened, as long
as no write publishes a size that the other handle has outgrown.
-/

namespace KimisOS.Fat32

open KimisOS.ByteStore
open KimisOS.Run

/-- The volume, and the open files of the two handles. -/
structure Handles where
  vol : Volume
  first : OpenFile
  second : OpenFile

/-- One call of `fat32_write`, through the second handle or the first. -/
structure HandleWrite where
  second : Bool
  buffer : ℕ → UInt8
  offset : ℕ
  count : ℕ

def Handles.file (handles : Handles) (second : Bool) : OpenFile :=
  if second then handles.second else handles.first

def Handles.after (handles : Handles) (second : Bool) (out : Outcome) : Handles where
  vol := out.vol
  first := if second then handles.first else out.file
  second := if second then out.file else handles.second

/-- `none` when the call traps. -/
def Handles.step (malloc : ℕ → Bool) (handles : Handles) (write : HandleWrite) :
    Option Handles :=
  let out := fat32Write malloc handles.vol (handles.file write.second) write.buffer
    write.offset write.count
  out.returned.map fun _ => handles.after write.second out

/-- Two calls of `fat32_open` with the same path. -/
def openTwice (root : Root) (vol : Volume) (path : CString) (parent : VFile) :
    Option Handles :=
  match fat32Open root vol path parent with
  | some (vol, some first) =>
      match fat32Open root vol path parent with
      | some (vol, some second) => some ⟨vol, first.file, second.file⟩
      | _ => none
  | _ => none

/-! ## The law and its condition -/

/-- A file as all its handles should see it: its bytes, those of them that are
known, and its size. -/
structure Image where
  content : ℕ → UInt8
  known : Set ℕ
  size : ℕ

/-- The file with what a write has put into it. -/
def Image.write (image : Image) (write : HandleWrite) : Image where
  content := store image.content write.offset write.buffer write.count
  known := image.known ∪ Set.Ico write.offset (write.offset + write.count)
  size := max image.size (write.offset + write.count)

/-- The file when it is opened. -/
def openImage (bpb : Bpb) (chain : List ℕ) (vol : Volume) (file : OpenFile) : Image where
  content := fun x => vol.device (bpb.fileAddress chain x)
  known := Set.Iio file.sizeBytes
  size := file.sizeBytes

/-- The directory entry at the address names the head of a chain with the known
bytes, and the size; both handles read the same. -/
structure OneFile (bpb : Bpb) (clusters address : ℕ) (image : Image) (handles : Handles) :
    Prop where
  chain : ∃ chain,
    IsChain (fatEntry handles.vol) (clusters + 2) (entryHead handles.vol.device address)
      chain ∧
    ∀ x ∈ image.known, x < chain.length * bpb.clusterSizeBytes ∧
      handles.vol.device (bpb.fileAddress chain x) = image.content x
  size : readU32 handles.vol.device (address + 28) = image.size
  reads : ∀ buffer offset count,
    fat32Read handles.vol handles.first buffer offset count =
      fat32Read handles.vol handles.second buffer offset count

/-- What the two handles need of a write, where `chain` are the clusters of the
file and `size` is the one in its directory entry: there are clusters enough,
clearing a new cluster hits no other, and the write stores a size that is not
smaller, or stores none and stays inside the first cluster and the size.  A file
without clusters gets its first one in one of the handles only. -/
structure SafeFor (bpb : Bpb) (clusters : ℕ) (chain : List ℕ) (size : ℕ)
    (handles : Handles) (write : HandleWrite) : Prop where
  nonempty : chain ≠ []
  place : write.offset / bpb.clusterSizeBytes <
    handles.vol.flat.freeCount clusters + chain.length
  room : bpb.clustersFor (write.offset + write.count) ≤
    handles.vol.flat.freeCount clusters + chain.length
  page : 4096 ≤ bpb.clusterSizeBytes ∨ write.offset / bpb.clusterSizeBytes < chain.length
  stored : WritesBack bpb chain.length write.offset write.count →
    size ≤ max (handles.file write.second).sizeBytes (write.offset + write.count)
  inside : ¬WritesBack bpb chain.length write.offset write.count →
    write.count ≤ bpb.clusterSizeBytes - write.offset % bpb.clusterSizeBytes ∧
      write.offset + write.count ≤ size

def SafeWrite (bpb : Bpb) (clusters address : ℕ) (handles : Handles)
    (write : HandleWrite) : Prop :=
  ∀ chain, IsChain (fatEntry handles.vol) (clusters + 2)
      (entryHead handles.vol.device address) chain →
    SafeFor bpb clusters chain (readU32 handles.vol.device (address + 28)) handles write

/-! ## One write -/

/-- Both handles are open on the file `f` with this directory entry. -/
structure Shared {File : Type*} (bpb : Bpb) (clusters : ℕ) (heads : File → ℕ)
    (chains : File → List ℕ) (f d : File) (entry : OpenFile) (size : ℕ)
    (handles : Handles) : Prop where
  consistent : Consistent bpb clusters handles.vol
  wellFormed : WellFormed (fatEntry handles.vol) (clusters + 2) heads chains
  apart : d ≠ f
  first : ∀ second, (handles.file second).firstCluster = heads f
  direntCluster : ∀ second, (handles.file second).direntCluster = entry.direntCluster
  direntOffset : ∀ second, (handles.file second).direntOffset = entry.direntOffset
  smaller : ∀ second, (handles.file second).sizeBytes ≤ size
  entryIn : EntryIn bpb chains d entry
  room : size ≤ (chains f).length * bpb.clusterSizeBytes
  entrySize : readU32 handles.vol.device (entry.direntAddress bpb (chains d) + 28) = size
  entryHead : entryHead handles.vol.device (entry.direntAddress bpb (chains d)) = heads f

/-- Where the handles do not get in the way of anything else: the windows of the
table end before the data area, and the entry is in the first page of its
cluster. -/
structure Unhindered (bpb : Bpb) (clusters : ℕ) (entry : OpenFile) (malloc : ℕ → Bool) :
    Prop where
  reach : OutOfReach bpb clusters bpb.dataOffset
  index : entry.direntOffset % (bpb.clusterSizeBytes / 32) < 128
  memory : ∀ i, malloc i = true

section Step

variable {File : Type*} {heads : File → ℕ} {chains : File → List ℕ}
  {f d : File} {bpb : Bpb} {clusters size : ℕ} {handles : Handles} {entry : OpenFile}
  {malloc : ℕ → Bool} {write : HandleWrite}

/-- A handle with the size that the entry has. -/
def Handles.sized (handles : Handles) (second : Bool) (size : ℕ) : OpenFile :=
  { handles.file second with sizeBytes := size }

theorem Shared.direntAddress
    (hshared : Shared bpb clusters heads chains f d entry size handles) (second : Bool)
    (directory : List ℕ) : (handles.file second).direntAddress bpb directory =
      entry.direntAddress bpb directory := by
  exact OpenFile.direntAddress_congr (hshared.direntOffset _) _ _

theorem Shared.handleEntry (hshared : Shared bpb clusters heads chains f d entry size handles)
    (second : Bool) : EntryIn bpb chains d (handles.file second) where
  start := (hshared.direntCluster second).symm ▸ hshared.entryIn.start
  inside := (hshared.direntOffset second).symm ▸ hshared.entryIn.inside

theorem Shared.openIn (hshared : Shared bpb clusters heads chains f d entry size handles)
    (second : Bool) : OpenIn bpb clusters handles.vol heads chains f d
      (handles.sized second size) where
  consistent := hshared.consistent
  wellFormed := hshared.wellFormed
  first := hshared.first second
  entry := ⟨(hshared.handleEntry second).start, (hshared.handleEntry second).inside⟩
  apart := hshared.apart
  size := hshared.room
  entrySize := by
    have haddress : (handles.sized second size).direntAddress bpb (chains d) =
        entry.direntAddress bpb (chains d) := hshared.direntAddress second (chains d)
    rw [haddress]
    exact hshared.entrySize

theorem Shared.undisturbed
    (hshared : Shared bpb clusters heads chains f d entry size handles)
    (henv : Unhindered bpb clusters entry malloc)
    (hsafe : SafeFor bpb clusters (chains f) size handles write) :
    Undisturbed bpb clusters (chains f) (handles.sized write.second size) write.offset
      malloc := by
  refine ⟨henv.reach, ?_, ?_, henv.memory⟩
  · exact hsafe.page.imp id lt_max_of_lt_left
  · exact (hshared.direntOffset write.second).symm ▸ henv.index

/-- A safe write does not trap in the divisions. -/
theorem SafeFor.no_trap (hsafe : SafeFor bpb clusters (chains f) size handles write)
    (hshared : Shared bpb clusters heads chains f d entry size handles) :
    write.offset / bpb.clusterSizeBytes < 2 ^ 32 ∧
      (write.count + bpb.clusterSizeBytes - 1) % 2 ^ 64 / bpb.clusterSizeBytes < 2 ^ 32 := by
  have hgeo := hshared.consistent.geometry
  have hclusters := hgeo.clusters_lt
  have hcs := hgeo.clusterSize_ge
  have hfree := handles.vol.flat.freeCount_le clusters
  have hplace := hsafe.place
  have hroom := hsafe.room
  have hlength : (chains f).length ≤ 2 ^ 23 := by
    have hbound := hgeo.chain_le (hshared.wellFormed.chain f)
    have hmul : (chains f).length * 512 ≤ (chains f).length * bpb.clusterSizeBytes :=
      Nat.mul_le_mul_left _ hcs
    omega
  have hless : (write.count + bpb.clusterSizeBytes - 1) % 2 ^ 64 / bpb.clusterSizeBytes ≤
      bpb.clustersFor (write.offset + write.count) := by
    apply Nat.div_le_div_right
    exact (Nat.mod_le _ _).trans (by omega)
  omega

variable [DecidableEq File] {out : Outcome} {first added : List ℕ}
  {flat₁ flat₂ flat' : Flat}

/-- After a write that has stored its bytes, the handles share the longer
file. -/
theorem Shared.finish (hshared : Shared bpb clusters heads chains f d entry size handles)
    (hnonempty : chains f ≠ [])
    (hfinished : Finished bpb clusters heads chains f d handles.vol
      (handles.sized write.second size) write.buffer write.offset write.count out first
      added flat₁ flat₂ flat')
    (hcluster : out.file.direntCluster = entry.direntCluster)
    (hoffset : out.file.direntOffset = entry.direntOffset)
    (hsize : out.file.sizeBytes ≤ max size (write.offset + write.count))
    (hentrySize : readU32 out.vol.device (entry.direntAddress bpb (chains d) + 28) =
      max size (write.offset + write.count))
    (hentryHead : Fat32.entryHead out.vol.device (entry.direntAddress bpb (chains d)) =
      heads f) :
    Shared bpb clusters heads
      (Function.update chains f (chains f ++ (first ++ added))) f d entry
      (max size (write.offset + write.count)) (handles.after write.second out) := by
  have hshows := hfinished.holds.shows
  have hgrown := hfinished.holds.grown
  have hdirectory : Function.update chains f (chains f ++ (first ++ added)) d = chains d :=
    Function.update_of_ne hshared.apart _ _
  have hhead : out.file.firstCluster = heads f := by
    have hstarts := hgrown.isChain.starts
    have hbefore := (hshared.wellFormed.chain f).starts
    cases hlist : chains f with
    | nil => exact absurd hlist hnonempty
    | cons cluster rest =>
        rw [hlist] at hstarts hbefore
        exact hstarts.symm.trans hbefore
  have hwell := hgrown.wellFormed
  rw [hhead, Function.update_eq_self] at hwell
  have hfile : ∀ (P : OpenFile → Prop), P out.file →
      (∀ second, P (handles.file second)) →
      ∀ second, P ((handles.after write.second out).file second) := by
    intro P hnew hold second
    have hfirst := hold false
    have hsecond := hold true
    cases hwrite : write.second <;> cases second <;>
      simp [Handles.file, Handles.after] at * <;> assumption
  refine ⟨⟨hshows.geometry, hshows.mounted, hshows.cache⟩,
    hwell.congr (by omega) hshows.entries, hshared.apart, ?_, ?_, ?_, ?_,
    ⟨?_, ?_⟩, ?_, ?_, ?_⟩
  · exact hfile (fun file => file.firstCluster = heads f) hhead hshared.first
  · exact hfile (fun file => file.direntCluster = entry.direntCluster) hcluster
      hshared.direntCluster
  · exact hfile (fun file => file.direntOffset = entry.direntOffset) hoffset
      hshared.direntOffset
  · refine hfile (fun file => file.sizeBytes ≤ max size (write.offset + write.count)) hsize ?_
    intro second
    exact (hshared.smaller second).trans (le_max_left _ _)
  · rw [hdirectory]
    exact hshared.entryIn.start
  · rw [hdirectory]
    exact hshared.entryIn.inside
  · rw [Function.update_self]
    apply max_le _ hfinished.room
    refine hshared.room.trans (Nat.mul_le_mul_right _ ?_)
    rw [List.length_append]
    exact Nat.le_add_right _ _
  · rw [hdirectory]
    exact hentrySize
  · rw [hdirectory]
    exact hentryHead

/-- The bytes of the file after a write. -/
theorem Finished.image {vol : Volume} {file : OpenFile} {buffer : ℕ → UInt8}
    {offset count : ℕ} (hopen : OpenIn bpb clusters vol heads chains f d file)
    (hquiet : Undisturbed bpb clusters (chains f) file offset malloc)
    (hfinished : Finished bpb clusters heads chains f d vol file buffer offset count out
      first added flat₁ flat₂ flat') {x : ℕ}
    (hx : x < file.sizeBytes ∨ x ∈ Set.Ico offset (offset + count)) :
    out.vol.device (bpb.fileAddress (chains f ++ (first ++ added)) x) =
      store (fun y => vol.device (bpb.fileAddress (chains f) y)) offset buffer count x := by
  have hgeo := hopen.consistent.geometry
  have hroom := hfinished.room
  -- Known bytes outside the write are inside the old size.
  by_cases hin : offset ≤ x ∧ x < offset + count
  · obtain ⟨t, rfl⟩ := Nat.exists_eq_add_of_le hin.1
    have hdata : bpb.dataOffset ≤
        bpb.fileAddress (chains f ++ (first ++ added)) (offset + t) :=
      (bpb.dataOffset_le_clusterStart _).trans (Nat.le_add_right _ _)
    rw [store_inside (by omega), hfinished.device_eq hquiet hdata,
      hfinished.file_bytes hopen (by omega), hfinished.written.bytes t (by omega)]
  · have hsize : x < file.sizeBytes := hx.resolve_right fun hmem => hin hmem
    have houtside : x < offset ∨ offset + count ≤ x := by omega
    rw [store_outside houtside, bpb.fileAddress_append _ (hgeo.div_lt (hsize.trans_le hopen.size)),
      hfinished.others hopen hquiet hsize houtside]

/-- The known bytes of the file are in its clusters. -/
structure ShowsImage (bpb : Bpb) (chain : List ℕ) (image : Image) (handles : Handles) :
    Prop where
  inside : ∀ x ∈ image.known, x < image.size
  bytes : ∀ x ∈ image.known,
    handles.vol.device (bpb.fileAddress chain x) = image.content x

/-- The handles show the file of the image, whatever clusters it has by now. -/
def FileShown {File : Type*} (bpb : Bpb) (clusters : ℕ) (heads : File → ℕ) (f d : File)
    (entry : OpenFile) (directory : List ℕ) (handles : Handles) (image : Image) : Prop :=
  ∃ chains : File → List ℕ, chains d = directory ∧
    Shared bpb clusters heads chains f d entry image.size handles ∧
    ShowsImage bpb (chains f) image handles

theorem ShowsImage.after {image : Image} (himage : ShowsImage bpb (chains f) image handles)
    (hopen : OpenIn bpb clusters handles.vol heads chains f d
      (handles.sized write.second image.size))
    (hquiet : Undisturbed bpb clusters (chains f) (handles.sized write.second image.size)
      write.offset malloc)
    (hfinished : Finished bpb clusters heads chains f d handles.vol
      (handles.sized write.second image.size) write.buffer write.offset write.count out
      first added flat₁ flat₂ flat') :
    ShowsImage bpb (chains f ++ (first ++ added)) (image.write write)
      (handles.after write.second out) := by
  constructor
  · rintro x (hold | hnew)
    · exact (himage.inside x hold).trans_le (le_max_left _ _)
    · exact hnew.2.trans_le (le_max_right _ _)
  · intro x hx
    have hbyte := hfinished.image hopen hquiet (hx.imp (himage.inside x) id)
    change out.vol.device _ = store image.content write.offset write.buffer write.count x
    rw [hbyte, store, store]
    split
    case isTrue => rfl
    case isFalse hout => exact himage.bytes x (hx.resolve_right hout)

/-- A write that ends without the entry. -/
theorem Shared.step_kept {file₁ : OpenFile}
    (hshared : Shared bpb clusters heads chains f d entry size handles)
    (henv : Unhindered bpb clusters entry malloc)
    (hsafe : SafeFor bpb clusters (chains f) size handles write)
    (hinside : write.offset + write.count ≤ size)
    (hfile₁ : file₁ = { handles.file write.second with firstCluster := file₁.firstCluster })
    (hfile : out.file = file₁)
    (hfinished : Finished bpb clusters heads chains f d handles.vol
      (handles.sized write.second size) write.buffer write.offset write.count out first
      added flat₁ flat₂ flat₂) :
    Shared bpb clusters heads
      (Function.update chains f (chains f ++ (first ++ added))) f d entry
      (max size (write.offset + write.count)) (handles.after write.second out) := by
  have hopen := hshared.openIn write.second
  have hquiet := hshared.undisturbed henv hsafe
  have haddress : (handles.sized write.second size).direntAddress bpb (chains d) =
      entry.direntAddress bpb (chains d) := hshared.direntAddress write.second (chains d)
  refine hshared.finish hsafe.nonempty hfinished ?_ ?_ ?_ ?_ ?_
  · rw [hfile, hfile₁]
    exact hshared.direntCluster write.second
  · rw [hfile, hfile₁]
    exact hshared.direntOffset write.second
  · rw [hfile, hfile₁]
    exact (hshared.smaller write.second).trans (le_max_left _ _)
  · rw [max_eq_left hinside, ← haddress]
    exact hfinished.entry_kept hopen hquiet
  · rw [← hshared.entryHead, ← haddress]
    apply entryHead_congr
    intro k hk
    exact hfinished.entry_byte hopen hquiet hk

/-- A write that ends with the entry. -/
theorem Shared.step_stored {file₁ : OpenFile}
    (hshared : Shared bpb clusters heads chains f d entry size handles)
    (henv : Unhindered bpb clusters entry malloc)
    (hsafe : SafeFor bpb clusters (chains f) size handles write)
    (hback : WritesBack bpb (chains f).length write.offset write.count)
    (hfile₁ : file₁ = { handles.file write.second with firstCluster := file₁.firstCluster })
    (hfile : out.file = file₁.extended write.offset write.count)
    (hout : fat32Write malloc handles.vol (handles.file write.second) write.buffer
      write.offset write.count = out)
    (hentrySize : readU32 flat'.data (entry.direntAddress bpb (chains d) + 28) =
      (file₁.extended write.offset write.count).sizeBytes % 2 ^ 32)
    (hfinished : Finished bpb clusters heads chains f d handles.vol
      (handles.sized write.second size) write.buffer write.offset write.count out first
      added flat₁ flat₂ flat') :
    Shared bpb clusters heads
      (Function.update chains f (chains f ++ (first ++ added))) f d entry
      (max size (write.offset + write.count)) (handles.after write.second out) := by
  have hopen := hshared.openIn write.second
  have hquiet := hshared.undisturbed henv hsafe
  have hgeo := hshared.consistent.geometry
  have haddress : (handles.sized write.second size).direntAddress bpb (chains d) =
      entry.direntAddress bpb (chains d) := hshared.direntAddress write.second (chains d)
  have hbound := hgeo.chain_le hfinished.holds.grown.isChain
  have hroom := hfinished.room
  have htable := hgeo.table_before
  have hold : size < 2 ^ 32 := by
    rw [← hshared.entrySize]
    exact readU32_lt _ _
  have hsize : (file₁.extended write.offset write.count).sizeBytes =
      max size (write.offset + write.count) := by
    have hstored := hsafe.stored hback
    have hsmaller := hshared.smaller write.second
    rw [file₁.extended_sizeBytes (by omega), hfile₁]
    dsimp only
    omega
  refine hshared.finish hsafe.nonempty hfinished ?_ ?_ ?_ ?_ ?_
  · rw [hfile, file₁.extended_direntCluster, hfile₁]
    exact hshared.direntCluster write.second
  · rw [hfile, file₁.extended_direntOffset, hfile₁]
    exact hshared.direntOffset write.second
  · rw [hfile, hsize]
  · have hdevice := hfinished.entrySize_eq hopen hquiet
    rw [haddress] at hdevice
    rw [hdevice, hentrySize, hsize]
    exact Nat.mod_eq_of_lt (by omega)
  · obtain ⟨hstart, hclusters⟩ := hsafe.no_trap hshared
    have hhead := (hshared.wellFormed.chain f).starts
    have hne : heads f ≠ 0 ∧ heads f < clusters + 2 := by
      cases hlist : chains f with
      | nil => exact absurd hlist hsafe.nonempty
      | cons cluster rest =>
          have hrange := (hshared.wellFormed.chain f).range cluster
            (hlist ▸ List.mem_cons_self)
          rw [hlist, List.headD_cons] at hhead
          omega
    have hcount := hgeo.clusters_lt
    have hwritten : Fat32.entryHead (fat32Write malloc handles.vol
        (handles.file write.second) write.buffer write.offset write.count).vol.device
          ((handles.file write.second).direntAddress bpb (chains d)) =
        (handles.file write.second).firstCluster % 2 ^ 32 :=
      fat32Write_head hshared.consistent.shows hshared.wellFormed
        (hshared.first write.second) ((hshared.first write.second).trans_ne hne.1)
        (hshared.handleEntry write.second)
        ((hshared.direntOffset write.second).symm ▸ henv.index) henv.memory
        (by rw [udiv64, if_pos hstart]) ⟨_, by rw [udiv64, if_pos hclusters]⟩
        hsafe.place hback hsafe.room
    rw [hout, hshared.first write.second, Nat.mod_eq_of_lt (by omega)] at hwritten
    rw [← hwritten, hshared.direntAddress]

/-- A finished write that keeps the invariant shows the file of the next image. -/
theorem Shared.shown_after {image : Image} {returned : ℤ}
    (hshared : Shared bpb clusters heads chains f d entry image.size handles)
    (henv : Unhindered bpb clusters entry malloc)
    (hsafe : SafeFor bpb clusters (chains f) image.size handles write)
    (himage : ShowsImage bpb (chains f) image handles)
    (hout : fat32Write malloc handles.vol (handles.file write.second) write.buffer
      write.offset write.count = out)
    (hreturned : out.returned = some returned)
    (hfinished : Finished bpb clusters heads chains f d handles.vol
      (handles.sized write.second image.size) write.buffer write.offset write.count out
      first added flat₁ flat₂ flat')
    (hshared' : Shared bpb clusters heads
      (Function.update chains f (chains f ++ (first ++ added))) f d entry
      (image.write write).size (handles.after write.second out)) :
    ∃ next, handles.step malloc write = some next ∧
      FileShown bpb clusters heads f d entry (chains d) next (image.write write) := by
  refine ⟨handles.after write.second out, ?_, _,
    Function.update_of_ne hshared.apart _ _, hshared', ?_⟩
  · rw [Handles.step, hout, hreturned, Option.map_some]
  · rw [Function.update_self]
    exact himage.after (hshared.openIn write.second) (hshared.undisturbed henv hsafe)
      hfinished

/-- A write that ends without the entry stays inside the first cluster. -/
theorem Shared.step_inside {image : Image} {file₁ : OpenFile} {returned : ℤ}
    (hshared : Shared bpb clusters heads chains f d entry image.size handles)
    (henv : Unhindered bpb clusters entry malloc)
    (hsafe : SafeFor bpb clusters (chains f) image.size handles write)
    (himage : ShowsImage bpb (chains f) image handles)
    (hout : fat32Write malloc handles.vol (handles.file write.second) write.buffer
      write.offset write.count = out)
    (hholds : Holds bpb clusters (fatEntry handles.vol) heads chains f out.vol flat'
      out.file.firstCluster (first ++ added))
    (hfile₁ : file₁ = { handles.file write.second with firstCluster := file₁.firstCluster })
    (hreached : Reached bpb clusters (chains f) first handles.vol.flat flat₁ write.offset)
    (hback : ¬WritesBack bpb (chains f).length write.offset write.count)
    (hreturned : out.returned = some returned) (hfile : out.file = file₁)
    (hwritten : Written bpb (chains f ++ (first ++ added)) flat₁ flat' write.buffer
      write.offset (min write.count
        (bpb.clusterSizeBytes - write.offset % bpb.clusterSizeBytes))) :
    ∃ next, handles.step malloc write = some next ∧
      FileShown bpb clusters heads f d entry (chains d) next (image.write write) := by
  have hgeo := hshared.consistent.geometry
  obtain ⟨hcount, hinside⟩ := hsafe.inside hback
  rw [min_eq_left hcount] at hwritten
  have hroom : write.offset + write.count ≤
      (chains f ++ (first ++ added)).length * bpb.clusterSizeBytes :=
    (Nat.add_le_add_left hcount _).trans
      (hreached.head_le (Nat.zero_lt_of_lt hgeo.clusterSize_ge) added)
  have hfinished : Finished bpb clusters heads chains f d handles.vol
      (handles.sized write.second image.size) write.buffer write.offset write.count out
      first added flat₁ flat' flat' :=
    ⟨hholds, hreached, hwritten, hroom, fun _ _ => rfl⟩
  exact hshared.shown_after henv hsafe himage hout hreturned hfinished
    (hshared.step_kept henv hsafe hinside hfile₁ hfile hfinished)

/-- A write of all its bytes stores the entry behind them. -/
theorem Shared.step_whole {image : Image} {file₁ : OpenFile} {returned : ℤ}
    (hshared : Shared bpb clusters heads chains f d entry image.size handles)
    (henv : Unhindered bpb clusters entry malloc)
    (hsafe : SafeFor bpb clusters (chains f) image.size handles write)
    (himage : ShowsImage bpb (chains f) image handles)
    (hout : fat32Write malloc handles.vol (handles.file write.second) write.buffer
      write.offset write.count = out)
    (hholds : Holds bpb clusters (fatEntry handles.vol) heads chains f out.vol flat'
      out.file.firstCluster (first ++ added))
    (hfile₁ : file₁ = { handles.file write.second with firstCluster := file₁.firstCluster })
    (hreached : Reached bpb clusters (chains f) first handles.vol.flat flat₁ write.offset)
    (hback : WritesBack bpb (chains f).length write.offset write.count)
    (hreturned : out.returned = some returned)
    (hfile : out.file = file₁.extended write.offset write.count)
    (hroom : bpb.clustersFor (write.offset + write.count) ≤
      (chains f ++ (first ++ added)).length)
    (hwritten : Written bpb (chains f ++ (first ++ added)) flat₁ flat₂ write.buffer
      write.offset write.count)
    (honly : ∀ a, a < file₁.direntAddress bpb (chains d) ∨
      file₁.direntAddress bpb (chains d) + 32 ≤ a → flat'.data a = flat₂.data a)
    (hsize : file₁.direntOffset % (bpb.clusterSizeBytes / 32) < 128 →
      readU32 flat'.data (file₁.direntAddress bpb (chains d) + 28) =
        (file₁.extended write.offset write.count).sizeBytes % 2 ^ 32) :
    ∃ next, handles.step malloc write = some next ∧
      FileShown bpb clusters heads f d entry (chains d) next (image.write write) := by
  have hoffset₁ : file₁.direntOffset = entry.direntOffset := by
    rw [hfile₁]
    exact hshared.direntOffset write.second
  have haddress := OpenFile.direntAddress_congr hoffset₁ bpb (chains d)
  have hsame : (handles.sized write.second image.size).direntAddress bpb (chains d) =
      entry.direntAddress bpb (chains d) := hshared.direntAddress write.second (chains d)
  rw [haddress] at honly hsize
  rw [hoffset₁] at hsize
  have hfinished : Finished bpb clusters heads chains f d handles.vol
      (handles.sized write.second image.size) write.buffer write.offset write.count
      out first added flat₁ flat₂ flat' := by
    refine ⟨hholds, hreached, hwritten, ?_, ?_⟩
    · exact (hshared.consistent.geometry.le_clustersFor _).trans
        (Nat.mul_le_mul_right _ hroom)
    · rw [hsame]
      exact honly
  exact hshared.shown_after henv hsafe himage hout hreturned hfinished
    (hshared.step_stored henv hsafe hback hfile₁ hfile hout (hsize henv.index) hfinished)

/-- What a safe write does to the file. -/
theorem Shared.step {image : Image}
    (hshared : Shared bpb clusters heads chains f d entry image.size handles)
    (henv : Unhindered bpb clusters entry malloc)
    (hsafe : SafeFor bpb clusters (chains f) image.size handles write)
    (himage : ShowsImage bpb (chains f) image handles) :
    ∃ next, handles.step malloc write = some next ∧
      FileShown bpb clusters heads f d entry (chains d) next (image.write write) := by
  obtain ⟨out, hout⟩ : ∃ out, fat32Write malloc handles.vol (handles.file write.second)
      write.buffer write.offset write.count = out := ⟨_, rfl⟩
  obtain ⟨flat', new, hholds, hcases⟩ := fat32Write_spec hshared.consistent.shows
    hshared.wellFormed (hshared.first write.second) (hshared.handleEntry write.second) hout
  obtain ⟨hreturned, hfull⟩ | ⟨hreturned, htrap⟩ |
    ⟨flat₁, file₁, first, added, rfl, hfile₁, hreached, hends⟩ := hcases
  · exact absurd (hfull henv.memory) (Nat.not_le.mpr hsafe.place)
  · obtain ⟨hstart, hclusters⟩ := hsafe.no_trap hshared
    obtain htrap | htrap := htrap
    · exact absurd hstart (Nat.not_lt.mpr htrap)
    · exact absurd hclusters (Nat.not_lt.mpr htrap)
  · have hfree := hreached.free
    cases hends with
    | inside hoffset hless hreturned hfile hwritten =>
        refine hshared.step_inside henv hsafe himage hout hholds hfile₁ hreached ?_
          hreturned hfile ?_
        · rintro (haligned | ⟨hcross, -⟩)
          · exact hoffset haligned
          · omega
        · rw [min_eq_left (by omega)]
          exact hwritten
    | atEnd hoffset hle hlast hreturned hfile hwritten =>
        refine hshared.step_inside henv hsafe himage hout hholds hfile₁ hreached ?_
          hreturned hfile ?_
        · rintro (haligned | ⟨-, hcross⟩)
          · exact hoffset haligned
          · rw [hlast, List.length_append] at hcross
            omega
        · rw [min_eq_right hle]
          exact hwritten
    | full returned hless hreturned hfile hfull =>
        have hroom := hsafe.room
        rw [List.length_append] at hfull
        omega
    | whole flat₂ hoffset hreturned hfile hneed hroom hwritten hentry =>
        obtain ⟨honly, hsize⟩ := hentry henv.reach
        refine hshared.step_whole henv hsafe himage hout hholds hfile₁ hreached ?_
          hreturned hfile hroom hwritten honly hsize
        refine hoffset.imp id ?_
        rintro ⟨hcross, hle⟩
        exact ⟨hle, hreached.lt_length hcross⟩

end Step

/-! ## All writes -/

section Writes

variable {File : Type*} [DecidableEq File] {heads : File → ℕ} {f d : File} {bpb : Bpb}
  {clusters : ℕ} {handles : Handles} {entry : OpenFile} {directory : List ℕ}
  {malloc : ℕ → Bool} {write : HandleWrite} {image : Image}

theorem FileShown.step
    (hshown : FileShown bpb clusters heads f d entry directory handles image)
    (henv : Unhindered bpb clusters entry malloc)
    (hsafe : SafeWrite bpb clusters (entry.direntAddress bpb directory) handles write) :
    ∃ next, handles.step malloc write = some next ∧
      FileShown bpb clusters heads f d entry directory next (image.write write) := by
  obtain ⟨chains, rfl, hshared, himage⟩ := hshown
  apply hshared.step henv _ himage
  rw [← hshared.entrySize]
  apply hsafe
  rw [hshared.entryHead]
  exact hshared.wellFormed.chain f

omit [DecidableEq File] in
theorem FileShown.oneFile
    (hshown : FileShown bpb clusters heads f d entry directory handles image) :
    OneFile bpb clusters (entry.direntAddress bpb directory) image handles := by
  obtain ⟨chains, rfl, hshared, himage⟩ := hshown
  refine ⟨⟨chains f, ?_, ?_⟩, hshared.entrySize, ?_⟩
  · rw [hshared.entryHead]
    exact hshared.wellFormed.chain f
  · intro x hx
    exact ⟨(himage.inside x hx).trans_le hshared.room, himage.bytes x hx⟩
  · intro buffer offset count
    have hsame : handles.first.firstCluster = handles.second.firstCluster :=
      (hshared.first false).trans (hshared.first true).symm
    rw [fat32Read, fat32Read, hsame]

end Writes

/-- Two handles of one file agree with each other and with the directory entry
after all writes, if every write is safe. -/
theorem two_handles_one_file {File : Type*} [DecidableEq File] (heads : File → ℕ)
    (chains : File → List ℕ) (f d : File) (bpb : Bpb) (clusters : ℕ) (vol : Volume)
    (first second : OpenFile) (malloc : ℕ → Bool) (writes : List HandleWrite)
    (hfirst : OpenIn bpb clusters vol heads chains f d first)
    (hsecond : OpenIn bpb clusters vol heads chains f d second)
    (hsame : second.direntOffset = first.direntOffset)
    (hhead : entryHead vol.device (first.direntAddress bpb (chains d)) = heads f)
    (henv : Unhindered bpb clusters first malloc)
    (hmeets : Meets (Handles.step malloc)
      (SafeWrite bpb clusters (first.direntAddress bpb (chains d))) ⟨vol, first, second⟩
      writes) :
    ∃ final, exec (Handles.step malloc) ⟨vol, first, second⟩ writes = some final ∧
      OneFile bpb clusters (first.direntAddress bpb (chains d))
        (writes.foldl Image.write (openImage bpb (chains f) vol first)) final := by
  have hstart : FileShown bpb clusters heads f d first (chains d) ⟨vol, first, second⟩
      (openImage bpb (chains f) vol first) := by
    have hcluster : second.direntCluster = first.direntCluster :=
      Option.some.inj (hsecond.entry.start.symm.trans hfirst.entry.start)
    have hsize : second.sizeBytes = first.sizeBytes := by
      rw [← hfirst.entrySize, ← hsecond.entrySize, OpenFile.direntAddress,
        OpenFile.direntAddress, hsame]
    refine ⟨chains, rfl, ⟨hfirst.consistent, hfirst.wellFormed, hfirst.apart, ?_, ?_, ?_, ?_,
      hfirst.entry, hfirst.size, hfirst.entrySize, hhead⟩, fun x hx => hx, fun x _ => rfl⟩
    · rintro (_ | _)
      · exact hfirst.first
      · exact hsecond.first
    · rintro (_ | _)
      · rfl
      · exact hcluster
    · rintro (_ | _)
      · rfl
      · exact hsame
    · rintro (_ | _)
      · exact le_refl _
      · exact hsize.le
  obtain ⟨final, hrun, hshown⟩ := exec_simulates
    (fun _ _ _ hshown hsafe => hshown.step henv hsafe) hstart hmeets
  exact ⟨final, hrun, hshown.oneFile⟩

/-! ## Two opens -/

section Opens

variable {root : Root} {base vol vol' : Volume}

theorem walkTokens_alike {walk : Walk} {tokens : List CString}
    (halike : Alike base vol) (halike' : Alike base vol') :
    (∃ read read' found, walkTokens root vol walk tokens = some (read, found) ∧
      walkTokens root vol' walk tokens = some (read', found) ∧
      Alike base read ∧ Alike base read') ∨
    (walkTokens root vol walk tokens = none ∧ walkTokens root vol' walk tokens = none) := by
  induction tokens generalizing vol vol' walk with
  | nil => exact .inl ⟨vol, vol', some walk, rfl, rfl, halike, halike'⟩
  | cons token tokens ih =>
      rw [walkTokens, walkTokens]
      obtain ⟨read, read', found, hlookup, hlookup', hread, hread'⟩ | ⟨hlookup, hlookup'⟩ :=
        @lookup_alike root base vol vol' walk.parent token halike halike'
      · rw [hlookup, hlookup']
        cases found with
        | none => exact .inl ⟨read, read', none, rfl, rfl, hread, hread'⟩
        | some entry => exact ih hread hread'
      · rw [hlookup, hlookup']
        exact .inr ⟨rfl, rfl⟩

/-- On alike volumes a path is opened in the same way. -/
theorem fat32Open_alike {path : CString} {parent : VFile} {opened opened' : VFile}
    {read read' : Volume} (halike : Alike base vol) (halike' : Alike base vol')
    (hopen : fat32Open root vol path parent = some (read, some opened))
    (hopen' : fat32Open root vol' path parent = some (read', some opened')) :
    opened = opened' ∧ Alike base read ∧ Alike base read' := by
  have hwalk := @walkTokens_alike root base vol vol' .start (pathTokens path) halike halike'
  rw [fat32Open, resolvePath] at hopen hopen'
  by_cases hempty : path = []
  · rw [if_pos hempty] at hopen hopen'
    dsimp only at hopen hopen'
    rw [if_pos hempty] at hopen hopen'
    cases hopen
    cases hopen'
    exact ⟨rfl, halike, halike'⟩
  · rw [if_neg hempty] at hopen hopen'
    by_cases hlong : 4096 ≤ path.length
    · rw [if_pos hlong] at hopen
      cases hopen
    · rw [if_neg hlong] at hopen hopen'
      obtain ⟨next, next', found, htokens, htokens', hnext, hnext'⟩ | ⟨htokens, -⟩ := hwalk
      · rw [htokens] at hopen
        rw [htokens'] at hopen'
        cases found with
        | none =>
            dsimp only [Option.map_none] at hopen
            rw [if_neg hempty] at hopen
            cases hopen
        | some walk =>
            cases hopen
            cases hopen'
            exact ⟨rfl, hnext, hnext'⟩
      · rw [htokens] at hopen
        cases hopen

/-- The second open gives what the first gave. -/
theorem openTwice_same {path : CString} {parent : VFile} {handles : Handles}
    (hquiet : Quiet vol) (hopens : openTwice root vol path parent = some handles) :
    handles.second = handles.first ∧ Alike vol handles.vol := by
  rw [openTwice] at hopens
  split at hopens
  case h_1 read first hfirst =>
    split at hopens
    case h_1 again second hsecond =>
      cases hopens
      obtain ⟨-, hread, -⟩ := fat32Open_alike hquiet.alike hquiet.alike hfirst hfirst
      obtain ⟨hsame, -, hagain⟩ := fat32Open_alike hquiet.alike hread hfirst hsecond
      exact ⟨congrArg VFile.file hsame.symm, hagain⟩
    case h_2 => cases hopens
  case h_2 => cases hopens

end Opens

/-! ## A file of one cluster -/

/-- The entry of the file `A.TXT` with the cluster 3 and 512 bytes. -/
def smallEntry : List UInt8 :=
  [0x41, 0x20, 0x20, 0x20, 0x20, 0x20, 0x20, 0x20, 0x54, 0x58, 0x54, 0x20, 0, 0, 0, 0,
    0, 0, 0, 0, 0, 0, 0, 0, 0, 0, 3, 0, 0, 2, 0, 0]

def sharedVolume : Volume :=
  { smallVolume with
    device := fun a =>
      if 512 ≤ a ∧ a < 528 then if a % 4 = 3 then 0x0F else 0xFF
      else if 1024 ≤ a ∧ a < 1056 then smallEntry.getD (a - 1024) 0
      else 0 }

def sharedChains : Bool → List ℕ
  | true => [2]
  | false => [3]

def sharedFile : OpenFile where
  firstCluster := 3
  sizeBytes := 512
  fileFlags := 0x20
  direntCluster := 2
  direntOffset := 0

theorem sharedVolume_wellFormed :
    WellFormed (fatEntry sharedVolume) 8 (fun x => (sharedChains x).headD 0)
      sharedChains := by
  refine ⟨by decide, by decide, ?_, ?_⟩
  · intro x
    refine ⟨rfl, ?_, ?_, ?_, ?_⟩
    · cases x <;> decide
    · cases x <;> decide
    · intro p cluster next _ hnext
      cases x <;> simp [sharedChains] at hnext
    · intro last hlast
      cases x with
      | false =>
          rw [← Option.some.inj hlast]
          decide
      | true =>
          rw [← Option.some.inj hlast]
          decide
  · intro x y hxy cluster hx hy
    cases x <;> cases y <;> simp_all [sharedChains]

theorem sharedFile_open :
    OpenIn sharedVolume.mount.bpb 6 sharedVolume (fun x => (sharedChains x).headD 0)
      sharedChains false true sharedFile :=
  ⟨⟨smallVolume_consistent.geometry, smallVolume_consistent.mounted,
      FreshCache.inv ⟨rfl, rfl⟩ (by decide) rfl⟩,
    sharedVolume_wellFormed, rfl, ⟨rfl, by decide⟩, by decide, by decide, by decide +kernel⟩

theorem sharedFile_head : entryHead sharedVolume.device
    (sharedFile.direntAddress sharedVolume.mount.bpb (sharedChains true)) =
      (sharedChains false).headD 0 := by decide +kernel

/-- A handle writes two clusters. -/
theorem sharedFile_safe :
    SafeWrite sharedVolume.mount.bpb 6
      (sharedFile.direntAddress sharedVolume.mount.bpb (sharedChains true))
      ⟨sharedVolume, sharedFile, sharedFile⟩ ⟨true, fun _ => 1, 0, 1024⟩ := by
  intro chain hchain
  dsimp only at hchain
  rw [sharedFile_head] at hchain
  obtain rfl : chain = [3] :=
    hchain.unique (sharedVolume_wellFormed.chain false) (by decide)
  refine ⟨by decide, by decide +kernel, by decide +kernel, .inr (by decide), ?_, ?_⟩
  · intro _
    decide +kernel
  · intro hback
    exact absurd (.inl (by decide)) hback

theorem two_handles_small :
    ∃ final, exec (Handles.step fun _ => true) ⟨sharedVolume, sharedFile, sharedFile⟩
        [⟨true, fun _ => 1, 0, 1024⟩] = some final ∧
      OneFile sharedVolume.mount.bpb 6
        (sharedFile.direntAddress sharedVolume.mount.bpb (sharedChains true))
        (([⟨true, fun _ => 1, 0, 1024⟩] : List HandleWrite).foldl Image.write
          (openImage sharedVolume.mount.bpb (sharedChains false) sharedVolume sharedFile))
        final :=
  two_handles_one_file (fun x => (sharedChains x).headD 0) sharedChains false true
    sharedVolume.mount.bpb 6 sharedVolume sharedFile sharedFile (fun _ => true)
    [⟨true, fun _ => 1, 0, 1024⟩] sharedFile_open sharedFile_open rfl sharedFile_head
    ⟨.inl (by decide), by decide, fun _ => rfl⟩
    (meets_cons_intro sharedFile_safe fun _ _ => trivial)

/-- The first handle appends a cluster, and the second overwrites the one that it
knows. -/
def staleWrites : List HandleWrite :=
  [⟨false, fun _ => 1, 0, 1024⟩, ⟨true, fun _ => 2, 0, 512⟩]

/-- Both handles come from an open, and the second write takes the size back to
512. -/
theorem two_handles_lose_size :
    OpenIn sharedVolume.mount.bpb 6 sharedVolume (fun x => (sharedChains x).headD 0)
      sharedChains false true sharedFile ∧
    ∃ start final, openTwice ⟨2, fun _ => 0⟩ sharedVolume
        [0x41, 0x2e, 0x54, 0x58, 0x54] ⟨0, sharedFile⟩ = some start ∧
      (start.first, start.second) = (sharedFile, sharedFile) ∧
      exec (Handles.step fun _ => true) start staleWrites = some final ∧
      ¬OneFile sharedVolume.mount.bpb 6
        (sharedFile.direntAddress sharedVolume.mount.bpb (sharedChains true))
        (staleWrites.foldl Image.write
          (openImage sharedVolume.mount.bpb (sharedChains false) start.vol sharedFile))
        final := by
  have hopens : ((openTwice ⟨2, fun _ => 0⟩ sharedVolume
      [0x41, 0x2e, 0x54, 0x58, 0x54] ⟨0, sharedFile⟩).map fun start =>
        ((start.first, start.second),
          (exec (Handles.step fun _ => true) start staleWrites).map fun final =>
            readU32 final.vol.device
              (sharedFile.direntAddress sharedVolume.mount.bpb (sharedChains true) + 28))) =
      some ((sharedFile, sharedFile), some 512) := by decide +kernel
  obtain ⟨start, hstart, hstate⟩ := Option.map_eq_some_iff.mp hopens
  obtain ⟨hfiles, hsize⟩ := Prod.mk.inj hstate
  obtain ⟨final, hfinal, hentry⟩ := Option.map_eq_some_iff.mp hsize
  refine ⟨sharedFile_open, start, final, hstart, hfiles, hfinal, ?_⟩
  intro hone
  have hgrown : 512 = 1024 := hentry.symm.trans hone.size
  exact absurd hgrown (by decide)

end KimisOS.Fat32
