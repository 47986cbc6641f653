import KimisOS.Core.Run
import KimisOS.Fat32.CreateKeeps
import KimisOS.Fat32.Reopen
import KimisOS.Fat32.Session
import KimisOS.Fat32.TwoHandles

/-!
# What a close leaves behind

`fat32_close` does nothing, and nothing else brings the cached window of the table to
the device before another window is needed, or an open file to its directory entry.  A
device that is mounted afresh shows the files as the driver saw them if the window has
nothing to bring, and opens a file as the driver has it if its entry is up to date.
-/

namespace KimisOS.Fat32

open KimisOS.ByteStore
open KimisOS.Run

/-! ## The calls of a session -/

/-- One call, without its answer. -/
def Session.step (env : Env) (session : Session) (call : Call) : Option Session :=
  (session.call env call).map Prod.fst

/-- The cached window is one of the table's. -/
def Volume.InTable (clusters : ℕ) (vol : Volume) : Prop :=
  vol.mount.fatCacheStart < clusters + 2

/-- The entry of an open file, in a directory that has its clusters in the table, is up to
date. -/
structure Recorded (bpb : Bpb) (clusters : ℕ) (vol : Volume) (file : OpenFile)
    (directory : List ℕ) : Prop where
  chain : IsChain (fatEntry vol) (clusters + 2) file.direntCluster directory
  inside : file.direntOffset / (bpb.clusterSizeBytes / 32) < directory.length
  entry : file.InEntry bpb directory vol.device

/-- What a call needs: a file that is read, written or extended has its clusters in the
table, with a mark that stops `fat32_create`, and an entry; and when a file is closed, the
cache is not dirty and the entry of the file is up to date. -/
def SafeCall (env : Env) (bpb : Bpb) (clusters : ℕ) (session : Session) : Call → Prop
  | .openFile _ _ => True
  | .read file _ _ count => ∀ vfile, session.files[file]? = some vfile →
      session.vol.InTable clusters ∧ vfile.file.firstCluster ≠ 0 ∧ count < 2 ^ 32 ∧
        Chartable bpb clusters session.vol vfile.file
  | .write file _ _ _ => ∀ vfile, session.files[file]? = some vfile →
      session.vol.InTable clusters ∧ Chartable bpb clusters session.vol vfile.file
  | .create parent path _ => ∀ vfile chosen vol directory,
      session.files[parent]? = some vfile → target path = some chosen →
      openParent session.root env.scratch session.vol vfile chosen =
        some (vol, some directory) →
      ∃ heads chains d,
        Charted bpb clusters (fatEntry session.vol) heads chains d directory.file ∧
          StopsWalk (fatEntry session.vol) (chains false)
  | .close file => session.vol.InTable clusters ∧ session.vol.Clean ∧
      ∀ vfile, session.files[file]? = some vfile →
        ∃ directory, Recorded bpb clusters session.vol vfile.file directory

section Calls

variable {env : Env} {bpb : Bpb} {clusters : ℕ} {session next : Session} {vol : Volume}

theorem Sound.consistent (hsound : Sound bpb clusters vol) (hin : vol.InTable clusters) :
    Consistent bpb clusters vol := by
  obtain ⟨base, hconsistent, haccessed⟩ := hsound
  rcases haccessed.kept with rfl | hreloaded
  · exact hconsistent
  · apply haccessed.consistent hconsistent hin
    rw [hreloaded.checkBounds_iff]
    obtain ⟨index, -, hstart, -⟩ := hreloaded.window
    rw [hstart]
    omega

theorem Sound.create {created : Created} {vfile : VFile} {path : CString} {flags : ℕ}
    (hsound : Sound bpb clusters session.vol)
    (hsafe : ∀ chosen vol directory, target path = some chosen →
      openParent session.root env.scratch session.vol vfile chosen =
        some (vol, some directory) →
      ∃ heads chains d,
        Charted bpb clusters (fatEntry session.vol) heads chains d directory.file ∧
          StopsWalk (fatEntry session.vol) (chains false))
    (hcreated : fat32Create session.root env.scratch env.rounds session.vol vfile path flags =
      some created) : Sound bpb clusters created.vol := by
  obtain ⟨base, hconsistent, haccessed⟩ := hsound
  have hentries : ∀ {vol : Volume} {file : OpenFile} {made : Option Target},
      createEntries session.root env.scratch env.rounds session.vol vfile path flags =
        some (vol, file, made) → Sound bpb clusters vol := by
    intro vol file made hmade
    by_cases hsome : ∃ chosen opened directory,
        Reaches session.root env.scratch session.vol vfile path chosen opened directory
    · obtain ⟨chosen, opened, directory, hreaches⟩ := hsome
      have hopened := haccessed.openParent hreaches.opens
      obtain ⟨heads, chains, d, hcharted, hmark⟩ :=
        hsafe chosen opened directory hreaches.targetOf hreaches.opens
      rw [hreaches.createEntries_eq] at hmade
      obtain ⟨⟨vol₂, result⟩, hin, heq⟩ := Option.map_eq_some_iff.mp hmade
      obtain ⟨rfl, -⟩ := Prod.mk.inj heq
      have hsame : ∀ index < clusters + 2,
          fatEntry base index = fatEntry session.vol index :=
        fun index hindex => (haccessed.entries hconsistent index hindex).symm
      refine Charted.createIn hopened hconsistent
        ⟨hcharted.wellFormed.congr (by omega) hsame, hcharted.first, hcharted.entry⟩ ?_ hin
      intro last hlast
      rw [hsame last ((hcharted.wellFormed.chain false).range last
        (List.mem_of_getLast? hlast)).2]
      exact hmark last hlast
    · push Not at hsome
      exact ⟨base, hconsistent, (createEntries_early haccessed hsome hmade).2⟩
  rw [fat32Create] at hcreated
  cases hmade : createEntries session.root env.scratch env.rounds session.vol vfile path
      flags with
  | none =>
      rw [hmade] at hcreated
      cases hcreated
  | some made =>
      obtain ⟨vol, file, chosen⟩ := made
      have hvol := hentries hmade
      rw [hmade] at hcreated
      cases chosen with
      | none =>
          obtain rfl := Option.some.inj hcreated
          exact hvol
      | some chosen =>
          obtain ⟨⟨read, opened⟩, hopen, heq⟩ := Option.map_eq_some_iff.mp hcreated
          obtain rfl := heq
          obtain ⟨base', hconsistent', haccessed'⟩ := hvol
          exact ⟨base', hconsistent', haccessed'.fat32OpenWith hopen⟩

/-- The step lemma. -/
theorem Sound.step {call : Call} (hsound : Sound bpb clusters session.vol)
    (hsafe : SafeCall env bpb clusters session call)
    (hstep : session.step env call = some next) : Sound bpb clusters next.vol := by
  rw [Session.step] at hstep
  obtain ⟨⟨after, answer⟩, hcall, rfl⟩ := Option.map_eq_some_iff.mp hstep
  cases call with
  | openFile parent path =>
      obtain ⟨base, hconsistent, haccessed⟩ := hsound
      rw [Session.call] at hcall
      obtain ⟨vfile, -, hopen⟩ := Option.bind_eq_some_iff.mp hcall
      obtain ⟨⟨read, opened⟩, hopened, heq⟩ := Option.map_eq_some_iff.mp hopen
      obtain ⟨rfl, -⟩ := Prod.mk.inj heq
      exact ⟨base, hconsistent, haccessed.fat32Open hopened⟩
  | read file buffer offset count =>
      rw [Session.call] at hcall
      obtain ⟨vfile, hfile, hread⟩ := Option.bind_eq_some_iff.mp hcall
      obtain ⟨hin, hhas, hcount, heads, chains, d, hcharted⟩ := hsafe vfile hfile
      have hconsistent := hsound.consistent hin
      have hchain := hcharted.wellFormed.chain false
      rw [hcharted.first] at hhas
      have hfirst := hchain.first hhas
      have hword : bpb.clusterSizeBytes ≤ 2 ^ 31 :=
        hconsistent.geometry.clusterSize_le (List.ne_nil_of_mem (List.mem_of_getElem? hfirst))
          hchain
      rw [← hcharted.first] at hfirst
      obtain ⟨returned, -, heq⟩ := Option.map_eq_some_iff.mp hread
      obtain ⟨rfl, -⟩ := Prod.mk.inj heq
      exact ((hconsistent.agree fun _ _ => rfl).fat32Read buffer offset count
        hchain hfirst (by omega)).agree.first.sound
  | write file buffer offset count =>
      rw [Session.call] at hcall
      obtain ⟨vfile, hfile, hwrite⟩ := Option.bind_eq_some_iff.mp hcall
      obtain ⟨hin, heads, chains, d, hcharted⟩ := hsafe vfile hfile
      obtain ⟨returned, -, heq⟩ := Option.map_eq_some_iff.mp hwrite
      obtain ⟨rfl, -⟩ := Prod.mk.inj heq
      exact (hcharted.write (hsound.consistent hin)).sound
  | create parent path flags =>
      rw [Session.call] at hcall
      obtain ⟨vfile, hfile, hcreate⟩ := Option.bind_eq_some_iff.mp hcall
      obtain ⟨created, hcreated, heq⟩ := Option.map_eq_some_iff.mp hcreate
      obtain ⟨rfl, -⟩ := Prod.mk.inj heq
      exact hsound.create (fun chosen vol directory => hsafe vfile chosen vol directory hfile)
        hcreated
  | close file =>
      obtain ⟨rfl, -⟩ := Prod.mk.inj (Option.some.inj hcall)
      exact hsound

end Calls

/-! ## Mounting afresh -/

/-- The device, mounted afresh with an empty cache. -/
structure Remounts (bpb : Bpb) (vol fresh : Volume) : Prop where
  device : fresh.device = vol.device
  mounted : Mounted bpb fresh.mount
  cache : FreshCache fresh.mount
  clean : fresh.Clean

/-- Two volumes show the same chain and the same bytes of a file. -/
structure SameFile (clusters : ℕ) (file : OpenFile) (vol vol' : Volume) : Prop where
  chains : ∀ chain, IsChain (fatEntry vol') (clusters + 2) file.firstCluster chain ↔
    IsChain (fatEntry vol) (clusters + 2) file.firstCluster chain
  reads : ∀ chain, IsChain (fatEntry vol) (clusters + 2) file.firstCluster chain →
    chain ≠ [] → ∀ buffer offset count, count < 2 ^ 32 →
      (fat32Read vol' file buffer offset count).returned =
          (fat32Read vol file buffer offset count).returned ∧
        (fat32Read vol' file buffer offset count).buffer =
          (fat32Read vol file buffer offset count).buffer

/-- The files are as the driver saw them: those that are open, and those that are opened
again by paths whose directories have their clusters in the table. -/
structure Durable (root : Root) (clusters : ℕ) (vol fresh : Volume) : Prop where
  files : ∀ file, SameFile clusters file vol fresh
  opens : ∀ path parent opened read,
    Leads root clusters (fatEntry vol) vol .start (pathTokens path) →
    fat32Open root vol path parent = some (read, some opened) →
    ∃ read', fat32Open root fresh path parent = some (read', some opened) ∧
      SameFile clusters opened.file read read'

/-- Every path that leads to the entry of an open file opens it on the device mounted afresh
with the first cluster, the size, the clusters and the bytes that the driver has. -/
def ReopensAs (root : Root) (clusters : ℕ) (vol fresh : Volume) (vfile : VFile) : Prop :=
  ∀ path parent opened read, path ≠ [] →
    Leads root clusters (fatEntry vol) vol .start (pathTokens path) →
    fat32Open root vol path parent = some (read, some opened) → opened.place = vfile.place →
    ∃ read', fat32Open root fresh path parent = some (read', some opened) ∧
      opened.file.firstCluster = vfile.file.firstCluster ∧
      opened.file.sizeBytes = vfile.file.sizeBytes ∧ SameFile clusters vfile.file read read'

section Remount

variable {bpb : Bpb} {clusters : ℕ} {table : ℕ → ℕ} {vol vol' fresh : Volume}

theorem Agree.sameFile (hagree : Agree bpb clusters table vol vol') (file : OpenFile) :
    SameFile clusters file vol vol' where
  chains := by
    intro chain
    constructor
    · intro hchain
      apply hchain.congr
      intro cluster hmem
      have hrange := (hchain.range cluster hmem).2
      rw [hagree.firstEntries cluster hrange, hagree.secondEntries cluster hrange]
    · intro hchain
      apply hchain.congr
      intro cluster hmem
      have hrange := (hchain.range cluster hmem).2
      rw [hagree.firstEntries cluster hrange, hagree.secondEntries cluster hrange]
  reads := by
    intro chain hchain hne buffer offset count hcount
    have hword := hagree.first.geometry.clusterSize_le hne hchain
    have hfirst := hchain.first (hchain.head_ne hne)
    have htable : IsChain table (clusters + 2) file.firstCluster chain :=
      hchain.congr fun cluster hmem =>
        (hagree.firstEntries cluster (hchain.range cluster hmem).2).symm
    have hreads := hagree.fat32Read buffer offset count htable hfirst (by omega)
    exact ⟨hreads.returned, hreads.buffer⟩

/-- A clean volume and the device behind it show the same table. -/
theorem Consistent.remount (hconsistent : Consistent bpb clusters vol) (hclean : vol.Clean)
    (hfresh : Remounts bpb vol fresh) : Agree bpb clusters (fatEntry vol) vol fresh := by
  have hmounted := hconsistent.mounted
  have hmounted' := hfresh.mounted
  have hcache' := hfresh.cache.inv hconsistent.cache.count hmounted'.findsTable
  refine ⟨hconsistent, ⟨hconsistent.geometry, hmounted', hcache'⟩, fun _ _ => rfl, ?_,
    hfresh.device, .inr ⟨hclean, hfresh.clean⟩⟩
  intro index hindex
  have hdisk : diskEntry fresh index = diskEntry vol index := by
    rw [diskEntry, diskEntry, hfresh.device, entryOffset, entryOffset, hmounted.fatStart,
      hmounted.bpb_eq, hmounted'.fatStart, hmounted'.bpb_eq]
  have hempty : ¬fat32CheckBounds fresh.mount index = true := by
    simp [fat32CheckBounds, hfresh.cache.sizeZero]
  rw [fatEntry, if_neg hempty, hdisk, fatEntry]
  split
  case isTrue hcovered =>
    exact (hconsistent.cache.clean ((hconsistent.cache.checkBounds_iff index).mp hcovered).1
      hclean index hindex hcovered).symm
  case isFalse => rfl

theorem Agree.durable (hagree : Agree bpb clusters (fatEntry vol) vol fresh) (root : Root) :
    Durable root clusters vol fresh where
  files := hagree.sameFile
  opens := by
    intro path parent opened read hleads hopen
    obtain ⟨read', hopen', hnext⟩ := hagree.fat32Open hleads hopen
    exact ⟨read', hopen', hnext.sameFile opened.file⟩

/-- Nothing is to be written back on a device that is mounted afresh. -/
theorem Remounts.settled (hfresh : Remounts bpb vol fresh) (hgeo : Geometry bpb clusters) :
    Settled bpb clusters fresh fresh ∧ ∀ index, diskEntry fresh index = fatEntry fresh index := by
  have hquiet : writtenBack fresh = fresh.device :=
    if_neg fun hdirty => absurd (hdirty.2.symm.trans hfresh.clean) (by decide)
  refine ⟨.refl hgeo hfresh.mounted
    ⟨hfresh.cache.inv le_rfl hfresh.mounted.findsTable, hquiet⟩, ?_⟩
  intro index
  have hempty : ¬fat32CheckBounds fresh.mount index = true := by
    simp [fat32CheckBounds, hfresh.cache.sizeZero]
  rw [fatEntry, if_neg hempty]

/-- A file whose entry is up to date is opened again as the driver has it. -/
theorem Recorded.reopens {vfile : VFile} {directory : List ℕ}
    (hrecorded : Recorded bpb clusters vol vfile.file directory)
    (hagree : Agree bpb clusters (fatEntry vol) vol fresh) (hfresh : Remounts bpb vol fresh)
    (root : Root) : ReopensAs root clusters vol fresh vfile := by
  intro path parent opened read hpath hleads hopen hplace
  obtain ⟨read', hopen', hnext⟩ := hagree.fat32Open hleads hopen
  obtain ⟨hsettled, hdisk⟩ := hfresh.settled hagree.first.geometry
  have htable : ∀ index < clusters + 2, diskEntry fresh index = fatEntry vol index := by
    intro index hindex
    rw [hdisk, hagree.secondEntries index hindex]
  obtain ⟨hcluster, hoffset⟩ := Prod.mk.inj hplace
  have hchain : IsChain (diskEntry fresh) (clusters + 2) opened.file.direntCluster directory := by
    rw [hcluster]
    apply hrecorded.chain.congr
    intro cluster hmem
    exact htable cluster (hrecorded.chain.range cluster hmem).2
  have hentry : opened.file.InEntry bpb directory fresh.device :=
    fat32Open_inEntry hsettled ((hagree.leads hleads).congr htable) hpath hopen' hchain
      (by rw [hoffset]; exact hrecorded.inside)
  rw [hfresh.device] at hentry
  obtain ⟨hfirst, hsize⟩ := hrecorded.entry.same hentry hoffset
  exact ⟨read', hopen', hfirst, hsize, hnext.sameFile vfile.file⟩

end Remount

/-! ## Behind the last close -/

theorem exec_closes (env : Env) (session : Session) (files : List ℕ) :
    exec (Session.step env) session (files.map Call.close) = some session := by
  induction files with
  | nil => rfl
  | cons file files ih => exact exec_cons_eq_some.mpr ⟨session, rfl, ih⟩

/-- Every close finds the session as the last one leaves it. -/
theorem closed_safe {env : Env} {bpb : Bpb} {clusters : ℕ} {session final : Session}
    {calls : List Call} {files : List ℕ} {file : ℕ} (hfile : file ∈ files)
    (hmeets : Meets (Session.step env) (SafeCall env bpb clusters) session
      (calls ++ files.map Call.close))
    (hrun : exec (Session.step env) session (calls ++ files.map Call.close) = some final) :
    exec (Session.step env) session calls = some final ∧
      SafeCall env bpb clusters final (.close file) := by
  obtain ⟨n, hn⟩ := List.getElem?_of_mem hfile
  have hat : (calls ++ files.map Call.close)[calls.length + n]? = some (.close file) := by
    rw [List.getElem?_append_right (Nat.le_add_right _ _), Nat.add_sub_cancel_left,
      List.getElem?_map, hn, Option.map_some]
  obtain ⟨before, after, hbefore, -, hsafe, -⟩ := exec_at hrun hmeets hat
  obtain ⟨reached, hcalls, hcloses⟩ := exec_append_eq_some.mp hrun
  obtain rfl := Option.some.inj ((exec_closes env reached files).symm.trans hcloses)
  rw [List.take_append, List.take_of_length_le (Nat.le_add_right _ _),
    Nat.add_sub_cancel_left, ← List.map_take] at hbefore
  obtain ⟨reached', hcalls', hcloses'⟩ := exec_append_eq_some.mp hbefore
  obtain rfl := Option.some.inj (hcalls.symm.trans hcalls')
  obtain rfl := Option.some.inj ((exec_closes env reached _).symm.trans hcloses')
  exact ⟨hcalls, hsafe⟩

/-- When the files have been closed, they are on the device as the driver saw them, in every
run of safe calls on a mounted volume. -/
theorem close_durable (env : Env) (bpb : Bpb) (clusters : ℕ) (session final : Session)
    (calls : List Call) (files : List ℕ) (hsome : files ≠ [])
    (hmounted : Consistent bpb clusters session.vol)
    (hmeets : Meets (Session.step env) (SafeCall env bpb clusters) session
      (calls ++ files.map Call.close))
    (hrun : exec (Session.step env) session (calls ++ files.map Call.close) = some final) :
    ∀ fresh, Remounts bpb final.vol fresh →
      Durable final.root clusters final.vol fresh ∧
        ∀ file ∈ files, ∀ vfile, final.files[file]? = some vfile →
          ReopensAs final.root clusters final.vol fresh vfile := by
  intro fresh hfresh
  obtain ⟨closed, hclosed⟩ := List.exists_mem_of_ne_nil files hsome
  obtain ⟨hcalls, hin, hclean, -⟩ := closed_safe hclosed hmeets hrun
  have hkeep : ∀ session call next, Sound bpb clusters (Session.vol session) →
      SafeCall env bpb clusters session call → session.step env call = some next →
      Sound bpb clusters next.vol :=
    fun _ _ _ hsound hsafe hstep => hsound.step hsafe hstep
  have hmeets' := hmeets.take calls.length
  rw [List.take_left' rfl] at hmeets'
  have hsound : Sound bpb clusters final.vol :=
    exec_invariant hkeep hmounted.sound hmeets' hcalls
  have hagree := (hsound.consistent hin).remount hclean hfresh
  refine ⟨hagree.durable final.root, ?_⟩
  intro file hfile vfile hvfile
  obtain ⟨-, -, -, hrecorded⟩ := closed_safe hfile hmeets hrun
  obtain ⟨directory, hrecorded⟩ := hrecorded vfile hvfile
  exact hrecorded.reopens hagree hfresh final.root

/-! ## One open file -/

def zeroEnv : Env := ⟨fun _ => 0, zeroScratch .all, 4⟩

/-- The file `A.TXT` of one cluster is open. -/
def openSession : Session := ⟨⟨2, fun _ => 0⟩, sharedVolume, [⟨0x20, sharedFile⟩]⟩

theorem openSession_chartable : Chartable sharedVolume.mount.bpb 6 sharedVolume sharedFile :=
  ⟨fun x => (sharedChains x).headD 0, sharedChains, true, sharedVolume_wellFormed, rfl,
    sharedFile_open.entry⟩

/-- A write inside the cluster of the file. -/
def overwrites : List Call := [.write 0 (fun _ => 1) 0 512]

theorem close_durable_overwrites :
    ∃ final, exec (Session.step zeroEnv) openSession
        (overwrites ++ [0].map Call.close) = some final ∧
      ∀ fresh, Remounts sharedVolume.mount.bpb final.vol fresh →
        Durable final.root 6 final.vol fresh ∧
          ∀ file ∈ [0], ∀ vfile, final.files[file]? = some vfile →
            ReopensAs final.root 6 final.vol fresh vfile := by
  have hstates : ((openSession.step zeroEnv (.write 0 (fun _ => 1) 0 512)).map
      fun session => ((session.vol.mount.fatCacheStart, session.vol.mount.cacheDirty),
        fatEntry session.vol 2, session.files.map fun vfile =>
          (vfile.file, entryHead session.vol.device 1024,
            readU32 session.vol.device 1052))) =
        some ((0, false), fat32Eoc, [(sharedFile, 3, 512)]) := by decide +kernel
  obtain ⟨next, hnext, hstate⟩ := Option.map_eq_some_iff.mp hstates
  obtain ⟨hcache, hrest⟩ := Prod.mk.inj hstate
  obtain ⟨hend, hfiles⟩ := Prod.mk.inj hrest
  obtain ⟨hstart, hclean⟩ := Prod.mk.inj hcache
  have hin : next.vol.mount.fatCacheStart < 6 + 2 := by omega
  have hrecorded : ∀ vfile, next.files[0]? = some vfile →
      ∃ directory, Recorded sharedVolume.mount.bpb 6 next.vol vfile.file directory := by
    intro vfile hvfile
    have hentry := congrArg (fun entries => entries[0]?) hfiles
    rw [List.getElem?_map, hvfile] at hentry
    obtain ⟨hfile, hfields⟩ := Prod.mk.inj (Option.some.inj hentry)
    obtain ⟨hhead, hsize⟩ := Prod.mk.inj hfields
    have hmark : fat32EocMin ≤ fatEntry next.vol 2 := by
      rw [hend]
      decide
    rw [hfile]
    exact ⟨[2], .single (by decide) hmark, by decide, hhead, hsize⟩
  have hrun : exec (Session.step zeroEnv) openSession (overwrites ++ [0].map Call.close) =
      some next :=
    exec_cons_eq_some.mpr ⟨next, hnext, rfl⟩
  refine ⟨next, hrun, close_durable zeroEnv sharedVolume.mount.bpb 6 openSession next overwrites
    [0] (by decide) sharedFile_open.consistent (meets_cons_intro ?_ ?_) hrun⟩
  · intro vfile hfile
    obtain rfl := Option.some.inj hfile
    exact ⟨show 0 < 6 + 2 by decide, openSession_chartable⟩
  · intro after hafter
    obtain rfl := Option.some.inj (hnext.symm.trans hafter)
    exact meets_cons_intro ⟨hin, hclean, hrecorded⟩ fun _ _ => trivial

/-- A write that takes a second cluster. -/
def appends : List Call := [.write 0 (fun _ => 1) 0 1024]

/-- The root directory has one more file, `B`, which is empty. -/
def emptyFileVolume : Volume :=
  { sharedVolume with
    device := fun a => if a = 1056 then 0x42 else sharedVolume.device a }

def emptyFile : OpenFile where
  firstCluster := 0
  sizeBytes := 0
  fileFlags := 0
  direntCluster := 2
  direntOffset := 1

def emptySession : Session := ⟨⟨2, fun _ => 0⟩, emptyFileVolume, [⟨0, emptyFile⟩]⟩

/-- A write that does not start at the beginning of the empty file. -/
def shortWrite : List Call := [.write 0 (fun _ => 1) 10 5]

/-- The link to the second cluster is lost: on the device the chain has one cluster. -/
theorem appends_not_durable :
    ∃ final fresh, exec (Session.step zeroEnv) openSession (appends ++ [0].map Call.close) =
        some final ∧
      Remounts sharedVolume.mount.bpb final.vol fresh ∧
      ¬Durable final.root 6 final.vol fresh := by
  have hentries : ((exec (Session.step zeroEnv) openSession (appends ++ [0].map Call.close)).map
      fun final => (fatEntry final.vol 3, fatEntry final.vol 4,
        fatEntry ⟨sharedVolume.mount, final.vol.device⟩ 3)) =
        some (4, fat32Eoc, fat32Eoc) := by decide +kernel
  obtain ⟨final, hrun, hvalues⟩ := Option.map_eq_some_iff.mp hentries
  obtain ⟨hlink, hrest⟩ := Prod.mk.inj hvalues
  obtain ⟨hend, hdevice⟩ := Prod.mk.inj hrest
  refine ⟨final, ⟨sharedVolume.mount, final.vol.device⟩, hrun,
    ⟨rfl, sharedFile_open.consistent.mounted, ⟨rfl, rfl⟩, rfl⟩, ?_⟩
  intro hdurable
  have hchain : IsChain (fatEntry final.vol) 8 3 [3, 4] := by
    refine ⟨rfl, by decide, by decide, ?_, ?_⟩
    · intro p cluster next hcluster hnext
      obtain rfl : p = 0 := by
        have hlt := (List.getElem?_eq_some_iff.mp hnext).1
        simp only [List.length_cons, List.length_nil] at hlt
        omega
      rw [← Option.some.inj hcluster, hlink]
      exact Option.some.inj hnext
    · intro last hlast
      rw [← Option.some.inj hlast, List.getLast_cons_cons, List.getLast_singleton, hend]
      decide
  have hlost := (((hdurable.files sharedFile).chains [3, 4]).mpr hchain).links 0 3 4 rfl rfl
  rw [hdevice] at hlost
  exact absurd hlost (by decide)

/-- The first cluster of the empty file does not come to its entry. -/
theorem shortWrite_not_reopened :
    ∃ final fresh vfile, exec (Session.step zeroEnv) emptySession
        (shortWrite ++ [0].map Call.close) = some final ∧
      Remounts sharedVolume.mount.bpb final.vol fresh ∧ final.files[0]? = some vfile ∧
      ¬ReopensAs final.root 6 final.vol fresh vfile := by
  have hopens : ((exec (Session.step zeroEnv) emptySession
      (shortWrite ++ [0].map Call.close)).map fun final =>
        ((fatEntry final.vol 2, final.root.rootDirCluster, final.files.map VFile.file),
          (fat32Open final.root final.vol [0x42] ⟨0, emptyFile⟩).map fun opened =>
            opened.2.map VFile.file)) =
      some ((fat32Eoc, 2, [{ emptyFile with firstCluster := 4 }]), some (some emptyFile)) := by
    decide +kernel
  obtain ⟨final, hrun, hstate⟩ := Option.map_eq_some_iff.mp hopens
  obtain ⟨hbefore, hopened⟩ := Prod.mk.inj hstate
  obtain ⟨hend, hrest⟩ := Prod.mk.inj hbefore
  obtain ⟨hroot, hfiles⟩ := Prod.mk.inj hrest
  obtain ⟨vfile, hvfile, hfile⟩ := List.map_eq_singleton_iff.mp hfiles
  obtain ⟨⟨read, result⟩, hopen, hresult⟩ := Option.map_eq_some_iff.mp hopened
  obtain ⟨opened, rfl, hsame⟩ := Option.map_eq_some_iff.mp hresult
  refine ⟨final, ⟨sharedVolume.mount, final.vol.device⟩, vfile, hrun,
    ⟨rfl, sharedFile_open.consistent.mounted, ⟨rfl, rfl⟩, rfl⟩, by rw [hvfile]; rfl, ?_⟩
  intro hreopens
  have hleads : Leads final.root 6 (fatEntry final.vol) final.vol .start
      (pathTokens [0x42]) := by
    have htokens : pathTokens [0x42] = [[0x42]] := by decide
    have hmark : fat32EocMin ≤ fatEntry final.vol 2 := by
      rw [hend]
      decide
    have hcluster : final.root.dirCluster Walk.start.parent = 2 := hroot
    rw [htokens]
    refine ⟨⟨[2], ?_, by decide⟩, fun _ _ _ _ => trivial⟩
    rw [hcluster]
    exact .single (by decide) hmark
  obtain ⟨-, -, hfirst, -⟩ := hreopens [0x42] ⟨0, emptyFile⟩ opened read (by decide) hleads hopen
    (by rw [VFile.place, VFile.place, hsame, hfile])
  rw [hsame, hfile] at hfirst
  exact absurd hfirst (by decide)

/-- The chain of the longer file, and the first cluster of the empty one, are lost. -/
theorem close_loses_cluster :
    (Consistent sharedVolume.mount.bpb 6 openSession.vol ∧
      ∃ final fresh, exec (Session.step zeroEnv) openSession
          (appends ++ [0].map Call.close) = some final ∧
        Remounts sharedVolume.mount.bpb final.vol fresh ∧
        ¬Durable final.root 6 final.vol fresh) ∧
    Consistent sharedVolume.mount.bpb 6 emptySession.vol ∧
      ∃ final fresh vfile, exec (Session.step zeroEnv) emptySession
          (shortWrite ++ [0].map Call.close) = some final ∧
        Remounts sharedVolume.mount.bpb final.vol fresh ∧ final.files[0]? = some vfile ∧
        ¬ReopensAs final.root 6 final.vol fresh vfile :=
  ⟨⟨sharedFile_open.consistent, appends_not_durable⟩,
    ⟨⟨sharedFile_open.consistent.geometry, sharedFile_open.consistent.mounted,
      FreshCache.inv ⟨rfl, rfl⟩ (by decide) rfl⟩, shortWrite_not_reopened⟩⟩

end KimisOS.Fat32
