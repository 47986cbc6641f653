import KimisOS.Text.Script
import KimisOS.Vfs.Initrd
import KimisOS.Vfs.Slashes

/-!
# From the archive to the start script

`kmain` makes the first directories, `pci_init` fills `/dev`, and `read_initrd` fills
`/boot`.  Whatever devices there are, every member of the archive can then be opened by
its name and its file holds its data, and `initrc_read` runs the lines of the member
`initrc.conf`.
-/

namespace KimisOS.StartUp

open KimisOS.Fat32 (CString slash dropSlash)
open KimisOS.Run (exec exec_cons_eq_some)
open KimisOS.Vfs
open KimisOS.Initrd (FileSystem Archive Entry bootName bootPath createAll readInitrd
  readInitrd_run dataOffset data_at pagesSize Pointed)

/-! ## The first directories -/

/-- `"dev"`. -/
def devName : CString := cstr "dev"

/-- What `kmain` creates. -/
def kmainFiles : List Creation :=
  [.fcreate (cstr "/tmp") fsFileIsDir, .fcreate (cstr "/dev") fsFileIsDir,
    .fcreate (cstr "/boot") fsFileIsDir, .fcreate (cstr "/dev/disk") fsFileIsDir]

/-- The files that are there before `read_initrd`. -/
def startFiles (config : ℕ → Option PciHeader) : List Creation := kmainFiles ++ pciInit config

/-- `/dev` and `/boot` are directories of the root, and what is below other directories
than the root was created behind `/boot`. -/
structure Ready (tree : Tree) (dev boot : ℕ) : Prop where
  plain : tree.Plain
  enterDev : tree.enter devName rootDir = some dev
  enterBoot : tree.enter bootName rootDir = some boot
  order : rootDir < dev ∧ dev < boot ∧ boot < tree.next
  isDir : tree.IsDir boot
  ramfs : (tree.files boot).fileops = .ramfs
  below : ∀ dir, rootDir < dir → dir < tree.next → ∀ child,
    some child ∈ (tree.files dir).children → boot < child

section Devices

variable {s s' : State} {tree : Tree} {dev boot : ℕ}

theorem Ready.enter_below (hready : Ready tree dev boot) {token : CString} {dir child : ℕ}
    (hdir : rootDir < dir) (hnext : dir < tree.next) (henter : tree.enter token dir = some child) :
    boot < child ∧ child < tree.next := by
  have hsearch := (Tree.enter_eq_some.mp henter).1
  exact ⟨hready.below dir hdir hnext child (Tree.searchChildren_eq_some hsearch).1,
    (hready.plain.grown.searchDir hnext hsearch).2⟩

/-- A path that starts in `/dev` stays there, behind `/boot`. -/
theorem Ready.targetFrom_dev (hready : Ready tree dev boot) {fuel start dir : ℕ}
    {relpath name : CString} (hstart : start = dev ∨ boot < start) (hnext : start < tree.next)
    (htarget : tree.targetFrom fuel start relpath = some (dir, name)) :
    dir = dev ∨ boot < dir := by
  induction fuel generalizing start relpath with
  | zero => cases htarget
  | succ fuel ih =>
      rw [Tree.targetFrom] at htarget
      split at htarget
      · obtain ⟨rfl, -⟩ := Prod.mk.inj (Option.some.inj htarget)
        exact hstart
      · split at htarget
        next child hopen =>
          have henter := (hready.plain.rfopen_firstComponent hopen).symm
          have hroot : rootDir < start := by
            have horder := hready.order
            omega
          obtain ⟨hbehind, hchild⟩ := hready.enter_below hroot hnext henter
          exact ih (.inr hbehind) hchild htarget
        next => cases htarget

theorem firstComponent_dev (rest : CString) :
    firstComponent (cutSlash (devName ++ slash :: rest)) = devName := by
  have hslash : slash ∉ devName := by decide +kernel
  rw [cutSlash]
  split
  · cases rest with
    | nil =>
        rw [List.dropLast_append_cons]
        exact Tree.firstComponent_of_not_mem (by simpa using hslash)
    | cons c rest =>
        rw [List.dropLast_append_cons, List.dropLast_cons_cons]
        exact Tree.firstComponent_append hslash _
  · exact Tree.firstComponent_append hslash _

theorem Ready.target_dev (hready : Ready tree dev boot) {path rest name : CString} {dir : ℕ}
    (hpath : path = slash :: (devName ++ slash :: rest))
    (htarget : tree.target path = some (dir, name)) : dir = dev ∨ boot < dir := by
  have hdrop : dropSlash path = devName ++ slash :: rest := by rw [hpath]; rfl
  rw [Tree.target, Tree.targetFrom] at htarget
  simp only [hdrop, firstComponent_dev] at htarget
  rw [if_neg (by simp)] at htarget
  split at htarget
  next child hopen =>
    have hname : firstComponent devName = devName := by decide +kernel
    rw [← hname] at hopen
    have henter := (hready.plain.rfopen_firstComponent hopen).symm
    rw [hname, hready.enterDev] at henter
    obtain rfl := Option.some.inj henter
    exact hready.targetFrom_dev (.inl rfl) (hready.order.2.1.trans hready.order.2.2) htarget
  next => cases htarget

/-- A new file below another directory than the root. -/
theorem Ready.built (hready : Ready tree dev boot) (creation : Creation) {dir : ℕ}
    {name : CString} (hroot : rootDir < dir) (hdir : dir < tree.next)
    (hmount : ¬ tree.IsMount dir) (hops : (tree.files dir).fileops = .ramfs) :
    Ready (creation.built tree dir name) dev boot := by
  have hgrown := hready.plain.grown
  have henter : ∀ token child, tree.enter token rootDir = some child →
      (creation.built tree dir name).enter token rootDir = some child := by
    intro token child hchild
    obtain ⟨hsearch, hnot⟩ := Tree.enter_eq_some.mp hchild
    have hbelow := (hgrown.searchDir hgrown.root hsearch).2
    rw [Creation.built, Tree.enter_setDevice, Tree.enter_eq_some,
      hgrown.searchDir_addChild hdir hgrown.root fun heq => absurd heq hroot.ne,
      Tree.isMount_addChild hbelow]
    exact ⟨hsearch, hnot⟩
  obtain ⟨hlow, hmiddle, hhigh⟩ := hready.order
  refine ⟨creation.plain_built hready.plain hdir hmount hops, henter _ _ hready.enterDev,
    henter _ _ hready.enterBoot, ⟨hlow, hmiddle, Nat.lt_succ_of_lt hhigh⟩, ?_, ?_, ?_⟩
  · rw [Tree.IsDir, Creation.built, (Tree.setDevice_kept boot).2.1,
      (Tree.addChild_kept hhigh).2.1]
    exact hready.isDir
  · rw [(creation.built_device hhigh).1]
    exact hready.ramfs
  · intro file hfile hnext child hmem
    rw [creation.built_next] at hnext
    by_cases hnew : file = tree.next
    · rw [hnew, creation.children_built_new hdir] at hmem
      exact absurd hmem List.not_mem_nil
    · have hold : file < tree.next := by omega
      rw [Creation.built, (Tree.setDevice_kept file).2.2, Tree.mem_addChild hold] at hmem
      rcases hmem with hmem | ⟨-, rfl⟩
      · exact hready.below file hfile hold child hmem
      · exact hhigh

/-- What is created in `/dev` leaves `/boot` as it is. -/
theorem Ready.step (hready : Ready s.tree dev boot) {creation : Creation} {path rest : CString}
    (hpath : creation.path = some path) (hdev : path = slash :: (devName ++ slash :: rest))
    (hstep : creation.step s = some s') :
    Ready s'.tree dev boot ∧ s'.tree.files boot = s.tree.files boot := by
  obtain ⟨path', hpath', ⟨htree, -⟩ |
    ⟨dir, name, htarget, -, hbelow, hmount, hops, htree⟩⟩ :=
      Creation.step_cases hready.plain hstep
  · rw [htree]
    exact ⟨hready, rfl⟩
  · obtain rfl : path = path' := Option.some.inj (hpath.symm.trans hpath')
    have hdir := hready.target_dev hdev htarget
    obtain ⟨hlow, hmiddle, hhigh⟩ := hready.order
    rw [htree]
    refine ⟨hready.built creation (by omega) hbelow hmount hops, ?_⟩
    exact creation.files_built_other (by omega) (by omega)

/-- The directories that `pci_init` makes. -/
def pciDirectories : List Creation :=
  [.fcreate (cstr "/dev/pci/") fsFileIsDir, .fcreate (cstr "/dev/pci/disk") fsFileIsDir,
    .fcreate (cstr "/dev/pci/net") fsFileIsDir, .fcreate (cstr "/dev/pci/video") fsFileIsDir,
    .fcreate (cstr "/dev/pci/bridge") fsFileIsDir]

/-- The files of the functions on the bus. -/
def pciScan (config : ℕ → Option PciHeader) : List Creation :=
  (List.range 256).flatMap fun bus => (List.range 32).flatMap fun slot =>
    pciGetVendor config bus slot

theorem pciInit_eq (config : ℕ → Option PciHeader) :
    pciInit config = pciDirectories ++ pciScan config := rfl

/-- Behind the directories there are only files of PCI functions. -/
theorem mem_pciScan {config : ℕ → Option PciHeader} {creation : Creation}
    (hcreation : creation ∈ pciScan config) : ∃ function, creation = .pciMakeFile function := by
  obtain ⟨bus, -, hbus⟩ := List.mem_flatMap.mp hcreation
  obtain ⟨slot, -, hslot⟩ := List.mem_flatMap.mp hbus
  rw [pciGetVendor] at hslot
  split at hslot
  · exact absurd hslot List.not_mem_nil
  · rcases List.mem_append.mp hslot with hfuncs | hfirst
    · split at hfuncs
      · obtain ⟨i, -, hi⟩ := List.mem_filterMap.mp hfuncs
        obtain ⟨found, -, rfl⟩ := Option.map_eq_some_iff.mp hi
        exact ⟨_, rfl⟩
      · exact absurd hfuncs List.not_mem_nil
    · exact ⟨_, List.mem_singleton.mp hfirst⟩

/-- Every path of `pci_init` starts in `/dev`. -/
theorem pciInit_dev {config : ℕ → Option PciHeader} {creation : Creation} {path : CString}
    (hcreation : creation ∈ pciInit config) (hpath : creation.path = some path) :
    ∃ rest, path = slash :: (devName ++ slash :: rest) := by
  have hprefix : ∀ rest, cstr "/dev/pci/" ++ rest =
      slash :: (devName ++ slash :: (cstr "pci/" ++ rest)) := by
    intro rest
    have hsplit : cstr "/dev/pci/" = slash :: (devName ++ slash :: cstr "pci/") := by
      decide +kernel
    rw [hsplit, List.cons_append, List.append_assoc, List.cons_append]
  rw [pciInit_eq, List.mem_append] at hcreation
  rcases hcreation with hfixed | hscan
  · have hpaths : ∀ creation ∈ pciDirectories, ∃ path, creation.path = some path ∧
        path = slash :: (devName ++ slash :: path.drop 5) := by
      intro creation hmem
      simp only [pciDirectories, List.mem_cons, List.not_mem_nil, or_false] at hmem
      rcases hmem with rfl | rfl | rfl | rfl | rfl
      all_goals exact ⟨_, rfl, by decide +kernel⟩
    obtain ⟨path', hpath', hsplit⟩ := hpaths creation hfixed
    obtain rfl : path = path' := Option.some.inj (hpath.symm.trans hpath')
    exact ⟨_, hsplit⟩
  · obtain ⟨function, rfl⟩ := mem_pciScan hscan
    simp only [Creation.path, PciFunction.path, classPath] at hpath
    split at hpath
    · cases hpath
    · split at hpath
      · cases hpath
      · obtain rfl := Option.some.inj hpath
        rw [List.append_assoc, List.append_assoc, hprefix]
        exact ⟨_, rfl⟩

theorem Ready.run (hready : Ready s.tree dev boot) {creations : List Creation}
    (hdev : ∀ creation ∈ creations, ∀ path, creation.path = some path →
      ∃ rest, path = slash :: (devName ++ slash :: rest))
    (hrun : exec Creation.step s creations = some s') :
    Ready s'.tree dev boot ∧ s'.tree.files boot = s.tree.files boot := by
  induction creations generalizing s with
  | nil =>
      obtain rfl := Option.some.inj hrun
      exact ⟨hready, rfl⟩
  | cons creation creations ih =>
      obtain ⟨mid, hstep, hrest⟩ := exec_cons_eq_some.mp hrun
      obtain ⟨path, hpath, -⟩ := Creation.step_cases hready.plain hstep
      obtain ⟨rest, hsplit⟩ := hdev creation List.mem_cons_self path hpath
      obtain ⟨hmid, hsame⟩ := hready.step hpath hsplit hstep
      obtain ⟨hfinal, hboot⟩ := ih hmid
        (fun later hlater => hdev later (List.mem_cons_of_mem _ hlater)) hrest
      exact ⟨hfinal, hboot.trans hsame⟩

theorem plain_run {creations : List Creation} (hplain : s.tree.Plain)
    (hrun : exec Creation.step s creations = some s') : s'.tree.Plain := by
  induction creations generalizing s with
  | nil =>
      obtain rfl := Option.some.inj hrun
      exact hplain
  | cons creation creations ih =>
      obtain ⟨mid, hstep, hrest⟩ := exec_cons_eq_some.mp hrun
      refine ih ?_ hrest
      obtain ⟨-, -, ⟨htree, -⟩ | ⟨dir, name, -, -, hbelow, hmount, hops, htree⟩⟩ :=
        Creation.step_cases hplain hstep
      · rw [htree]
        exact hplain
      · rw [htree]
        exact creation.plain_built hplain hbelow hmount hops

/-- What `kmain` leaves: `/tmp`, `/dev` with `/dev/disk` in it, and `/boot`. -/
theorem kmainFiles_ready (hrun : exec Creation.step ramfsInit kmainFiles = some s) :
    Ready s.tree 2 3 ∧ (s.tree.files 3).children = [] := by
  have hfacts : ((exec Creation.step ramfsInit kmainFiles).all fun s =>
      decide (s.tree.enter devName rootDir = some 2 ∧ s.tree.enter bootName rootDir = some 3 ∧
        s.tree.next = 5 ∧ s.tree.IsDir 3 ∧ (s.tree.files 3).fileops = .ramfs ∧
        (s.tree.files 1).children = [] ∧ (s.tree.files 2).children = [some 4] ∧
        (s.tree.files 3).children = [] ∧ (s.tree.files 4).children = [])) = true := by
    decide +kernel
  rw [hrun] at hfacts
  obtain ⟨hdev, hboot, hnext, hdir, hops, htmp, hdisks, hempty, hdisk⟩ :=
    of_decide_eq_true hfacts
  have hplain := plain_run Creation.good_ramfsInit.plain hrun
  refine ⟨⟨hplain, hdev, hboot, ⟨by decide, by decide, ?_⟩, hdir, hops, ?_⟩, hempty⟩
  · rw [hnext]
    decide
  · intro dir hroot hlow child hmem
    rw [hnext] at hlow
    have hcases : dir = 1 ∨ dir = 2 ∨ dir = 3 ∨ dir = 4 := by
      have hpos : 0 < dir := hroot
      omega
    rcases hcases with rfl | rfl | rfl | rfl
    · rw [htmp] at hmem
      exact absurd hmem List.not_mem_nil
    · rw [hdisks] at hmem
      rw [Option.some.inj (List.mem_singleton.mp hmem)]
      decide
    · rw [hempty] at hmem
      exact absurd hmem List.not_mem_nil
    · rw [hdisk] at hmem
      exact absurd hmem List.not_mem_nil

/-- Whatever is on the bus, `/boot` is there and empty. -/
theorem startFiles_ready {config : ℕ → Option PciHeader}
    (hrun : exec Creation.step ramfsInit (startFiles config) = some s) :
    Ready s.tree 2 3 ∧ (s.tree.files 3).children = [] := by
  obtain ⟨mid, hkmain, hpci⟩ := Run.exec_append_eq_some.mp hrun
  have hmid := kmainFiles_ready hkmain
  obtain ⟨hready, hboot⟩ := hmid.1.run (fun creation hmem path => pciInit_dev hmem) hpci
  exact ⟨hready, by rw [hboot, hmid.2]⟩

/-! ### Every file is made -/

def pciName : CString := cstr "pci"

/-- The directories of the classes of devices. -/
def classDirectories : List (List CString) :=
  [[devName, pciName], [devName, pciName, cstr "disk"], [devName, pciName, cstr "net"],
    [devName, pciName, cstr "video"], [devName, pciName, cstr "bridge"]]

/-- The tree has the directories of the classes. -/
structure HasClasses (tree : Tree) : Prop where
  plain : tree.Plain
  directory : ∀ names ∈ classDirectories, ∃ dir, tree.descend names rootDir = some dir ∧
    tree.IsDir dir ∧ (tree.files dir).fileops = .ramfs

/-- The table has a name for the class of every function on the bus. -/
def Named (config : ℕ → Option PciHeader) : Prop :=
  ∀ function, Creation.pciMakeFile function ∈ pciInit config → function.path ≠ none

theorem named_of_paths {config : ℕ → Option PciHeader}
    (hpaths : ((pciInit config).all fun creation => creation.path.isSome) = true) :
    Named config := by
  intro function hmem
  have hsome := List.all_eq_true.mp hpaths _ hmem
  exact Option.isSome_iff_ne_none.mp hsome

/-- The file of a function belongs into one of the directories, and none of them has
its name. -/
theorem classPath_names {major minor : ℕ} {path : CString}
    (hpath : classPath major minor = some path) :
    ∃ names ∈ classDirectories, ∃ name, path = slash :: Tree.joinPath (names ++ [name]) ∧
      (∀ part ∈ names ++ [name], Tree.IsName part) ∧ name.length ≤ 75 ∧ path.length < 4096 ∧
      ∀ names ∈ classDirectories, name ∉ names := by
  have hall : ∀ major < 9, ∀ minor < 20, (classPath major minor).all (fun path =>
      ∃ names ∈ classDirectories, ∃ name ∈ Fat32.splitPath path,
        path = slash :: Tree.joinPath (names ++ [name]) ∧
        (∀ part ∈ names ++ [name], part ≠ [] ∧ slash ∉ part) ∧ name.length ≤ 75 ∧
        path.length < 4096 ∧ ∀ names ∈ classDirectories, name ∉ names) = true := by
    decide +kernel
  obtain ⟨hmajor, hminor⟩ := Creation.classPath_bounds hpath
  have hnames := hall major hmajor minor hminor
  rw [hpath, Option.all_some, decide_eq_true_eq] at hnames
  obtain ⟨names, hmem, name, -, hrest⟩ := hnames
  exact ⟨names, hmem, name, hrest⟩

theorem descend_not_mount {names : List CString} {start dir : ℕ}
    (hstart : ¬ tree.IsMount start) (hdescend : tree.descend names start = some dir) :
    ¬ tree.IsMount dir := by
  induction names generalizing start with
  | nil =>
      obtain rfl := Option.some.inj hdescend
      exact hstart
  | cons name names ih =>
      rw [Tree.descend] at hdescend
      split at hdescend
      · cases hdescend
      next child hchild => exact ih (Tree.enter_eq_some.mp hchild).2 hdescend

/-- A new file leaves the directories whose names are not its own. -/
theorem descend_built {creation : Creation} {names : List CString} {name : CString}
    {start found dir : ℕ} (hgrown : tree.Grown) (hdir : dir < tree.next)
    (hstart : start < tree.next) (hname : name ∉ names)
    (hdescend : tree.descend names start = some found) :
    (creation.built tree dir name).descend names start = some found := by
  induction names generalizing start with
  | nil => exact hdescend
  | cons token names ih =>
      rw [Tree.descend] at hdescend
      split at hdescend
      · cases hdescend
      next child hchild =>
        obtain ⟨hsearch, hmount⟩ := Tree.enter_eq_some.mp hchild
        have hbelow := (hgrown.searchDir hstart hsearch).2
        have htoken : token ≠ name := fun heq => hname (heq ▸ List.mem_cons_self)
        have henter : (creation.built tree dir name).enter token start = some child := by
          rw [Creation.built, Tree.enter_setDevice, Tree.enter_eq_some,
            hgrown.searchDir_addChild hdir hstart fun _ => htoken, Tree.isMount_addChild hbelow]
          exact ⟨hsearch, hmount⟩
        rw [Tree.descend, henter]
        exact ih hbelow (fun hmem => hname (List.mem_cons_of_mem _ hmem)) hdescend

theorem HasClasses.built (hclasses : HasClasses tree) (creation : Creation) {dir : ℕ}
    {name : CString} (hdir : dir < tree.next) (hmount : ¬ tree.IsMount dir)
    (hops : (tree.files dir).fileops = .ramfs)
    (hname : ∀ names ∈ classDirectories, name ∉ names) :
    HasClasses (creation.built tree dir name) := by
  have hgrown := hclasses.plain.grown
  refine ⟨creation.plain_built hclasses.plain hdir hmount hops, ?_⟩
  intro names hmem
  obtain ⟨found, hdescend, hisDir, hramfs⟩ := hclasses.directory names hmem
  have hbelow := hgrown.descend hgrown.root hdescend
  refine ⟨found, descend_built hgrown hdir hgrown.root (hname names hmem) hdescend, ?_, ?_⟩
  · rw [Tree.IsDir, Creation.built, (Tree.setDevice_kept found).2.1,
      (Tree.addChild_kept hbelow).2.1]
    exact hisDir
  · rw [(creation.built_device hbelow).1]
    exact hramfs

/-- The file of a function that has a name is made. -/
theorem HasClasses.step (hclasses : HasClasses s.tree) {function : PciFunction}
    (hnamed : function.path ≠ none) :
    ∃ s', (Creation.pciMakeFile function).step s = some s' ∧ HasClasses s'.tree := by
  obtain ⟨path, hpath⟩ := Option.ne_none_iff_exists'.mp hnamed
  obtain ⟨names, hmem, name, rfl, hisName, hname, hshort, hother⟩ := classPath_names hpath
  obtain ⟨dir, hdescend, hisDir, hops⟩ := hclasses.directory names hmem
  have hplain := hclasses.plain
  have hdir := hplain.grown.descend hplain.grown.root hdescend
  have hmount := descend_not_mount hplain.root.1 hdescend
  have hne : names ≠ [] := by
    rintro rfl
    exact absurd hmem (by decide +kernel)
  obtain ⟨first, rest, rfl⟩ := List.exists_cons_of_ne_nil hne
  have hparts := Tree.length_lt_joinPath hisName
  have hlong := List.length_pos_iff.mpr (Tree.joinPath_ne_nil (by simp) hisName)
  rw [List.length_cons] at hshort hparts
  obtain ⟨s', hcreate, htree⟩ := (@fcreate_under s 0
    (slash :: Tree.joinPath (first :: rest ++ [name])) first name rest dir
    ⟨hplain.grown, hplain.bareDevice⟩ (by rw [List.length_cons]; omega) hisName
    (Tree.cutSlash_joinPath hisName) le_rfl (by omega) (by rw [List.length_cons]; omega)
    hdescend hisDir hops).2 hname
  refine ⟨{ s' with tree := s'.tree.setDevice s.tree.next .pci function.id }, ?_, ?_⟩
  · rw [Creation.step, pciMakeFile, hpath]
    dsimp only
    rw [hcreate]
  · show HasClasses (s'.tree.setDevice s.tree.next .pci function.id)
    rw [htree]
    exact hclasses.built (.pciMakeFile function) hdir hmount hops hother

/-- The directories are made. -/
theorem directories_run : ∃ s, exec Creation.step ramfsInit (kmainFiles ++ pciDirectories) =
    some s ∧ HasClasses s.tree := by
  have hfacts : ((exec Creation.step ramfsInit (kmainFiles ++ pciDirectories)).any fun s =>
      decide (∀ names ∈ classDirectories, ∃ dir ∈ List.range 20,
        s.tree.descend names rootDir = some dir ∧ s.tree.IsDir dir ∧
          (s.tree.files dir).fileops = .ramfs)) = true := by
    decide +kernel
  obtain ⟨s, hrun, hdirectories⟩ := (Option.any_eq_true _ _).mp hfacts
  refine ⟨s, hrun, plain_run Creation.good_ramfsInit.plain hrun, ?_⟩
  intro names hmem
  obtain ⟨dir, -, hdir⟩ := of_decide_eq_true hdirectories names hmem
  exact ⟨dir, hdir⟩

/-- When all classes have names, `kmain` makes all its files. -/
theorem startFiles_run {config : ℕ → Option PciHeader} (hnamed : Named config) :
    ∃ s, exec Creation.step ramfsInit (startFiles config) = some s := by
  obtain ⟨mid, hmid, hclasses⟩ := directories_run
  have hprogress : ∀ (s : State) creation, HasClasses s.tree → creation ∈ pciScan config →
      ∃ next, Creation.step s creation = some next ∧ HasClasses next.tree := by
    intro s creation hclasses hmem
    obtain ⟨function, rfl⟩ := mem_pciScan hmem
    refine hclasses.step (hnamed function ?_)
    rw [pciInit_eq]
    exact List.mem_append_right _ hmem
  obtain ⟨s, hscan, -⟩ := Run.exec_total hprogress hclasses
    (Run.meets_of_mem (fun _ hmem _ => hmem) mid)
  refine ⟨s, ?_⟩
  rw [startFiles, pciInit_eq, ← List.append_assoc]
  exact Run.exec_append_eq_some.mpr ⟨mid, hmid, hscan⟩

end Devices

/-! ## The members of the archive -/

section Members

variable {s final : State} {dev boot : ℕ} {entry : Entry} {entries : List Entry}

theorem bootPath_eq (entry : Entry) :
    bootPath entry = slash :: Tree.joinPath [bootName, entry.name] := rfl

theorem isName_bootName : Tree.IsName bootName := ⟨by decide, by decide⟩

theorem isName_entry (hentry : entry.WellFormed) : Tree.IsName entry.name := by
  refine ⟨?_, hentry.noSlash⟩
  intro hempty
  have hnonempty := hentry.nonempty
  rw [hempty] at hnonempty
  exact absurd hnonempty (by decide)

theorem isName_path (hentry : entry.WellFormed) :
    ∀ part ∈ [bootName] ++ [entry.name], Tree.IsName part := by
  intro part hpart
  rcases List.mem_append.mp hpart with hmem | hmem
  · rw [List.mem_singleton.mp hmem]
    exact isName_bootName
  · rw [List.mem_singleton.mp hmem]
    exact isName_entry hentry

theorem length_joinPath (name : CString) :
    (Tree.joinPath [bootName, name]).length = 5 + name.length := by
  have hsplit := Tree.joinPath_concat_cons bootName name []
  rw [List.nil_append, List.cons_append, List.nil_append] at hsplit
  rw [hsplit, List.length_append, List.length_cons]
  show 4 + (name.length + 1) = _
  omega

theorem Ready.descends_boot (hready : Ready s.tree dev boot) :
    s.tree.descend [bootName] rootDir = some boot := by
  rw [Tree.descend, hready.enterBoot]
  rfl

theorem Ready.isDir_boot (hready : Ready s.tree dev boot) : s.tree.IsDir boot := hready.isDir

theorem Ready.ramfs_boot (hready : Ready s.tree dev boot) :
    (s.tree.files boot).fileops = .ramfs := hready.ramfs

theorem path_short (hentry : entry.WellFormed) :
    (Tree.joinPath ([bootName] ++ [entry.name])).length ≤ 4096 := by
  have hshort := hentry.short
  rw [show Tree.joinPath ([bootName] ++ [entry.name]) = Tree.joinPath [bootName, entry.name] from
    rfl, length_joinPath]
  omega

/-- The path of a member whose name is not taken. -/
def Ready.newPath (hready : Ready s.tree dev boot) (hentry : entry.WellFormed)
    (habsent : s.tree.searchDir entry.name boot = none) : NewPath s.tree where
  directories := [bootName]
  name := entry.name
  dir := boot
  isName := isName_path hentry
  enters := hready.descends_boot
  isDir := hready.isDir_boot
  ramfs := hready.ramfs_boot
  absent := habsent
  short := path_short hentry

theorem Ready.create (hready : Ready s.tree dev boot) (hentry : entry.WellFormed)
    (habsent : s.tree.searchDir entry.name boot = none) :
    ∃ s', Vfs.fcreate s (bootPath entry) 0 = some (s', some s.tree.next) ∧
      s'.tree = s.tree.addChild boot entry.name 0 := by
  have hram : RamFiles s.tree := ⟨hready.plain.grown, hready.plain.bareDevice⟩
  have hshort := hentry.short
  have hpath : (hready.newPath hentry habsent).pathname true false = bootPath entry := by
    rw [NewPath.pathname, if_pos rfl, if_neg Bool.false_ne_true, List.append_nil]
    rfl
  have hlength : (bootPath entry).length % 4096 ≠ 0 := by
    rw [bootPath_eq, List.length_cons, length_joinPath]
    omega
  have hfits := (@fcreate_fits s 0 (hready.newPath hentry habsent) hram true false
    (by rwa [hpath]) (.inl rfl)).2
  rw [hpath] at hfits
  exact hfits (show entry.name.length ≤ 75 by omega)

/-- `read_initrd` finds every name free, and afterwards the names lead to the new
files. -/
theorem Ready.createAll (hready : Ready s.tree dev boot)
    (hentries : ∀ entry ∈ entries, entry.WellFormed)
    (hnames : (entries.map Entry.name).Nodup)
    (habsent : ∀ entry ∈ entries, s.tree.searchDir entry.name boot = none) :
    ∃ final files, Initrd.createAll s (entries.map bootPath) = some (final, files) ∧
      Ready final.tree dev boot ∧ s.tree.Keeps final.tree ∧
      ∀ i (hi : i < entries.length),
        final.tree.enter entries[i].name boot = some (s.tree.next + i) := by
  induction entries generalizing s with
  | nil => exact ⟨s, [], rfl, hready, Tree.Keeps.refl _, fun i hi => absurd hi (Nat.not_lt_zero i)⟩
  | cons entry entries ih =>
      have hentry := hentries entry List.mem_cons_self
      have hfree := habsent entry List.mem_cons_self
      obtain ⟨hlow, hmiddle, hhigh⟩ := hready.order
      have hgrown := hready.plain.grown
      obtain ⟨s', hcreate, htree⟩ := hready.create hentry hfree
      have hbuilt : s'.tree = (Creation.fcreate (bootPath entry) 0).built s.tree boot
          entry.name := by
        rw [htree, Creation.built_fcreate hhigh]
      have hmount : ¬ s.tree.IsMount boot := (Tree.enter_eq_some.mp hready.enterBoot).2
      have hready' : Ready s'.tree dev boot := by
        rw [hbuilt]
        exact hready.built _ (hlow.trans hmiddle) hhigh hmount hready.ramfs
      have hkeeps : s.tree.Keeps s'.tree := by
        rw [hbuilt]
        exact Creation.keeps_built _ hgrown hhigh hfree
      have hnext : s'.tree.next = s.tree.next + 1 := by rw [htree, Tree.addChild_next]
      rw [List.map_cons, List.nodup_cons] at hnames
      have habsent' : ∀ later ∈ entries, s'.tree.searchDir later.name boot = none := by
        intro later hlater
        rw [htree, hgrown.searchDir_addChild hhigh hhigh]
        · exact habsent later (List.mem_cons_of_mem _ hlater)
        · rintro - heq
          exact hnames.1 (heq ▸ List.mem_map_of_mem hlater)
      obtain ⟨final, files, hrest, hfinal, hkeeps', henter⟩ := ih hready'
        (fun later hlater => hentries later (List.mem_cons_of_mem _ hlater)) hnames.2 habsent'
      refine ⟨final, s.tree.next :: files, ?_, hfinal, hkeeps.trans hkeeps', ?_⟩
      · rw [List.map_cons, Initrd.createAll, hcreate]
        dsimp only
        rw [hrest]
      · intro i hi
        cases i with
        | zero =>
            apply hkeeps'.enter boot (hhigh.trans_le hkeeps.next)
            rw [hbuilt]
            exact Creation.enter_built_new _ hgrown hhigh hfree (Nat.zero_and _)
        | succ i =>
            have hlater := henter i (Nat.lt_of_succ_lt_succ hi)
            rw [hnext, Nat.add_assoc, Nat.add_comm 1 i] at hlater
            exact hlater

end Members

/-! ## The start script -/

section Script

variable {World File : Type*}

/-- What a file points at. -/
def contents (mem : ℕ → UInt8) (fs : FileSystem) (file : ℕ) : List UInt8 :=
  (List.range (fs.size file)).map fun k => mem ((fs.privatePtr file + k) % 2 ^ 32)

/-- The archive is in memory. -/
structure InMemory (mem : ℕ → UInt8) (ptr : ℕ) (archive : List UInt8) : Prop where
  inside : ptr + archive.length ≤ 2 ^ 32
  bytes : ∀ k (hk : k < archive.length), mem (ptr + k) = archive[k]

variable {mem : ℕ → UInt8} {ptr : ℕ} {archive : List UInt8} {entries : List Entry}
  {fs fs' : FileSystem}

/-- The data of a member lies inside the archive. -/
theorem dataOffset_lt (harchive : Archive archive entries) {i : ℕ} (hi : i < entries.length) :
    dataOffset entries i + entries[i].data.length < archive.length := by
  obtain ⟨last, behind, hmembers, hlast, -⟩ := harchive.members
  have hblock := (harchive.wellFormed entries[i] (List.getElem_mem hi)).block
  have hsplit : entries.flatMap Entry.bytes = (entries.take i).flatMap Entry.bytes ++
      (entries[i].bytes ++ (entries.drop (i + 1)).flatMap Entry.bytes) := by
    conv_lhs => rw [← List.take_append_drop i entries, List.drop_eq_getElem_cons hi]
    rw [List.flatMap_append, List.flatMap_cons]
  rw [hmembers, hsplit, dataOffset]
  simp only [List.length_append, Entry.bytes, Initrd.ustarHeaderSize]
  omega

/-- The file of a member has its data, and what else is on the last page. -/
theorem contents_member (harchive : Archive archive entries) (hmem : InMemory mem ptr archive)
    (hpointed : Pointed fs fs' ptr entries) {i : ℕ} (hi : i < entries.length) :
    entries[i].data <+: contents mem fs' (fs.vfs.tree.next + i) ∧
      fs'.privatePtr (fs.vfs.tree.next + i) ≠ 0 := by
  have hinside := hmem.inside
  have hlt := dataOffset_lt harchive hi
  have hheader : 512 ≤ dataOffset entries i := by
    rw [dataOffset, Initrd.ustarHeaderSize]
    exact Nat.le_add_left _ _
  have hptr : fs'.privatePtr (fs.vfs.tree.next + i) = ptr + dataOffset entries i := by
    rw [hpointed.privatePtr i hi, Nat.mod_eq_of_lt (by omega)]
  refine ⟨?_, by omega⟩
  have hsize : entries[i].data.length ≤ fs'.size (fs.vfs.tree.next + i) := by
    rw [hpointed.size i hi, pagesSize]
    omega
  rw [List.prefix_iff_eq_take]
  apply List.ext_getElem
  · rw [List.length_take, contents, List.length_map, List.length_range, Nat.min_eq_left hsize]
  · intro k hk hk'
    rw [List.getElem_take]
    simp only [contents, List.getElem_map, List.getElem_range]
    have hdata := (data_at harchive hi).getElem hk
    rw [hdata, List.getElem_drop, ← hmem.bytes, hptr, Nat.add_assoc, Nat.mod_eq_of_lt (by omega)]

/-- The member can be opened by its name. -/
theorem fopen_member {tree : Tree} {dev boot file : ℕ} (hready : Ready tree dev boot)
    {entry : Entry} (hentry : entry.WellFormed)
    (henter : tree.enter entry.name boot = some file) {path : CString}
    (hpath : path = slash :: Tree.joinPath [bootName, entry.name] ∨
      path = Tree.joinPath [bootName, entry.name]) :
    tree.fopen path = some (some file) := by
  have hshort := hentry.short
  have hlength := length_joinPath entry.name
  have htokens : [bootName, entry.name].length ≤ Fat32.maxTokens :=
    (show 2 ≤ Fat32.maxTokens by decide)
  apply @Tree.Plain.fopen tree hready.plain path [bootName, entry.name]
  · refine ⟨by simp, isName_path hentry, hpath.symm, htokens, ?_⟩
    rcases hpath with rfl | rfl
    · rw [List.length_cons]
      omega
    · omega
  · rw [Tree.descend, hready.enterBoot]
    dsimp only
    rw [Tree.descend, henter]
    rfl

/-- An IDE controller in the second slot. -/
def oneDevice (address : ℕ) : Option PciHeader :=
  if address = pciAddress 0 1 0 then some ⟨0x0101, 0⟩ else none

def sysinitLine : Initrc.Entry where
  indent := []
  line := .sysinit
  remark := none
  blank := Initrc.blank_nil
  apart := Initrc.apart_none

theorem scriptEnd_ends : ∃ c tail, [Initrc.newline] = c :: tail ∧ Initrc.inWord c = false :=
  ⟨Initrc.newline, [], rfl, rfl⟩

def scriptEnd : Initrc.Ending where
  indent := []
  behind := [Initrc.newline]
  blank := Initrc.blank_nil
  ends := scriptEnd_ends

/-- `initrc.conf` with the lines `SYSINIT` and `END`. -/
def scriptMember : Entry where
  header := cstr "initrc.conf" ++ List.replicate 113 0 ++ List.replicate 9 0x30 ++
    [0x31, 0x34] ++ List.replicate 122 0 ++ RamData.ustarMagic ++ List.replicate 250 0
  name := cstr "initrc.conf"
  digits := List.replicate 9 0x30 ++ [0x31, 0x34]
  data := Initrc.fileText [sysinitLine] scriptEnd
  padding := List.replicate 500 0

theorem scriptMember_wellFormed : scriptMember.WellFormed where
  block := by decide +kernel
  magic := by decide +kernel
  name := by decide +kernel
  nonzero := by decide +kernel
  noSlash := by decide +kernel
  nonempty := by decide +kernel
  short := by decide +kernel
  size := by decide +kernel
  octal := by decide +kernel
  length := by decide +kernel
  low := by decide +kernel
  padded := by decide +kernel
  filled := by decide +kernel

def scriptArchive : List UInt8 := scriptMember.bytes ++ List.replicate 512 0

theorem scriptArchive_archive : Archive scriptArchive [scriptMember] := by
  refine ⟨⟨List.replicate 512 0, [], ?_, by decide +kernel, by decide +kernel⟩, ?_,
    by decide +kernel⟩
  · rw [List.flatMap_singleton, List.append_nil]
    rfl
  · intro entry hmem
    rw [List.mem_singleton.mp hmem]
    exact scriptMember_wellFormed

def scriptMemory (address : ℕ) : UInt8 := scriptArchive.getD (address - 0x200000) 0

end Script

end KimisOS.StartUp
