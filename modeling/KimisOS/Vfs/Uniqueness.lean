import KimisOS.Vfs.Pci

/-!
# Creations from the start

A run of creations keeps the names of siblings different exactly if every name
is free when it is taken.  In such a run every file that was created stays the
one its path opens.
-/

namespace KimisOS.Vfs

open KimisOS.Fat32
open KimisOS.Run

namespace Tree

variable {tree : Tree} {new id : ℕ} {fileops : FileOps}

/-! ## The device of a file -/

theorem setDevice_kept (file : ℕ) :
    ((tree.setDevice new fileops id).files file).name = (tree.files file).name ∧
      ((tree.setDevice new fileops id).files file).flags = (tree.files file).flags ∧
      ((tree.setDevice new fileops id).files file).children = (tree.files file).children := by
  by_cases hfile : file = new
  · subst hfile
    simp [setDevice]
  · simp [setDevice, hfile]

theorem setDevice_other {file : ℕ} (hfile : file ≠ new) :
    (tree.setDevice new fileops id).files file = tree.files file := by
  simp [setDevice, hfile]

theorem setDevice_new : ((tree.setDevice new fileops id).files new).fileops = fileops ∧
    ((tree.setDevice new fileops id).files new).id = id := by
  simp [setDevice]

theorem setDevice_eq {file : VFile} (hnew : tree.files new = file)
    (hops : file.fileops = fileops) (hid : file.id = id) :
    tree.setDevice new fileops id = tree := by
  subst hops hid hnew
  simp [setDevice]

theorem searchDir_setDevice (token : CString) (dir : ℕ) :
    (tree.setDevice new fileops id).searchDir token dir = tree.searchDir token dir := by
  rw [searchDir, (setDevice_kept dir).2.2]
  exact searchChildren_congr fun child _ => (setDevice_kept child).1

theorem isMount_setDevice (file : ℕ) :
    (tree.setDevice new fileops id).IsMount file ↔ tree.IsMount file := by
  rw [IsMount, IsMount, (setDevice_kept file).2.1]

theorem enter_setDevice (token : CString) (dir : ℕ) :
    (tree.setDevice new fileops id).enter token dir = tree.enter token dir := by
  simp only [enter, searchDir_setDevice, isMount_setDevice]

theorem Grown.setDevice (hgrown : tree.Grown) : (tree.setDevice new fileops id).Grown where
  root := hgrown.root
  child := by
    intro file hfile child hmem
    rw [(setDevice_kept file).2.2] at hmem
    exact hgrown.child file hfile child hmem

theorem uniqueSiblings_setDevice :
    (tree.setDevice new fileops id).UniqueSiblings ↔ tree.UniqueSiblings := by
  simp only [UniqueSiblings, (setDevice_kept _).1, (setDevice_kept _).2.2]
  exact Iff.rfl

/-! ## What stays -/

/-- Later trees enter the same directories and keep the files as they are. -/
structure Keeps (tree tree' : Tree) : Prop where
  next : tree.next ≤ tree'.next
  device : ∀ file < tree.next, (tree'.files file).fileops = (tree.files file).fileops ∧
    (tree'.files file).id = (tree.files file).id
  enter : ∀ dir < tree.next, ∀ token child, tree.enter token dir = some child →
    tree'.enter token dir = some child

theorem Keeps.refl (tree : Tree) : tree.Keeps tree where
  next := le_rfl
  device := fun _ _ => ⟨rfl, rfl⟩
  enter := fun _ _ _ _ henter => henter

theorem Keeps.trans {mid tree' : Tree} (hkeeps : tree.Keeps mid) (hkeeps' : mid.Keeps tree') :
    tree.Keeps tree' where
  next := hkeeps.next.trans hkeeps'.next
  device := by
    intro file hfile
    have hold := hkeeps.device file hfile
    have hnew := hkeeps'.device file (hfile.trans_le hkeeps.next)
    exact ⟨hnew.1.trans hold.1, hnew.2.trans hold.2⟩
  enter := by
    intro dir hdir token child henter
    exact hkeeps'.enter dir (hdir.trans_le hkeeps.next) token child
      (hkeeps.enter dir hdir token child henter)

theorem Keeps.descend {tree' : Tree} (hkeeps : tree.Keeps tree') (hgrown : tree.Grown)
    {tokens : List CString} {dir found : ℕ} (hdir : dir < tree.next)
    (hdescend : tree.descend tokens dir = some found) :
    tree'.descend tokens dir = some found := by
  induction tokens generalizing dir with
  | nil => exact hdescend
  | cons token tokens ih =>
      rw [Tree.descend] at hdescend ⊢
      cases henter : tree.enter token dir with
      | none => simp [henter] at hdescend
      | some child =>
          have hchild := (hgrown.searchDir hdir (enter_eq_some.mp henter).1).2
          simp only [henter] at hdescend
          rw [hkeeps.enter dir hdir token child henter]
          exact ih hchild hdescend

end Tree

namespace Creation

variable {tree : Tree} {dir : ℕ} {name : CString}

/-! ## The effect of a creation -/

/-- A file created by `fcreate` has the operations and the `id` it was made
with. -/
theorem built_fcreate {path : CString} {flags : ℕ} (hdir : dir < tree.next) :
    (fcreate path flags).built tree dir name = tree.addChild dir name flags :=
  Tree.setDevice_eq (Tree.addChild_new hdir) rfl rfl

variable (creation : Creation)

theorem built_next : (creation.built tree dir name).next = tree.next + 1 := rfl

theorem built_device {file : ℕ} (hfile : file < tree.next) :
    ((creation.built tree dir name).files file).fileops = (tree.files file).fileops ∧
      ((creation.built tree dir name).files file).id = (tree.files file).id := by
  rw [built, Tree.setDevice_other (by omega)]
  exact (Tree.addChild_kept hfile).2.2

theorem isMount_built {file : ℕ} (hfile : file < tree.next) :
    (creation.built tree dir name).IsMount file ↔ tree.IsMount file := by
  rw [built, Tree.isMount_setDevice, Tree.isMount_addChild hfile]

/-- The new file is a mount point if the flags it is created with say so. -/
theorem isMount_built_new (hdir : dir < tree.next) :
    (creation.built tree dir name).IsMount tree.next ↔
      creation.flags &&& fsFileMount ≠ 0 := by
  rw [built, Tree.isMount_setDevice, Tree.IsMount, Tree.addChild_new hdir]
  have hlow : creation.flags % 2 ^ 16 &&& fsFileMount = creation.flags &&& fsFileMount := by
    rw [← Nat.and_two_pow_sub_one_eq_mod, Nat.and_assoc]
    rfl
  rw [hlow]

theorem children_built_new (hdir : dir < tree.next) :
    ((creation.built tree dir name).files tree.next).children = [] := by
  rw [built, (Tree.setDevice_kept _).2.2, Tree.addChild_new hdir]

theorem files_built_other {file : ℕ} (hnew : file ≠ tree.next) (hfile : file ≠ dir) :
    (creation.built tree dir name).files file = tree.files file := by
  rw [built, Tree.setDevice_other hnew, Tree.addChild_other hfile hnew]

/-- A mount point among the new files belongs to the RAM file system. -/
theorem fileops_of_mount (hmount : creation.flags &&& fsFileMount ≠ 0) :
    creation.fileops = .ramfs := by
  cases creation with
  | fcreate path flags => rfl
  | pciMakeFile function => exact absurd (Nat.zero_and _) hmount

theorem plain_built (hplain : tree.Plain) (hdir : dir < tree.next)
    (hmount : ¬ tree.IsMount dir) (hops : (tree.files dir).fileops = .ramfs) :
    (creation.built tree dir name).Plain where
  grown := (hplain.grown.addChild hdir).setDevice
  bareMount := by
    intro file hfile
    by_cases hnew : file = tree.next
    · subst hnew
      refine ⟨creation.children_built_new hdir, ?_⟩
      rw [built, Tree.setDevice_new.1]
      exact creation.fileops_of_mount ((creation.isMount_built_new hdir).mp hfile)
    · by_cases hsame : file = dir
      · subst hsame
        exact absurd ((creation.isMount_built hdir).mp hfile) hmount
      · rw [Tree.IsMount, creation.files_built_other hnew hsame] at hfile
        rw [creation.files_built_other hnew hsame]
        exact hplain.bareMount file hfile
  bareDevice := by
    intro file hfile
    by_cases hnew : file = tree.next
    · subst hnew
      exact creation.children_built_new hdir
    · by_cases hsame : file = dir
      · subst hsame
        rw [(creation.built_device hdir).1, hops] at hfile
        exact absurd hfile (by decide)
      · rw [creation.files_built_other hnew hsame] at hfile ⊢
        exact hplain.bareDevice file hfile
  root := by
    have hroot := hplain.grown.root
    rw [creation.isMount_built hroot, (creation.built_device hroot).1]
    exact hplain.root

theorem keeps_built (hgrown : tree.Grown) (hdir : dir < tree.next)
    (hfree : tree.searchDir name dir = none) : tree.Keeps (creation.built tree dir name) where
  next := Nat.le_succ _
  device := fun _ hfile => creation.built_device hfile
  enter := by
    intro dir' hdir' token child henter
    rw [built, Tree.enter_setDevice]
    exact hgrown.enter_addChild hdir hfree hdir' henter

/-- The name leads to the new file, unless that is a mount point. -/
theorem enter_built_new (hgrown : tree.Grown) (hdir : dir < tree.next)
    (hfree : tree.searchDir name dir = none) (hmount : creation.flags &&& fsFileMount = 0) :
    (creation.built tree dir name).enter name dir = some tree.next := by
  rw [Tree.enter_eq_some, creation.isMount_built_new hdir, built, Tree.searchDir_setDevice]
  exact ⟨hgrown.searchDir_addChild_new hdir hfree, fun h => h hmount⟩

theorem uniqueSiblings_built (hgrown : tree.Grown) (hunique : tree.UniqueSiblings)
    (hdir : dir < tree.next) :
    (creation.built tree dir name).UniqueSiblings ↔ tree.searchDir name dir = none := by
  rw [built, Tree.uniqueSiblings_setDevice]
  exact hgrown.uniqueSiblings_addChild hunique hdir

/-- What `fcreate` does to a plain tree. -/
theorem fcreate_cases {s s' : State} {path : CString} {flags : ℕ} {created : Option ℕ}
    (hplain : s.tree.Plain) (hcreate : Vfs.fcreate s path flags = some (s', created)) :
    (created = none ∧ s'.tree = s.tree ∧
      ∀ dir name, s.tree.target path = some (dir, name) → ¬ s.tree.IsDir dir) ∨
    ∃ dir name, s.tree.target path = some (dir, name) ∧ s.tree.IsDir dir ∧
      dir < s.tree.next ∧ ¬ s.tree.IsMount dir ∧ (s.tree.files dir).fileops = .ramfs ∧
      s'.tree = s.tree.addChild dir name flags ∧ created = some s.tree.next := by
  rcases vfcreateFrom_tree hcreate with hnothing | ⟨dir, name, htarget, hdir, hops, htree⟩
  · exact Or.inl hnothing
  · obtain ⟨hbelow, hmount⟩ := hplain.target htarget
    exact Or.inr ⟨dir, name, htarget, hdir, hbelow, hmount, hops, htree⟩

/-- The inversion lemma: a creation leaves the tree alone, or adds one file to
the directory that its path leads to. -/
theorem step_cases {s s' : State} {creation : Creation} (hplain : s.tree.Plain)
    (hstep : creation.step s = some s') : ∃ path, creation.path = some path ∧
    ((s'.tree = s.tree ∧
        ∀ dir name, s.tree.target path = some (dir, name) → ¬ s.tree.IsDir dir) ∨
      ∃ dir name, s.tree.target path = some (dir, name) ∧ s.tree.IsDir dir ∧
        dir < s.tree.next ∧ ¬ s.tree.IsMount dir ∧ (s.tree.files dir).fileops = .ramfs ∧
        s'.tree = creation.built s.tree dir name) := by
  cases creation with
  | fcreate path flags =>
      refine ⟨path, rfl, ?_⟩
      obtain ⟨⟨mid, created⟩, hcreate, rfl⟩ := Option.map_eq_some_iff.mp hstep
      rcases fcreate_cases hplain hcreate with
        ⟨-, hnothing⟩ | ⟨dir, name, htarget, hdir, hbelow, hmount, hops, htree, -⟩
      · exact Or.inl hnothing
      · exact Or.inr ⟨dir, name, htarget, hdir, hbelow, hmount, hops,
          htree.trans (built_fcreate hbelow).symm⟩
  | pciMakeFile function =>
      simp only [step, Vfs.pciMakeFile] at hstep
      split at hstep
      next => simp at hstep
      next path hpath =>
        refine ⟨path, hpath, ?_⟩
        split at hstep
        next => simp at hstep
        next mid hcreate =>
          obtain rfl : mid = s' := Option.some.inj hstep
          rcases fcreate_cases hplain hcreate with ⟨-, hnothing⟩ | ⟨_, _, _, _, _, _, _, _, h⟩
          · exact Or.inl hnothing
          · simp at h
        next mid file hcreate =>
          rcases fcreate_cases hplain hcreate with
            ⟨h, -⟩ | ⟨dir, name, htarget, hdir, hbelow, hmount, hops, htree, hfile⟩
          · simp at h
          · obtain rfl : file = s.tree.next := Option.some.inj hfile
            obtain rfl := Option.some.inj hstep
            refine Or.inr ⟨dir, name, htarget, hdir, hbelow, hmount, hops, ?_⟩
            rw [htree]
            rfl

/-! ## Runs -/

/-- What a run of fresh creations keeps. -/
structure Good (s : State) : Prop where
  plain : s.tree.Plain
  unique : s.tree.UniqueSiblings

theorem good_ramfsInit : Good ramfsInit where
  plain := by
    refine ⟨ramfsInit_grown, ?_, ?_, by decide, rfl⟩
    · intro file _
      exact ⟨rfl, rfl⟩
    · intro file hops
      exact absurd hops (by simp [ramfsInit])
  unique := by
    intro dir _ child other hchild
    simp [ramfsInit] at hchild

/-- The step lemma. -/
theorem Good.step {s s' : State} {creation : Creation} (hgood : Good s)
    (hstep : creation.step s = some s') :
    s'.tree.Plain ∧ (creation.Fresh s ↔ s'.tree.UniqueSiblings) ∧
      (creation.Fresh s → s.tree.Keeps s'.tree) := by
  obtain ⟨path, hpath, ⟨htree, hnothing⟩ |
    ⟨dir, name, htarget, hdir, hbelow, hmount, hops, htree⟩⟩ := step_cases hgood.plain hstep
  · have hfresh : creation.Fresh s := by
      intro path' hpath' dir name htarget hdir
      obtain rfl : path = path' := Option.some.inj (hpath.symm.trans hpath')
      exact absurd hdir (hnothing dir name htarget)
    rw [htree]
    exact ⟨hgood.plain, iff_of_true hfresh hgood.unique, fun _ => Tree.Keeps.refl _⟩
  · have hfresh : creation.Fresh s ↔ s.tree.searchDir name dir = none := by
      constructor
      · intro h
        exact h path hpath dir name htarget hdir
      · intro hfree path' hpath' dir' name' htarget' _
        obtain rfl : path = path' := Option.some.inj (hpath.symm.trans hpath')
        obtain ⟨rfl, rfl⟩ := Prod.mk.inj (Option.some.inj (htarget.symm.trans htarget'))
        exact hfree
    rw [htree, hfresh]
    refine ⟨creation.plain_built hgood.plain hbelow hmount hops, ?_, ?_⟩
    · exact (creation.uniqueSiblings_built hgood.plain.grown hgood.unique hbelow).symm
    · intro hfree
      exact creation.keeps_built hgood.plain.grown hbelow hfree

/-- The run lemma. -/
theorem Good.run {s final : State} {creations : List Creation} (hgood : Good s)
    (hfresh : Meets Creation.step Fresh s creations)
    (hrun : exec Creation.step s creations = some final) :
    Good final ∧ s.tree.Keeps final.tree := by
  have hkeep : ∀ mid creation next, (Good mid ∧ s.tree.Keeps mid.tree) →
      Fresh mid creation → Creation.step mid creation = some next →
      Good next ∧ s.tree.Keeps next.tree := by
    intro mid creation next ⟨hmid, hkeeps⟩ hfree hstep
    obtain ⟨hplain, hunique, hkeeps'⟩ := hmid.step hstep
    exact ⟨⟨hplain, hunique.mp hfree⟩, hkeeps.trans (hkeeps' hfree)⟩
  exact exec_invariant hkeep ⟨hgood, Tree.Keeps.refl _⟩ hfresh hrun

/-! ## Opening what was created -/

end Creation

theorem PathOf.dropSlash {path : CString} {names : List CString} (hpath : PathOf path names) :
    dropSlash path = Tree.joinPath names := by
  rcases hpath.joined with rfl | rfl
  · exact Tree.dropSlash_joinPath hpath.isName
  · rw [Fat32.dropSlash, if_pos rfl]

theorem PathOf.pathTokens {path : CString} {names : List CString} (hpath : PathOf path names) :
    pathTokens (Tree.joinPath names) = names := by
  rw [Fat32.pathTokens, Tree.dropSlash_joinPath hpath.isName,
    Tree.splitPath_joinPath hpath.ne_nil hpath.isName, List.take_of_length_le hpath.tokens]

/-- A path of names opens the file that its names lead to. -/
theorem Tree.Plain.fopen {tree : Tree} (hplain : tree.Plain) {path : CString}
    {names : List CString} {file : ℕ} (hpath : PathOf path names)
    (hdescend : tree.descend names rootDir = some file) :
    tree.fopen path = some (some file) := by
  have hjoin := Tree.joinPath_ne_nil hpath.ne_nil hpath.isName
  have hroot : path ≠ [slash] := by
    rintro rfl
    exact hjoin hpath.dropSlash.symm
  have hshort : (Tree.joinPath names).length < 4096 := by
    have := hpath.short
    rcases hpath.joined with rfl | rfl
    · exact this
    · rw [List.length_cons] at this
      omega
  rw [Tree.fopen, if_neg hroot, hpath.dropSlash]
  obtain ⟨found, hfound⟩ := Option.isSome_iff_exists.mp
    (Tree.rfopen_isSome hplain.grown (fun file hmount => (hplain.bareMount file hmount).2)
      hshort hplain.grown.root)
  have heq := hplain.rfopen_eq_descend hfound
  rw [hpath.pathTokens, hdescend] at heq
  rw [hfound, heq]

namespace Creation

/-- The names of its path lead to a new file. -/
theorem descend_built {tree : Tree} {creation : Creation} {dir : ℕ} {path name : CString}
    {names : List CString} (hplain : tree.Plain) (hpath : PathOf path names)
    (htarget : tree.target path = some (dir, name)) (hdir : dir < tree.next)
    (hfree : tree.searchDir name dir = none) (hmount : creation.flags &&& fsFileMount = 0) :
    (creation.built tree dir name).descend names rootDir = some tree.next := by
  obtain hnil | ⟨init, last, rfl⟩ := List.eq_nil_or_concat names
  · exact absurd hnil hpath.ne_nil
  · rw [List.concat_eq_append] at hpath ⊢
    obtain ⟨rfl, hdescend⟩ :=
      hplain.targetFrom_joinPath hpath.isName hpath.dropSlash htarget
    have hinit := (creation.keeps_built hplain.grown hdir hfree).descend hplain.grown
      hplain.grown.root hdescend
    rw [Tree.descend_append, hinit, Option.bind_some, Tree.descend,
      creation.enter_built_new hplain.grown hdir hfree hmount]
    rfl

/-- A fresh creation at a path of names is opened by that path, and stays so. -/
theorem Good.opens {s s' final : State} {creation : Creation} {creations : List Creation}
    {path : CString} {names : List CString} (hgood : Good s) (hfresh : creation.Fresh s)
    (hstep : creation.step s = some s') (hlater : Meets Creation.step Fresh s' creations)
    (hrun : exec Creation.step s' creations = some final) (hname : creation.path = some path)
    (hpath : PathOf path names) (hmount : creation.flags &&& fsFileMount = 0)
    (hdirectory : ∃ dir name, s.tree.target path = some (dir, name) ∧ s.tree.IsDir dir) :
    final.tree.fopen path = some (some s.tree.next) ∧
      (final.tree.files s.tree.next).fileops = creation.fileops ∧
      (final.tree.files s.tree.next).id = creation.id ∧
      s.tree.next < s'.tree.next ∧ s'.tree.next ≤ final.tree.next := by
  obtain ⟨hplain, hunique, -⟩ := hgood.step hstep
  have hgood' : Good s' := ⟨hplain, hunique.mp hfresh⟩
  obtain ⟨hfinal, hkeeps⟩ := hgood'.run hlater hrun
  obtain ⟨path', hname', ⟨-, hnothing⟩ |
    ⟨dir, name, htarget, hdir, hbelow, -, -, htree⟩⟩ := step_cases hgood.plain hstep <;>
      obtain rfl : path' = path := Option.some.inj (hname'.symm.trans hname)
  · obtain ⟨dir, name, htarget, hdir⟩ := hdirectory
    exact absurd hdir (hnothing dir name htarget)
  · have hfree := hfresh path' hname dir name htarget hdir
    have hnext : s'.tree.next = s.tree.next + 1 := by rw [htree, built_next]
    have hdescend : s'.tree.descend names rootDir = some s.tree.next := by
      rw [htree]
      exact descend_built hgood.plain hpath htarget hbelow hfree hmount
    have hdevice := hkeeps.device s.tree.next (by omega)
    have hnew : (s'.tree.files s.tree.next).fileops = creation.fileops ∧
        (s'.tree.files s.tree.next).id = creation.id := by
      rw [htree]
      exact Tree.setDevice_new
    exact ⟨hfinal.plain.fopen hpath (hkeeps.descend hplain.grown hplain.grown.root hdescend),
      hdevice.1.trans hnew.1, hdevice.2.trans hnew.2, by omega, hkeeps.next⟩

/-- No row of the table of classes has more than twenty names. -/
theorem classPath_bounds {major minor : ℕ} {path : CString}
    (hpath : classPath major minor = some path) : major < 9 ∧ minor < 20 := by
  rw [classPath] at hpath
  split at hpath
  next => simp at hpath
  next row hrow =>
    split at hpath
    next => simp at hpath
    next dev hdev =>
      have hlengths : ∀ row ∈ classes, row.length ≤ 20 := by decide
      have hmajor := (List.getElem?_eq_some_iff.mp hrow).1
      have hminor := (List.getElem?_eq_some_iff.mp hdev).1
      have hlength := hlengths row (List.mem_of_getElem? hrow)
      exact ⟨hmajor, by omega⟩

/-- Every path of the table of classes is a path of names. -/
theorem pathOf_classPath {major minor : ℕ} {path : CString}
    (hpath : classPath major minor = some path) :
    PathOf path (splitPath (Fat32.dropSlash path)) := by
  have hall : ∀ major < 9, ∀ minor < 20, (classPath major minor).all (fun path =>
      splitPath (Fat32.dropSlash path) ≠ [] ∧
      ((splitPath (Fat32.dropSlash path)).all fun name => name ≠ [] ∧ slash ∉ name) ∧
      path = slash :: Tree.joinPath (splitPath (Fat32.dropSlash path)) ∧
      (splitPath (Fat32.dropSlash path)).length ≤ maxTokens ∧ path.length < 4096) = true := by
    decide +kernel
  obtain ⟨hmajor, hminor⟩ := classPath_bounds hpath
  have hnames := hall major hmajor minor hminor
  rw [hpath, Option.all_some, decide_eq_true_eq] at hnames
  obtain ⟨hne, hisName, hjoined, htokens, hshort⟩ := hnames
  refine ⟨hne, ?_, Or.inr hjoined, htokens, hshort⟩
  intro name hmem
  have hname := List.all_eq_true.mp hisName name hmem
  rw [decide_eq_true_eq] at hname
  exact hname

/-- What a path of names created is what it opens. -/
theorem opensCreated {creations : List Creation} {final : State}
    (hfresh : Meets Creation.step Fresh ramfsInit creations)
    (hrun : exec Creation.step ramfsInit creations = some final) :
    OpensCreated creations final := by
  intro n s s' path names flags file hbefore hevent hcreate hpath hmount
  obtain ⟨before, after, htake, hstep, hfree, hlater, hrest⟩ := exec_at hrun hfresh hevent
  obtain rfl : before = s := Option.some.inj (htake.symm.trans hbefore)
  obtain ⟨hgood, -⟩ := good_ramfsInit.run (hfresh.take n) hbefore
  rcases fcreate_cases hgood.plain hcreate with
    ⟨h, -⟩ | ⟨dir, name, htarget, hdir, -, -, -, -, hfile⟩
  · simp at h
  · obtain rfl : file = before.tree.next := Option.some.inj hfile
    exact (hgood.opens hfree hstep hrest hlater rfl hpath hmount ⟨dir, name, htarget, hdir⟩).1

/-- Every PCI function gets a file of its own, which stays openable. -/
theorem ownFiles {creations : List Creation} {final : State}
    (hfresh : Meets Creation.step Fresh ramfsInit creations)
    (hdirectories : Meets Creation.step HasDirectory ramfsInit creations)
    (hrun : exec Creation.step ramfsInit creations = some final) :
    OwnFiles creations final := by
  -- the file of position `n` is the next one in the state before it
  have hfile : ∀ (stop : ℕ) (reached : State),
      exec Creation.step ramfsInit (creations.take stop) = some reached → ∀ n function,
      (creations.take stop)[n]? = some (.pciMakeFile function) →
      ∃ before path, exec Creation.step ramfsInit (creations.take n) = some before ∧
        function.path = some path ∧
        reached.tree.fopen path = some (some before.tree.next) ∧
        (reached.tree.files before.tree.next).fileops = .pci ∧
        (reached.tree.files before.tree.next).id = function.id ∧
        before.tree.next < reached.tree.next := by
    intro stop reached hreached n function hevent
    obtain ⟨before, after, htake, hstep, hfree, hlater, hrest⟩ :=
      exec_at hreached (hfresh.take stop) hevent
    obtain ⟨before', -, htake', -, hdirectory, -, -⟩ :=
      exec_at hreached (hdirectories.take stop) hevent
    obtain rfl : before = before' := Option.some.inj (htake.symm.trans htake')
    obtain ⟨path, dir, name, hname, htarget, hdir⟩ := hdirectory
    obtain ⟨hgood, -⟩ := good_ramfsInit.run ((hfresh.take stop).take n) htake
    obtain ⟨hopen, hops, hid, hbelow, hnext⟩ := hgood.opens hfree hstep hrest hlater hname
      (pathOf_classPath hname) (Nat.zero_and _) ⟨dir, name, htarget, hdir⟩
    have hn : n ≤ stop := by
      have := (List.getElem?_eq_some_iff.mp hevent).1
      rw [List.length_take] at this
      omega
    rw [List.take_take, Nat.min_eq_left hn] at htake
    exact ⟨before, path, htake, hname, hopen, hops, hid, by omega⟩
  refine ⟨fun n => (exec Creation.step ramfsInit (creations.take n)).elim 0 (·.tree.next),
    ?_, ?_⟩
  · intro n function hevent
    have hall : creations.take creations.length = creations := List.take_length
    obtain ⟨before, path, hbefore, hname, hopen, hops, hid, -⟩ :=
      hfile creations.length final (by rw [hall]; exact hrun) n function
        (by rw [hall]; exact hevent)
    simp only [hbefore, Option.elim_some]
    exact ⟨path, hname, hopen, hops, hid⟩
  · intro n m function function' hlt hevent _
    obtain ⟨reached, hreached⟩ := exec_take hrun m
    obtain ⟨before, _, hbefore, -, -, -, -, hbelow⟩ :=
      hfile m reached hreached n function (by rw [List.getElem?_take_of_lt hlt]; exact hevent)
    simp only [hbefore, hreached, Option.elim_some]
    exact Nat.ne_of_lt hbelow

end Creation

/-- Siblings keep different names exactly if every creation takes a free name,
and then what was created is what its path opens, and every PCI function whose
directory is there has an openable file of its own. -/
theorem siblings_unique_iff {requests : List Request} {final : State}
    (hrun : exec Creation.step ramfsInit (requests.flatMap Request.creations) = some final) :
    ((∀ n reached,
        exec Creation.step ramfsInit ((requests.flatMap Request.creations).take n) =
          some reached → reached.tree.UniqueSiblings) ↔
      Meets Creation.step Creation.Fresh ramfsInit (requests.flatMap Request.creations)) ∧
    (Meets Creation.step Creation.Fresh ramfsInit (requests.flatMap Request.creations) →
      OpensCreated (requests.flatMap Request.creations) final ∧
      (Meets Creation.step Creation.HasDirectory ramfsInit
          (requests.flatMap Request.creations) →
        OwnFiles (requests.flatMap Request.creations) final)) := by
  constructor
  · have hunique : ∀ s, Creation.Good s → s.tree.UniqueSiblings := by
      intro s hgood
      exact hgood.unique
    refine (meets_iff_forall_good hunique ?_ ?_ Creation.good_ramfsInit
      (meets_of_forall (fun _ _ => trivial) _ _) hrun).symm
    · intro s creation s' hgood _ hfresh hstep
      obtain ⟨hplain, hiff, -⟩ := hgood.step hstep
      exact ⟨hplain, hiff.mp hfresh⟩
    · intro s creation s' hgood _ hstep hunique'
      exact (hgood.step hstep).2.1.mpr hunique'
  · intro hfresh
    exact ⟨Creation.opensCreated hfresh hrun,
      fun hdirectories => Creation.ownFiles hfresh hdirectories hrun⟩

/-- The directory of devices, and a scan of a bus with one IDE controller. -/
def oneController : List Request :=
  [.fcreate (cstr "/dev") fsFileIsDir,
    .pciInit fun address =>
      if address = pciAddress 0 1 0 then some ⟨0x0101, 0⟩ else none]

/-- A start of the kernel on such a machine. -/
theorem siblings_unique_oneController :
    ∃ final,
      exec Creation.step ramfsInit (oneController.flatMap Request.creations) = some final ∧
      ((∀ n reached,
          exec Creation.step ramfsInit ((oneController.flatMap Request.creations).take n) =
            some reached → reached.tree.UniqueSiblings) ↔
        Meets Creation.step Creation.Fresh ramfsInit
          (oneController.flatMap Request.creations)) := by
  have hrun : (exec Creation.step ramfsInit
      (oneController.flatMap Request.creations)).isSome = true := by
    decide +kernel
  obtain ⟨final, hfinal⟩ := Option.isSome_iff_exists.mp hrun
  exact ⟨final, hfinal, (siblings_unique_iff hfinal).1⟩

/-- The same name twice. -/
def sameName : List Request := [.fcreate (cstr "/a") 0, .fcreate (cstr "/a") 0]

theorem siblings_not_unique :
    ¬ ∀ (requests : List Request) (final : State),
      exec Creation.step ramfsInit (requests.flatMap Request.creations) = some final →
      final.tree.UniqueSiblings := by
  intro hall
  have hrun : (exec Creation.step ramfsInit (sameName.flatMap Request.creations)).map
      (fun s => ((s.tree.files 0).children, (s.tree.files 1).name, (s.tree.files 2).name)) =
      some ([some 1, some 2], cstr "a", cstr "a") := by
    decide +kernel
  obtain ⟨final, hfinal, hfiles⟩ := Option.map_eq_some_iff.mp hrun
  simp only [Prod.mk.injEq] at hfiles
  obtain ⟨hchildren, hfirst, hsecond⟩ := hfiles
  have hroot : (0 : ℕ) < final.tree.next := by
    have hnext : (exec Creation.step ramfsInit (sameName.flatMap Request.creations)).map
        (fun s => s.tree.next) = some 3 := by
      decide +kernel
    rw [hfinal] at hnext
    simp only [Option.map_some, Option.some.injEq] at hnext
    omega
  have hsame := hall sameName final hfinal 0 hroot 1 2 (by simp [hchildren])
    (by simp [hchildren]) (hfirst.trans hsecond.symm)
  omega

end KimisOS.Vfs
