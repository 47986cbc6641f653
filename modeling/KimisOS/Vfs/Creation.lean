import KimisOS.Vfs.Lookup

/-!
# Where a file is created

Creating a file walks to a directory without looking whether the name is taken
there.  In a tree whose mount points and device files have no children, this
walk and the one that opens a path enter the same directories.
-/

namespace KimisOS.Vfs

open KimisOS.Fat32

namespace Tree

variable {tree : Tree}

/-- The child of that name, unless it is a mount point. -/
def enter (tree : Tree) (token : CString) (dir : ℕ) : Option ℕ :=
  match tree.searchDir token dir with
  | none => none
  | some child => if tree.IsMount child then none else some child

def descend (tree : Tree) : List CString → ℕ → Option ℕ
  | [], dir => some dir
  | token :: tokens, dir =>
      match tree.enter token dir with
      | none => none
      | some child => descend tree tokens child

theorem descend_append (tokens tokens' : List CString) (dir : ℕ) :
    tree.descend (tokens ++ tokens') dir =
      (tree.descend tokens dir).bind (tree.descend tokens') := by
  induction tokens generalizing dir with
  | nil => rfl
  | cons token tokens ih =>
      rw [List.cons_append, descend, descend]
      cases tree.enter token dir with
      | none => rfl
      | some child => exact ih child

theorem enter_eq_some {token : CString} {dir child : ℕ} :
    tree.enter token dir = some child ↔
      tree.searchDir token dir = some child ∧ ¬ tree.IsMount child := by
  rw [enter]
  cases hsearch : tree.searchDir token dir with
  | none => simp
  | some found =>
      by_cases hmount : tree.IsMount found
      · simp only [if_pos hmount, Option.some.injEq]
        constructor
        · intro h
          simp at h
        · rintro ⟨rfl, h⟩
          exact absurd hmount h
      · simp only [if_neg hmount, Option.some.injEq]
        constructor
        · rintro rfl
          exact ⟨rfl, hmount⟩
        · rintro ⟨h, -⟩
          exact h

/-- A walk that goes on in each directory it enters goes along the names to the last one. -/
theorem walk_along {Result : Type*} {walk : List CString → CString → ℕ → Result}
    (hstep : ∀ {token tokens currentPath dir child}, tree.enter token dir = some child →
      walk (token :: tokens) currentPath dir = walk tokens (advance currentPath token) child)
    {names tokens : List CString} {start dir : ℕ}
    (hdescend : tree.descend names start = some dir) (currentPath : CString) :
    walk (names ++ tokens) currentPath start =
      walk tokens (names.foldl advance currentPath) dir := by
  induction names generalizing start currentPath with
  | nil =>
      obtain rfl : start = dir := Option.some.inj hdescend
      rfl
  | cons name names ih =>
      rw [descend] at hdescend
      cases hchild : tree.enter name start with
      | none => simp [hchild] at hdescend
      | some child =>
          simp only [hchild] at hdescend
          rw [List.cons_append, hstep hchild, List.foldl_cons]
          exact ih hdescend _

/-- A tree that only `fcreate` and `pci_make_file` have built. -/
structure Plain (tree : Tree) : Prop where
  grown : tree.Grown
  bareMount : ∀ file, tree.IsMount file →
    (tree.files file).children = [] ∧ (tree.files file).fileops = .ramfs
  bareDevice : ∀ file, (tree.files file).fileops = .pci → (tree.files file).children = []
  root : ¬ tree.IsMount rootDir ∧ (tree.files rootDir).fileops = .ramfs

/-! ## Opening enters the components -/

theorem searchDir_bare {token : CString} {dir : ℕ} (hbare : (tree.files dir).children = []) :
    tree.searchDir token dir = none := by
  rw [searchDir, hbare]
  rfl

theorem walk_bare {mounted : CString → ℕ → Option (Option ℕ)} {tokens : List CString}
    {currentPath : CString} {dir : ℕ} (hbare : (tree.files dir).children = [])
    (htokens : tokens ≠ []) : tree.walk mounted tokens currentPath dir = some none := by
  cases tokens with
  | nil => exact absurd rfl htokens
  | cons token tokens => rw [walk, searchDir_bare hbare]

theorem resolvePath_bare {fuel : ℕ} {path : CString} {dir : ℕ} {found : Option ℕ}
    (hbare : (tree.files dir).children = [])
    (hresolve : tree.resolvePath fuel path dir = some found) : found = none := by
  cases fuel with
  | zero => simp [resolvePath] at hresolve
  | succ fuel =>
      rw [resolvePath, walk_bare hbare (pathTokens_ne_nil path)] at hresolve
      split at hresolve
      · simp at hresolve
      · exact (Option.some.inj hresolve).symm

theorem walk_eq_descend {mounted : CString → ℕ → Option (Option ℕ)}
    (hmounted : ∀ rest child found, tree.IsMount child → mounted rest child = some found →
      found = none)
    {tokens : List CString} {currentPath : CString} {dir : ℕ} {found : Option ℕ}
    (hwalk : tree.walk mounted tokens currentPath dir = some found) :
    found = tree.descend tokens dir := by
  induction tokens generalizing currentPath dir with
  | nil => exact (Option.some.inj hwalk).symm
  | cons token tokens ih =>
      rw [walk] at hwalk
      rw [descend, enter]
      cases hsearch : tree.searchDir token dir with
      | none =>
          simp only [hsearch, Option.some.injEq] at hwalk
          exact hwalk.symm
      | some child =>
          simp only [hsearch] at hwalk
          by_cases hmount : tree.IsMount child
          · rw [if_pos hmount] at hwalk
            simp only [if_pos hmount]
            exact hmounted _ _ _ hmount hwalk
          · rw [if_neg hmount] at hwalk
            simp only [if_neg hmount]
            exact ih hwalk

theorem Plain.rfopen_eq_descend (hplain : tree.Plain) {name : CString} {dir : ℕ}
    {found : Option ℕ} (hopen : tree.rfopen name dir = some found) :
    found = tree.descend (pathTokens name) dir := by
  cases hops : (tree.files dir).fileops with
  | pci =>
      simp only [Tree.rfopen, hops, Option.some.injEq] at hopen
      obtain ⟨token, tokens, htokens⟩ :=
        List.exists_cons_of_ne_nil (pathTokens_ne_nil name)
      rw [htokens, descend, enter, searchDir_bare (hplain.bareDevice dir hops)]
      exact hopen.symm
  | ramfs =>
      simp only [Tree.rfopen, hops] at hopen
      cases hfuel : tree.next with
      | zero => simp [hfuel, resolvePath] at hopen
      | succ fuel =>
          rw [hfuel, resolvePath] at hopen
          split at hopen
          · simp at hopen
          · refine walk_eq_descend ?_ hopen
            intro rest child found hmount hfound
            obtain ⟨hbare, hramfs⟩ := hplain.bareMount child hmount
            rw [hramfs] at hfound
            exact resolvePath_bare hbare hfound

theorem splitPath_of_not_mem {name : CString} (hslash : slash ∉ name) :
    splitPath name = [name] := by
  induction name with
  | nil => rfl
  | cons c name ih =>
      rw [List.mem_cons, not_or] at hslash
      rw [splitPath, if_neg (Ne.symm hslash.1), ih hslash.2]

theorem dropSlash_of_not_mem {name : CString} (hslash : slash ∉ name) :
    dropSlash name = name := by
  cases name with
  | nil => rfl
  | cons c name =>
      rw [List.mem_cons, not_or] at hslash
      rw [dropSlash, if_neg (Ne.symm hslash.1)]

theorem not_mem_firstComponent (name : CString) : slash ∉ firstComponent name := by
  intro hmem
  simpa using List.mem_takeWhile_imp hmem

theorem Plain.rfopen_firstComponent (hplain : tree.Plain) {name : CString} {dir : ℕ}
    {found : Option ℕ} (hopen : tree.rfopen (firstComponent name) dir = some found) :
    found = tree.enter (firstComponent name) dir := by
  have hslash := not_mem_firstComponent name
  have htokens : pathTokens (firstComponent name) = [firstComponent name] := by
    rw [pathTokens, dropSlash_of_not_mem hslash, splitPath_of_not_mem hslash]
    rfl
  have hfound := hplain.rfopen_eq_descend hopen
  rw [htokens, descend] at hfound
  rw [hfound]
  cases tree.enter (firstComponent name) dir <;> rfl

/-! ## The directory of a new file -/

/-- The directory and the name that `vfcreate` hands to `create`. -/
def targetFrom (tree : Tree) : ℕ → ℕ → CString → Option (ℕ × CString)
  | 0, _, _ => none
  | fuel + 1, parentDir, relpath =>
      let name := cutSlash (dropSlash relpath)
      let first := firstComponent name
      if (dropSlash relpath).length ≤ first.length then some (parentDir, first)
      else
        match tree.rfopen first parentDir with
        | some (some newParent) => targetFrom tree fuel newParent (name.drop (first.length + 1))
        | _ => none

def target (tree : Tree) (path : CString) : Option (ℕ × CString) :=
  tree.targetFrom (path.length + 1) rootDir path

theorem Plain.targetFrom (hplain : tree.Plain) {fuel parentDir dir : ℕ}
    {relpath name : CString} (hparent : parentDir < tree.next)
    (hmount : ¬ tree.IsMount parentDir)
    (htarget : tree.targetFrom fuel parentDir relpath = some (dir, name)) :
    dir < tree.next ∧ ¬ tree.IsMount dir := by
  induction fuel generalizing parentDir relpath with
  | zero => simp [Tree.targetFrom] at htarget
  | succ fuel ih =>
      rw [Tree.targetFrom] at htarget
      split at htarget
      · simp only [Option.some.injEq, Prod.mk.injEq] at htarget
        obtain ⟨rfl, -⟩ := htarget
        exact ⟨hparent, hmount⟩
      · split at htarget
        next newParent hopen =>
          have henter := (hplain.rfopen_firstComponent hopen).symm
          obtain ⟨-, hnext⟩ := hplain.grown.rfopen hparent hopen
          exact ih hnext (enter_eq_some.mp henter).2 htarget
        next => simp at htarget

theorem Plain.target (hplain : tree.Plain) {path name : CString} {dir : ℕ}
    (htarget : tree.target path = some (dir, name)) :
    dir < tree.next ∧ ¬ tree.IsMount dir :=
  hplain.targetFrom hplain.grown.root hplain.root.1 htarget

end Tree

/-- What `vfcreate` does to the tree. -/
theorem vfcreateFrom_tree {flags fuel : ℕ} {s s' : State} {parentDir : ℕ}
    {relpath : CString} {created : Option ℕ}
    (hcreate : vfcreateFrom flags fuel s parentDir relpath = some (s', created)) :
    (created = none ∧ s'.tree = s.tree ∧ ∀ dir name,
      s.tree.targetFrom fuel parentDir relpath = some (dir, name) → ¬ s.tree.IsDir dir) ∨
    ∃ dir name, s.tree.targetFrom fuel parentDir relpath = some (dir, name) ∧
      s.tree.IsDir dir ∧ (s.tree.files dir).fileops = .ramfs ∧
      s'.tree = s.tree.addChild dir name flags ∧ created = some s.tree.next := by
  induction fuel generalizing s s' parentDir relpath created with
  | zero => simp [vfcreateFrom] at hcreate
  | succ fuel ih =>
      rw [vfcreateFrom] at hcreate
      rw [Tree.targetFrom]
      split at hcreate
      · simp at hcreate
      · simp only at hcreate ⊢
        split at hcreate
        next hsingle =>
          rw [if_pos hsingle]
          have hslash := Tree.not_mem_firstComponent (cutSlash (dropSlash relpath))
          cases hops : (s.tree.files parentDir).fileops with
          | pci => simp [create, hops] at hcreate
          | ramfs =>
              simp only [create, hops, ramfsCreate, Tree.dropSlash_of_not_mem hslash] at hcreate
              by_cases hdir : s.tree.IsDir parentDir
              · rw [if_pos hdir] at hcreate
                split at hcreate
                · simp at hcreate
                · simp only [Option.some.injEq, Prod.mk.injEq] at hcreate
                  obtain ⟨rfl, rfl⟩ := hcreate
                  exact Or.inr ⟨parentDir, _, rfl, hdir, hops, rfl, rfl⟩
              · rw [if_neg hdir] at hcreate
                simp only [Option.some.injEq, Prod.mk.injEq] at hcreate
                obtain ⟨rfl, rfl⟩ := hcreate
                refine Or.inl ⟨rfl, rfl, ?_⟩
                intro dir name htarget
                simp only [Option.some.injEq, Prod.mk.injEq] at htarget
                rwa [← htarget.1]
        next hseveral =>
          rw [if_neg hseveral]
          simp only [rfopen] at hcreate
          cases hfound : s.tree.rfopen (firstComponent (cutSlash (dropSlash relpath)))
              parentDir with
          | none => simp [hfound] at hcreate
          | some found =>
              cases found with
              | none =>
                  simp only [hfound, State.opening, Option.some.injEq, Prod.mk.injEq]
                    at hcreate
                  obtain ⟨rfl, rfl⟩ := hcreate
                  exact Or.inl ⟨rfl, rfl, by simp⟩
              | some newParent =>
                  simp only [hfound] at hcreate ⊢
                  cases hrest : vfcreateFrom flags fuel (s.opening (some newParent))
                      newParent ((cutSlash (dropSlash relpath)).drop
                        ((firstComponent (cutSlash (dropSlash relpath))).length + 1)) with
                  | none => simp [hrest] at hcreate
                  | some rest =>
                      simp only [hrest, Option.some.injEq, Prod.mk.injEq] at hcreate
                      obtain ⟨rfl, rfl⟩ := hcreate
                      simpa using ih hrest

end KimisOS.Vfs
