import KimisOS.Vfs.Ramfs

/-!
# The tree of files

A child is created after its directory, so its number is larger.  This is why a
lookup comes to an end at the mount points it meets, and why no directory is
opened twice by one creation.
-/

namespace KimisOS.Vfs

open KimisOS.Fat32

namespace Tree

/-- The children of a file that is there were created after it. -/
structure Grown (tree : Tree) : Prop where
  root : rootDir < tree.next
  child : ∀ file < tree.next, ∀ child, some child ∈ (tree.files file).children →
    file < child ∧ child < tree.next

variable {tree : Tree}

/-! ## Looking up -/

theorem searchChildren_eq_some {subname : CString} {children : List (Option ℕ)} {child : ℕ}
    (hfound : tree.searchChildren subname children = some child) :
    some child ∈ children ∧ (tree.files child).name = subname := by
  induction children with
  | nil => simp [searchChildren] at hfound
  | cons slot children ih =>
      cases slot with
      | none =>
          obtain ⟨hmem, hname⟩ := ih hfound
          exact ⟨List.mem_cons_of_mem _ hmem, hname⟩
      | some other =>
          rw [searchChildren] at hfound
          by_cases hother : (tree.files other).name = subname
          · rw [if_pos hother] at hfound
            obtain rfl : other = child := Option.some.inj hfound
            exact ⟨List.mem_cons_self, hother⟩
          · rw [if_neg hother] at hfound
            obtain ⟨hmem, hname⟩ := ih hfound
            exact ⟨List.mem_cons_of_mem _ hmem, hname⟩

theorem searchChildren_eq_none {subname : CString} {children : List (Option ℕ)} :
    tree.searchChildren subname children = none ↔
      ∀ child, some child ∈ children → (tree.files child).name ≠ subname := by
  induction children with
  | nil => simp [searchChildren]
  | cons slot children ih =>
      cases slot with
      | none => simpa [searchChildren] using ih
      | some other =>
          by_cases hother : (tree.files other).name = subname
          · simp [searchChildren, hother]
          · simp [searchChildren, hother, ih]

theorem Grown.searchDir (hgrown : tree.Grown) {subname : CString} {directory child : ℕ}
    (hdirectory : directory < tree.next)
    (hfound : tree.searchDir subname directory = some child) :
    directory < child ∧ child < tree.next :=
  hgrown.child directory hdirectory child (searchChildren_eq_some hfound).1

/-- Every step of the walk leads to a file that was created later. -/
theorem Grown.walk (hgrown : tree.Grown) {mounted : CString → ℕ → Option (Option ℕ)}
    (hmounted : ∀ currentPath entry found, entry < tree.next →
      mounted currentPath entry = some (some found) → entry < found ∧ found < tree.next)
    {tokens : List CString} {currentPath : CString} {entry found : ℕ}
    (hentry : entry < tree.next)
    (hfound : tree.walk mounted tokens currentPath entry = some (some found)) :
    (tokens ≠ [] → entry < found) ∧ entry ≤ found ∧ found < tree.next := by
  induction tokens generalizing currentPath entry with
  | nil =>
      obtain rfl : entry = found := by simpa [Tree.walk] using hfound
      exact ⟨fun h => absurd rfl h, le_rfl, hentry⟩
  | cons token tokens ih =>
      rw [Tree.walk] at hfound
      cases hsearch : tree.searchDir token entry with
      | none => simp [hsearch] at hfound
      | some child =>
          obtain ⟨hlt, hchild⟩ := hgrown.searchDir hentry hsearch
          simp only [hsearch] at hfound
          by_cases hmount : tree.IsMount child
          · rw [if_pos hmount] at hfound
            obtain ⟨hbelow, hnext⟩ := hmounted _ _ _ hchild hfound
            exact ⟨fun _ => by omega, by omega, hnext⟩
          · rw [if_neg hmount] at hfound
            obtain ⟨-, hbelow, hnext⟩ := ih hchild hfound
            exact ⟨fun _ => by omega, by omega, hnext⟩

theorem Grown.resolvePath (hgrown : tree.Grown) {fuel : ℕ} {path : CString}
    {start found : ℕ} (hstart : start < tree.next)
    (hfound : tree.resolvePath fuel path start = some (some found)) :
    start < found ∧ found < tree.next := by
  induction fuel generalizing path start found with
  | zero => simp [Tree.resolvePath] at hfound
  | succ fuel ih =>
      rw [Tree.resolvePath] at hfound
      by_cases hlong : 4096 ≤ path.length
      · simp [hlong] at hfound
      · rw [if_neg hlong] at hfound
        refine (hgrown.walk ?_ hstart hfound).imp (fun hbelow => ?_) And.right
        · intro currentPath entry reached hentry hresolve
          cases hops : (tree.files entry).fileops with
          | ramfs =>
              rw [hops] at hresolve
              exact ih hentry hresolve
          | pci => simp [hops] at hresolve
        · exact hbelow (pathTokens_ne_nil path)

theorem Grown.rfopen (hgrown : tree.Grown) {name : CString} {dir found : ℕ}
    (hdir : dir < tree.next) (hfound : tree.rfopen name dir = some (some found)) :
    dir < found ∧ found < tree.next := by
  cases hops : (tree.files dir).fileops with
  | ramfs =>
      simp only [Tree.rfopen, hops] at hfound
      exact hgrown.resolvePath hdir hfound
  | pci => simp [Tree.rfopen, hops] at hfound

/-! ## The lookup returns -/

theorem length_advance_le (currentPath token : CString) :
    (advance currentPath token).length ≤ currentPath.length := by
  rw [advance]
  cases hdrop : currentPath.drop token.length with
  | nil => simp [dropSlash]
  | cons c rest =>
      have hlength := congrArg List.length hdrop
      rw [List.length_drop, List.length_cons] at hlength
      rw [dropSlash]
      split
      · omega
      · rw [List.length_cons]
        omega

/-- The walk returns when the lookups that mount points lead to do. -/
theorem walk_isSome {mounted : CString → ℕ → Option (Option ℕ)} (hgrown : tree.Grown)
    {tokens : List CString} {currentPath : CString} {entry : ℕ} (hentry : entry < tree.next)
    (hmounted : ∀ rest child, rest.length ≤ currentPath.length → entry < child →
      child < tree.next → tree.IsMount child → (mounted rest child).isSome) :
    (tree.walk mounted tokens currentPath entry).isSome := by
  induction tokens generalizing currentPath entry with
  | nil => rfl
  | cons token tokens ih =>
      rw [Tree.walk]
      cases hsearch : tree.searchDir token entry with
      | none => rfl
      | some child =>
          obtain ⟨hlt, hchild⟩ := hgrown.searchDir hentry hsearch
          have hshort := length_advance_le currentPath token
          by_cases hmount : tree.IsMount child
          · simp only [if_pos hmount]
            exact hmounted _ _ hshort hlt hchild hmount
          · simp only [if_neg hmount]
            refine ih hchild ?_
            intro rest grandchild hrest hbelow
            exact hmounted rest grandchild (by omega) (by omega)

/-- The fuel of `rfopen` is enough: with a path that fits in a page, a lookup
always returns. -/
theorem resolvePath_isSome (hgrown : tree.Grown)
    (hmount : ∀ file, tree.IsMount file → (tree.files file).fileops = .ramfs)
    {fuel : ℕ} {path : CString} {start : ℕ} (hpath : path.length < 4096)
    (hstart : start < tree.next) (hfuel : tree.next ≤ fuel + start) :
    (tree.resolvePath fuel path start).isSome := by
  induction fuel generalizing path start with
  | zero => omega
  | succ fuel ih =>
      rw [Tree.resolvePath, if_neg (by omega)]
      refine walk_isSome hgrown hstart ?_
      intro rest child hrest hbelow hchild hmounted
      rw [hmount child hmounted]
      exact ih (by omega) hchild (by omega)

theorem rfopen_isSome (hgrown : tree.Grown)
    (hmount : ∀ file, tree.IsMount file → (tree.files file).fileops = .ramfs)
    {name : CString} {dir : ℕ} (hname : name.length < 4096) (hdir : dir < tree.next) :
    (tree.rfopen name dir).isSome := by
  rw [Tree.rfopen]
  cases (tree.files dir).fileops with
  | ramfs => exact resolvePath_isSome hgrown hmount hname hdir (by omega)
  | pci => rfl

/-! ## A new child -/

theorem mem_insertChild {child new : ℕ} {children : List (Option ℕ)} :
    some child ∈ insertChild new children ↔ child = new ∨ some child ∈ children := by
  induction children with
  | nil => simp [insertChild]
  | cons slot children ih =>
      cases slot with
      | none => simp [insertChild]
      | some other =>
          simp only [insertChild, List.mem_cons, ih]
          tauto

variable {parent : ℕ} {name : CString} {flags : ℕ}

@[simp]
theorem addChild_next : (tree.addChild parent name flags).next = tree.next + 1 := rfl

theorem addChild_parent : (tree.addChild parent name flags).files parent =
    { tree.files parent with
      children := insertChild tree.next (tree.files parent).children } := by
  simp [addChild]

theorem addChild_new (hparent : parent < tree.next) :
    (tree.addChild parent name flags).files tree.next =
      ⟨name, flags % 2 ^ 16, .ramfs, 0, []⟩ := by
  have hne : tree.next ≠ parent := by omega
  simp [addChild, hne]

theorem addChild_other {file : ℕ} (hparent : file ≠ parent) (hnew : file ≠ tree.next) :
    (tree.addChild parent name flags).files file = tree.files file := by
  simp [addChild, hparent, hnew]

/-- What a new child changes in the children of a file. -/
theorem mem_addChild {file child : ℕ} (hfile : file < tree.next) :
    some child ∈ ((tree.addChild parent name flags).files file).children ↔
      some child ∈ (tree.files file).children ∨ (file = parent ∧ child = tree.next) := by
  by_cases hparent : file = parent
  · subst hparent
    rw [addChild_parent, mem_insertChild]
    tauto
  · rw [addChild_other hparent (by omega)]
    tauto

theorem Grown.addChild (hgrown : tree.Grown) (hparent : parent < tree.next) :
    (tree.addChild parent name flags).Grown where
  root := Nat.lt_succ_of_lt hgrown.root
  child := by
    intro file hfile child hmem
    rw [addChild_next] at hfile ⊢
    by_cases hnew : file = tree.next
    · rw [hnew, addChild_new hparent] at hmem
      simp at hmem
    · have hbelow : file < tree.next := by omega
      rcases (mem_addChild hbelow).mp hmem with hold | ⟨-, rfl⟩
      · obtain ⟨hlt, hchild⟩ := hgrown.child file hbelow child hold
        exact ⟨hlt, by omega⟩
      · exact ⟨hbelow, by omega⟩

end Tree

/-! ## Opening and closing leave the tree alone -/

@[simp]
theorem tree_opening (s : State) (found : Option ℕ) : (s.opening found).tree = s.tree := by
  cases found <;> rfl

@[simp]
theorem tree_fclose (s : State) (file : ℕ) : (fclose s file).tree = s.tree := by
  rw [fclose]
  split <;> rfl

theorem ramfsInit_grown : ramfsInit.tree.Grown where
  root := Nat.one_pos
  child := by
    intro file hfile child hmem
    simp [ramfsInit] at hmem

end KimisOS.Vfs
