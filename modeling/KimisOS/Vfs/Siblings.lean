import KimisOS.Vfs.Creation

/-!
# Names of siblings

A creation puts a new child into a directory.  Its siblings keep different
names exactly if no child had the name before, and then the new file is the one
that its path opens.
-/

namespace KimisOS.Vfs

open KimisOS.Fat32

namespace Tree

variable {tree tree' : Tree} {parent : ℕ} {name : CString} {flags : ℕ}

/-- No directory has two children with the same name. -/
def UniqueSiblings (tree : Tree) : Prop :=
  ∀ dir < tree.next, ∀ child other,
    some child ∈ (tree.files dir).children → some other ∈ (tree.files dir).children →
    (tree.files child).name = (tree.files other).name → child = other

/-! ## The search after a new child -/

theorem searchChildren_congr {token : CString} {children : List (Option ℕ)}
    (hname : ∀ child, some child ∈ children →
      (tree'.files child).name = (tree.files child).name) :
    tree'.searchChildren token children = tree.searchChildren token children := by
  induction children with
  | nil => rfl
  | cons slot children ih =>
      have hrest := ih fun child hmem => hname child (List.mem_cons_of_mem _ hmem)
      cases slot with
      | none => exact hrest
      | some child => rw [searchChildren, searchChildren, hname child List.mem_cons_self, hrest]

theorem searchChildren_insert_other {token : CString} {new : ℕ}
    (hname : (tree.files new).name ≠ token) (children : List (Option ℕ)) :
    tree.searchChildren token (insertChild new children) =
      tree.searchChildren token children := by
  induction children with
  | nil => simp [insertChild, searchChildren, hname]
  | cons slot children ih =>
      cases slot with
      | none => simp [insertChild, searchChildren, hname]
      | some child => rw [insertChild, searchChildren, searchChildren, ih]

theorem searchChildren_insert_new {new : ℕ} {children : List (Option ℕ)}
    (hnone : tree.searchChildren (tree.files new).name children = none) :
    tree.searchChildren (tree.files new).name (insertChild new children) = some new := by
  induction children with
  | nil => simp [insertChild, searchChildren]
  | cons slot children ih =>
      cases slot with
      | none => simp [insertChild, searchChildren]
      | some child =>
          rw [searchChildren] at hnone
          by_cases hname : (tree.files child).name = (tree.files new).name
          · simp [hname] at hnone
          · rw [if_neg hname] at hnone
            rw [insertChild, searchChildren, if_neg hname]
            exact ih hnone

/-- A new child changes only the array of its directory. -/
theorem addChild_kept {file : ℕ} (hfile : file < tree.next) :
    ((tree.addChild parent name flags).files file).name = (tree.files file).name ∧
      ((tree.addChild parent name flags).files file).flags = (tree.files file).flags ∧
      ((tree.addChild parent name flags).files file).fileops = (tree.files file).fileops ∧
      ((tree.addChild parent name flags).files file).id = (tree.files file).id := by
  by_cases hparent : file = parent
  · subst hparent
    rw [addChild_parent]
    exact ⟨rfl, rfl, rfl, rfl⟩
  · rw [addChild_other hparent (by omega)]
    exact ⟨rfl, rfl, rfl, rfl⟩

theorem Grown.searchChildren_addChild (hgrown : tree.Grown) {token : CString} {dir : ℕ}
    (hdir : dir < tree.next) :
    (tree.addChild parent name flags).searchChildren token (tree.files dir).children =
      tree.searchDir token dir := by
  refine searchChildren_congr ?_
  intro child hmem
  exact (addChild_kept (hgrown.child dir hdir child hmem).2).1

theorem Grown.searchDir_addChild (hgrown : tree.Grown) (hparent : parent < tree.next)
    {token : CString} {dir : ℕ} (hdir : dir < tree.next) (hother : dir = parent → token ≠ name) :
    (tree.addChild parent name flags).searchDir token dir = tree.searchDir token dir := by
  have hold : (tree.addChild parent name flags).searchChildren token
      (tree.files dir).children = tree.searchDir token dir :=
    hgrown.searchChildren_addChild hdir
  rw [← hold, Tree.searchDir]
  by_cases hsame : dir = parent
  · subst hsame
    rw [addChild_parent]
    refine searchChildren_insert_other ?_ _
    rw [addChild_new hparent]
    exact (hother rfl).symm
  · rw [addChild_other hsame (by omega)]

theorem Grown.searchDir_addChild_new (hgrown : tree.Grown) (hparent : parent < tree.next)
    (hfree : tree.searchDir name parent = none) :
    (tree.addChild parent name flags).searchDir name parent = some tree.next := by
  have hname : ((tree.addChild parent name flags).files tree.next).name = name := by
    rw [addChild_new hparent]
  rw [Tree.searchDir, addChild_parent]
  have hnone : (tree.addChild parent name flags).searchChildren
      ((tree.addChild parent name flags).files tree.next).name
        (tree.files parent).children = none := by
    rw [hname, hgrown.searchChildren_addChild hparent]
    exact hfree
  have hnew := searchChildren_insert_new hnone
  rwa [hname] at hnew

theorem isMount_addChild {file : ℕ} (hfile : file < tree.next) :
    (tree.addChild parent name flags).IsMount file ↔ tree.IsMount file := by
  rw [IsMount, IsMount, (addChild_kept hfile).2.1]

theorem Grown.enter_addChild (hgrown : tree.Grown) (hparent : parent < tree.next)
    (hfree : tree.searchDir name parent = none) {token : CString} {dir child : ℕ}
    (hdir : dir < tree.next) (henter : tree.enter token dir = some child) :
    (tree.addChild parent name flags).enter token dir = some child := by
  obtain ⟨hsearch, hmount⟩ := enter_eq_some.mp henter
  have hother : dir = parent → token ≠ name := by
    rintro rfl rfl
    rw [hfree] at hsearch
    simp at hsearch
  have hchild := (hgrown.searchDir hdir hsearch).2
  rw [enter_eq_some, hgrown.searchDir_addChild hparent hdir hother, isMount_addChild hchild]
  exact ⟨hsearch, hmount⟩

/-- The new child keeps the names of siblings different exactly if its own was
free. -/
theorem Grown.uniqueSiblings_addChild (hgrown : tree.Grown) (hunique : tree.UniqueSiblings)
    (hparent : parent < tree.next) :
    (tree.addChild parent name flags).UniqueSiblings ↔
      tree.searchDir name parent = none := by
  constructor
  · intro hunique'
    by_contra htaken
    obtain ⟨child, hchild⟩ := Option.ne_none_iff_exists'.mp htaken
    obtain ⟨hmem, hname⟩ := searchChildren_eq_some hchild
    have hbelow := (hgrown.child parent hparent child hmem).2
    have hsame : ((tree.addChild parent name flags).files child).name =
        ((tree.addChild parent name flags).files tree.next).name := by
      rw [(addChild_kept hbelow).1, addChild_new hparent, hname]
    have hnew := hunique' parent (Nat.lt_succ_of_lt hparent) child tree.next
      ((mem_addChild hparent).mpr (Or.inl hmem))
      ((mem_addChild hparent).mpr (Or.inr ⟨rfl, rfl⟩)) hsame
    omega
  · intro hfree dir hdir child other hchild hother hname
    rw [addChild_next] at hdir
    by_cases hnew : dir = tree.next
    · rw [hnew, addChild_new hparent] at hchild
      simp at hchild
    · have hbelow : dir < tree.next := by omega
      have htaken : ∀ file, some file ∈ (tree.files parent).children →
          (tree.files file).name ≠ name := searchChildren_eq_none.mp hfree
      rw [mem_addChild hbelow] at hchild hother
      rcases hchild with hchild | ⟨rfl, rfl⟩ <;> rcases hother with hother | ⟨hdir', rfl⟩
      · rw [(addChild_kept (hgrown.child dir hbelow child hchild).2).1,
          (addChild_kept (hgrown.child dir hbelow other hother).2).1] at hname
        exact hunique dir hbelow child other hchild hother hname
      · subst hdir'
        rw [(addChild_kept (hgrown.child dir hbelow child hchild).2).1,
          addChild_new hbelow] at hname
        exact absurd hname (htaken child hchild)
      · rw [(addChild_kept (hgrown.child dir hbelow other hother).2).1,
          addChild_new hbelow] at hname
        exact absurd hname.symm (htaken other hother)
      · rfl

/-! ## A path of names -/

/-- Names joined by single slashes. -/
def joinPath : List CString → CString
  | [] => []
  | [name] => name
  | name :: names => name ++ slash :: joinPath names

def IsName (name : CString) : Prop := name ≠ [] ∧ slash ∉ name

theorem splitPath_joinPath {names : List CString} (hne : names ≠ [])
    (hnames : ∀ name ∈ names, IsName name) : splitPath (joinPath names) = names := by
  induction names with
  | nil => exact absurd rfl hne
  | cons name names ih =>
      have hname := hnames name List.mem_cons_self
      cases names with
      | nil => exact splitPath_of_not_mem hname.2
      | cons next names =>
          have hrest := ih (by simp) fun other hmem => hnames other (List.mem_cons_of_mem _ hmem)
          rw [joinPath, splitPath_append, splitPath_of_not_mem hname.2, hrest]
          · rfl
          · simp

theorem joinPath_concat_cons (name last : CString) (names : List CString) :
    joinPath (name :: names ++ [last]) = name ++ slash :: joinPath (names ++ [last]) := by
  cases names <;> rfl

theorem joinPath_ne_nil {names : List CString} (hne : names ≠ [])
    (hnames : ∀ name ∈ names, IsName name) : joinPath names ≠ [] := by
  intro hnil
  have hsplit := splitPath_joinPath hne hnames
  rw [hnil, splitPath] at hsplit
  exact (hnames [] (by rw [← hsplit]; simp)).1 rfl

theorem head_joinPath {names : List CString} (hnames : ∀ name ∈ names, IsName name) :
    (joinPath names).head? ≠ some slash := by
  cases names with
  | nil => simp [joinPath]
  | cons name names =>
      obtain ⟨c, rest, rfl⟩ := List.exists_cons_of_ne_nil (hnames name List.mem_cons_self).1
      have hslash := (hnames _ List.mem_cons_self).2
      rw [List.mem_cons, not_or] at hslash
      cases names with
      | nil => simpa [joinPath] using Ne.symm hslash.1
      | cons next names => simpa [joinPath] using Ne.symm hslash.1

theorem dropSlash_joinPath {names : List CString} (hnames : ∀ name ∈ names, IsName name) :
    dropSlash (joinPath names) = joinPath names := by
  have hhead := head_joinPath hnames
  cases hpath : joinPath names with
  | nil => rfl
  | cons c path =>
      rw [hpath] at hhead
      rw [dropSlash, if_neg (by simpa using hhead)]

theorem getLast_joinPath {names : List CString} (hnames : ∀ name ∈ names, IsName name) :
    (joinPath names).getLast? ≠ some slash := by
  induction names with
  | nil => simp [joinPath]
  | cons name names ih =>
      have hname := hnames name List.mem_cons_self
      cases names with
      | nil =>
          intro hlast
          exact hname.2 (List.mem_of_getLast? hlast)
      | cons next names =>
          have hrest := ih fun other hmem => hnames other (List.mem_cons_of_mem _ hmem)
          have hne : joinPath (next :: names) ≠ [] := by
            have hnext := (hnames next (by simp)).1
            cases names <;> simp [joinPath, hnext]
          obtain ⟨c, path, hpath⟩ := List.exists_cons_of_ne_nil hne
          rw [hpath] at hrest
          rw [joinPath, hpath]
          · simpa using hrest
          · simp

theorem cutSlash_joinPath {names : List CString} (hnames : ∀ name ∈ names, IsName name) :
    cutSlash (joinPath names) = joinPath names := by
  rw [cutSlash, if_neg (getLast_joinPath hnames)]

theorem firstComponent_append {name : CString} (hslash : slash ∉ name) (rest : CString) :
    firstComponent (name ++ slash :: rest) = name := by
  have hall : ∀ c ∈ name, decide (c ≠ slash) = true := by
    intro c hmem
    simp only [decide_eq_true_eq]
    rintro rfl
    exact hslash hmem
  rw [firstComponent, List.takeWhile_append_of_pos hall]
  simp

theorem firstComponent_of_not_mem {name : CString} (hslash : slash ∉ name) :
    firstComponent name = name := by
  rw [firstComponent, List.takeWhile_eq_self_iff]
  intro c hmem
  simp only [decide_eq_true_eq]
  rintro rfl
  exact hslash hmem

/-- A path of names leads `vfcreate` to the directory its first names lead to. -/
theorem Plain.targetFrom_joinPath (hplain : tree.Plain) {fuel parentDir dir : ℕ}
    {names : List CString} {last created relpath : CString}
    (hnames : ∀ name ∈ names ++ [last], IsName name)
    (hpath : dropSlash relpath = joinPath (names ++ [last]))
    (htarget : tree.targetFrom fuel parentDir relpath = some (dir, created)) :
    created = last ∧ tree.descend names parentDir = some dir := by
  induction names generalizing fuel parentDir relpath with
  | nil =>
      cases fuel with
      | zero => simp [Tree.targetFrom] at htarget
      | succ fuel =>
          have hlast := hnames last (by simp)
          rw [List.nil_append, joinPath] at hpath
          rw [Tree.targetFrom, hpath, show cutSlash last = last from cutSlash_joinPath hnames,
            firstComponent_of_not_mem hlast.2, if_pos le_rfl] at htarget
          simp only [Option.some.injEq, Prod.mk.injEq] at htarget
          exact ⟨htarget.2.symm, by rw [descend, htarget.1]⟩
  | cons name names ih =>
      cases fuel with
      | zero => simp [Tree.targetFrom] at htarget
      | succ fuel =>
          have hname := hnames name (by simp)
          have hrest : ∀ other ∈ names ++ [last], IsName other := fun other hmem =>
            hnames other (by simpa using Or.inr (List.mem_append.mp hmem))
          rw [Tree.targetFrom, hpath, cutSlash_joinPath hnames, joinPath_concat_cons,
            firstComponent_append hname.2, if_neg (by simp)] at htarget
          split at htarget
          next newParent hopen =>
            have hfirst : firstComponent name = name := firstComponent_of_not_mem hname.2
            rw [← hfirst] at hopen
            have henter := hplain.rfopen_firstComponent hopen
            rw [hfirst] at henter
            have hdrop : (name ++ slash :: joinPath (names ++ [last])).drop (name.length + 1) =
                joinPath (names ++ [last]) := by
              rw [List.drop_append, List.drop_eq_nil_of_le (Nat.le_succ _)]
              simp
            rw [hdrop] at htarget
            rw [descend, ← henter]
            exact ih hrest (dropSlash_joinPath hrest) htarget
          next => simp at htarget

end Tree

end KimisOS.Vfs
