import KimisOS.Vfs.Siblings

/-!
# What a mount point receives

`resolve_path` cuts the components out of a copy of the path, and follows them
in the path itself to know what is left of it at a mount point.  A slash in
front is left out of the copy only, and from then on the second pointer is
behind the first.
-/

namespace KimisOS.Mounts

open KimisOS.Fat32
open KimisOS.Vfs

/-- What `resolve_path` returns, and the calls of `rfopen` on its way. -/
structure Resolved where
  entry : Option ℕ
  calls : List (CString × ℕ)
  deriving DecidableEq

/-- The loop of `resolve_path`. -/
def resolveTokens (tree : Tree) (rfopen : CString → ℕ → Option ℕ) (getLastChild : Bool) :
    List CString → CString → ℕ → Resolved
  | [], _, entry => ⟨some entry, []⟩
  | token :: tokens, currentPath, entry =>
      match tree.searchDir token entry with
      | none => ⟨none, []⟩
      | some entry =>
          let currentPath := Tree.advance currentPath token
          if tree.IsMount entry then
            if getLastChild then ⟨rfopen currentPath entry, [(currentPath, entry)]⟩
            else ⟨none, []⟩
          else resolveTokens tree rfopen getLastChild tokens currentPath entry

/-- `resolve_path`.  The copy of the path has one page. -/
def resolvePath (tree : Tree) (rfopen : CString → ℕ → Option ℕ) (pathname : CString)
    (start : ℕ) (getLastChild : Bool) : Option Resolved :=
  if 4096 ≤ pathname.length then none
  else some (resolveTokens tree rfopen getLastChild (pathTokens pathname) pathname start)

/-- The names of directories and that of a mount point in the last of them, with
what stands behind it: nothing, or a slash and the rest of the path. -/
structure MountPath (tree : Tree) (start : ℕ) where
  directories : List CString
  name : CString
  behind : CString
  dir : ℕ
  mount : ℕ
  isName : ∀ part ∈ directories ++ [name], Tree.IsName part
  enters : tree.descend directories start = some dir
  finds : tree.searchDir name dir = some mount
  isMount : tree.IsMount mount
  ends : behind = [] ∨ behind.head? = some slash

namespace MountPath

variable {tree : Tree} {start : ℕ}

/-- The path, with or without a slash in front. -/
def pathname (path : MountPath tree start) (leading : Bool) : CString :=
  (if leading then [slash] else []) ++
    (Tree.joinPath (path.directories ++ [path.name]) ++ path.behind)

def rest (path : MountPath tree start) : CString := dropSlash path.behind

end MountPath

/-! ## The two pointers -/

theorem advance_append (token rest : CString) :
    Tree.advance (token ++ rest) token = dropSlash rest := by
  rw [Tree.advance, List.drop_left]

theorem dropSlash_suffix (path : CString) : dropSlash path <:+ path := by
  cases path with
  | nil => exact List.suffix_rfl
  | cons c path =>
      rw [dropSlash]
      split
      · exact List.suffix_cons c path
      · exact List.suffix_rfl

theorem length_dropSlash (path : CString) : path.length ≤ (dropSlash path).length + 1 := by
  cases path with
  | nil => simp
  | cons c path =>
      rw [dropSlash]
      split
      · exact le_of_eq List.length_cons
      · exact Nat.le_succ _

theorem advance_suffix (currentPath token : CString) :
    Tree.advance currentPath token <:+ currentPath :=
  (dropSlash_suffix _).trans (List.drop_suffix _ _)

theorem length_advance (currentPath token : CString) :
    currentPath.length ≤ (Tree.advance currentPath token).length + token.length + 1 := by
  have hdrop := length_dropSlash (currentPath.drop token.length)
  rw [List.length_drop] at hdrop
  rw [Tree.advance]
  omega

variable (behind last : CString) {names : List CString}

/-- In step with the components, the second pointer arrives at the last one. -/
theorem advances_inStep :
    names.foldl Tree.advance (Tree.joinPath (names ++ [last]) ++ behind) = last ++ behind := by
  induction names with
  | nil => rfl
  | cons name names ih =>
      rw [Tree.joinPath_concat_cons, List.foldl_cons, List.append_assoc, advance_append,
        List.cons_append, dropSlash, if_pos rfl]
      exact ih

/-- Once it is behind, it stays behind. -/
theorem advances_behind {currentPath : CString}
    (hbehind : (Tree.joinPath (names ++ [last]) ++ behind).length < currentPath.length) :
    (last ++ behind).length < (names.foldl Tree.advance currentPath).length := by
  induction names generalizing currentPath with
  | nil => exact hbehind
  | cons name names ih =>
      have hstep := length_advance currentPath name
      rw [Tree.joinPath_concat_cons] at hbehind
      refine ih ?_
      simp only [List.length_append, List.length_cons] at hbehind ⊢
      omega

theorem advances_suffix (currentPath : CString) :
    names.foldl Tree.advance currentPath <:+ currentPath := by
  induction names generalizing currentPath with
  | nil => exact List.suffix_rfl
  | cons name names ih => exact (ih _).trans (advance_suffix currentPath name)

/-! ## The walk -/

section Walk

variable {tree : Tree} {rfopen : CString → ℕ → Option ℕ} {getLastChild : Bool}

/-- The walk of `rfopen` that goes on in the driver of a mount point. -/
theorem walk_eq (tokens : List CString) (currentPath : CString) (entry : ℕ) :
    tree.walk (fun rest mount => some (rfopen rest mount)) tokens currentPath entry =
      some (resolveTokens tree rfopen true tokens currentPath entry).entry := by
  induction tokens generalizing currentPath entry with
  | nil => rfl
  | cons token tokens ih =>
      rw [Tree.walk, resolveTokens]
      cases tree.searchDir token entry with
      | none => rfl
      | some child =>
          by_cases hmount : tree.IsMount child
          · simp [hmount]
          · simpa [hmount] using ih _ _

theorem resolveTokens_enters {names tokens : List CString} {start dir : ℕ}
    (henters : tree.descend names start = some dir) (currentPath : CString) :
    resolveTokens tree rfopen getLastChild (names ++ tokens) currentPath start =
      resolveTokens tree rfopen getLastChild tokens (names.foldl Tree.advance currentPath)
        dir := by
  apply Tree.walk_along ?_ henters
  intro token tokens currentPath dir child hchild
  obtain ⟨hsearch, hmount⟩ := Tree.enter_eq_some.mp hchild
  rw [resolveTokens]
  simp only [hsearch, if_neg hmount]

theorem resolveTokens_mount {token : CString} {tokens : List CString} {dir mount : ℕ}
    (hfinds : tree.searchDir token dir = some mount) (hmount : tree.IsMount mount)
    (currentPath : CString) :
    resolveTokens tree rfopen true (token :: tokens) currentPath dir =
      ⟨rfopen (Tree.advance currentPath token) mount,
        [(Tree.advance currentPath token, mount)]⟩ := by
  simp [resolveTokens, hfinds, hmount]

end Walk

namespace MountPath

variable {tree : Tree} {start : ℕ} (path : MountPath tree start)

theorem pathTokens_pathname (leading : Bool) :
    ∃ more, pathTokens (path.pathname leading) =
      (path.directories ++ path.name :: more).take maxTokens := by
  have hjoin := Tree.dropSlash_joinPath path.isName
  have hsplit := Tree.splitPath_joinPath (by simp) path.isName
  have hne := Tree.joinPath_ne_nil (by simp) path.isName
  have hdrop : dropSlash (path.pathname leading) =
      Tree.joinPath (path.directories ++ [path.name]) ++ path.behind := by
    cases leading with
    | true => rfl
    | false =>
        obtain ⟨c, more, hpath⟩ := List.exists_cons_of_ne_nil hne
        rw [hpath, dropSlash] at hjoin
        rw [pathname, if_neg Bool.false_ne_true, List.nil_append, hpath, List.cons_append,
          dropSlash, if_neg]
        intro hslash
        rw [if_pos hslash] at hjoin
        exact List.cons_ne_self c more hjoin.symm
  rw [pathTokens, hdrop]
  cases hbehind : path.behind with
  | nil => exact ⟨[], by rw [List.append_nil, hsplit]⟩
  | cons c more =>
      have hslash : c = slash := by
        have hends := path.ends
        rw [hbehind] at hends
        simpa using hends
      rw [hslash, splitPath_append, hsplit]
      exact ⟨splitPath more, by rw [List.append_assoc]; rfl⟩

/-- A mount among the first components is given what the second pointer has
left. -/
theorem resolveTokens_pathname (rfopen : CString → ℕ → Option ℕ) (leading : Bool)
    (hnear : path.directories.length < maxTokens) {left : CString}
    (hleft : left = Tree.advance
      (path.directories.foldl Tree.advance (path.pathname leading)) path.name) :
    resolveTokens tree rfopen true (pathTokens (path.pathname leading))
        (path.pathname leading) start =
      ⟨rfopen left path.mount, [(left, path.mount)]⟩ := by
  obtain ⟨more, htokens⟩ := path.pathTokens_pathname leading
  obtain ⟨room, hroom⟩ := Nat.exists_eq_add_of_lt hnear
  have htake : (path.directories ++ path.name :: more).take maxTokens =
      path.directories ++ path.name :: more.take room := by
    rw [List.take_append, List.take_of_length_le (by omega),
      show maxTokens - path.directories.length = room + 1 by omega, List.take_succ_cons]
  rw [htokens, htake, resolveTokens_enters path.enters,
    resolveTokens_mount path.finds path.isMount, ← hleft]

/-- A mount behind too many directories is not called. -/
theorem calls_pathname_far (rfopen : CString → ℕ → Option ℕ) (leading : Bool)
    (hfar : maxTokens ≤ path.directories.length) :
    (resolveTokens tree rfopen true (pathTokens (path.pathname leading))
      (path.pathname leading) start).calls = [] := by
  obtain ⟨more, htokens⟩ := path.pathTokens_pathname leading
  have henters := path.enters
  rw [← List.take_append_drop maxTokens path.directories, Tree.descend_append,
    Option.bind_eq_some_iff] at henters
  obtain ⟨entry, hentry, -⟩ := henters
  rw [htokens, List.take_append_of_le_length hfar,
    ← List.append_nil (path.directories.take maxTokens), resolveTokens_enters hentry,
    resolveTokens]

/-- Without a slash in front, the mount is given the rest. -/
theorem left_plain : Tree.advance
    (path.directories.foldl Tree.advance (path.pathname false)) path.name = path.rest := by
  rw [pathname, if_neg Bool.false_ne_true, List.nil_append, advances_inStep, advance_append,
    rest]

/-- With a slash in front, it is given more. -/
theorem left_leading : Tree.advance
    (path.directories.foldl Tree.advance (path.pathname true)) path.name ≠ path.rest := by
  have hbehind := @advances_behind path.behind path.name path.directories
    (path.pathname true) (Nat.lt_succ_self _)
  have hsuffix := @advances_suffix path.directories (path.pathname true)
  generalize path.directories.foldl Tree.advance (path.pathname true) = currentPath
    at hbehind hsuffix
  rw [List.length_append] at hbehind
  intro hrest
  rcases path.ends with hnil | hslash
  · -- Nothing is behind the mount, and a slash cannot be what is left.
    rw [rest, hnil, dropSlash, Tree.advance] at hrest
    have hleft : currentPath.drop path.name.length = [slash] := by
      cases hdrop : currentPath.drop path.name.length with
      | nil =>
          have hlength := congrArg List.length hdrop
          rw [List.length_drop, List.length_nil] at hlength
          omega
      | cons c left =>
          rw [hdrop, dropSlash] at hrest
          split at hrest
          next hc => rw [hc, hrest]
          next => simp at hrest
    have hlast : [slash] <:+ path.pathname true :=
      hleft ▸ (List.drop_suffix _ currentPath).trans hsuffix
    obtain ⟨front, hfront⟩ := hlast
    have hend : (path.pathname true).getLast? = some slash := by
      rw [← hfront, List.getLast?_append]
      rfl
    have hjoin := Tree.getLast_joinPath path.isName
    rw [pathname, if_pos rfl, hnil, List.append_nil, List.getLast?_append] at hend
    cases hpath : (Tree.joinPath (path.directories ++ [path.name])).getLast? with
    | none =>
        exact Tree.joinPath_ne_nil (by simp) path.isName (List.getLast?_eq_none_iff.mp hpath)
    | some c =>
        rw [hpath] at hend hjoin
        exact hjoin (by simpa using hend)
  · have hstep := length_advance currentPath path.name
    obtain ⟨more, hmore⟩ : ∃ more, path.behind = slash :: more := by
      cases hpath : path.behind with
      | nil => simp [hpath] at hslash
      | cons c more =>
          rw [hpath, List.head?_cons, Option.some.injEq] at hslash
          exact ⟨more, by rw [hslash]⟩
    rw [hrest, rest, hmore, dropSlash, if_pos rfl] at hstep
    rw [hmore, List.length_cons] at hbehind
    omega

end MountPath

/-- A mount is called once, with what is behind it in the path and itself, and
what it returns is returned, exactly if the path has no slash in front, is
shorter than a page, and has the mount among its first 1024 components. -/
theorem mount_receives_iff {tree : Tree} {start : ℕ} (path : MountPath tree start)
    (rfopen : CString → ℕ → Option ℕ) (leading : Bool) :
    resolvePath tree rfopen (path.pathname leading) start true =
        some ⟨rfopen path.rest path.mount, [(path.rest, path.mount)]⟩ ↔
      leading = false ∧ (path.pathname leading).length < 4096 ∧
        path.directories.length < maxTokens := by
  rw [resolvePath]
  constructor
  · intro hresolve
    split at hresolve
    next => simp at hresolve
    next hshort =>
      have hresolve := Option.some.inj hresolve
      by_cases hnear : path.directories.length < maxTokens
      · rw [path.resolveTokens_pathname rfopen leading hnear rfl] at hresolve
        have hcalls := congrArg Resolved.calls hresolve
        simp only [List.cons.injEq, Prod.mk.injEq, and_true] at hcalls
        refine ⟨?_, by omega, hnear⟩
        cases leading with
        | false => rfl
        | true => exact absurd hcalls path.left_leading
      · have hcalls := path.calls_pathname_far rfopen leading (by omega)
        rw [hresolve] at hcalls
        simp at hcalls
  · rintro ⟨rfl, hshort, hnear⟩
    rw [if_neg (by omega),
      path.resolveTokens_pathname rfopen false hnear path.left_plain.symm]

/-- A mount `m` in the root. -/
def oneMount : Tree where
  files := fun file =>
    if file = 0 then ⟨[slash], fsFileIsDir ||| fsFileSystem, .ramfs, 0, [some 1]⟩
    else ⟨[0x6d], fsFileMount, .ramfs, 0, []⟩
  next := 2

/-- `m/x`. -/
def belowMount : MountPath oneMount rootDir where
  directories := []
  name := [0x6d]
  behind := [slash, 0x78]
  dir := 0
  mount := 1
  isName := by
    intro part hpart
    obtain rfl : part = [0x6d] := by simpa using hpart
    exact ⟨by decide, by decide⟩
  enters := rfl
  finds := by decide
  isMount := by decide
  ends := .inr rfl

/-- For `/m/x`, the mount is called with `m/x`. -/
theorem mount_receives_its_name :
    resolvePath oneMount (fun _ _ => none) (belowMount.pathname true) rootDir true =
        some ⟨none, [([0x6d, slash, 0x78], belowMount.mount)]⟩ ∧
      resolvePath oneMount (fun _ _ => none) (belowMount.pathname true) rootDir true ≠
        some ⟨none, [(belowMount.rest, belowMount.mount)]⟩ := by
  decide

end KimisOS.Mounts
