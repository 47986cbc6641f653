import KimisOS.Core.Descent
import KimisOS.Fat32.Tree

/-!
# What a path on the card goes through

`resolve_path` reads the clusters of every component but the last as directory
entries, whatever the attributes of the entry say.
-/

namespace KimisOS.Fat32

/-- Attribute `0x10` of a directory entry. -/
def Dirent.isDir (dirent : Dirent) : Bool := decide (dirent.flags &&& 0x10 ≠ 0)

/-! ## The walk with the entries it reads -/

/-- The loop over the components, with the entries whose clusters were read as
directory entries. -/
def walkTokensTraced (root : Root) : Volume → Walk → List CString →
    Option (Volume × Option Walk) × List Dirent
  | vol, walk, [] => (some (vol, some walk), [])
  | vol, walk, token :: tokens =>
      match lookup root vol walk.parent token with
      | none => (none, [walk.parent])
      | some (vol, none) => (some (vol, none), [walk.parent])
      | some (vol, some (i, dirent)) =>
          let rest := walkTokensTraced root vol ⟨walk.parent, dirent, i⟩ tokens
          (rest.1, walk.parent :: rest.2)

/-- The entries behind the root directory that `resolve_path` reads so. -/
def readAsDirectories (root : Root) (vol : Volume) (path : CString) : List Dirent :=
  if path = [] ∨ 4096 ≤ path.length then []
  else (walkTokensTraced root vol .start (pathTokens path)).2.tail

/-- The entry that one component leads to, in the volume after the lookup. -/
def enter (root : Root) (node : Volume × Dirent) (token : CString) :
    Option (Volume × Dirent) :=
  match lookup root node.1 node.2 token with
  | none => none
  | some (_, none) => none
  | some (vol, some (_, dirent)) => some (vol, dirent)

/-- What components name from the root directory on when only directories are gone
through. -/
def namedEntry (root : Root) (vol : Volume) (tokens : List CString) : Option Dirent :=
  (Descent.named (enter root) (fun node => node.2.isDir) (vol, .zero) tokens).map Prod.snd

/-- The resolver of the driver descends through directories only: when it returns a
file, every component but the last names a directory, and it reads the clusters of
directories only as directory entries. -/
structure FatDescends (root : Root) (vol : Volume) (path : CString) : Prop where
  found : ∀ vol' file, resolvePath root vol path = some (vol', some file) →
    ∀ before token after, pathTokens path = before ++ token :: after → before ≠ [] →
      ∃ dirent, namedEntry root vol before = some dirent ∧ dirent.isDir = true
  searched : ∀ dirent ∈ readAsDirectories root vol path, dirent.isDir = true

/-- No component but the last names an entry without attribute `0x10`. -/
def FatNamesDirectories (root : Root) (vol : Volume) (path : CString) : Prop :=
  path.length < 4096 → ∀ before token after,
    pathTokens path = before ++ token :: after → before ≠ [] →
      ∀ dirent, namedEntry root vol before = some dirent → dirent.isDir = true

section Fat

variable {root : Root} {vol : Volume} {walk : Walk} {tokens : List CString}

theorem walkTokensTraced_result :
    (walkTokensTraced root vol walk tokens).1 = walkTokens root vol walk tokens := by
  induction tokens generalizing vol walk with
  | nil => rfl
  | cons token tokens ih =>
      rw [walkTokensTraced, walkTokens]
      cases hlookup : lookup root vol walk.parent token with
      | none => rfl
      | some read =>
          obtain ⟨read, found⟩ := read
          cases found with
          | none => rfl
          | some entry => exact ih

/-- The entries that are read behind the first. -/
theorem walkTokensTraced_searched (htokens : tokens ≠ []) :
    (walkTokensTraced root vol walk tokens).2 =
      walk.parent :: (Descent.searched (enter root) (fun _ => false) (vol, walk.parent)
        tokens).map Prod.snd := by
  induction tokens generalizing vol walk with
  | nil => exact absurd rfl htokens
  | cons token tokens ih =>
      rw [walkTokensTraced, Descent.searched, enter]
      cases hlookup : lookup root vol walk.parent token with
      | none => rfl
      | some read =>
          obtain ⟨read, found⟩ := read
          cases found with
          | none => rfl
          | some entry =>
              dsimp only
              rw [Bool.false_or]
              by_cases hlast : tokens = []
              · rw [hlast]
                rfl
              · rw [if_neg (by rwa [List.isEmpty_iff]), List.map_cons]
                exact congrArg (walk.parent :: ·) (ih hlast)

/-- A file is returned only when the walk comes to the end of the path. -/
theorem walkTokens_walk {vol' : Volume} {final : Walk}
    (hfound : walkTokens root vol walk tokens = some (vol', some final)) :
    Descent.walk (enter root) (fun _ => false) (vol, walk.parent) tokens =
      some ((vol', final.parent), []) := by
  induction tokens generalizing vol walk with
  | nil =>
      obtain ⟨rfl, hwalk⟩ := Prod.mk.inj (Option.some.inj hfound)
      obtain rfl := Option.some.inj hwalk
      rfl
  | cons token tokens ih =>
      rw [walkTokens] at hfound
      rw [Descent.walk, enter]
      cases hlookup : lookup root vol walk.parent token with
      | none =>
          rw [hlookup] at hfound
          cases hfound
      | some read =>
          obtain ⟨read, found⟩ := read
          rw [hlookup] at hfound
          cases found with
          | none => cases hfound
          | some entry => exact ih hfound

theorem namedEntry_eq (root : Root) (vol : Volume) (tokens : List CString) :
    namedEntry root vol tokens = (Descent.named (enter root)
      (fun node => node.2.isDir && !false) (vol, .zero) tokens).map Prod.snd := by
  simp only [namedEntry, Bool.not_false, Bool.and_true]

/-- The condition, as one about descents. -/
theorem directoriesOnly_iff {path : List CString} :
    Descent.DirectoriesOnly (enter root) (fun _ => false) (fun node => node.2.isDir)
        (fun _ => True) (vol, Dirent.zero) path ↔
      ∀ before token after, path = before ++ token :: after → before ≠ [] →
        ∀ dirent, namedEntry root vol before = some dirent → dirent.isDir = true := by
  constructor
  · intro honly before token after hpath hbefore dirent hnamed
    rw [namedEntry_eq] at hnamed
    obtain ⟨node, hnode, rfl⟩ := Option.map_eq_some_iff.mp hnamed
    exact (honly before token after hpath hbefore node hnode rfl).resolve_right (· trivial)
  · intro hnames before token after hpath hbefore node hnode _
    refine .inl (hnames before token after hpath hbefore node.2 ?_)
    rw [namedEntry_eq, hnode, Option.map_some]

theorem fatDescends_iff (root : Root) (vol : Volume) (path : CString) :
    FatDescends root vol path ↔ FatNamesDirectories root vol path := by
  have hempty : ∀ (node : Volume × Dirent) (token : CString), ¬ True →
      enter root node token = none := fun _ _ hfalse => absurd trivial hfalse
  by_cases hnone : path = [] ∨ 4096 ≤ path.length
  · have hread : readAsDirectories root vol path = [] := if_pos hnone
    have hresolve : ∀ vol' file, resolvePath root vol path ≠ some (vol', some file) := by
      intro vol' file hfound
      rw [resolvePath] at hfound
      by_cases hnull : path = []
      · rw [if_pos hnull] at hfound
        cases hfound
      · rw [if_neg hnull, if_pos (hnone.resolve_left hnull)] at hfound
        cases hfound
    refine ⟨fun _ hshort => ?_, fun _ => ⟨?_, ?_⟩⟩
    · rcases hnone with hnull | hlong
      · rw [hnull]
        exact directoriesOnly_iff.mp (Descent.directoriesOnly_single [])
      · exact absurd hlong (Nat.not_le.mpr hshort)
    · intro vol' file hfound
      exact absurd hfound (hresolve vol' file)
    · intro dirent hdirent
      rw [hread] at hdirent
      cases hdirent
  have hread : readAsDirectories root vol path =
      (Descent.searched (enter root) (fun _ => false) (vol, Dirent.zero)
        (pathTokens path)).map Prod.snd := by
    rw [readAsDirectories, if_neg hnone, walkTokensTraced_searched (pathTokens_ne_nil path)]
    rfl
  rw [not_or] at hnone
  constructor
  · intro hdescends _
    refine directoriesOnly_iff.mp ((Descent.searched_iff hempty).mp ?_)
    intro node hnode
    refine .inl (hdescends.searched node.2 ?_)
    rw [hread]
    exact List.mem_map_of_mem hnode
  · intro hnames
    have honly := directoriesOnly_iff.mpr (hnames (Nat.not_le.mp hnone.2))
    refine ⟨?_, ?_⟩
    · intro vol' file hfound before token after hpath hbefore
      rw [resolvePath, if_neg hnone.1, if_neg hnone.2] at hfound
      cases hwalk : walkTokens root vol .start (pathTokens path) with
      | none =>
          rw [hwalk] at hfound
          cases hfound
      | some walked =>
          obtain ⟨walked, final⟩ := walked
          rw [hwalk] at hfound
          cases final with
          | none => cases hfound
          | some final =>
              obtain ⟨node, hnode, hdir⟩ := Descent.walk_through hempty honly
                (walkTokens_walk hwalk) (by rw [List.append_nil]; exact hpath) hbefore
              refine ⟨node.2, ?_, hdir⟩
              rw [namedEntry_eq, hnode, Option.map_some]
    · intro dirent hdirent
      rw [hread] at hdirent
      obtain ⟨node, hnode, rfl⟩ := List.mem_map.mp hdirent
      exact ((Descent.searched_iff hempty).mpr honly node hnode).resolve_right (· trivial)

end Fat

end KimisOS.Fat32
