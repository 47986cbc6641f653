import KimisOS.Core.Run
import KimisOS.Vfs.Lookup

/-!
# Reference counts

`fclose` counts a file down, and nothing counts one up: `ramfs_rfopen` returns
the file as it is.  So the counts agree with the history only as long as no
file is opened, by a caller or by `vfcreate` on the way to a directory.
-/

namespace KimisOS.Vfs

open KimisOS.Fat32
open KimisOS.Run

/-! ## Calls -/

/-- A call of the virtual file system.  `none` is the null pointer. -/
inductive Call where
  | fopen (name : CString)
  | rfopen (name : CString) (dir : Option ℕ)
  | fcreate (path : CString) (flags : ℕ)
  | vfcreate (parentDir : ℕ) (relpath : CString) (flags : ℕ)
  | fclose (file : Option ℕ)

/-- A file that is passed to a call must be there. -/
def step (s : State) : Call → Option State
  | .fopen name => (fopen s name).map Prod.fst
  | .rfopen _ none => some s
  | .rfopen name (some dir) =>
      if dir < s.tree.next then (rfopen s name dir).map Prod.fst else none
  | .fcreate path flags => (fcreate s path flags).map Prod.fst
  | .vfcreate parentDir relpath flags =>
      if parentDir < s.tree.next then (vfcreate s parentDir relpath flags).map Prod.fst
      else none
  | .fclose none => some s
  | .fclose (some file) => if file < s.tree.next then some (fclose s file) else none

def State.opens (s : State) (file : ℕ) : ℕ := s.history.count (.opened file)

def State.closes (s : State) (file : ℕ) : ℕ := s.history.count (.closed file)

/-- Every count is the number of opens that have not been closed. -/
def Balanced (s : State) : Prop :=
  ∀ file, s.refcount file + s.closes file = s.opens file

/-- A caller closes a file that has been opened more often than closed. -/
def ClosesOpened (s : State) : Call → Prop
  | .fclose (some file) => s.closes file < s.opens file
  | _ => True

/-- The path has one component, or its first one is no file of the directory. -/
def NoDirectoryOnTheWay (s : State) (parentDir : ℕ) (relpath : CString) : Prop :=
  (dropSlash relpath).length ≤ (firstComponent (cutSlash (dropSlash relpath))).length ∨
    s.tree.rfopen (firstComponent (cutSlash (dropSlash relpath))) parentDir = some none

/-- The call finds no file to open. -/
def OpensNothing (s : State) : Call → Prop
  | .fopen name => s.tree.fopen name = some none
  | .rfopen _ none => True
  | .rfopen name (some dir) => s.tree.rfopen name dir = some none
  | .fcreate path _ => NoDirectoryOnTheWay s rootDir path
  | .vfcreate parentDir relpath _ => NoDirectoryOnTheWay s parentDir relpath
  | .fclose _ => True

/-! ## What a call counts -/

@[simp]
theorem opens_opening (s : State) (opened file : ℕ) :
    (s.opening (some opened)).opens file = s.opens file + if opened = file then 1 else 0 := by
  simp [State.opening, State.opens, List.count_cons]

@[simp]
theorem closes_opening (s : State) (opened file : ℕ) :
    (s.opening (some opened)).closes file = s.closes file := by
  simp [State.opening, State.closes]

@[simp]
theorem refcount_opening (s : State) (found : Option ℕ) :
    (s.opening found).refcount = s.refcount := by
  cases found <;> rfl

theorem opens_fclose (s : State) (closed file : ℕ) :
    (fclose s closed).opens file = s.opens file := by
  rw [fclose]
  split <;> simp [ramfsClose, State.opens]

theorem closes_fclose (s : State) (closed file : ℕ) :
    (fclose s closed).closes file = s.closes file + if closed = file then 1 else 0 := by
  rw [fclose]
  split <;> simp [ramfsClose, State.closes, List.count_cons]

theorem refcount_fclose {s : State} {closed : ℕ}
    (hops : (s.tree.files closed).fileops = .ramfs) (file : ℕ) :
    (fclose s closed).refcount file =
      if file = closed then (s.refcount closed + (2 ^ 32 - 1)) % 2 ^ 32
      else s.refcount file := by
  simp only [fclose, hops, ramfsClose, Function.update_apply]

/-- A tree whose files all belong to the RAM file system. -/
structure RamTree (tree : Tree) : Prop where
  grown : tree.Grown
  ramfs : ∀ file, (tree.files file).fileops = .ramfs

theorem RamTree.addChild {tree : Tree} (hram : RamTree tree) {parent : ℕ}
    (hparent : parent < tree.next) (name : CString) (flags : ℕ) :
    RamTree (tree.addChild parent name flags) where
  grown := hram.grown.addChild hparent
  ramfs := by
    intro file
    by_cases hfile : file = parent
    · rw [hfile, Tree.addChild_parent]
      exact hram.ramfs parent
    · by_cases hnew : file = tree.next
      · rw [hnew, Tree.addChild_new hparent]
      · rw [Tree.addChild_other hfile hnew]
        exact hram.ramfs file

/-- From `s` to `s'`, every file has been opened and closed `count` times, by a
creation that starts behind the files up to `parent`. -/
structure Spent (s s' : State) (parent : ℕ) (count : ℕ → ℕ) : Prop where
  ram : RamTree s'.tree
  next : s.tree.next ≤ s'.tree.next
  opens : ∀ file, s'.opens file = s.opens file + count file
  closes : ∀ file, s'.closes file = s.closes file + count file
  refcount : ∀ file, (s'.refcount file + count file) % 2 ^ 32 = 0
  behind : ∀ file ≤ parent, count file = 0

/-- A call that leaves the history and the counts alone. -/
theorem Spent.nothing {s s' : State} (hram : RamTree s'.tree)
    (hnext : s.tree.next ≤ s'.tree.next) (hhistory : s'.history = s.history)
    (hrefcount : ∀ file, s'.refcount file = 0) (parent : ℕ) :
    Spent s s' parent fun _ => 0 where
  ram := hram
  next := hnext
  opens := by
    intro file
    rw [State.opens, State.opens, hhistory, Nat.add_zero]
  closes := by
    intro file
    rw [State.closes, State.closes, hhistory, Nat.add_zero]
  refcount := by
    intro file
    rw [hrefcount file]
    rfl
  behind := fun _ _ => rfl

/-- A directory is opened before what is created in it and closed after. -/
theorem Spent.closing {s mid : State} {parent newParent : ℕ} {count : ℕ → ℕ}
    (hbelow : parent < newParent)
    (hspent : Spent (s.opening (some newParent)) mid newParent count) :
    Spent s (fclose mid newParent) parent
      fun file => count file + if newParent = file then 1 else 0 where
  ram := by simpa using hspent.ram
  next := by simpa using hspent.next
  opens := by
    intro file
    rw [opens_fclose, hspent.opens, opens_opening]
    omega
  closes := by
    intro file
    rw [closes_fclose, hspent.closes, closes_opening]
    omega
  refcount := by
    intro file
    have hcount := hspent.refcount file
    rw [refcount_fclose (hspent.ram.ramfs newParent)]
    by_cases hfile : file = newParent
    · subst hfile
      simp only [if_true]
      omega
    · rw [if_neg hfile, if_neg (Ne.symm hfile)]
      exact hcount
  behind := by
    intro file hfile
    rw [hspent.behind file (by omega), if_neg (by omega)]

theorem create_spent {s s' : State} {parent : ℕ} {name : CString} {flags : ℕ}
    {created : Option ℕ} (hram : RamTree s.tree) (hparent : parent < s.tree.next)
    (hzero : ∀ file, s.refcount file = 0)
    (hcreate : create s parent name flags = some (s', created)) :
    s'.history = s.history ∧ (∀ file, s'.refcount file = 0) ∧ RamTree s'.tree ∧
      s.tree.next ≤ s'.tree.next := by
  simp only [create, hram.ramfs parent, ramfsCreate] at hcreate
  split at hcreate
  · split at hcreate
    · simp at hcreate
    · simp only [Option.some.injEq, Prod.mk.injEq] at hcreate
      obtain ⟨rfl, -⟩ := hcreate
      refine ⟨rfl, ?_, hram.addChild hparent _ _, Nat.le_succ _⟩
      intro file
      simp [Function.update_apply, hzero]
  · simp only [Option.some.injEq, Prod.mk.injEq] at hcreate
    obtain ⟨rfl, -⟩ := hcreate
    exact ⟨rfl, hzero, hram, le_rfl⟩

theorem vfcreateFrom_spent {flags fuel : ℕ} {s s' : State} {parent : ℕ} {relpath : CString}
    {created : Option ℕ} (hram : RamTree s.tree) (hparent : parent < s.tree.next)
    (hzero : ∀ file, s.refcount file = 0)
    (hcreate : vfcreateFrom flags fuel s parent relpath = some (s', created)) :
    (∃ count, Spent s s' parent count ∧
      (¬ NoDirectoryOnTheWay s parent relpath → ∃ file, count file = 1)) ∧
    (NoDirectoryOnTheWay s parent relpath →
      s'.history = s.history ∧ ∀ file, s'.refcount file = 0) := by
  induction fuel generalizing s s' parent relpath created with
  | zero => simp [vfcreateFrom] at hcreate
  | succ fuel ih =>
      rw [vfcreateFrom] at hcreate
      split at hcreate
      · simp at hcreate
      · simp only at hcreate
        split at hcreate
        next hsingle =>
          obtain ⟨hhistory, hrefcount, hram', hnext⟩ :=
            create_spent hram hparent hzero hcreate
          refine ⟨⟨_, Spent.nothing hram' hnext hhistory hrefcount parent, ?_⟩,
            fun _ => ⟨hhistory, hrefcount⟩⟩
          intro hway
          exact absurd (Or.inl hsingle) hway
        next hseveral =>
          simp only [rfopen] at hcreate
          cases hfound : s.tree.rfopen (firstComponent (cutSlash (dropSlash relpath)))
              parent with
          | none => simp [hfound] at hcreate
          | some found =>
              cases found with
              | none =>
                  simp only [hfound, State.opening, Option.some.injEq, Prod.mk.injEq]
                    at hcreate
                  obtain ⟨rfl, -⟩ := hcreate
                  refine ⟨⟨_, Spent.nothing hram le_rfl rfl hzero parent, ?_⟩,
                    fun _ => ⟨rfl, hzero⟩⟩
                  intro hway
                  exact absurd (Or.inr hfound) hway
              | some newParent =>
                  obtain ⟨hbelow, hnew⟩ := hram.grown.rfopen hparent hfound
                  simp only [hfound] at hcreate
                  cases hrest : vfcreateFrom flags fuel (s.opening (some newParent))
                      newParent ((cutSlash (dropSlash relpath)).drop
                        ((firstComponent (cutSlash (dropSlash relpath))).length + 1)) with
                  | none => simp [hrest] at hcreate
                  | some rest =>
                      simp only [hrest, Option.some.injEq, Prod.mk.injEq] at hcreate
                      obtain ⟨rfl, -⟩ := hcreate
                      obtain ⟨⟨count, hspent, -⟩, -⟩ := ih (by simpa using hram)
                        (by simpa using hnew) (by simpa using hzero) hrest
                      refine ⟨⟨_, hspent.closing hbelow, ?_⟩, ?_⟩
                      · intro _
                        exact ⟨newParent, by simp [hspent.behind newParent le_rfl]⟩
                      · rintro (hsingle | hnone)
                        · exact absurd hsingle hseveral
                        · rw [hfound] at hnone
                          simp at hnone

/-! ## Runs -/

/-- No file has been opened so far. -/
structure Quiet (s : State) : Prop where
  ram : RamTree s.tree
  history : s.history = []
  refcount : ∀ file, s.refcount file = 0

theorem ramfsInit_quiet : Quiet ramfsInit where
  ram := ⟨ramfsInit_grown, fun _ => rfl⟩
  history := rfl
  refcount := fun _ => rfl

theorem Quiet.balanced {s : State} (hquiet : Quiet s) : Balanced s := by
  intro file
  rw [State.closes, State.opens, hquiet.history, hquiet.refcount]
  rfl

/-- An open of a caller is not counted. -/
theorem Quiet.not_balanced_opening {s : State} (hquiet : Quiet s) (file : ℕ) :
    ¬ Balanced (s.opening (some file)) := by
  intro hbalanced
  have hcount := hbalanced file
  have hquietCount := hquiet.balanced file
  rw [opens_opening, closes_opening, refcount_opening, if_pos rfl] at hcount
  omega

/-- A creation behind a directory counts that directory down. -/
theorem Quiet.not_balanced_vfcreate {s s' : State} (hquiet : Quiet s) {parent : ℕ}
    {relpath : CString} {flags : ℕ} {created : Option ℕ} (hparent : parent < s.tree.next)
    (hway : ¬ NoDirectoryOnTheWay s parent relpath)
    (hcreate : vfcreate s parent relpath flags = some (s', created)) : ¬ Balanced s' := by
  intro hbalanced
  obtain ⟨⟨count, hspent, hdirectory⟩, -⟩ :=
    vfcreateFrom_spent hquiet.ram hparent hquiet.refcount hcreate
  obtain ⟨file, hfile⟩ := hdirectory hway
  have hcount := hbalanced file
  have hquietCount := hquiet.balanced file
  have hrefcount := hspent.refcount file
  rw [hspent.opens, hspent.closes] at hcount
  rw [hquiet.refcount] at hquietCount
  omega

theorem Quiet.of_vfcreate {s s' : State} (hquiet : Quiet s) {parent : ℕ}
    {relpath : CString} {flags : ℕ} {created : Option ℕ} (hparent : parent < s.tree.next)
    (hway : NoDirectoryOnTheWay s parent relpath)
    (hcreate : vfcreate s parent relpath flags = some (s', created)) : Quiet s' := by
  obtain ⟨⟨_, hspent, -⟩, hsame⟩ :=
    vfcreateFrom_spent hquiet.ram hparent hquiet.refcount hcreate
  obtain ⟨hhistory, hrefcount⟩ := hsame hway
  exact ⟨hspent.ram, hhistory.trans hquiet.history, hrefcount⟩

/-- What is found decides whether an open is counted. -/
theorem Quiet.opening {s : State} (hquiet : Quiet s) {found : Option ℕ} :
    (found = none → Quiet (s.opening found)) ∧
      (Balanced (s.opening found) → found = none) := by
  cases found with
  | none => exact ⟨fun _ => hquiet, fun _ => rfl⟩
  | some file =>
      refine ⟨fun h => by simp at h, ?_⟩
      intro hbalanced
      exact absurd hbalanced (hquiet.not_balanced_opening file)

theorem fst_rfopen {s s' : State} {name : CString} {dir : ℕ}
    (hopen : (rfopen s name dir).map Prod.fst = some s') :
    ∃ found, s.tree.rfopen name dir = some found ∧ s' = s.opening found := by
  unfold rfopen at hopen
  cases hfound : s.tree.rfopen name dir with
  | none => simp [hfound] at hopen
  | some found =>
      simp only [hfound, Option.map_some, Option.some.injEq] at hopen
      exact ⟨found, rfl, hopen.symm⟩

theorem fst_fopen {s s' : State} {name : CString}
    (hopen : (fopen s name).map Prod.fst = some s') :
    ∃ found, s.tree.fopen name = some found ∧ s' = s.opening found := by
  unfold fopen at hopen
  cases hfound : s.tree.fopen name with
  | none => simp [hfound] at hopen
  | some found =>
      simp only [hfound, Option.map_some, Option.some.injEq] at hopen
      exact ⟨found, rfl, hopen.symm⟩

theorem fst_vfcreate {s s' : State} {parentDir : ℕ} {relpath : CString} {flags : ℕ}
    (hcreate : (vfcreate s parentDir relpath flags).map Prod.fst = some s') :
    ∃ created, vfcreate s parentDir relpath flags = some (s', created) := by
  obtain ⟨⟨mid, created⟩, hmid, rfl⟩ := Option.map_eq_some_iff.mp hcreate
  exact ⟨created, hmid⟩

theorem Quiet.not_closesOpened {s : State} (hquiet : Quiet s) (file : ℕ) :
    ¬ ClosesOpened s (.fclose (some file)) := by
  simp [ClosesOpened, State.closes, State.opens, hquiet.history]

/-- The step lemma: a call that opens nothing leaves every count at zero. -/
theorem Quiet.step {s s' : State} {call : Call} (hquiet : Quiet s)
    (hcloses : ClosesOpened s call) (hnothing : OpensNothing s call)
    (hstep : step s call = some s') : Quiet s' := by
  cases call with
  | fopen name =>
      obtain ⟨found, hfound, rfl⟩ := fst_fopen hstep
      refine hquiet.opening.1 ?_
      exact Option.some.inj (hfound.symm.trans hnothing)
  | rfopen name dir =>
      cases dir with
      | none =>
          obtain rfl : s = s' := Option.some.inj hstep
          exact hquiet
      | some dir =>
          simp only [Vfs.step, Option.ite_none_right_eq_some] at hstep
          obtain ⟨found, hfound, rfl⟩ := fst_rfopen hstep.2
          refine hquiet.opening.1 ?_
          exact Option.some.inj (hfound.symm.trans hnothing)
  | fcreate path flags =>
      obtain ⟨created, hcreate⟩ := fst_vfcreate hstep
      exact hquiet.of_vfcreate hquiet.ram.grown.root hnothing hcreate
  | vfcreate parentDir relpath flags =>
      simp only [Vfs.step, Option.ite_none_right_eq_some] at hstep
      obtain ⟨created, hcreate⟩ := fst_vfcreate hstep.2
      exact hquiet.of_vfcreate hstep.1 hnothing hcreate
  | fclose file =>
      cases file with
      | none =>
          obtain rfl : s = s' := Option.some.inj hstep
          exact hquiet
      | some file => exact absurd hcloses (hquiet.not_closesOpened file)

/-- The step lemma the other way: the first call that opens a file leaves a
count that is wrong. -/
theorem Quiet.opensNothing {s s' : State} {call : Call} (hquiet : Quiet s)
    (hstep : Vfs.step s call = some s') (hbalanced : Balanced s') : OpensNothing s call := by
  cases call with
  | fopen name =>
      obtain ⟨found, hfound, rfl⟩ := fst_fopen hstep
      rw [OpensNothing, hfound, hquiet.opening.2 hbalanced]
  | rfopen name dir =>
      cases dir with
      | none => trivial
      | some dir =>
          simp only [Vfs.step, Option.ite_none_right_eq_some] at hstep
          obtain ⟨found, hfound, rfl⟩ := fst_rfopen hstep.2
          rw [OpensNothing, hfound, hquiet.opening.2 hbalanced]
  | fcreate path flags =>
      obtain ⟨created, hcreate⟩ := fst_vfcreate hstep
      by_contra hway
      exact hquiet.not_balanced_vfcreate hquiet.ram.grown.root hway hcreate hbalanced
  | vfcreate parentDir relpath flags =>
      simp only [Vfs.step, Option.ite_none_right_eq_some] at hstep
      obtain ⟨created, hcreate⟩ := fst_vfcreate hstep.2
      by_contra hway
      exact hquiet.not_balanced_vfcreate hstep.1 hway hcreate hbalanced
  | fclose file => trivial

/-- The counts of a run are right exactly if no call of it opens a file. -/
theorem refcounts_balanced_iff {calls : List Call} {final : State}
    (hcloses : Meets step ClosesOpened ramfsInit calls)
    (hrun : exec step ramfsInit calls = some final) :
    (∀ n reached, exec step ramfsInit (calls.take n) = some reached → Balanced reached) ↔
      Meets step OpensNothing ramfsInit calls := by
  have hgood : ∀ s, Quiet s → Balanced s := by
    intro s hquiet
    exact hquiet.balanced
  refine (meets_iff_forall_good hgood ?_ ?_ ramfsInit_quiet hcloses hrun).symm
  · intro s call s' hquiet hguard hnothing hstep
    exact hquiet.step hguard hnothing hstep
  · intro s call s' hquiet _ hstep hbalanced
    exact hquiet.opensNothing hstep hbalanced

/-- `/a` and `/b` are made, and `c` is looked for in the root directory. -/
def lookingFor : List Call :=
  [.fcreate [0x2f, 0x61] 0x10, .fcreate [0x2f, 0x62] 0, .rfopen [0x63] (some 0)]

/-- A run that makes two files and finds none to open. -/
theorem refcounts_balanced_first : ∃ final, exec step ramfsInit lookingFor = some final ∧
    ∀ n reached, exec step ramfsInit (lookingFor.take n) = some reached →
      Balanced reached := by
  have hruns : ((exec step ramfsInit (lookingFor.take 2)).map fun s =>
      (decide (s.tree.rfopen [0x63] 0 = some none), (step s (.rfopen [0x63] (some 0))).isSome)) =
        some (true, true) := by
    decide +kernel
  obtain ⟨s₂, hrun₂, hfacts⟩ := Option.map_eq_some_iff.mp hruns
  obtain ⟨hmissing, hstep⟩ := Prod.mk.inj hfacts
  obtain ⟨final, hlast⟩ := Option.isSome_iff_exists.mp hstep
  have hrun : exec step ramfsInit lookingFor = some final :=
    exec_append_eq_some.mpr ⟨s₂, hrun₂, exec_cons_eq_some.mpr ⟨final, hlast, rfl⟩⟩
  refine ⟨final, hrun, ?_⟩
  have hcloses : Meets step ClosesOpened ramfsInit lookingFor :=
    meets_cons_intro trivial fun _ _ => meets_cons_intro trivial fun _ _ =>
      meets_cons_intro trivial fun _ _ => trivial
  rw [refcounts_balanced_iff hcloses hrun]
  refine meets_cons_intro (.inl (by decide)) fun s₁ hfirst =>
    meets_cons_intro (.inl (by decide)) fun s hsecond => meets_cons_intro ?_ fun _ _ => trivial
  have hsame : exec step ramfsInit (lookingFor.take 2) = some s :=
    exec_cons_eq_some.mpr ⟨s₁, hfirst, exec_cons_eq_some.mpr ⟨s, hsecond, rfl⟩⟩
  obtain rfl := Option.some.inj (hrun₂.symm.trans hsame)
  have hnone := of_decide_eq_true hmissing
  exact hnone

/-- `/a` is made a directory, and a file is made in it. -/
def creations : List Call := [.fcreate [0x2f, 0x61] 0x10, .fcreate [0x2f, 0x61, 0x2f, 0x62] 0]

/-- The directory that `vfcreate` opens and closes is counted below zero. -/
theorem refcounts_not_balanced :
    ¬ ∀ calls final, Meets step ClosesOpened ramfsInit calls →
      exec step ramfsInit calls = some final → Balanced final := by
  intro hall
  have hrun : (exec step ramfsInit creations).map (fun s => (s.refcount 1, s.opens 1)) =
      some (4294967295, 1) := by
    decide +kernel
  obtain ⟨final, hfinal, hcounts⟩ := Option.map_eq_some_iff.mp hrun
  have hcloses : Meets step ClosesOpened ramfsInit creations :=
    meets_cons_intro trivial fun _ _ => meets_cons_intro trivial fun _ _ => trivial
  have hbalanced := hall creations final hcloses hfinal 1
  simp only [Prod.mk.injEq] at hcounts
  omega

end KimisOS.Vfs
