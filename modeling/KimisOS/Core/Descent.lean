import Mathlib

/-!
# Descents along names

A path is followed name by name, from one node to the next one that it finds there.
The walk goes through whatever it finds; a path names a node when every node on the
way to it is one that may be gone through.
-/

namespace KimisOS.Descent

variable {Node Name : Type*}

/-- The walk, up to the end of the path or to a node that it stops at, with the names
that are left. -/
def walk (look : Node → Name → Option Node) (stops : Node → Bool) :
    Node → List Name → Option (Node × List Name)
  | node, [] => some (node, [])
  | node, name :: path =>
      match look node name with
      | none => none
      | some next => if stops next then some (next, path) else walk look stops next path

/-- The nodes behind the first one in which the walk looks something up. -/
def searched (look : Node → Name → Option Node) (stops : Node → Bool) :
    Node → List Name → List Node
  | _, [] => []
  | node, name :: path =>
      match look node name with
      | none => []
      | some next =>
          if stops next || path.isEmpty then []
          else next :: searched look stops next path

/-- What a path names when only nodes that pass are gone through. -/
def named (look : Node → Name → Option Node) (passes : Node → Bool) :
    Node → List Name → Option Node
  | node, [] => some node
  | node, name :: path =>
      match look node name with
      | none => none
      | some next =>
          if passes next || path.isEmpty then named look passes next path else none

section Rules

variable {look : Node → Name → Option Node} {stops isDir : Node → Bool}
  {hasData : Node → Prop} {start next : Node} {name : Name} {path : List Name}

theorem named_cons (hlook : look start name = some next) (passes : Node → Bool) :
    named look passes start (name :: path) =
      if passes next || path.isEmpty then named look passes next path else none := by
  rw [named, hlook]

/-- No name but the last one names something with data that is not a directory. -/
def DirectoriesOnly (look : Node → Name → Option Node) (stops isDir : Node → Bool)
    (hasData : Node → Prop) (start : Node) (path : List Name) : Prop :=
  ∀ before name after, path = before ++ name :: after → before ≠ [] →
    ∀ node, named look (fun n => isDir n && !stops n) start before = some node →
      stops node = false → isDir node = true ∨ ¬ hasData node

theorem directoriesOnly_nil : DirectoriesOnly look stops isDir hasData start [] := by
  intro before name after hpath
  simp at hpath

theorem directoriesOnly_single (name : Name) :
    DirectoriesOnly look stops isDir hasData start [name] := by
  intro before last after hpath hbefore
  obtain ⟨head, before, rfl⟩ := List.exists_cons_of_ne_nil hbefore
  have htail := (List.cons.inj hpath).2
  simp at htail

theorem directoriesOnly_missing (hlook : look start name = none) :
    DirectoriesOnly look stops isDir hasData start (name :: path) := by
  intro before last after hpath hbefore node hnamed
  obtain ⟨head, before, rfl⟩ := List.exists_cons_of_ne_nil hbefore
  obtain ⟨rfl, -⟩ := List.cons.inj hpath
  rw [named, hlook] at hnamed
  cases hnamed

/-- What the condition says about the first name. -/
theorem directoriesOnly_cons (hlook : look start name = some next) :
    DirectoriesOnly look stops isDir hasData start (name :: path) ↔
      stops next = true ∨ path = [] ∨
        ((isDir next = true ∨ ¬ hasData next) ∧
          (isDir next = true → DirectoriesOnly look stops isDir hasData next path)) := by
  constructor
  · intro honly
    by_cases hstops : stops next = true
    · exact .inl hstops
    by_cases hlast : path = []
    · exact .inr (.inl hlast)
    refine .inr (.inr ⟨?_, ?_⟩)
    · obtain ⟨second, after, hafter⟩ := List.exists_cons_of_ne_nil hlast
      refine honly [name] second after (by rw [hafter]; rfl) (List.cons_ne_nil _ _) next ?_
        (Bool.eq_false_iff.mpr hstops)
      rw [named_cons hlook, List.isEmpty_nil, Bool.or_true, if_pos rfl, named]
    · intro hdir before second after hpath hbefore node hnamed
      refine honly (name :: before) second after (by rw [hpath]; rfl)
        (List.cons_ne_nil _ _) node ?_
      rw [named_cons hlook, hdir, Bool.eq_false_iff.mpr hstops]
      exact hnamed
  · intro hcase before second after hpath hbefore node hnamed hstops
    obtain ⟨head, before, rfl⟩ := List.exists_cons_of_ne_nil hbefore
    obtain ⟨rfl, htail⟩ := List.cons.inj hpath
    rw [named_cons hlook] at hnamed
    by_cases hfirst : before = []
    · -- the first name is the last one that is gone through
      rw [hfirst, List.isEmpty_nil, Bool.or_true, if_pos rfl, named] at hnamed
      obtain rfl := Option.some.inj hnamed
      rcases hcase with hstop | hlast | ⟨hgood, -⟩
      · rw [hstops] at hstop
        cases hstop
      · rw [hlast] at htail
        simp at htail
      · exact hgood
    · rw [List.isEmpty_eq_false_iff.mpr hfirst, Bool.or_false] at hnamed
      split at hnamed
      case isFalse => cases hnamed
      case isTrue hpasses =>
        rw [Bool.and_eq_true, Bool.not_eq_true'] at hpasses
        rcases hcase with hstop | hlast | ⟨-, hrest⟩
        · rw [hpasses.2] at hstop
          cases hstop
        · rw [hlast] at htail
          simp at htail
        · exact hrest hpasses.1 before second after htail hfirst node hnamed hstops

/-- The walk looks things up in directories only, and in what has no data, exactly
when no name but the last one names anything else. -/
theorem searched_iff (hempty : ∀ node name, ¬ hasData node → look node name = none) :
    (∀ node ∈ searched look stops start path, isDir node = true ∨ ¬ hasData node) ↔
      DirectoriesOnly look stops isDir hasData start path := by
  induction path generalizing start with
  | nil => exact ⟨fun _ => directoriesOnly_nil, fun _ node hnode => by cases hnode⟩
  | cons name path ih =>
      rw [searched]
      cases hlook : look start name with
      | none =>
          exact ⟨fun _ => directoriesOnly_missing hlook, fun _ node hnode => by cases hnode⟩
      | some next =>
          rw [directoriesOnly_cons hlook]
          dsimp only
          by_cases hend : stops next || path.isEmpty
          · rw [if_pos hend]
            refine ⟨fun _ => ?_, fun _ node hnode => by cases hnode⟩
            rcases (Bool.or_eq_true _ _).mp hend with hstop | hlast
            · exact .inl hstop
            · exact .inr (.inl (List.isEmpty_iff.mp hlast))
          · rw [if_neg hend]
            rw [Bool.or_eq_true, not_or] at hend
            constructor
            · intro hall
              refine .inr (.inr ⟨hall next List.mem_cons_self, fun _ => ih.mp ?_⟩)
              exact fun node hnode => hall node (List.mem_cons_of_mem next hnode)
            · rintro (hstop | hlast | ⟨hgood, hrest⟩)
              · exact absurd hstop hend.1
              · exact absurd (List.isEmpty_iff.mpr hlast) hend.2
              · intro node hnode
                rcases List.mem_cons.mp hnode with rfl | hmem
                · exact hgood
                · rcases hgood with hdir | hnothing
                  · exact ih.mpr (hrest hdir) node hmem
                  · -- without data nothing more is found
                    cases path with
                    | nil => cases hmem
                    | cons second path =>
                        rw [searched, hempty next second hnothing] at hmem
                        cases hmem

/-- What a walk goes on in is a directory. -/
theorem isDir_of_walk (hempty : ∀ node name, ¬ hasData node → look node name = none)
    (hgood : isDir next = true ∨ ¬ hasData next) {final : Node} {rest : List Name}
    (hwalk : walk look stops next path = some (final, rest)) (hpath : path ≠ []) :
    isDir next = true := by
  refine hgood.resolve_right fun hnothing => ?_
  obtain ⟨second, path, rfl⟩ := List.exists_cons_of_ne_nil hpath
  rw [walk, hempty next second hnothing] at hwalk
  cases hwalk

/-- Then every name that the walk has gone through names a directory. -/
theorem walk_through (hempty : ∀ node name, ¬ hasData node → look node name = none)
    (honly : DirectoriesOnly look stops isDir hasData start path) {final : Node}
    {rest before after : List Name} (hwalk : walk look stops start path = some (final, rest))
    (hpath : path = before ++ name :: (after ++ rest)) (hbefore : before ≠ []) :
    ∃ node, named look (fun n => isDir n && !stops n) start before = some node ∧
      isDir node = true := by
  induction path generalizing start before with
  | nil => simp at hpath
  | cons first path ih =>
      obtain ⟨head, before, rfl⟩ := List.exists_cons_of_ne_nil hbefore
      obtain ⟨rfl, htail⟩ := List.cons.inj hpath
      rw [walk] at hwalk
      cases hlook : look start first with
      | none =>
          rw [hlook] at hwalk
          cases hwalk
      | some next =>
          rw [hlook] at hwalk
          dsimp only at hwalk
          rw [directoriesOnly_cons hlook] at honly
          by_cases hstops : stops next = true
          · rw [if_pos hstops] at hwalk
            obtain ⟨-, rfl⟩ := Prod.mk.inj (Option.some.inj hwalk)
            have hlength := congrArg List.length htail
            simp at hlength
            omega
          · rw [if_neg hstops] at hwalk
            rcases honly with hstop | hlast | ⟨hgood, hrest⟩
            · exact absurd hstop hstops
            · rw [hlast] at htail
              simp at htail
            · have hdir : isDir next = true := by
                refine isDir_of_walk hempty hgood hwalk ?_
                rw [htail]
                simp
              rw [named_cons hlook, hdir, Bool.eq_false_iff.mpr hstops, Bool.not_false,
                Bool.and_self, Bool.true_or, if_pos rfl]
              by_cases hfirst : before = []
              · exact ⟨next, by rw [hfirst, named], hdir⟩
              · exact ih (hrest hdir) hwalk htail hfirst

/-- A walk that ends before its path has come to a node that it stops at. -/
theorem walk_stopped (hempty : ∀ node name, ¬ hasData node → look node name = none)
    (honly : DirectoriesOnly look stops isDir hasData start path) {final : Node}
    {rest : List Name} (hwalk : walk look stops start path = some (final, rest))
    (hrest : rest ≠ []) :
    ∃ front, path = front ++ rest ∧ front ≠ [] ∧ stops final = true ∧
      named look (fun n => isDir n && !stops n) start front = some final := by
  induction path generalizing start with
  | nil =>
      obtain ⟨-, rfl⟩ := Prod.mk.inj (Option.some.inj hwalk)
      exact absurd rfl hrest
  | cons first path ih =>
      rw [walk] at hwalk
      cases hlook : look start first with
      | none =>
          rw [hlook] at hwalk
          cases hwalk
      | some next =>
          rw [hlook] at hwalk
          dsimp only at hwalk
          rw [directoriesOnly_cons hlook] at honly
          by_cases hstops : stops next = true
          · rw [if_pos hstops] at hwalk
            obtain ⟨rfl, rfl⟩ := Prod.mk.inj (Option.some.inj hwalk)
            refine ⟨[first], rfl, List.cons_ne_nil _ _, hstops, ?_⟩
            rw [named_cons hlook, List.isEmpty_nil, Bool.or_true, if_pos rfl, named]
          · rw [if_neg hstops] at hwalk
            rcases honly with hstop | hlast | ⟨hgood, hdirs⟩
            · exact absurd hstop hstops
            · rw [hlast] at hwalk
              obtain ⟨-, rfl⟩ := Prod.mk.inj (Option.some.inj hwalk)
              exact absurd rfl hrest
            · have hdir : isDir next = true := by
                refine isDir_of_walk hempty hgood hwalk ?_
                rintro rfl
                obtain ⟨-, rfl⟩ := Prod.mk.inj (Option.some.inj hwalk)
                exact hrest rfl
              obtain ⟨front, rfl, -, hstopped, hnamed⟩ := ih (hdirs hdir) hwalk
              refine ⟨first :: front, rfl, List.cons_ne_nil _ _, hstopped, ?_⟩
              rw [named_cons hlook, hdir, Bool.eq_false_iff.mpr hstops, Bool.not_false,
                Bool.and_self, Bool.true_or, if_pos rfl, hnamed]

/-- Every proper part of a path that is walked names a directory, or goes through a
node that the walk stops at. -/
theorem through_or_stopped (hempty : ∀ node name, ¬ hasData node → look node name = none)
    (honly : DirectoriesOnly look stops isDir hasData start path) {final : Node}
    {rest before after : List Name} (hwalk : walk look stops start path = some (final, rest))
    (hpath : path = before ++ name :: after) (hbefore : before ≠ []) :
    (∃ node, named look (fun n => isDir n && !stops n) start before = some node ∧
      isDir node = true) ∨
    ∃ front node, front ≠ [] ∧ front <+: before ∧
      named look (fun n => isDir n && !stops n) start front = some node ∧
        stops node = true := by
  by_cases hrest : rest = []
  · left
    have hparts : path = before ++ name :: (after ++ rest) := by
      rw [hrest, List.append_nil]
      exact hpath
    exact walk_through hempty honly hwalk hparts hbefore
  obtain ⟨front, hfront, hne, hstops, hnamed⟩ := walk_stopped hempty honly hwalk hrest
  rcases List.append_eq_append_iff.mp (hpath.symm.trans hfront) with
    ⟨middle, hsplit, htail⟩ | ⟨middle, hsplit, -⟩
  · cases middle with
    | nil =>
        -- the path goes on where the walk has stopped
        right
        rw [List.append_nil] at hsplit
        exact ⟨front, final, hne, ⟨[], by rw [List.append_nil, hsplit]⟩, hnamed, hstops⟩
    | cons next middle =>
        left
        obtain ⟨rfl, rfl⟩ := List.cons.inj htail
        exact walk_through hempty honly hwalk hpath hbefore
  · right
    exact ⟨front, final, hne, ⟨middle, hsplit.symm⟩, hnamed, hstops⟩

end Rules

end KimisOS.Descent
