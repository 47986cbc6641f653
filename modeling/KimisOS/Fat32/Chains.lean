import KimisOS.Core.Walk

/-!
# Cluster chains

A table gives for each cluster the next one of its file, or a value of at
least `0x0FFFFFF8` behind the last.  A file grows by a free cluster that its
last cluster is linked to; this keeps every other chain.
-/

namespace KimisOS.Fat32

def fat32EocMin : ℕ := 0x0FFFFFF8

def fat32Eoc : ℕ := 0x0FFFFFFF

/-- The clusters of a file, in order.  A file without clusters has the head
0. -/
structure IsChain (table : ℕ → ℕ) (count head : ℕ) (chain : List ℕ) : Prop where
  starts : chain.headD 0 = head
  range : ∀ cluster ∈ chain, 2 ≤ cluster ∧ cluster < count
  nodup : chain.Nodup
  links : ∀ p cluster next, chain[p]? = some cluster → chain[p + 1]? = some next →
    table cluster = next
  ends : ∀ last, chain.getLast? = some last → fat32EocMin ≤ table last

/-- The first two entries are taken, and the chains of all files and
directories are apart. -/
structure WellFormed {File : Type*} (table : ℕ → ℕ) (count : ℕ) (heads : File → ℕ)
    (chains : File → List ℕ) : Prop where
  first : table 0 ≠ 0
  second : table 1 ≠ 0
  chain : ∀ x, IsChain table count (heads x) (chains x)
  disjoint : ∀ x y, x ≠ y → (chains x).Disjoint (chains y)

section Chain

variable {table : ℕ → ℕ} {count head : ℕ} {chain : List ℕ}

/-- Behind a cluster of a chain comes the next one, or the end. -/
theorem IsChain.next (hchain : IsChain table count head chain)
    (hcount : count ≤ fat32EocMin) {p cluster : ℕ} (hp : chain[p]? = some cluster) :
    (table cluster < fat32EocMin ∧ chain[p + 1]? = some (table cluster)) ∨
      (fat32EocMin ≤ table cluster ∧ p + 1 = chain.length) := by
  have hlt : p < chain.length := (List.getElem?_eq_some_iff.mp hp).1
  cases hnext : chain[p + 1]? with
  | some next =>
      have htable := hchain.links p cluster next hp hnext
      have hrange := hchain.range next (List.mem_of_getElem? hnext)
      left
      rw [htable]
      exact ⟨by omega, rfl⟩
  | none =>
      have hend : p + 1 = chain.length := by
        have := List.getElem?_eq_none_iff.mp hnext
        omega
      have hlast : chain.getLast? = some cluster := by
        rw [List.getLast?_eq_getElem?, ← hend, Nat.add_sub_cancel]
        exact hp
      exact .inr ⟨hchain.ends cluster hlast, hend⟩

theorem IsChain.ne_zero (hchain : IsChain table count head chain)
    (hcount : count ≤ fat32EocMin) {cluster : ℕ} (hmem : cluster ∈ chain) :
    table cluster ≠ 0 := by
  obtain ⟨p, hp⟩ := List.mem_iff_getElem?.mp hmem
  rcases hchain.next hcount hp with ⟨-, hnext⟩ | ⟨hend, -⟩
  · have := (hchain.range _ (List.mem_of_getElem? hnext)).1
    omega
  · unfold fat32EocMin at hend
    omega

theorem IsChain.first (hchain : IsChain table count head chain) (hne : head ≠ 0) :
    chain[0]? = some head := by
  have hstarts := hchain.starts
  cases chain with
  | nil => exact absurd hstarts.symm hne
  | cons first rest => rw [List.getElem?_cons_zero, ← hstarts, List.headD_cons]

/-- A file with clusters has a head. -/
theorem IsChain.head_ne (hchain : IsChain table count head chain) (hne : chain ≠ []) :
    head ≠ 0 := by
  obtain ⟨first, rest, hcons⟩ := List.exists_cons_of_ne_nil hne
  have hstarts := hchain.starts
  have hrange := hchain.range first (by rw [hcons]; exact List.mem_cons_self)
  rw [hcons, List.headD_cons] at hstarts
  omega

/-- A chain is what a walk visits that stops at 0 and at the marks of the end. -/
theorem IsChain.linked (hchain : IsChain table count head chain)
    (hcount : count ≤ fat32EocMin) :
    Walk.Linked table (fun cluster => decide (cluster ≠ 0 ∧ cluster < fat32EocMin)) head
      chain := by
  cases chain with
  | nil =>
      rw [← hchain.starts]
      rfl
  | cons first rest =>
      have hhead : first = head := hchain.starts
      rw [← hhead, Walk.linked_iff]
      · refine ⟨hchain.links, ?_⟩
        intro last hlast
        have hend := hchain.ends last hlast
        exact decide_eq_false fun hgoes => absurd hgoes.2 (Nat.not_lt.mpr hend)
      · intro cluster hmem
        have hrange := hchain.range cluster hmem
        exact decide_eq_true ⟨by omega, by omega⟩

/-- A file has one chain only. -/
theorem IsChain.unique {chain' : List ℕ} (hchain : IsChain table count head chain)
    (hchain' : IsChain table count head chain') (hcount : count ≤ fat32EocMin) :
    chain = chain' :=
  (hchain.linked hcount).unique (hchain'.linked hcount)

/-- A chain of one cluster. -/
theorem IsChain.single {cluster : ℕ} (hrange : 2 ≤ cluster ∧ cluster < count)
    (hend : fat32EocMin ≤ table cluster) : IsChain table count cluster [cluster] where
  starts := rfl
  range := List.forall_mem_singleton.mpr hrange
  nodup := List.nodup_singleton cluster
  links := by
    intro p _ next _ hnext
    simp at hnext
  ends := by
    intro last hlast
    obtain rfl := Option.some.inj hlast
    exact hend

/-- A chain depends on the entries of its own clusters only. -/
theorem IsChain.congr {table' : ℕ → ℕ} (hchain : IsChain table count head chain)
    (hsame : ∀ cluster ∈ chain, table' cluster = table cluster) :
    IsChain table' count head chain := by
  refine ⟨hchain.starts, hchain.range, hchain.nodup, ?_, ?_⟩
  · intro p cluster next hp hnext
    rw [hsame cluster (List.mem_of_getElem? hp)]
    exact hchain.links p cluster next hp hnext
  · intro last hlast
    rw [hsame last (List.mem_of_getLast? hlast)]
    exact hchain.ends last hlast

/-- The last cluster is linked to a free one, which ends the chain. -/
theorem IsChain.append (hchain : IsChain table count head chain) {last cluster : ℕ}
    (hlast : chain.getLast? = some last) (hnew : cluster ∉ chain)
    (hrange : 2 ≤ cluster ∧ cluster < count) {value : ℕ} (hvalue : fat32EocMin ≤ value) :
    IsChain (Function.update (Function.update table last cluster) cluster value)
      count head (chain ++ [cluster]) := by
  have hne : chain ≠ [] := by
    intro hnil
    simp [hnil] at hlast
  have hold : ∀ p, p + 1 < chain.length → ∀ c, chain[p]? = some c →
      c ≠ last ∧ c ≠ cluster := by
    intro p hp c hc
    constructor
    · intro heq
      rw [List.getLast?_eq_getElem?] at hlast
      have hindex := (List.getElem?_inj (by omega) hchain.nodup).mp
        (hc.trans (heq ▸ hlast.symm))
      omega
    · intro heq
      exact hnew (heq ▸ List.mem_of_getElem? hc)
  have hlastNe : last ≠ cluster := by
    intro heq
    exact hnew (heq ▸ List.mem_of_getLast? hlast)
  refine ⟨?_, ?_, ?_, ?_, ?_⟩
  · cases chain with
    | nil => exact absurd rfl hne
    | cons first rest => exact hchain.starts
  · intro c hc
    rcases List.mem_append.mp hc with hc | hc
    · exact hchain.range c hc
    · rw [List.mem_singleton.mp hc]
      exact hrange
  · rw [← List.concat_eq_append]
    exact hchain.nodup.concat hnew
  · intro p c next hp hnext
    by_cases hend : p + 1 < chain.length
    · rw [List.getElem?_append_left (by omega)] at hp
      rw [List.getElem?_append_left hend] at hnext
      obtain ⟨hne₁, hne₂⟩ := hold p hend c hp
      rw [Function.update_of_ne hne₂, Function.update_of_ne hne₁]
      exact hchain.links p c next hp hnext
    · have hp' : p + 1 = chain.length := by
        have := (List.getElem?_eq_some_iff.mp hnext).1
        simp at this
        omega
      rw [List.getElem?_append_left (by omega)] at hp
      rw [hp', List.getElem?_concat_length] at hnext
      rw [List.getLast?_eq_getElem?, ← hp', Nat.add_sub_cancel, hp] at hlast
      obtain rfl : c = last := Option.some.inj hlast
      rw [Function.update_of_ne hlastNe, Function.update_self]
      exact Option.some.inj hnext
  · intro c hc
    rw [List.getLast?_concat] at hc
    rw [← Option.some.inj hc, Function.update_self]
    exact hvalue

end Chain

/-! ## Growing one file -/

section Grow

variable {File : Type*} [DecidableEq File] {heads : File → ℕ} {chains : File → List ℕ}
  {table table' : ℕ → ℕ} {count : ℕ} {f : File}

/-- From `table` to `table'`, the file has got the clusters `new`, which were
free, and nothing else has changed. -/
structure Grown (table table' : ℕ → ℕ) (count : ℕ) (heads : File → ℕ)
    (chains : File → List ℕ) (f : File) (head : ℕ) (new : List ℕ) : Prop where
  wellFormed : WellFormed table' count (Function.update heads f head)
    (Function.update chains f (chains f ++ new))
  free : ∀ cluster ∈ new, table cluster = 0
  same : ∀ cluster, cluster ∉ chains f ++ new → table' cluster = table cluster

theorem Grown.refl (hwell : WellFormed table count heads chains) :
    Grown table table count heads chains f (heads f) [] := by
  refine ⟨?_, ?_, fun _ _ => rfl⟩
  · rw [List.append_nil, Function.update_eq_self, Function.update_eq_self]
    exact hwell
  · intro cluster hcluster
    cases hcluster

section

variable {head : ℕ} {new : List ℕ}

theorem Grown.isChain (hgrown : Grown table table' count heads chains f head new) :
    IsChain table' count head (chains f ++ new) := by
  have hchain := hgrown.wellFormed.chain f
  rwa [Function.update_self, Function.update_self] at hchain

theorem Grown.other (hgrown : Grown table table' count heads chains f head new)
    {x : File} (hx : x ≠ f) :
    IsChain table' count (heads x) (chains x) ∧
      (chains x).Disjoint (chains f ++ new) := by
  have hchain := hgrown.wellFormed.chain x
  have hdisjoint := hgrown.wellFormed.disjoint x f hx
  rw [Function.update_of_ne hx, Function.update_of_ne hx] at hchain
  rw [Function.update_of_ne hx, Function.update_self] at hdisjoint
  exact ⟨hchain, hdisjoint⟩

/-- A free cluster is in no chain, and was free before. -/
theorem Grown.of_free (hgrown : Grown table table' count heads chains f head new)
    (hcount : count ≤ fat32EocMin) {cluster : ℕ} (hfree : table' cluster = 0) :
    2 ≤ cluster ∧ cluster ∉ chains f ++ new ∧ (∀ x, x ≠ f → cluster ∉ chains x) ∧
      table cluster = 0 := by
  have hout : cluster ∉ chains f ++ new := by
    intro hmem
    exact hgrown.isChain.ne_zero hcount hmem hfree
  refine ⟨?_, hout, ?_, ?_⟩
  · have hfirst := hgrown.wellFormed.first
    have hsecond := hgrown.wellFormed.second
    by_contra hlow
    interval_cases cluster
    · exact hfirst hfree
    · exact hsecond hfree
  · intro x hx hmem
    exact (hgrown.other hx).1.ne_zero hcount hmem hfree
  · rw [← hgrown.same cluster hout]
    exact hfree

/-- A table that differs in the file and a free cluster only keeps the rest
well formed. -/
theorem Grown.update (hgrown : Grown table table' count heads chains f head new)
    (hcount : count ≤ fat32EocMin) {cluster : ℕ} (hfree : table' cluster = 0)
    {table'' : ℕ → ℕ} {head' : ℕ}
    (hchain : IsChain table'' count head' (chains f ++ (new ++ [cluster])))
    (hsame : ∀ other, other ∉ chains f ++ new → other ≠ cluster →
      table'' other = table' other) :
    Grown table table'' count heads chains f head' (new ++ [cluster]) := by
  obtain ⟨hlow, hout, hothers, hbefore⟩ := hgrown.of_free hcount hfree
  have hkeep : ∀ x, x ≠ f → ∀ other ∈ chains x,
      table'' other = table' other ∧ other ∉ chains f ++ (new ++ [cluster]) := by
    intro x hx other hmem
    have hne : other ≠ cluster := by
      intro heq
      exact hothers x hx (heq ▸ hmem)
    have hapart : other ∉ chains f ++ new := (hgrown.other hx).2 hmem
    refine ⟨hsame other hapart hne, ?_⟩
    rw [← List.append_assoc, List.mem_append, List.mem_singleton]
    exact not_or.mpr ⟨hapart, hne⟩
  have hentry : ∀ i < 2, table' i ≠ 0 → table'' i ≠ 0 := by
    intro i hi hne
    rw [hsame i (fun hmem => by have := (hgrown.isChain.range i hmem).1; omega)
      (by omega)]
    exact hne
  refine ⟨⟨hentry 0 (by decide) hgrown.wellFormed.first,
    hentry 1 (by decide) hgrown.wellFormed.second, ?_, ?_⟩, ?_, ?_⟩
  · intro x
    by_cases hx : x = f
    · subst hx
      rw [Function.update_self, Function.update_self]
      exact hchain
    · rw [Function.update_of_ne hx, Function.update_of_ne hx]
      exact (hgrown.other hx).1.congr fun other hmem => (hkeep x hx other hmem).1
  · intro x y hxy
    by_cases hx : x = f
    · subst hx
      rw [Function.update_self, Function.update_of_ne hxy.symm]
      intro other hmem hmem'
      exact (hkeep y hxy.symm other hmem').2 hmem
    · rw [Function.update_of_ne hx]
      by_cases hy : y = f
      · subst hy
        rw [Function.update_self]
        intro other hmem
        exact (hkeep x hx other hmem).2
      · rw [Function.update_of_ne hy]
        have hdisjoint := hgrown.wellFormed.disjoint x y hxy
        rwa [Function.update_of_ne hx, Function.update_of_ne hy] at hdisjoint
  · intro other hmem
    rcases List.mem_append.mp hmem with hmem | hmem
    · exact hgrown.free other hmem
    · rw [List.mem_singleton.mp hmem]
      exact hbefore
  · intro other hmem
    rw [← List.append_assoc, List.mem_append, List.mem_singleton, not_or] at hmem
    rw [hsame other hmem.1 hmem.2]
    exact hgrown.same other hmem.1

/-- Linking a free cluster behind the last one. -/
theorem Grown.append (hgrown : Grown table table' count heads chains f head new)
    (hcount : count ≤ fat32EocMin) {cluster last : ℕ} (hfree : table' cluster = 0)
    (hlt : cluster < count) (hlast : (chains f ++ new).getLast? = some last) :
    Grown table
      (Function.update (Function.update table' last cluster) cluster fat32Eoc)
      count heads chains f head (new ++ [cluster]) := by
  obtain ⟨hlow, hout, -, -⟩ := hgrown.of_free hcount hfree
  apply hgrown.update hcount hfree
  · rw [← List.append_assoc]
    exact hgrown.isChain.append hlast hout ⟨hlow, hlt⟩ (by decide)
  · intro other hother hne
    have hnotLast : other ≠ last := by
      intro heq
      exact hother (heq ▸ List.mem_of_getLast? hlast)
    rw [Function.update_of_ne hne, Function.update_of_ne hnotLast]

end

/-- The first cluster of a file without clusters. -/
theorem Grown.start (hwell : WellFormed table count heads chains)
    (hcount : count ≤ fat32EocMin) (hnil : chains f = []) {cluster : ℕ}
    (hfree : table cluster = 0) (hlt : cluster < count) :
    Grown table (Function.update table cluster fat32Eoc) count heads chains f cluster
      [cluster] := by
  have hgrown : Grown table table count heads chains f (heads f) [] := Grown.refl hwell
  obtain ⟨hlow, -, -, -⟩ := hgrown.of_free hcount hfree
  refine hgrown.update hcount hfree ⟨?_, ?_, ?_, ?_, ?_⟩ ?_
  · rw [hnil]
    rfl
  · intro other hmem
    rw [hnil] at hmem
    rw [List.mem_singleton.mp hmem]
    exact ⟨hlow, hlt⟩
  · rw [hnil]
    exact List.nodup_singleton cluster
  · intro p c next hp hnext
    rw [hnil] at hnext
    simp at hnext
  · intro last hlast
    rw [hnil] at hlast
    obtain rfl : cluster = last := Option.some.inj hlast
    rw [Function.update_self]
    decide
  · intro other _ hne
    exact Function.update_of_ne hne _ _

end Grow

end KimisOS.Fat32
