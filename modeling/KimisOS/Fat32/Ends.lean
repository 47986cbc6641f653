import KimisOS.Fat32.Dirent

/-!
# How a write ends

From the cluster of the offset on, a write ends in one of four ways: inside the
first cluster, at the end of a chain behind the first cluster, without a free
cluster, or with all bytes stored and the directory entry written.
-/

namespace KimisOS.Fat32

open KimisOS.ByteStore

/-- The bytes of the file from the offset on are those of the buffer, and no
other byte has changed. -/
structure Written (bpb : Bpb) (chain : List ℕ) (flat flat' : Flat) (buffer : ℕ → UInt8)
    (offset count : ℕ) : Prop where
  bytes : ∀ t < count, flat'.data (bpb.fileAddress chain (offset + t)) = buffer t
  frame : ∀ a, (∀ t < count, a ≠ bpb.fileAddress chain (offset + t)) →
    flat'.data a = flat.data a

section Written

variable {bpb : Bpb} {clusters : ℕ} {chain chain' : List ℕ} {flat flat₁ flat' : Flat}
  {buffer : ℕ → UInt8} {offset count p current : ℕ}

theorem Geometry.div_lt (hgeo : Geometry bpb clusters) {x length : ℕ}
    (hx : x < length * bpb.clusterSizeBytes) : x / bpb.clusterSizeBytes < length := by
  have hcs := hgeo.clusterSize_ge
  exact (Nat.div_lt_iff_lt_mul (by omega)).mpr hx

theorem Geometry.le_clustersFor (hgeo : Geometry bpb clusters) (bytes : ℕ) :
    bytes ≤ bpb.clustersFor bytes * bpb.clusterSizeBytes := by
  have hcs := hgeo.clusterSize_ge
  have hdiv := Nat.div_add_mod (bytes + bpb.clusterSizeBytes - 1) bpb.clusterSizeBytes
  have hmod := Nat.mod_lt (bytes + bpb.clusterSizeBytes - 1)
    (show 0 < bpb.clusterSizeBytes by omega)
  rw [Bpb.clustersFor, Nat.mul_comm]
  omega

theorem Geometry.clustersFor_add (hgeo : Geometry bpb clusters) (p bytes : ℕ) :
    bpb.clustersFor (p * bpb.clusterSizeBytes + bytes) = p + bpb.clustersFor bytes := by
  have hcs := hgeo.clusterSize_ge
  rw [Bpb.clustersFor, Bpb.clustersFor, Nat.add_assoc, Nat.add_sub_assoc (by omega),
    Nat.mul_comm, Nat.mul_add_div (by omega)]

/-- A write inside one cluster of the chain. -/
theorem Written.head (flat : Flat) (buffer : ℕ → UInt8) (hgeo : Geometry bpb clusters)
    (hp : chain[p]? = some current) {o : ℕ} (hin : o + count ≤ bpb.clusterSizeBytes) :
    Written bpb chain flat (flat.write buffer (bpb.clusterStart current + o) count) buffer
      (p * bpb.clusterSizeBytes + o) count := by
  have hat : ∀ t < count, bpb.fileAddress chain (p * bpb.clusterSizeBytes + o + t) =
      bpb.clusterStart current + o + t := by
    intro t ht
    rw [Nat.add_assoc, hgeo.fileAddress_eq hp (by omega), Nat.add_assoc]
  refine ⟨?_, ?_⟩
  · intro t ht
    rw [hat t ht]
    exact store_inside ht
  · intro a ha
    apply store_outside
    by_contra hinside
    have heq : a = bpb.clusterStart current + o + (a - (bpb.clusterStart current + o)) := by
      omega
    exact ha _ (by omega) (heq.trans (hat _ (by omega)).symm)

theorem Stored.written
    (hstored : Stored bpb clusters chain chain' flat flat' buffer p count 0 none) :
    Written bpb chain' flat flat' buffer (p * bpb.clusterSizeBytes) count := by
  obtain ⟨hlength, hbytes⟩ := hstored.whole rfl
  refine ⟨?_, ?_⟩
  · intro t ht
    rw [hbytes t ht, Nat.zero_mul, Nat.zero_add]
  · intro a ha
    exact hstored.frame a fun t ht _ => ha t ht

/-- Two writes one behind the other. -/
theorem Written.append {table : ℕ → ℕ} {entries head more : ℕ}
    (hgeo : Geometry bpb clusters) (hchain : IsChain table entries head chain)
    (hin : offset + (count + more) ≤ chain.length * bpb.clusterSizeBytes)
    (hfirst : Written bpb chain flat flat₁ buffer offset count)
    (hsecond : Written bpb chain flat₁ flat' (load buffer count) (offset + count) more) :
    Written bpb chain flat flat' buffer offset (count + more) := by
  refine ⟨?_, ?_⟩
  · intro t ht
    by_cases hlt : t < count
    · have hkept : flat'.data (bpb.fileAddress chain (offset + t)) =
          flat₁.data (bpb.fileAddress chain (offset + t)) := by
        apply hsecond.frame
        intro t' ht' heq
        have hsame := hgeo.fileAddress_inj hchain (hgeo.div_lt (by omega))
          (hgeo.div_lt (by omega)) heq
        omega
      rw [hkept, hfirst.bytes t hlt]
    · have hlater := hsecond.bytes (t - count) (by omega)
      rw [load, show offset + count + (t - count) = offset + t by omega,
        show count + (t - count) = t by omega] at hlater
      exact hlater
  · intro a ha
    rw [hsecond.frame a fun t ht heq => ha (count + t) (by omega) (by
      rw [← Nat.add_assoc]
      exact heq)]
    exact hfirst.frame a fun t ht heq => ha t (by omega) heq

theorem Written.longer (hgeo : Geometry bpb clusters) (added : List ℕ)
    (hin : offset + count ≤ chain.length * bpb.clusterSizeBytes)
    (hwritten : Written bpb chain flat flat' buffer offset count) :
    Written bpb (chain ++ added) flat flat' buffer offset count := by
  have hat : ∀ t < count, bpb.fileAddress (chain ++ added) (offset + t) =
      bpb.fileAddress chain (offset + t) := by
    intro t ht
    exact bpb.fileAddress_append added (hgeo.div_lt (by omega))
  refine ⟨?_, ?_⟩
  · intro t ht
    rw [hat t ht]
    exact hwritten.bytes t ht
  · intro a ha
    exact hwritten.frame a fun t ht heq => ha t ht (heq.trans (hat t ht).symm)

end Written

/-! ## The rest of a write -/

/-- The open file with the size that the loop leaves. -/
def OpenFile.extended (file : OpenFile) (offset count : ℕ) : OpenFile :=
  if (offset + count) % 2 ^ 64 > file.sizeBytes then
    { file with sizeBytes := (offset + count) % 2 ^ 64 % 2 ^ 32 }
  else file

/-- How a write from the cluster of the offset on ends.  The chain at its start
is `chain`, that at its end is `chain'`. -/
inductive Ends (bpb : Bpb) (clusters : ℕ) (directory chain chain' : List ℕ)
    (flat flat' : Flat) (file : OpenFile) (buffer : ℕ → UInt8) (offset count : ℕ)
    (out : Outcome) : Prop
  | inside (hoffset : offset % bpb.clusterSizeBytes ≠ 0)
      (hcount : count < bpb.clusterSizeBytes - offset % bpb.clusterSizeBytes)
      (hreturned : out.returned = some (toInt count)) (hfile : out.file = file)
      (hwritten : Written bpb chain' flat flat' buffer offset count)
  | atEnd (hoffset : offset % bpb.clusterSizeBytes ≠ 0)
      (hcount : bpb.clusterSizeBytes - offset % bpb.clusterSizeBytes ≤ count)
      (hlast : offset / bpb.clusterSizeBytes + 1 = chain.length)
      (hreturned : out.returned =
        some (toInt (bpb.clusterSizeBytes - offset % bpb.clusterSizeBytes)))
      (hfile : out.file = file)
      (hwritten : Written bpb chain' flat flat' buffer offset
        (bpb.clusterSizeBytes - offset % bpb.clusterSizeBytes))
  | full (returned : ℕ) (hless : returned < count)
      (hreturned : out.returned = some (toInt returned)) (hfile : out.file = file)
      (hfull : flat.freeCount clusters + chain.length < bpb.clustersFor (offset + count))
  | whole (flat₁ : Flat)
      (hoffset : offset % bpb.clusterSizeBytes = 0 ∨
        offset / bpb.clusterSizeBytes + 1 < chain.length ∧
          bpb.clusterSizeBytes - offset % bpb.clusterSizeBytes ≤ count)
      (hreturned : out.returned = some (toInt count))
      (hfile : out.file = file.extended offset count)
      (hfree : bpb.clustersFor (offset + count) ≤ flat.freeCount clusters + chain.length)
      (hlength : bpb.clustersFor (offset + count) ≤ chain'.length)
      (hwritten : Written bpb chain' flat flat₁ buffer offset count)
      (hentry : OutOfReach bpb clusters bpb.dataOffset →
        (∀ a, a < file.direntAddress bpb directory ∨
            file.direntAddress bpb directory + 32 ≤ a → flat'.data a = flat₁.data a) ∧
          (file.direntOffset % (bpb.clusterSizeBytes / 32) < 128 →
            readU32 flat'.data (file.direntAddress bpb directory + 28) =
              (file.extended offset count).sizeBytes % 2 ^ 32))

section Extended

variable (file : OpenFile) (offset count : ℕ)

@[simp]
theorem OpenFile.extended_firstCluster :
    (file.extended offset count).firstCluster = file.firstCluster := by
  rw [OpenFile.extended]
  split <;> rfl

@[simp]
theorem OpenFile.extended_direntCluster :
    (file.extended offset count).direntCluster = file.direntCluster := by
  rw [OpenFile.extended]
  split <;> rfl

@[simp]
theorem OpenFile.extended_direntOffset :
    (file.extended offset count).direntOffset = file.direntOffset := by
  rw [OpenFile.extended]
  split <;> rfl

end Extended

theorem EntryIn.extended {File : Type*} {bpb : Bpb} {chains : File → List ℕ} {d : File}
    {file : OpenFile} (hentry : EntryIn bpb chains d file) (offset count : ℕ) :
    EntryIn bpb chains d (file.extended offset count) := by
  refine ⟨?_, ?_⟩
  · rw [file.extended_direntCluster]
    exact hentry.start
  · rw [file.extended_direntOffset]
    exact hentry.inside

section Rest

variable {File : Type*} [DecidableEq File] {heads : File → ℕ} {chains : File → List ℕ}
  {f d : File} {bpb : Bpb} {clusters : ℕ} {table : ℕ → ℕ} {vol vol' : Volume} {flat : Flat}
  {new : List ℕ} {p current : ℕ} {file : OpenFile} {buffer : ℕ → UInt8}
  {offset count remaining : ℕ}

theorem writeRest_short {short : ℕ}
    (hloop : writeClusters buffer remaining vol current remaining 0 = (vol', some short)) :
    writeRest vol file buffer offset count current remaining =
      ⟨vol', file, some (toInt short)⟩ := by
  rw [writeRest, hloop]

theorem writeRest_whole
    (hloop : writeClusters buffer remaining vol current remaining 0 = (vol', none)) :
    writeRest vol file buffer offset count current remaining =
      ⟨direntWriteback vol' (file.extended offset count), file.extended offset count,
        some (toInt count)⟩ := by
  rw [writeRest, hloop, OpenFile.extended]

/-- The loop runs out of clusters, or stores all bytes. -/
theorem writeRest_spec {out : Outcome}
    (hholds : Holds bpb clusters table heads chains f vol flat file.firstCluster new)
    (hentry : EntryIn bpb chains d file)
    (hp : remaining ≠ 0 → (chains f ++ new)[p]? = some current)
    (hreached : p ≤ (chains f ++ new).length)
    (hout : writeRest vol file buffer offset count current remaining = out) :
    ∃ flat' added,
      Holds bpb clusters table heads chains f out.vol flat' out.file.firstCluster
        (new ++ added) ∧
      ((∃ returned < remaining, out.returned = some (toInt returned) ∧ out.file = file ∧
          flat.freeCount clusters + (chains f ++ new).length <
            p + bpb.clustersFor remaining) ∨
        ∃ flat₁, out.returned = some (toInt count) ∧
          out.file = file.extended offset count ∧
          p + bpb.clustersFor remaining ≤
            flat.freeCount clusters + (chains f ++ new).length ∧
          p + bpb.clustersFor remaining ≤ (chains f ++ (new ++ added)).length ∧
          Written bpb (chains f ++ (new ++ added)) flat flat₁ buffer
            (p * bpb.clusterSizeBytes) remaining ∧
          (OutOfReach bpb clusters bpb.dataOffset →
            (∀ a, a < file.direntAddress bpb (chains d) ∨
                file.direntAddress bpb (chains d) + 32 ≤ a →
              flat'.data a = flat₁.data a) ∧
              (file.direntOffset % (bpb.clusterSizeBytes / 32) < 128 →
                readU32 flat'.data (file.direntAddress bpb (chains d) + 28) =
                  (file.extended offset count).sizeBytes % 2 ^ 32))) := by
  obtain ⟨vol', result, hloop⟩ : ∃ vol' result,
      writeClusters buffer remaining vol current remaining 0 = (vol', result) :=
    ⟨_, _, rfl⟩
  obtain ⟨flat₁, added, hholds', hstored⟩ :=
    writeClusters_spec hholds hp hreached (Nat.zero_le p) (le_refl _) hloop
  have hfree := hstored.free
  cases result with
  | some short =>
      rw [writeRest_short hloop] at hout
      obtain ⟨hzero, hlength, hless⟩ := hstored.short short rfl
      rw [← hout]
      refine ⟨flat₁, added, hholds', .inl ⟨short, by omega, rfl, rfl, by omega⟩⟩
  | none =>
      rw [writeRest_whole hloop] at hout
      obtain ⟨hlength, -⟩ := hstored.whole rfl
      have hwritten := hstored.written
      rw [List.append_assoc] at hwritten hlength hfree
      obtain ⟨flat', hdone, hdata⟩ :=
        direntWriteback_spec hholds' (hentry.extended offset count)
      rw [OpenFile.direntAddress, file.extended_direntOffset] at hdata
      rw [← hout]
      refine ⟨flat', added, ?_, .inr ⟨flat₁, rfl, rfl, by omega, by omega, hwritten, hdata⟩⟩
      rw [file.extended_firstCluster]
      exact hdone

section Equations

variable {size o : ℕ} {written : Volume}

theorem writeFrom_aligned (hsize : vol.mount.bpb.clusterSizeBytes = size)
    (ho : offset &&& (size - 1) = 0) :
    writeFrom vol file buffer offset count current =
      writeRest vol file buffer offset count current count := by
  subst hsize
  rw [writeFrom, if_neg (not_not.mpr ho)]

theorem writeFrom_inside (hsize : vol.mount.bpb.clusterSizeBytes = size)
    (ho : offset &&& (size - 1) = o) (hne : o ≠ 0)
    (hwritten : fwrite vol buffer (vol.mount.clusterOffset current + o)
      (min count (size - o)) = written) (hcount : size - o > count) :
    writeFrom vol file buffer offset count current =
      ⟨written, file, some (toInt count)⟩ := by
  subst hsize ho hwritten
  rw [writeFrom, if_pos hne, if_pos hcount]

theorem writeFrom_atEnd (hsize : vol.mount.bpb.clusterSizeBytes = size)
    (ho : offset &&& (size - 1) = o) (hne : o ≠ 0)
    (hwritten : fwrite vol buffer (vol.mount.clusterOffset current + o)
      (min count (size - o)) = written) (hcount : ¬size - o > count)
    (hend : fat32EocMin ≤ (fat32GetNextCluster written current).2) :
    writeFrom vol file buffer offset count current =
      ⟨(fat32GetNextCluster written current).1, file,
        some (toInt (count - (count - (size - o))))⟩ := by
  subst hsize ho hwritten
  rw [writeFrom, if_pos hne, if_neg hcount, if_pos hend]

theorem writeFrom_rest (hsize : vol.mount.bpb.clusterSizeBytes = size)
    (ho : offset &&& (size - 1) = o) (hne : o ≠ 0)
    (hwritten : fwrite vol buffer (vol.mount.clusterOffset current + o)
      (min count (size - o)) = written) (hcount : ¬size - o > count)
    (hend : ¬fat32EocMin ≤ (fat32GetNextCluster written current).2) :
    writeFrom vol file buffer offset count current =
      writeRest (fat32GetNextCluster written current).1 file (load buffer (size - o))
        offset count (fat32GetNextCluster written current).2 (count - (size - o)) := by
  subst hsize ho hwritten
  rw [writeFrom, if_pos hne, if_neg hcount, if_neg hend]

end Equations

theorem Geometry.and_eq_mod (hgeo : Geometry bpb clusters) (offset : ℕ) :
    offset &&& (bpb.clusterSizeBytes - 1) = offset % bpb.clusterSizeBytes := by
  obtain ⟨k, hk⟩ := hgeo.powerOfTwo
  rw [hk]
  exact Nat.and_two_pow_sub_one_eq_mod offset k

/-- A write from an offset inside a cluster on. -/
theorem writeFrom_unaligned {out : Outcome}
    (hholds : Holds bpb clusters table heads chains f vol flat file.firstCluster new)
    (hentry : EntryIn bpb chains d file)
    (hp : (chains f ++ new)[offset / bpb.clusterSizeBytes]? = some current)
    (ho : offset % bpb.clusterSizeBytes ≠ 0)
    (hout : writeFrom vol file buffer offset count current = out) :
    ∃ flat' added,
      Holds bpb clusters table heads chains f out.vol flat' out.file.firstCluster
        (new ++ added) ∧
      Ends bpb clusters (chains d) (chains f ++ new) (chains f ++ (new ++ added)) flat flat'
        file buffer offset count out := by
  have hgeo := hholds.shows.geometry
  have hcs := hgeo.clusterSize_ge
  have hsize : vol.mount.bpb.clusterSizeBytes = bpb.clusterSizeBytes := by
    rw [hholds.shows.mounted.bpb_eq]
  have hand := hgeo.and_eq_mod offset
  have hlt := Nat.mod_lt offset (show 0 < bpb.clusterSizeBytes by omega)
  have hsplit : offset / bpb.clusterSizeBytes * bpb.clusterSizeBytes +
      offset % bpb.clusterSizeBytes = offset := Nat.div_add_mod' offset _
  obtain ⟨written, hwritten⟩ : ∃ written, fwrite vol buffer
      (vol.mount.clusterOffset current + offset % bpb.clusterSizeBytes)
      (min count (bpb.clusterSizeBytes - offset % bpb.clusterSizeBytes)) = written :=
    ⟨_, rfl⟩
  have hle := bpb.dataOffset_le_clusterStart current
  have hwrite := hholds.write buffer
    (min count (bpb.clusterSizeBytes - offset % bpb.clusterSizeBytes))
    (show bpb.dataOffset ≤ bpb.clusterStart current + offset % bpb.clusterSizeBytes by omega)
  rw [← hholds.clusterOffset_eq hp, hwritten, hholds.clusterOffset_eq hp] at hwrite
  have hhead := Written.head flat buffer hgeo hp
    (show offset % bpb.clusterSizeBytes +
      min count (bpb.clusterSizeBytes - offset % bpb.clusterSizeBytes) ≤
        bpb.clusterSizeBytes by omega)
  rw [hsplit] at hhead
  by_cases hcount : bpb.clusterSizeBytes - offset % bpb.clusterSizeBytes > count
  · rw [writeFrom_inside hsize hand ho hwritten hcount] at hout
    rw [min_eq_left (by omega), ← List.append_nil new] at hwrite hhead
    rw [← hout]
    exact ⟨_, [], hwrite, .inside ho hcount rfl rfl hhead⟩
  · rw [min_eq_right (by omega)] at hwrite hhead
    obtain ⟨hread, hnext⟩ := hwrite.next hp
    by_cases hend : fat32EocMin ≤ (fat32GetNextCluster written current).2
    · rw [writeFrom_atEnd hsize hand ho hwritten hcount hend,
        show count - (count - (bpb.clusterSizeBytes - offset % bpb.clusterSizeBytes)) =
          bpb.clusterSizeBytes - offset % bpb.clusterSizeBytes by omega] at hout
      have hlast : offset / bpb.clusterSizeBytes + 1 = (chains f ++ new).length := by
        rcases hnext with ⟨hltEoc, -⟩ | ⟨-, hlast⟩
        · omega
        · exact hlast
      rw [← List.append_nil new] at hread hhead
      rw [← hout]
      exact ⟨_, [], hread, .atEnd ho (by omega) hlast rfl rfl hhead⟩
    · rw [writeFrom_rest hsize hand ho hwritten hcount hend] at hout
      have hp' : (chains f ++ new)[offset / bpb.clusterSizeBytes + 1]? =
          some (fat32GetNextCluster written current).2 := by
        rcases hnext with ⟨-, hp'⟩ | ⟨heoc, -⟩
        · exact hp'
        · exact absurd heoc hend
      have hplace := (List.getElem?_eq_some_iff.mp hp').1
      have hstart : (offset / bpb.clusterSizeBytes + 1) * bpb.clusterSizeBytes =
          offset + (bpb.clusterSizeBytes - offset % bpb.clusterSizeBytes) := by
        rw [Nat.succ_mul]
        omega
      have hneed : bpb.clustersFor (offset + count) = offset / bpb.clusterSizeBytes + 1 +
          bpb.clustersFor
            (count - (bpb.clusterSizeBytes - offset % bpb.clusterSizeBytes)) := by
        rw [← hgeo.clustersFor_add, hstart]
        congr 1
        omega
      obtain ⟨flat', added, hholds', hrest⟩ :=
        writeRest_spec hread hentry (fun _ => hp') (by omega) hout
      rw [← hneed, hstart] at hrest
      refine ⟨flat', added, hholds', ?_⟩
      rcases hrest with ⟨returned, hless, hreturned, hfile, hfull⟩ |
        ⟨flat₁, hreturned, hfile, hfree, hlength, hrestWritten, hdirent⟩
      · exact .full returned (by omega) hreturned hfile hfull
      · refine .whole flat₁ (.inr ⟨hplace, by omega⟩) hreturned hfile hfree hlength ?_ hdirent
        have hroom : offset + count ≤
            (chains f ++ (new ++ added)).length * bpb.clusterSizeBytes :=
          (hgeo.le_clustersFor _).trans (Nat.mul_le_mul_right _ hlength)
        have hheadRoom : offset + (bpb.clusterSizeBytes - offset % bpb.clusterSizeBytes) ≤
            (chains f ++ new).length * bpb.clusterSizeBytes := by
          rw [← hstart]
          exact Nat.mul_le_mul_right _ (by omega)
        have hlonger := hhead.longer hgeo added hheadRoom
        rw [List.append_assoc] at hlonger
        have hall := hlonger.append hgeo hholds'.grown.isChain (by omega) hrestWritten
        rw [show bpb.clusterSizeBytes - offset % bpb.clusterSizeBytes +
          (count - (bpb.clusterSizeBytes - offset % bpb.clusterSizeBytes)) = count by
            omega] at hall
        exact hall

/-- A write from the cluster of the offset on. -/
theorem writeFrom_spec {out : Outcome}
    (hholds : Holds bpb clusters table heads chains f vol flat file.firstCluster new)
    (hentry : EntryIn bpb chains d file)
    (hp : (chains f ++ new)[offset / bpb.clusterSizeBytes]? = some current)
    (hout : writeFrom vol file buffer offset count current = out) :
    ∃ flat' added,
      Holds bpb clusters table heads chains f out.vol flat' out.file.firstCluster
        (new ++ added) ∧
      Ends bpb clusters (chains d) (chains f ++ new) (chains f ++ (new ++ added)) flat flat'
        file buffer offset count out := by
  have hgeo := hholds.shows.geometry
  have hcs := hgeo.clusterSize_ge
  have hsize : vol.mount.bpb.clusterSizeBytes = bpb.clusterSizeBytes := by
    rw [hholds.shows.mounted.bpb_eq]
  have hand := hgeo.and_eq_mod offset
  have hplace := (List.getElem?_eq_some_iff.mp hp).1
  by_cases ho : offset % bpb.clusterSizeBytes = 0
  · rw [writeFrom_aligned hsize (hand.trans ho)] at hout
    have hstart : offset / bpb.clusterSizeBytes * bpb.clusterSizeBytes = offset :=
      Nat.div_mul_cancel (Nat.dvd_of_mod_eq_zero ho)
    have hneed : bpb.clustersFor (offset + count) =
        offset / bpb.clusterSizeBytes + bpb.clustersFor count := by
      rw [← hgeo.clustersFor_add, hstart]
    obtain ⟨flat', added, hholds', hend⟩ :=
      writeRest_spec hholds hentry (fun _ => hp) (by omega) hout
    rw [← hneed, hstart] at hend
    refine ⟨flat', added, hholds', ?_⟩
    rcases hend with ⟨returned, hless, hreturned, hfile, hfull⟩ |
      ⟨flat₁, hreturned, hfile, hfree, hlength, hwritten, hdirent⟩
    · exact .full returned hless hreturned hfile hfull
    · exact .whole flat₁ (.inl ho) hreturned hfile hfree hlength hwritten hdirent
  · exact writeFrom_unaligned hholds hentry hp ho hout

end Rest

end KimisOS.Fat32
