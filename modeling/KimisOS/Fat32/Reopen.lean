import KimisOS.Fat32.Agreement
import KimisOS.Fat32.EntryHead

/-!
# Opening a file again

An open file is a copy of its directory entry.  On a volume with nothing to write back,
an open reads the entry from where the clusters of the directory lie, so that it gives
the first cluster and the size that are stored there.
-/

namespace KimisOS.Fat32

open KimisOS.ByteStore

/-- The directory entry on the device holds the first cluster and the size of the open
file. -/
structure OpenFile.InEntry (file : OpenFile) (bpb : Bpb) (directory : List ℕ)
    (device : ℕ → UInt8) : Prop where
  head : entryHead device (file.direntAddress bpb directory) = file.firstCluster
  size : readU32 device (file.direntAddress bpb directory + 28) = file.sizeBytes

/-- Two open files of one entry that holds both have the same first cluster and size. -/
theorem OpenFile.InEntry.same {file file' : OpenFile} {bpb : Bpb} {directory : List ℕ}
    {device : ℕ → UInt8} (hin : file.InEntry bpb directory device)
    (hin' : file'.InEntry bpb directory device)
    (hoffset : file'.direntOffset = file.direntOffset) :
    file'.firstCluster = file.firstCluster ∧ file'.sizeBytes = file.sizeBytes := by
  have haddress := OpenFile.direntAddress_congr hoffset bpb directory
  constructor
  · rw [← hin.head, ← hin'.head, haddress]
  · rw [← hin.size, ← hin'.size, haddress]

section Entry

variable {bpb : Bpb} {clusters : ℕ} {base vol read : Volume} {root : Root} {chain : List ℕ}

/-- The entries of a directory do not cross its clusters. -/
theorem Geometry.entry_dvd (hgeo : Geometry bpb clusters) : 32 ∣ bpb.clusterSizeBytes := by
  obtain ⟨k, hpower⟩ := hgeo.powerOfTwo
  have hcs := hgeo.clusterSize_ge
  rw [hpower] at hcs ⊢
  have hk : 5 ≤ k := by
    by_contra hless
    have hle : 2 ^ k ≤ 2 ^ 4 := Nat.pow_le_pow_right (by decide) (by omega)
    omega
  exact Nat.pow_dvd_pow 2 hk

/-- Byte `k` of entry `i` of a directory. -/
theorem Geometry.entry_address (hgeo : Geometry bpb clusters) {i k : ℕ} (hk : k < 32) :
    bpb.fileAddress chain (32 * i + k) =
      bpb.clusterStart (chain.getD (i / (bpb.clusterSizeBytes / 32)) 0) +
        32 * (i % (bpb.clusterSizeBytes / 32)) + k := by
  obtain ⟨entries, hentries⟩ := hgeo.entry_dvd
  have hquotient : (32 * i + k) / 32 = i := by omega
  have hdiv : (32 * i + k) / (32 * entries) = i / entries := by
    rw [← Nat.div_div_eq_div_mul, hquotient]
  have hmod : (32 * i + k) % (32 * entries) = 32 * (i % entries) + k := by
    rw [Nat.mod_mul, hquotient]
    omega
  rw [Bpb.fileAddress, hentries, hdiv, hmod, Nat.mul_div_cancel_left _ (by decide),
    Nat.add_assoc]

/-- A buffer that a directory could be read into has room for all its clusters. -/
theorem readDirentFrom_room {head current p room : ℕ} {buffer dirData : ℕ → UInt8}
    (hsettled : Settled bpb clusters base vol)
    (hchain : IsChain (diskEntry base) (clusters + 2) head chain)
    (hp : chain[p]? = some current)
    (hread : readDirentFrom room vol buffer current p = some (read, dirData)) :
    chain.length ≤ p + room := by
  induction room generalizing vol buffer p current with
  | zero =>
      have hrange := hchain.range current (List.mem_of_getElem? hp)
      have hcount := hsettled.geometry.count_le
      unfold readDirentFrom at hread
      rw [if_pos (show current < fat32EocMin by omega)] at hread
      cases hread
  | succ room ih =>
      have hrange := hchain.range current (List.mem_of_getElem? hp)
      have hcount := hsettled.geometry.count_le
      unfold readDirentFrom at hread
      rw [if_pos (show current < fat32EocMin by omega)] at hread
      obtain ⟨hsettled', ⟨-, hp'⟩ | ⟨-, hlast⟩⟩ := hsettled.next hchain hp
      · have hroom := ih hsettled' hp' hread
        omega
      · omega

/-- What a lookup finds is an entry of the directory as the device has it. -/
theorem lookup_inEntry {parent dirent : Dirent} {token : CString} {head i : ℕ}
    (hsettled : Settled bpb clusters base vol)
    (hchain : IsChain (diskEntry base) (clusters + 2) head chain)
    (hfirst : chain[0]? = some (root.dirCluster parent))
    (hlookup : lookup root vol parent token = some (read, some (i, dirent))) :
    Settled bpb clusters base read ∧
      (i / (bpb.clusterSizeBytes / 32) < chain.length → ∀ walk : Walk,
        walk.parent = dirent → walk.direntIndex = i →
          (walk.openFile root).InEntry bpb chain base.device) := by
  have hgeo := hsettled.geometry
  have hcs := hgeo.clusterSize_ge
  rw [lookup] at hlookup
  cases hread : fat32ReadDirent root vol parent (sizeToAlloc parent) with
  | none =>
      rw [hread] at hlookup
      cases hlookup
  | some result =>
      obtain ⟨read', dirData⟩ := result
      have hroom : chain.length ≤
          0 + sizeToAlloc parent * 4096 / bpb.clusterSizeBytes := by
        rw [fat32ReadDirent, hsettled.clusterSizeBytes_eq] at hread
        exact readDirentFrom_room hsettled hchain hfirst hread
      rw [Nat.zero_add] at hroom
      have hpages := (Nat.le_div_iff_mul_le (by omega)).mp hroom
      obtain ⟨read'', dirData', hread', hsettled', hbytes⟩ :=
        fat32ReadDirent_chain hsettled hchain hfirst hpages
      obtain ⟨rfl, rfl⟩ := Prod.mk.inj (Option.some.inj (hread.symm.trans hread'))
      rw [hread] at hlookup
      dsimp only at hlookup
      cases hsearch : fat32SearchDir token dirData with
      | none =>
          rw [hsearch] at hlookup
          cases hlookup
      | some found =>
          rw [hsearch] at hlookup
          cases found with
          | none => cases (Prod.mk.inj (Option.some.inj hlookup)).2
          | some j =>
              obtain ⟨rfl, hfound⟩ := Prod.mk.inj (Option.some.inj hlookup)
              obtain ⟨rfl, rfl⟩ := Prod.mk.inj (Option.some.inj hfound)
              refine ⟨hsettled', ?_⟩
              intro hinside walk hparent hindex
              have hless : 32 * (j + 1) ≤ chain.length * bpb.clusterSizeBytes := by
                obtain ⟨entries, hentries⟩ := hgeo.entry_dvd
                rw [hentries, Nat.mul_div_cancel_left _ (by decide)] at hinside
                have hlt := (Nat.div_lt_iff_lt_mul (by omega)).mp hinside
                rw [hentries, Nat.mul_left_comm]
                omega
              have hbyte : ∀ k < 32, base.device
                  ((walk.openFile root).direntAddress bpb chain + k) = dirData (32 * j + k) := by
                intro k hk
                rw [hbytes (32 * j + k) (by omega), hgeo.entry_address hk,
                  OpenFile.direntAddress, Walk.openFile, hindex]
              constructor
              · rw [entryHead_congr hbyte, Walk.openFile, hparent]
                rfl
              · have hsize : readU32 base.device
                    ((walk.openFile root).direntAddress bpb chain + 28) =
                      readU32 dirData (32 * j + 28) := by
                  apply readU32_congr
                  intro k hk
                  rw [Nat.add_assoc, Nat.add_assoc]
                  exact hbyte _ (by omega)
                rw [hsize, Walk.openFile, hparent]
                rfl

/-- The same for the walk over the components of a path. -/
theorem walkTokens_inEntry {walk final : Walk} {token : CString} {tokens : List CString}
    (hsettled : Settled bpb clusters base vol)
    (hleads : Leads root clusters (diskEntry base) vol walk (token :: tokens))
    (hwalk : walkTokens root vol walk (token :: tokens) = some (read, some final))
    (hchain : IsChain (diskEntry base) (clusters + 2) (root.dirCluster final.lastParent) chain)
    (hinside : final.direntIndex / (bpb.clusterSizeBytes / 32) < chain.length) :
    (final.openFile root).InEntry bpb chain base.device := by
  induction tokens generalizing vol walk token with
  | nil =>
      rw [walkTokens] at hwalk
      cases hlookup : lookup root vol walk.parent token with
      | none =>
          rw [hlookup] at hwalk
          cases hwalk
      | some result =>
          obtain ⟨read', found⟩ := result
          rw [hlookup] at hwalk
          cases found with
          | none => cases (Prod.mk.inj (Option.some.inj hwalk)).2
          | some entry =>
              obtain ⟨-, hfinal⟩ := Prod.mk.inj (Option.some.inj hwalk)
              obtain rfl := Option.some.inj hfinal
              have hne := hchain.head_ne (List.ne_nil_of_length_pos (Nat.zero_lt_of_lt hinside))
              obtain ⟨-, hentry⟩ := lookup_inEntry hsettled hchain (hchain.first hne) hlookup
              exact hentry hinside _ rfl rfl
  | cons next tokens ih =>
      rw [walkTokens] at hwalk
      obtain ⟨⟨directory, hdirectory, hsome⟩, hrest⟩ := hleads
      cases hlookup : lookup root vol walk.parent token with
      | none =>
          rw [hlookup] at hwalk
          cases hwalk
      | some result =>
          obtain ⟨read', found⟩ := result
          rw [hlookup] at hwalk
          cases found with
          | none => cases (Prod.mk.inj (Option.some.inj hwalk)).2
          | some entry =>
              have hfirst := hdirectory.first (hdirectory.head_ne hsome)
              obtain ⟨hsettled', -⟩ := lookup_inEntry hsettled hdirectory hfirst hlookup
              exact ih hsettled' (hrest read' entry.1 entry.2 hlookup) hwalk

/-- An open file is the copy of the directory entry on the device. -/
theorem fat32Open_inEntry {path : CString} {parent opened : VFile}
    (hsettled : Settled bpb clusters base vol)
    (hleads : Leads root clusters (diskEntry base) vol .start (pathTokens path))
    (hpath : path ≠ [])
    (hopen : fat32Open root vol path parent = some (read, some opened))
    (hchain : IsChain (diskEntry base) (clusters + 2) opened.file.direntCluster chain)
    (hinside : opened.file.direntOffset / (bpb.clusterSizeBytes / 32) < chain.length) :
    opened.file.InEntry bpb chain base.device := by
  rw [fat32Open, resolvePath, if_neg hpath] at hopen
  by_cases hlong : 4096 ≤ path.length
  · rw [if_pos hlong] at hopen
    cases hopen
  · rw [if_neg hlong] at hopen
    obtain ⟨token, tokens, htokens⟩ := List.exists_cons_of_ne_nil (pathTokens_ne_nil path)
    rw [htokens] at hleads hopen
    cases hwalk : walkTokens root vol .start (token :: tokens) with
    | none =>
        rw [hwalk] at hopen
        cases hopen
    | some result =>
        obtain ⟨read', found⟩ := result
        rw [hwalk] at hopen
        cases found with
        | none =>
            dsimp only [Option.map_none] at hopen
            rw [if_neg hpath] at hopen
            cases hopen
        | some final =>
            obtain ⟨-, hfile⟩ := Prod.mk.inj (Option.some.inj hopen)
            obtain rfl := Option.some.inj hfile
            exact walkTokens_inEntry hsettled hleads hwalk hchain hinside

theorem Leads.congr {table table' : ℕ → ℕ} {walk : Walk} {tokens : List CString}
    (hleads : Leads root clusters table vol walk tokens)
    (hsame : ∀ index < clusters + 2, table' index = table index) :
    Leads root clusters table' vol walk tokens := by
  induction tokens generalizing vol walk with
  | nil => trivial
  | cons token tokens ih =>
      obtain ⟨⟨directory, hdirectory, hsome⟩, hrest⟩ := hleads
      have hdirectory' := hdirectory.congr fun cluster hmem =>
        hsame cluster (hdirectory.range cluster hmem).2
      exact ⟨⟨directory, hdirectory', hsome⟩, fun read i dirent hlookup =>
        ih (hrest read i dirent hlookup)⟩

/-- Directories that have their clusters in the table on one of two volumes that agree
have them on the other. -/
theorem Agree.leads {table : ℕ → ℕ} {vol' : Volume} {walk : Walk} {tokens : List CString}
    (hagree : Agree bpb clusters table vol vol')
    (hleads : Leads root clusters table vol walk tokens) :
    Leads root clusters table vol' walk tokens := by
  induction tokens generalizing vol vol' walk with
  | nil => trivial
  | cons token tokens ih =>
      obtain ⟨⟨directory, hdirectory, hsome⟩, hrest⟩ := hleads
      refine ⟨⟨directory, hdirectory, hsome⟩, ?_⟩
      intro read' i dirent hlookup'
      rcases @Agree.lookup bpb clusters table vol vol' directory root walk.parent token hagree
        hdirectory hsome with ⟨read, read'', found, hlookup, hsame, hnext⟩ | ⟨-, hnone⟩
      · obtain ⟨rfl, rfl⟩ := Prod.mk.inj (Option.some.inj (hsame.symm.trans hlookup'))
        exact ih hnext (hrest read i dirent hlookup)
      · rw [hnone] at hlookup'
        cases hlookup'

end Entry

end KimisOS.Fat32
