import KimisOS.Core.ByteStore

/-!
# A place for the kernel

`get_mmap` stores the memory map of the BIOS, entry behind entry, with a zero behind
the last one.  `find_kpaddr` goes through it from the second entry on and takes the
first one that is free and large enough; it compares the lengths as signed numbers.
-/

namespace KimisOS.KernelAddress

open KimisOS.ByteStore

/-! ## The memory map -/

/-- `memory_map_ptr`, which is `es` of `get_mmap` times 16. -/
def memoryMapPtr : ℕ := 0x2000

/-- The bytes that `di` reaches. -/
def segmentSize : ℕ := 0x10000

/-- An entry of the map. -/
structure MapEntry where
  base : ℕ
  length : ℕ
  type : ℕ
deriving DecidableEq

/-- The entry lies at the address, its numbers in 8, 8 and 4 bytes. -/
structure EntryAt (mem : ℕ → UInt8) (a : ℕ) (entry : MapEntry) : Prop where
  base : readU32 mem a + 2 ^ 32 * readU32 mem (a + 4) = entry.base
  length : readU32 mem (a + 8) + 2 ^ 32 * readU32 mem (a + 12) = entry.length
  type : readU32 mem (a + 16) = entry.type

/-- The entries lie behind each other, with a zero in the place of a further one. -/
def EntriesAt (mem : ℕ → UInt8) : ℕ → List MapEntry → Prop
  | a, [] => readU32 mem a = 0
  | a, entry :: entries => EntryAt mem a entry ∧ EntriesAt mem (a + 24) entries

/-- The map as `get_mmap` leaves it. -/
structure MapStored (mem : ℕ → UInt8) (entries : List MapEntry) : Prop where
  inOrder : EntriesAt mem memoryMapPtr entries
  fits : 24 * entries.length + 24 ≤ segmentSize

/-! ## `get_mmap` -/

/-- An answer of the BIOS: 24 bytes at `es:di`, and `ebx`, zero with the last entry. -/
structure Answer where
  bytes : ℕ → UInt8
  ebx : ℕ

/-- The memory and the registers of `.get_map`. -/
structure MapState where
  mem : ℕ → UInt8
  di : ℕ
  si : ℕ

/-- `[es:di + offset]` -/
def MapState.place (state : MapState) (offset : ℕ) : ℕ :=
  memoryMapPtr + (state.di + offset) % segmentSize

/-- `.get_map`; an answer `none` sets the carry flag. -/
def getMap : MapState → List (Option Answer) → Option MapState
  | _, [] => none
  | state, none :: _ => some state
  | state, some answer :: answers =>
      let mem := store state.mem (state.place 0) answer.bytes 24
      if readU32 mem (state.place 8) ||| readU32 mem (state.place 16) = 0 then
        getMap { state with mem := mem } answers
      else
        let next : MapState :=
          { mem := writeU32 mem (state.place 20) (readU32 mem (state.place 20) ||| 1)
            di := (state.di + 24) % segmentSize
            si := (state.si + 1) % 2 ^ 16 }
        if answer.ebx = 0 then some next else getMap next answers

/-- The memory behind `get_mmap`, `memory_map_count` and `ax`. -/
structure Mmap where
  mem : ℕ → UInt8
  memoryMapCount : ℕ
  ax : ℕ

def getMmap (mem : ℕ → UInt8) (answers : List (Option Answer)) : Option Mmap :=
  (getMap ⟨mem, 0, 0⟩ answers).map fun state =>
    if state.si = 0 then ⟨state.mem, 0, 1⟩
    else ⟨writeU32 state.mem (state.place 0) 0, state.si, 0⟩

/-! ## `find_kpaddr` -/

/-- How `find_kpaddr` ends: with `kload_paddr` and `kernel_physical_size`, or in the
loop behind the message `E4`. -/
inductive Outcome where
  | found (kloadPaddr kernelPhysicalSize : ℕ)
  | error4
deriving DecidableEq

/-- The jump behind `cmp eax, edx`. -/
def Jge (eax edx : ℕ) : Prop := (BitVec.ofNat 32 edx).toInt ≤ (BitVec.ofNat 32 eax).toInt

instance (eax edx : ℕ) : Decidable (Jge eax edx) := inferInstanceAs (Decidable (_ ≤ _))

/-- `.sloop` with the size in `edx`; `[esi + ecx]` is the entry that it looks at. -/
def sloop (mem : ℕ → UInt8) (edx esi : ℕ) : ℕ → ℕ → Option Outcome
  | 0, _ => none
  | rounds + 1, ecx =>
      if Jge (readU32 mem ((esi + ecx + 8) % 2 ^ 32)) edx ∧
          readU32 mem ((esi + ecx + 16) % 2 ^ 32) = 1 then
        some (.found (readU32 mem ((esi + ecx) % 2 ^ 32)) edx)
      else
        let ecx := (ecx + 24) % 2 ^ 32
        if readU32 mem ((esi + ecx) % 2 ^ 32) = 0 then some .error4
        else sloop mem edx esi rounds ecx

def findKpaddr (mem : ℕ → UInt8) (rounds edx : ℕ) : Option Outcome :=
  sloop mem edx memoryMapPtr rounds 24

/-! ## What `get_mmap` leaves -/

/-- The numbers of an entry among 24 bytes. -/
def entryOf (bytes : ℕ → UInt8) : MapEntry where
  base := readU32 bytes 0 + 2 ^ 32 * readU32 bytes 4
  length := readU32 bytes 8 + 2 ^ 32 * readU32 bytes 12
  type := readU32 bytes 16

/-- The answers that are kept: those up to the carry flag or the last entry, without
the ones of no length and no type. -/
def kept : List (Option Answer) → List MapEntry
  | [] => []
  | none :: _ => []
  | some answer :: answers =>
      if readU32 answer.bytes 8 ||| readU32 answer.bytes 16 = 0 then kept answers
      else if answer.ebx = 0 then [entryOf answer.bytes]
      else entryOf answer.bytes :: kept answers

section GetMap

variable {mem mem' : ℕ → UInt8} {a : ℕ} {entry : MapEntry} {entries : List MapEntry}
  {state final : MapState} {answers : List (Option Answer)}

theorem EntryAt.congr (hentry : EntryAt mem a entry)
    (hsame : ∀ b, a ≤ b → b < a + 24 → mem' b = mem b) : EntryAt mem' a entry := by
  have hword : ∀ offset, offset + 4 ≤ 24 →
      readU32 mem' (a + offset) = readU32 mem (a + offset) := by
    intro offset hoffset
    apply readU32_congr
    intro k hk
    exact hsame _ (by omega) (by omega)
  have hfirst := hword 0 (by decide)
  rw [Nat.add_zero] at hfirst
  constructor
  · rw [hfirst, hword 4 (by decide), hentry.base]
  · rw [hword 8 (by decide), hword 12 (by decide), hentry.length]
  · rw [hword 16 (by decide), hentry.type]

/-- The state with an entry more. -/
def MapState.push (state : MapState) (answer : Answer) : MapState :=
  let mem := store state.mem (state.place 0) answer.bytes 24
  { mem := writeU32 mem (state.place 20) (readU32 mem (state.place 20) ||| 1)
    di := (state.di + 24) % segmentSize
    si := (state.si + 1) % 2 ^ 16 }

theorem MapState.place_eq {offset : ℕ} (hplace : state.di + offset < segmentSize) :
    state.place offset = memoryMapPtr + state.di + offset := by
  rw [MapState.place, Nat.mod_eq_of_lt hplace, Nat.add_assoc]

theorem push_entryAt (answer : Answer) (hplace : state.di + 24 < segmentSize) :
    EntryAt (state.push answer).mem (memoryMapPtr + state.di) (entryOf answer.bytes) := by
  have hword : ∀ offset, offset + 4 ≤ 20 →
      readU32 (state.push answer).mem (memoryMapPtr + state.di + offset) =
        readU32 answer.bytes offset := by
    intro offset hoffset
    have hpush : (state.push answer).mem = writeU32
        (store state.mem (memoryMapPtr + state.di) answer.bytes 24)
        (memoryMapPtr + state.di + 20)
        (readU32 (store state.mem (memoryMapPtr + state.di) answer.bytes 24)
          (memoryMapPtr + state.di + 20) ||| 1) := by
      rw [MapState.push, MapState.place_eq (by omega), MapState.place_eq (by omega),
        Nat.add_zero]
    rw [hpush, readU32_writeU32_of_disjoint (by omega), readU32_store_inside (by omega)]
  have hfirst := hword 0 (by decide)
  rw [Nat.add_zero] at hfirst
  constructor
  · rw [hfirst, hword 4 (by decide)]
    rfl
  · rw [hword 8 (by decide), hword 12 (by decide)]
    rfl
  · exact hword 16 (by decide)

/-- A round of `.get_map` that is answered. -/
theorem getMap_some (answer : Answer) (hplace : state.di + 24 < segmentSize) :
    getMap state (some answer :: answers) =
      if readU32 answer.bytes 8 ||| readU32 answer.bytes 16 = 0 then
        getMap { state with mem := store state.mem (memoryMapPtr + state.di) answer.bytes 24 }
          answers
      else if answer.ebx = 0 then some (state.push answer)
      else getMap (state.push answer) answers := by
  have hinside : ∀ offset, offset + 4 ≤ 24 →
      readU32 (store state.mem (state.place 0) answer.bytes 24) (state.place offset) =
        readU32 answer.bytes offset := by
    intro offset hoffset
    rw [MapState.place_eq (by omega), MapState.place_eq (by omega), Nat.add_zero,
      readU32_store_inside hoffset]
  have hcode : getMap state (some answer :: answers) =
      if readU32 (store state.mem (state.place 0) answer.bytes 24) (state.place 8) |||
          readU32 (store state.mem (state.place 0) answer.bytes 24) (state.place 16) = 0 then
        getMap { state with mem := store state.mem (state.place 0) answer.bytes 24 } answers
      else if answer.ebx = 0 then some (state.push answer)
      else getMap (state.push answer) answers := rfl
  rw [hcode, hinside 8 (by decide), hinside 16 (by decide), MapState.place_eq (by omega),
    Nat.add_zero]

/-- What a run of `.get_map` has added to a map: the entries lie in what is in front of
`di`, and nothing in front of the place where it began has changed. -/
structure Adds (state final : MapState) (entries : List MapEntry) : Prop where
  di : final.di = state.di + 24 * entries.length
  si : final.si = (state.si + entries.length) % 2 ^ 16
  before : ∀ a < memoryMapPtr + state.di, final.mem a = state.mem a
  entries : ∀ mem, (∀ a < memoryMapPtr + final.di, mem a = final.mem a) →
    readU32 mem (memoryMapPtr + final.di) = 0 →
      EntriesAt mem (memoryMapPtr + state.di) entries

theorem Adds.nil (hsi : state.si < 2 ^ 16) : Adds state state [] where
  di := rfl
  si := (Nat.mod_eq_of_lt hsi).symm
  before _ _ := rfl
  entries _ _ hzero := hzero

/-- An entry, and then the others. -/
theorem Adds.cons {answer : Answer} (hplace : state.di + 24 < segmentSize)
    (hadds : Adds (state.push answer) final entries) :
    Adds state final (entryOf answer.bytes :: entries) := by
  have hdi : (state.push answer).di = state.di + 24 := Nat.mod_eq_of_lt hplace
  have hfinal := hadds.di
  rw [hdi] at hfinal
  constructor
  · rw [hfinal, List.length_cons]
    omega
  · rw [hadds.si, List.length_cons]
    change ((state.si + 1) % 2 ^ 16 + entries.length) % 2 ^ 16 = _
    omega
  · intro a ha
    rw [hadds.before a (by omega)]
    change writeU32 (store state.mem (state.place 0) answer.bytes 24) (state.place 20) _ a = _
    rw [MapState.place_eq (by omega), MapState.place_eq (by omega), writeU32,
      store_outside (by omega), store_outside (by omega)]
  · intro mem hsame hzero
    refine ⟨(push_entryAt answer hplace).congr ?_, ?_⟩
    · intro b hlow hhigh
      rw [hsame b (by omega), hadds.before b (by omega)]
    · have hrest := hadds.entries mem hsame hzero
      rw [hdi] at hrest
      exact hrest

theorem getMap_adds (hfinal : getMap state answers = some final) (hsi : state.si < 2 ^ 16)
    (hplace : state.di + 24 * (kept answers).length + 24 < segmentSize) :
    Adds state final (kept answers) := by
  induction answers generalizing state with
  | nil => cases hfinal
  | cons answer answers ih =>
      cases answer with
      | none =>
          obtain rfl := Option.some.inj hfinal
          exact Adds.nil hsi
      | some answer =>
          rw [getMap_some answer (by omega)] at hfinal
          rw [kept] at hplace ⊢
          by_cases hskip : readU32 answer.bytes 8 ||| readU32 answer.bytes 16 = 0
          · rw [if_pos hskip] at hfinal hplace ⊢
            obtain ⟨hdi, hsi', hbefore, hentries⟩ := ih hfinal hsi hplace
            refine ⟨hdi, hsi', ?_, hentries⟩
            intro a ha
            rw [hbefore a ha]
            exact store_outside (Or.inl ha)
          · rw [if_neg hskip] at hfinal hplace ⊢
            have hpush : (state.push answer).si < 2 ^ 16 := Nat.mod_lt _ (by decide)
            by_cases hlast : answer.ebx = 0
            · rw [if_pos hlast] at hfinal hplace ⊢
              rw [List.length_singleton] at hplace
              obtain rfl := Option.some.inj hfinal
              exact Adds.cons (by omega) (Adds.nil hpush)
            · rw [if_neg hlast] at hfinal hplace ⊢
              rw [List.length_cons] at hplace
              have hdi : (state.push answer).di = state.di + 24 :=
                Nat.mod_eq_of_lt (by omega)
              exact Adds.cons (by omega) (ih hfinal hpush (by omega))

/-- `get_mmap` leaves the entries that it keeps. -/
theorem getMmap_stored {mmap : Mmap} (hmmap : getMmap mem answers = some mmap)
    (hsome : kept answers ≠ []) (hfits : 24 * (kept answers).length + 24 ≤ segmentSize) :
    MapStored mmap.mem (kept answers) ∧ mmap.memoryMapCount = (kept answers).length ∧
      mmap.ax = 0 := by
  have hsegment : segmentSize = 0x10000 := rfl
  obtain ⟨final, hfinal, rfl⟩ := Option.map_eq_some_iff.mp hmmap
  obtain ⟨hdi, hsi, -, hentries⟩ := getMap_adds hfinal (show 0 < 2 ^ 16 by decide)
    (show 0 + 24 * (kept answers).length + 24 < segmentSize by omega)
  dsimp only at hdi hsi hentries
  have hpos := List.length_pos_iff.mpr hsome
  have hcount : final.si = (kept answers).length := by
    rw [hsi, Nat.zero_add]
    exact Nat.mod_eq_of_lt (by omega)
  have hend : final.place 0 = memoryMapPtr + final.di := MapState.place_eq (by omega)
  rw [if_neg (by omega), hend]
  refine ⟨⟨hentries _ ?_ (readU32_writeU32_self _ _ _), hfits⟩, hcount, rfl⟩
  intro a ha
  change writeU32 final.mem (memoryMapPtr + final.di) 0 a = final.mem a
  rw [writeU32, store_outside (Or.inl ha)]

end GetMap

/-! ## What it should find -/

/-- A map of two entries or more, with numbers of 32 bits, of which only the first one
may start at zero. -/
structure Usual (entries : List MapEntry) : Prop where
  two : 2 ≤ entries.length
  below : ∀ entry ∈ entries, entry.base < 2 ^ 32 ∧ entry.length < 2 ^ 32
  bases : ∀ entry ∈ entries.tail, entry.base ≠ 0

/-- Free and large enough. -/
def Suits (size : ℕ) (entry : MapEntry) : Prop := entry.type = 1 ∧ size ≤ entry.length

/-- The same, with a length that is positive as a signed number. -/
def SuitsSigned (size : ℕ) (entry : MapEntry) : Prop :=
  Suits size entry ∧ entry.length < 2 ^ 31

instance (size : ℕ) (entry : MapEntry) : Decidable (Suits size entry) :=
  inferInstanceAs (Decidable (_ ∧ _))
instance (size : ℕ) (entry : MapEntry) : Decidable (SuitsSigned size entry) :=
  inferInstanceAs (Decidable (_ ∧ _))

/-- The first entry behind the first one that suits. -/
def firstSuiting (entries : List MapEntry) (size : ℕ) : Option MapEntry :=
  entries.tail.find? fun entry => decide (Suits size entry)

def firstSigned (entries : List MapEntry) (size : ℕ) : Option MapEntry :=
  entries.tail.find? fun entry => decide (SuitsSigned size entry)

/-- `find_kpaddr` ends; it takes the first entry that suits, and reports an error only
without one. -/
structure FindsMemory (mem : ℕ → UInt8) (entries : List MapEntry) (size : ℕ) : Prop where
  ends : ∃ rounds outcome, findKpaddr mem rounds size = some outcome
  found : ∀ entry, firstSuiting entries size = some entry →
    ∃ rounds, findKpaddr mem rounds size = some (.found entry.base size)
  error : ∀ rounds, findKpaddr mem rounds size = some .error4 →
    firstSuiting entries size = none

/-- The first entry that suits is smaller than 2 GiB, or the first such one that is
starts at the same address. -/
def SmallFirst (entries : List MapEntry) (size : ℕ) : Prop :=
  ∀ entry, firstSuiting entries size = some entry → entry.length < 2 ^ 31 ∨
    ∃ other, firstSigned entries size = some other ∧ other.base = entry.base

/-! ## The scan -/

section Scan

variable {mem mem' : ℕ → UInt8} {a size rounds : ℕ} {entry : MapEntry}
  {entries : List MapEntry}

theorem jge_iff {eax edx : ℕ} (heax : eax < 2 ^ 32) (hedx : edx < 2 ^ 31) :
    Jge eax edx ↔ edx ≤ eax ∧ eax < 2 ^ 31 := by
  have hsmall : (BitVec.ofNat 32 edx).toInt = edx := by
    rw [BitVec.toInt_eq_toNat_cond, BitVec.toNat_ofNat, Nat.mod_eq_of_lt (by omega),
      if_pos (by omega)]
  rw [Jge, hsmall, BitVec.toInt_eq_toNat_cond, BitVec.toNat_ofNat, Nat.mod_eq_of_lt heax]
  split
  case isTrue hlow => omega
  case isFalse hhigh => omega

/-- What the scan ends with. -/
def outcomeOf (size : ℕ) : Option MapEntry → Outcome
  | some entry => .found entry.base size
  | none => .error4

theorem EntriesAt.head (hentries : EntriesAt mem a entries)
    (hbases : ∀ entry ∈ entries, entry.base ≠ 0)
    (hbelow : ∀ entry ∈ entries, entry.base < 2 ^ 32) :
    readU32 mem a = 0 ↔ entries = [] := by
  cases entries with
  | nil => exact iff_of_true hentries rfl
  | cons entry entries =>
      refine iff_of_false ?_ (List.cons_ne_nil _ _)
      intro hzero
      have hbase := hentries.1.base
      have hne := hbases entry List.mem_cons_self
      have hlow := hbelow entry List.mem_cons_self
      omega

/-- A round: the entry is taken, or the next base ends the scan, or it goes on. -/
theorem sloop_round {ecx : ℕ} (hentry : EntryAt mem (memoryMapPtr + ecx) entry)
    (hplace : ecx + 24 < 2 ^ 31) (hbase : entry.base < 2 ^ 32)
    (hlength : entry.length < 2 ^ 32) (hsize : size < 2 ^ 31) :
    sloop mem size memoryMapPtr (rounds + 1) ecx =
      if SuitsSigned size entry then some (.found entry.base size)
      else if readU32 mem (memoryMapPtr + ecx + 24) = 0 then some .error4
      else sloop mem size memoryMapPtr rounds (ecx + 24) := by
  have hpointer : memoryMapPtr = 0x2000 := rfl
  have hfirst := hentry.base
  have hsecond := hentry.length
  have hbase' : readU32 mem (memoryMapPtr + ecx) = entry.base := by omega
  have hlength' : readU32 mem (memoryMapPtr + ecx + 8) = entry.length := by omega
  have htest : Jge entry.length size ∧ entry.type = 1 ↔ SuitsSigned size entry := by
    rw [jge_iff hlength hsize, SuitsSigned, Suits]
    tauto
  rw [sloop, Nat.mod_eq_of_lt (show memoryMapPtr + ecx + 8 < 2 ^ 32 by omega),
    Nat.mod_eq_of_lt (show memoryMapPtr + ecx + 16 < 2 ^ 32 by omega),
    Nat.mod_eq_of_lt (show memoryMapPtr + ecx < 2 ^ 32 by omega),
    Nat.mod_eq_of_lt (show ecx + 24 < 2 ^ 32 by omega)]
  dsimp only
  rw [Nat.mod_eq_of_lt (show memoryMapPtr + (ecx + 24) < 2 ^ 32 by omega), hbase', hlength',
    hentry.type, ← Nat.add_assoc]
  exact if_congr htest rfl rfl

/-- The scan takes the first entry that suits when its length is read as a signed
number. -/
theorem sloop_eq {ecx : ℕ} (hentries : EntriesAt mem (memoryMapPtr + ecx) (entry :: entries))
    (hfits : ecx + 24 * (entries.length + 1) < 2 ^ 31)
    (hbelow : ∀ other ∈ entry :: entries, other.base < 2 ^ 32 ∧ other.length < 2 ^ 32)
    (hbases : ∀ other ∈ entries, other.base ≠ 0) (hsize : size < 2 ^ 31)
    (hrounds : entries.length < rounds) :
    sloop mem size memoryMapPtr rounds ecx = some (outcomeOf size
      ((entry :: entries).find? fun other => decide (SuitsSigned size other))) := by
  induction entries generalizing ecx entry rounds with
  | nil =>
      obtain ⟨rounds, rfl⟩ := Nat.exists_eq_add_of_lt hrounds
      obtain ⟨hbase, hlength⟩ := hbelow entry List.mem_cons_self
      rw [List.length_nil] at hfits
      rw [sloop_round hentries.1 (by omega) hbase hlength hsize, List.find?_cons]
      by_cases hsuits : SuitsSigned size entry
      · rw [if_pos hsuits, decide_eq_true hsuits]
        rfl
      · rw [if_neg hsuits, decide_eq_false hsuits]
        exact if_pos hentries.2
  | cons next entries ih =>
      obtain ⟨rounds, rfl⟩ := Nat.exists_eq_add_of_lt (Nat.zero_lt_of_lt hrounds)
      obtain ⟨hbase, hlength⟩ := hbelow entry List.mem_cons_self
      rw [List.length_cons] at hfits hrounds
      have hnext : readU32 mem (memoryMapPtr + ecx + 24) ≠ 0 := by
        have hhead := hentries.2.head hbases
          fun other hother => (hbelow other (List.mem_cons_of_mem _ hother)).1
        exact mt hhead.mp (List.cons_ne_nil _ _)
      rw [sloop_round hentries.1 (by omega) hbase hlength hsize, List.find?_cons]
      by_cases hsuits : SuitsSigned size entry
      · rw [if_pos hsuits, decide_eq_true hsuits]
        rfl
      · rw [if_neg hsuits, decide_eq_false hsuits, if_neg hnext]
        exact ih hentries.2 (by omega)
          (fun other hother => hbelow other (List.mem_cons_of_mem _ hother))
          (fun other hother => hbases other (List.mem_cons_of_mem _ hother)) (by omega)

/-- More rounds end in the same way. -/
theorem sloop_more {esi more ecx : ℕ} {outcome : Outcome}
    (hends : sloop mem size esi rounds ecx = some outcome) :
    sloop mem size esi (rounds + more) ecx = some outcome := by
  induction rounds generalizing ecx with
  | zero => cases hends
  | succ rounds ih =>
      rw [Nat.add_right_comm, sloop]
      rw [sloop] at hends
      split
      case isTrue htaken => rwa [if_pos htaken] at hends
      case isFalse hnext =>
        rw [if_neg hnext] at hends
        dsimp only at hends ⊢
        split
        case isTrue hzero => rwa [if_pos hzero] at hends
        case isFalse hgo =>
          rw [if_neg hgo] at hends
          exact ih hends

theorem findKpaddr_unique {rounds rounds' : ℕ} {outcome outcome' : Outcome}
    (hends : findKpaddr mem rounds size = some outcome)
    (hends' : findKpaddr mem rounds' size = some outcome') : outcome = outcome' := by
  have hmore := @sloop_more mem size rounds memoryMapPtr rounds' 24 outcome hends
  have hmore' := @sloop_more mem size rounds' memoryMapPtr rounds 24 outcome' hends'
  rw [Nat.add_comm, hmore] at hmore'
  exact Option.some.inj hmore'

theorem findKpaddr_eq (hstored : MapStored mem entries) (husual : Usual entries)
    (hsize : size < 2 ^ 31) :
    ∃ rounds, findKpaddr mem rounds size = some (outcomeOf size (firstSigned entries size)) := by
  obtain ⟨inOrder, fits⟩ := hstored
  obtain ⟨two, below, bases⟩ := husual
  match entries with
  | [] => exact absurd two (by decide)
  | [_] => exact absurd two (by simp)
  | first :: second :: rest =>
      have hsegment : segmentSize = 0x10000 := rfl
      rw [List.length_cons, List.length_cons, hsegment] at fits
      refine ⟨rest.length + 1, sloop_eq inOrder.2 (by omega)
        (fun other hother => below other (List.mem_cons_of_mem _ hother))
        (fun other hother => bases other (List.mem_cons_of_mem _ hother)) hsize
        (Nat.lt_succ_self _)⟩

/-- Behind the first entry that suits there may be one that the scan takes. -/
theorem firstSigned_of_small (hfirst : firstSuiting entries size = some entry)
    (hsmall : entry.length < 2 ^ 31) : firstSigned entries size = some entry := by
  obtain ⟨hsuits, before, after, hsplit, hbefore⟩ := List.find?_eq_some_iff_append.mp hfirst
  refine List.find?_eq_some_iff_append.mpr ⟨?_, before, after, hsplit, ?_⟩
  · exact decide_eq_true ⟨of_decide_eq_true hsuits, hsmall⟩
  · intro other hother
    have hnot := hbefore other hother
    rw [Bool.not_eq_true', decide_eq_false_iff_not] at hnot ⊢
    exact fun hsigned => hnot hsigned.1

/-- `find_kpaddr` takes the first entry that suits, if it is smaller than 2 GiB. -/
theorem findKpaddr_findsMemory_iff (hstored : MapStored mem entries)
    (husual : Usual entries) (hsize : size < 2 ^ 31) :
    FindsMemory mem entries size ↔ SmallFirst entries size := by
  obtain ⟨rounds, hends⟩ := findKpaddr_eq hstored husual hsize
  constructor
  · intro hfinds entry hfirst
    obtain ⟨rounds', hfound⟩ := hfinds.found entry hfirst
    have hsame := findKpaddr_unique hends hfound
    cases hsigned : firstSigned entries size with
    | none =>
        rw [hsigned] at hsame
        cases hsame
    | some other =>
        rw [hsigned] at hsame
        exact Or.inr ⟨other, rfl, (Outcome.found.inj hsame).1⟩
  · intro hsmall
    have hsigned : ∀ entry, firstSuiting entries size = some entry →
        ∃ other, firstSigned entries size = some other ∧ other.base = entry.base := by
      intro entry hfirst
      rcases hsmall entry hfirst with hlow | hother
      · exact ⟨entry, firstSigned_of_small hfirst hlow, rfl⟩
      · exact hother
    refine ⟨⟨rounds, _, hends⟩, ?_, ?_⟩
    · intro entry hfirst
      obtain ⟨other, hother, hbase⟩ := hsigned entry hfirst
      refine ⟨rounds, ?_⟩
      rw [hends, hother, ← hbase]
      rfl
    · intro rounds' herror
      have hsame := findKpaddr_unique hends herror
      by_contra hsome
      obtain ⟨entry, hfirst⟩ := Option.ne_none_iff_exists'.mp hsome
      obtain ⟨other, hother, -⟩ := hsigned entry hfirst
      rw [hother] at hsame
      cases hsame

end Scan

/-- The bytes of an entry. -/
def writeEntry (mem : ℕ → UInt8) (a : ℕ) (entry : MapEntry) : ℕ → UInt8 :=
  writeU32 (writeU32 (writeU32 mem a entry.base) (a + 8) entry.length) (a + 16) entry.type

/-- A machine with memory below 640 KiB and a region of some length from 1 MiB on. -/
def twoRegions (length : ℕ) : List MapEntry := [⟨0, 0x9fc00, 1⟩, ⟨0x100000, length, 1⟩]

def twoRegionsMem (length : ℕ) : ℕ → UInt8 :=
  writeEntry (writeEntry (fun _ => 0) 0x2000 ⟨0, 0x9fc00, 1⟩) 0x2018 ⟨0x100000, length, 1⟩

theorem twoRegions_stored {length : ℕ} (hlength : length < 2 ^ 32) :
    MapStored (twoRegionsMem length) (twoRegions length) := by
  have hself : ∀ mem address value, readU32 (writeU32 mem address value) address =
      value % 2 ^ 32 := readU32_writeU32_self
  have hlow : EntryAt (twoRegionsMem length) 0x2000 ⟨0, 0x9fc00, 1⟩ := by
    constructor
    all_goals
      simp (disch := decide) only [twoRegionsMem, writeEntry, readU32_writeU32_of_disjoint,
        hself]
      rfl
  have hhigh : EntryAt (twoRegionsMem length) 0x2018 ⟨0x100000, length, 1⟩ := by
    constructor
    all_goals
      simp (disch := decide) only [twoRegionsMem, writeEntry, readU32_writeU32_of_disjoint,
        hself, Nat.mod_eq_of_lt hlength]
      rfl
  have hend : readU32 (twoRegionsMem length) 0x2030 = 0 := by
    simp (disch := decide) only [twoRegionsMem, writeEntry, readU32_writeU32_of_disjoint]
    rfl
  exact ⟨⟨hlow, hhigh, hend⟩, show 24 * 2 + 24 ≤ segmentSize by decide⟩

theorem twoRegions_usual {length : ℕ} (hlength : length < 2 ^ 32) :
    Usual (twoRegions length) := by
  refine ⟨le_refl 2, ?_, ?_⟩
  · intro entry hentry
    rcases List.mem_pair.mp hentry with rfl | rfl
    · decide
    · exact ⟨show 0x100000 < 2 ^ 32 by decide, hlength⟩
  · intro entry hentry
    obtain rfl := List.mem_singleton.mp hentry
    exact show 0x100000 ≠ 0 by decide

theorem findsMemory_smallRegion :
    FindsMemory (twoRegionsMem 0x7ee0000) (twoRegions 0x7ee0000) 0x80000 := by
  refine (findKpaddr_findsMemory_iff (twoRegions_stored (by decide))
    (twoRegions_usual (by decide)) (by decide)).mpr ?_
  intro entry hfirst
  cases hfirst
  exact Or.inl (by decide)

/-- A region of nearly 3 GiB is passed over. -/
theorem findsMemory_largeRegion :
    ¬ ∀ mem entries size, MapStored mem entries → Usual entries → 1 ≤ size → size < 2 ^ 31 →
      FindsMemory mem entries size := by
  intro hall
  have hfinds := hall _ _ 0x80000 (@twoRegions_stored 0xbfee0000 (by decide))
    (twoRegions_usual (by decide)) (by decide) (by decide)
  have herror : findKpaddr (twoRegionsMem 0xbfee0000) 1 0x80000 = some .error4 := by decide
  exact absurd (hfinds.error 1 herror) (by decide)

end KimisOS.KernelAddress
