import Mathlib

/-!
# Keys of the modules

A module gets a key when it registers.  The low byte of the key is meant to be
the place of its record in the registry, which the calls that install and
remove interrupt handlers take it for.
-/

namespace KimisOS.Modules

/-- `module_t`, as far as the calls below use it. -/
structure Module where
  id : ℕ
  interrupts : ℕ
  key : ℕ
  messageHandler : ℕ
  deriving DecidableEq

/-- The vector of the records, and the table of interrupt handlers.  The vector
is one page, which has room for 102 records. -/
structure Registry where
  modules : List Module
  irqHandlers : ℕ → ℕ

def Registry.size (registry : Registry) : ℕ := registry.modules.length

/-- `modules_init`. -/
def Registry.empty : Registry := ⟨[], fun _ => 0⟩

/-- The key that is computed in 64 bits, stored in 32 bits, and masked. -/
def moduleKey (size tmp : ℕ) : ℕ :=
  (((size ^^^ 190507) + ((tmp <<< 12) % 2 ^ 32 ^^^ 4405648937 ^^^ (8592807313 >>> 5))) %
    2 ^ 32) &&& (0xffffff00 ||| size)

/-- `MODULE_API_REGISTER`: the key is stored in the module's own record, which is
copied to the registry.  `tmp` is the frame that `pm_alloc` returns. -/
def moduleApiRegister (registry : Registry) (module : Module) (tmp : ℕ) :
    Registry × Module :=
  let module := { module with key := moduleKey registry.size tmp }
  ({ registry with modules := registry.modules ++ [module] }, module)

/-- The place that `vector_get` is asked for. -/
def recordIndex (key : ℕ) : ℕ := key &&& 0xff

def Registry.set (registry : Registry) (i : ℕ) (record : Module) : Registry :=
  { registry with modules := registry.modules.set i record }

/-- `MODULE_API_ADDINT`: the new registry and the returned number, or `none`
when the key leads to no record. -/
def moduleApiAddint (registry : Registry) (intIndex key handler : ℕ) :
    Option (Registry × ℤ) :=
  if 16 ≤ intIndex then some (registry, -1)
  else
    match registry.modules[recordIndex key]? with
    | none => none
    | some tmpmodule =>
        let registry :=
          { registry with irqHandlers := Function.update registry.irqHandlers intIndex handler }
        some (registry.set (recordIndex key)
          { tmpmodule with interrupts := tmpmodule.interrupts ||| 1 <<< intIndex }, 0)

/-- `MODULE_API_DELINT`. -/
def moduleApiDelint (registry : Registry) (intIndex key : ℕ) : Option (Registry × ℤ) :=
  match registry.modules[recordIndex key]? with
  | none => none
  | some tmpmodule =>
      if key = tmpmodule.key then
        let registry :=
          { registry with irqHandlers := Function.update registry.irqHandlers intIndex 0 }
        some (registry.set (recordIndex key)
          { tmpmodule with
            interrupts := tmpmodule.interrupts &&& (2 ^ 32 - 1 - (1 <<< intIndex) % 2 ^ 32) },
          0)
      else some (registry, -1)

/-- `MODULE_MESSAGE_HANDLER`: the first record with the key. -/
def moduleMessageHandler (registry : Registry) (key handler : ℕ) : Registry × ℤ :=
  match registry.modules.findIdx? fun module => module.key == key with
  | none => (registry, -1)
  | some i =>
      match registry.modules[i]? with
      | none => (registry, -1)
      | some module => (registry.set i { module with messageHandler := handler }, 0)

/-- A number of registrations, each with the frame it is given: the registry
and the modules with their keys. -/
def registerAll : Registry → List (Module × ℕ) → Registry × List Module
  | registry, [] => (registry, [])
  | registry, (module, tmp) :: calls =>
      let registered := moduleApiRegister registry module tmp
      let rest := registerAll registered.1 calls
      (rest.1, registered.2 :: rest.2)

/-! ## What a key is for -/

/-- The calls of the module in place `i` act on its own record. -/
structure ActsOnOwn (registry : Registry) (i : ℕ) (module : Module) : Prop where
  messageHandler : ∀ handler, moduleMessageHandler registry module.key handler =
    (registry.set i { module with messageHandler := handler }, 0)
  addint : ∀ intIndex < 16, ∀ handler, moduleApiAddint registry intIndex module.key handler =
    some (({ registry with
      irqHandlers := Function.update registry.irqHandlers intIndex handler }).set i
        { module with interrupts := module.interrupts ||| 1 <<< intIndex }, 0)
  delint : ∀ intIndex < 16, moduleApiDelint registry intIndex module.key =
    some (({ registry with
      irqHandlers := Function.update registry.irqHandlers intIndex 0 }).set i
        { module with
          interrupts := module.interrupts &&& (2 ^ 32 - 1 - (1 <<< intIndex) % 2 ^ 32) }, 0)

/-- The keys are different, each leads to the record of its module, and the
calls that are given a key act on that record. -/
structure KeysIdentify (registry : Registry) (modules : List Module) : Prop where
  distinct : (modules.map Module.key).Nodup
  record : ∀ (i : ℕ) (module : Module), modules[i]? = some module →
    recordIndex module.key = i ∧ registry.modules[recordIndex module.key]? = some module
  own : ∀ (i : ℕ) (module : Module), modules[i]? = some module →
    ActsOnOwn registry i module

/-! ## The low byte of a key -/

/-- The frame does not reach the low byte. -/
theorem moduleKey_low {size : ℕ} (hsize : size < 256) (tmp : ℕ) :
    moduleKey size tmp &&& 0xff = ((size ^^^ 0x2b) + 0x85) % 256 &&& size := by
  have hframe : tmp <<< 12 % 2 ^ 32 % 2 ^ 8 = 0 := by
    rw [Nat.shiftLeft_eq]
    omega
  have hsum : ((size ^^^ 190507) + (tmp <<< 12 % 2 ^ 32 ^^^ 4405648937 ^^^
      (8592807313 >>> 5))) % 2 ^ 32 % 2 ^ 8 = ((size ^^^ 0x2b) + 0x85) % 2 ^ 8 := by
    have hleft : (size ^^^ 190507) % 2 ^ 8 = (size ^^^ 0x2b) % 2 ^ 8 := by
      rw [Nat.xor_mod_two_pow, Nat.xor_mod_two_pow]
    have hright : (tmp <<< 12 % 2 ^ 32 ^^^ 4405648937 ^^^ (8592807313 >>> 5)) % 2 ^ 8 =
        0x85 := by
      rw [Nat.xor_mod_two_pow, Nat.xor_mod_two_pow, hframe]
      decide
    omega
  have hmask : (0xffffff00 ||| size) % 2 ^ 8 = size := by
    rw [Nat.or_mod_two_pow, Nat.mod_eq_of_lt (show size < 2 ^ 8 from hsize)]
    exact Nat.zero_or size
  calc moduleKey size tmp &&& 0xff = moduleKey size tmp % 2 ^ 8 :=
        Nat.and_two_pow_sub_one_eq_mod _ 8
    _ = ((size ^^^ 0x2b) + 0x85) % 256 &&& size := by
        rw [moduleKey, Nat.and_mod_two_pow, hsum, hmask]
        rfl

/-- The first three records are found by their keys, the fourth is not. -/
theorem recordIndex_moduleKey (tmp : ℕ) :
    recordIndex (moduleKey 0 tmp) = 0 ∧ recordIndex (moduleKey 1 tmp) = 1 ∧
      recordIndex (moduleKey 2 tmp) = 2 ∧ recordIndex (moduleKey 3 tmp) = 1 := by
  simp only [recordIndex]
  rw [moduleKey_low (by decide), moduleKey_low (by decide), moduleKey_low (by decide),
    moduleKey_low (by decide)]
  decide

/-! ## The registry after some registrations -/

section Registrations

variable {registry : Registry} {calls : List (Module × ℕ)} {modules : List Module}

theorem registerAll_modules (registry : Registry) (calls : List (Module × ℕ)) :
    (registerAll registry calls).1.modules =
      registry.modules ++ (registerAll registry calls).2 := by
  induction calls generalizing registry with
  | nil => exact (List.append_nil _).symm
  | cons call calls ih =>
      obtain ⟨module, tmp⟩ := call
      rw [registerAll, ih, moduleApiRegister]
      rw [List.append_assoc, List.singleton_append]

@[simp]
theorem registerAll_length (registry : Registry) (calls : List (Module × ℕ)) :
    (registerAll registry calls).2.length = calls.length := by
  induction calls generalizing registry with
  | nil => rfl
  | cons call calls ih =>
      obtain ⟨module, tmp⟩ := call
      rw [registerAll, List.length_cons, List.length_cons, ih]

/-- The key of each module is computed from its place and its frame. -/
theorem registerAll_key {i : ℕ} {module : Module}
    (hmodule : (registerAll registry calls).2[i]? = some module) :
    ∃ tmp, module.key = moduleKey (registry.size + i) tmp := by
  induction calls generalizing registry i with
  | nil => cases hmodule
  | cons call calls ih =>
      obtain ⟨first, tmp⟩ := call
      rw [registerAll] at hmodule
      dsimp only at hmodule
      cases i with
      | zero =>
          rw [List.getElem?_cons_zero] at hmodule
          rw [← Option.some.inj hmodule]
          exact ⟨tmp, rfl⟩
      | succ i =>
          rw [List.getElem?_cons_succ] at hmodule
          obtain ⟨frame, hkey⟩ := ih hmodule
          refine ⟨frame, ?_⟩
          rw [hkey, moduleApiRegister, Registry.size, Registry.size]
          dsimp only
          rw [List.length_append, List.length_singleton]
          congr 1
          omega

/-- A module whose key leads to its record acts on that record. -/
theorem actsOnOwn {i : ℕ} {module : Module} (hat : registry.modules[i]? = some module)
    (hindex : recordIndex module.key = i)
    (hfirst : ∀ j other, registry.modules[j]? = some other → other.key = module.key →
      j = i) : ActsOnOwn registry i module := by
  have hlt := (List.getElem?_eq_some_iff.mp hat).1
  have hfind : registry.modules.findIdx? (fun other => other.key == module.key) =
      some i := by
    rw [List.findIdx?_eq_some_iff_getElem]
    refine ⟨hlt, ?_, ?_⟩
    · rw [(List.getElem?_eq_some_iff.mp hat).2]
      exact beq_self_eq_true _
    · intro j hj hkey
      have hsame := hfirst j _ (List.getElem?_eq_getElem (hj.trans hlt))
        (beq_iff_eq.mp hkey)
      omega
  constructor
  · intro handler
    rw [moduleMessageHandler, hfind]
    dsimp only
    rw [hat]
  · intro intIndex hintIndex handler
    rw [moduleApiAddint, if_neg (by omega), hindex, hat]
  · intro intIndex _
    rw [moduleApiDelint, hindex, hat]
    dsimp only
    rw [if_pos rfl]

end Registrations

/-- The keys identify the modules as long as there are no more than three, for
whatever frames `pm_alloc` returns. -/
theorem keysIdentify_iff (calls : List (Module × ℕ)) (hpage : calls.length ≤ 102) :
    KeysIdentify (registerAll .empty calls).1 (registerAll .empty calls).2 ↔
      calls.length ≤ 3 := by
  have hlength := registerAll_length .empty calls
  have hrecords := registerAll_modules .empty calls
  rw [show Registry.empty.modules = [] from rfl, List.nil_append] at hrecords
  constructor
  · intro hidentify
    by_contra hmore
    obtain ⟨module, hmodule⟩ : ∃ module,
        (registerAll .empty calls).2[3]? = some module :=
      ⟨_, List.getElem?_eq_getElem (by omega)⟩
    obtain ⟨tmp, hkey⟩ := registerAll_key hmodule
    have hindex := (hidentify.record 3 module hmodule).1
    rw [hkey, show Registry.empty.size + 3 = 3 from rfl, (recordIndex_moduleKey tmp).2.2.2]
      at hindex
    cases hindex
  · intro hfew
    have hindex : ∀ (i : ℕ) (module : Module),
        (registerAll .empty calls).2[i]? = some module → recordIndex module.key = i := by
      intro i module hmodule
      have hlt := (List.getElem?_eq_some_iff.mp hmodule).1
      obtain ⟨tmp, hkey⟩ := registerAll_key hmodule
      have hlow := recordIndex_moduleKey tmp
      rw [hkey, show Registry.empty.size + i = i from Nat.zero_add i]
      have hi : i < 3 := by omega
      interval_cases i
      · exact hlow.1
      · exact hlow.2.1
      · exact hlow.2.2.1
    constructor
    · rw [List.nodup_iff_injective_getElem]
      intro i j hsame
      dsimp only at hsame
      rw [List.getElem_map, List.getElem_map] at hsame
      have hplace : ∀ k : Fin ((registerAll .empty calls).2.map Module.key).length,
          k.val < (registerAll .empty calls).2.length := by
        intro k
        rw [← List.length_map Module.key]
        exact k.isLt
      have hi := hindex i _ (List.getElem?_eq_getElem (hplace i))
      rw [hsame] at hi
      exact Fin.ext (hi.symm.trans (hindex j _ (List.getElem?_eq_getElem (hplace j))))
    · intro i module hmodule
      refine ⟨hindex i module hmodule, ?_⟩
      rw [hindex i module hmodule, hrecords]
      exact hmodule
    · intro i module hmodule
      apply actsOnOwn (by rw [hrecords]; exact hmodule) (hindex i module hmodule)
      intro j other hother hkey
      rw [hrecords] at hother
      rw [← hindex j other hother, hkey, hindex i module hmodule]

/-- A registration with the frame at 5 pages. -/
def registration (id : ℕ) : Module × ℕ := (⟨id, 0, 0, 0⟩, 0x5000)

theorem keysIdentify_three :
    KeysIdentify (registerAll .empty [registration 1, registration 2, registration 3]).1
      (registerAll .empty [registration 1, registration 2, registration 3]).2 :=
  (keysIdentify_iff [registration 1, registration 2, registration 3] (by decide)).mpr
    (by decide)

/-- The key of the fourth module leads to the record of the second. -/
theorem keysIdentify_four :
    ¬KeysIdentify (registerAll .empty ((List.range 4).map registration)).1
      (registerAll .empty ((List.range 4).map registration)).2 := by
  intro hidentify
  have hindex := (hidentify.record 3 ⟨3, 0, moduleKey 3 0x5000, 0⟩ rfl).1
  rw [(recordIndex_moduleKey 0x5000).2.2.2] at hindex
  cases hindex

end KimisOS.Modules
