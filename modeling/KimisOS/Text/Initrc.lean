import KimisOS.Core.Scan
import KimisOS.Text.Numbers
import KimisOS.Vfs.Pci

/-!
# Reading the start script

`initrc_read` goes through the file with one index that all of its loops share.  Some
of them look at the size, some at the end of a buffer and some at neither.  The model
has no result where the code reads behind the file or writes behind a buffer; the file
and the buffers fit into the address space together, so that no index wraps.
-/

namespace KimisOS.Initrc

open KimisOS.Fat32 (CString)
open KimisOS.Vfs (cstr)
open KimisOS.Scan

variable {World File : Type*}

/-! ## The characters -/

def space : UInt8 := 32
def tab : UInt8 := 9
def newline : UInt8 := 10
def hash : UInt8 := 35
def letterX : UInt8 := 120
def zero : UInt8 := 48

/-- The value of a `char`. -/
def signed (c : UInt8) : ℤ := c.toInt8.toInt

def isBlank (c : UInt8) : Bool := c = space ∨ c = tab ∨ c = newline
def inWord (c : UInt8) : Bool := c ≠ space ∧ c ≠ newline ∧ c ≠ 0
def inComment (c : UInt8) : Bool := c ≠ newline ∧ c ≠ 0
def echoed (c : UInt8) : Bool := c ≠ newline ∧ c ≠ 0 ∧ c ≠ hash
def skipped (c : UInt8) : Bool := signed c ≤ 32
def printable (c : UInt8) : Bool := 32 < signed c ∧ c ≠ hash

def isNum (c : UInt8) : Bool :=
  if signed c < 48 ∨ (57 < signed c ∧ signed c < 97) then false
  else if 102 < signed c then false
  else true

def isDigit (c : UInt8) : Bool := inWord c && isNum c

/-! ## `initrc_read` -/

/-- What the commands call.  `exec` comes back with a system, for one where there is no
such program, or leaves for the program and never comes back. -/
structure Environment (World File : Type*) where
  fopen : World → CString → World × Option File
  moduleStart : World → File → World
  mountFs : World → File → CString → ℕ → World
  exec : World → CString → Option World
  heapInit : World → World

/-- The size of `statement` and of the buffers of the commands. -/
def bufferSize : ℕ := 512

/-- The zero behind the string that was copied into a buffer. -/
def terminate (copied : Option (CString × ℕ)) : Option (CString × ℕ) :=
  copied.bind fun (string, i) =>
    if string.length < bufferSize then some (string, i) else none

/-- `while(ptr[i] != '\n'){ i++; if(i >= size) return; } i++;` -/
def endLine (ptr : List UInt8) (i : ℕ) : Option (Option ℕ) :=
  if hlt : i < ptr.length then
    if ptr[i] = newline then some (some (i + 1))
    else if ptr.length ≤ i + 1 then some none
    else endLine ptr (i + 1)
  else none
termination_by ptr.length - i

/-- The end of a command that left `world`. -/
def afterLine (ptr : List UInt8) (world : World) (i : ℕ) : Option (Option (World × ℕ)) :=
  (endLine ptr i).map (Option.map (Prod.mk world))

/-- `MODULE`: a file that is not found leaves the rest of the line to the next round. -/
def moduleCommand (env : Environment World File) (ptr : List UInt8) (world : World)
    (i : ℕ) : Option (Option (World × ℕ)) :=
  (terminate (copyUpTo inWord ptr bufferSize (i + 1))).bind fun (moduleName, i) =>
    match env.fopen world moduleName with
    | (world, none) => some (some (world, i))
    | (world, some file) => afterLine ptr (env.moduleStart world file) i

/-- `atoi` of a string in a buffer of its own. -/
def atoiOf (string : CString) (base : ℕ) : Option ℕ :=
  Text.atoi (fun k => string.getD k 0) bufferSize 0 base

/-- The base of a number, and where its digits start. -/
def numberBase (ptr : List UInt8) (i : ℕ) : Option (ℕ × ℕ) :=
  ptr[i + 1]?.bind fun second =>
    if second = letterX then some (16, i + 2)
    else
      ptr[i]?.bind fun first =>
        if first = zero ∧ second = zero then some (8, i + 2) else some (10, i)

/-- The offset of `MOUNT`, when a space follows the destination. -/
def mountOffset (ptr : List UInt8) (i : ℕ) : Option (ℕ × ℕ) :=
  ptr[i]?.bind fun c =>
    if c = space then
      (numberBase ptr (i + 1)).bind fun (base, i) =>
        (terminate (copyUpTo isDigit ptr bufferSize i)).bind fun (atoiStr, i) =>
          (atoiOf atoiStr base).map (·, i)
    else some (0, i)

/-- `MOUNT`: the loop over the destination does not look at the end of its buffer. -/
def mountCommand (env : Environment World File) (ptr : List UInt8) (world : World)
    (i : ℕ) : Option (Option (World × ℕ)) :=
  (terminate (copyUpTo inWord ptr bufferSize (i + 1))).bind fun (mountSrcName, i) =>
    (terminate (copyWhile inWord ptr bufferSize (i + 1))).bind fun (mountDest, i) =>
      (mountOffset ptr i).bind fun (offset, i) =>
        match env.fopen world mountSrcName with
        | (world, none) => some (some (world, i))
        | (world, some toMount) => afterLine ptr (env.mountFs world toMount mountDest offset) i

/-- `EXEC`: when the program is started nothing more is read. -/
def execCommand (env : Environment World File) (ptr : List UInt8) (world : World)
    (i : ℕ) : Option (Option (World × ℕ)) :=
  (skipWhile skipped ptr i).bind fun i =>
    (copyBelow printable ptr (bufferSize - 1) i).bind fun (srcFile, i) =>
      match env.exec world srcFile with
      | none => some none
      | some world => afterLine ptr world i

/-- What follows on a statement.  `some none` is the return, the start of a program, or
the halt of the handler of `int $6` for a statement that is not known. -/
def command (env : Environment World File) (ptr : List UInt8) (world : World)
    (statement : CString) (i : ℕ) : Option (Option (World × ℕ)) :=
  if statement.head? = some hash then (skipWhile inComment ptr i).bind (afterLine ptr world)
  else if statement = cstr "ECHO" then
    (skipWhile echoed ptr (i + 1)).bind (afterLine ptr world)
  else if statement = cstr "MODULE" then moduleCommand env ptr world i
  else if statement = cstr "MOUNT" then mountCommand env ptr world i
  else if statement = cstr "CONFIG" then afterLine ptr world i
  else if statement = cstr "EXEC" then execCommand env ptr world i
  else if statement = cstr "SYSINIT" then afterLine ptr (env.heapInit world) i
  else some none

/-- The variables of `initrc_read`, and the system around it. -/
structure Reader (World : Type*) where
  world : World
  i : ℕ
  statement : CString

/-- A round of the outer loop. -/
def round (env : Environment World File) (ptr : List UInt8) (reader : Reader World) :
    Option (Option (Reader World)) :=
  if reader.statement = cstr "END" then some none
  else
    (skipWhile isBlank ptr reader.i).bind fun i =>
      (terminate (copyWhile inWord ptr bufferSize i)).bind fun (statement, i) =>
        (command env ptr reader.world statement i).map
          (Option.map fun (world, i) => ⟨world, i, statement⟩)

/-- What the first rounds come to. -/
def rounds (env : Environment World File) (ptr : List UInt8) :
    ℕ → Reader World → Option (Option (Reader World))
  | 0, reader => some (some reader)
  | count + 1, reader =>
      match round env ptr reader with
      | none => none
      | some none => some none
      | some (some reader) => rounds env ptr count reader

/-- `initrc_read` of the file at `ptr`, with `stack` in `statement` at the start: every
read and every write is inside. -/
def MemorySafe (env : Environment World File) (ptr : List UInt8) (world : World)
    (stack : CString) : Prop :=
  ∀ count, rounds env ptr count ⟨world, 0, stack⟩ ≠ none

/-- The string ends in front of the end of the buffer. -/
theorem atoiOf_total {string : CString} (base : ℕ) (hlt : string.length < bufferSize) :
    ∃ offset, atoiOf string base = some offset := by
  have hfrom : ∀ count str total, str ≤ string.length → string.length < str + count →
      ∃ offset, Text.atoiFrom (fun k => string.getD k 0) base count str total =
        some offset := by
    intro count
    induction count with
    | zero =>
        intro str total hle hlt
        omega
    | succ count ih =>
        intro str total hle hlt
        rw [Text.atoiFrom]
        split_ifs with hzero
        · exact ⟨total, rfl⟩
        · have hstr : str ≠ string.length := by
            rintro rfl
            exact hzero (by simp)
          exact ih _ _ (by omega) (by omega)
  exact hfrom bufferSize 0 0 (Nat.zero_le _) (by omega)

/-! ## Scripts -/

/-- The line ends at once behind its newline, or the file ends in it. -/
inductive LineEnd : List UInt8 → Option (List UInt8) → Prop
  | last {text : List UInt8} : newline ∉ text → LineEnd text none
  | line {text behind rest : List UInt8} :
      text = behind ++ newline :: rest → newline ∉ behind → LineEnd text (some rest)

/-- The base that the first two characters give, and the digits. -/
inductive Based : List UInt8 → ℕ → List UInt8 → Prop
  | hexadecimal {first : UInt8} {rest : List UInt8} :
      Based (first :: letterX :: rest) 16 rest
  | octal {rest : List UInt8} : Based (zero :: zero :: rest) 8 rest
  | decimal {first second : UInt8} {rest : List UInt8} :
      second ≠ letterX → ¬ (first = zero ∧ second = zero) →
        Based (first :: second :: rest) 10 (first :: second :: rest)

/-- A string that is followed by something else and fits into a buffer. -/
def Field (more : UInt8 → Bool) (text string rest : List UInt8) : Prop :=
  string.length < bufferSize ∧ Stops more text string rest

/-- What may follow on the destination of `MOUNT`. -/
inductive Offset : List UInt8 → ℕ → List UInt8 → Prop
  | absent {c : UInt8} {rest : List UInt8} : c ≠ space → Offset (c :: rest) 0 (c :: rest)
  | number {text digits string rest : List UInt8} {base offset : ℕ} :
      Based text base digits → Field isDigit digits string rest →
        atoiOf string base = some offset → Offset (space :: text) offset rest

/-- What is left behind a command that leaves `world`. -/
def Done (world : World) (rest : List UInt8) (left : Option (World × List UInt8)) : Prop :=
  ∃ next, LineEnd rest next ∧ next.map (Prod.mk world) = left

/-- What is left behind a command that opens a file: the rest of the line itself, when
there is no file. -/
inductive Opened (env : Environment World File) (world : World) (name : CString)
    (use : World → File → World) (rest : List UInt8) : Option (World × List UInt8) → Prop
  | missing {world' : World} :
      env.fopen world name = (world', none) →
        Opened env world name use rest (some (world', rest))
  | found {world' : World} {file : File} {left : Option (World × List UInt8)} :
      env.fopen world name = (world', some file) → Done (use world' file) rest left →
        Opened env world name use rest left

/-- What `EXEC` takes for the name: the whole of it, or what fits. -/
def ExecName (text name rest : List UInt8) : Prop :=
  name.length < bufferSize - 1 ∧ Stops printable text name rest ∨
    name.length = bufferSize - 1 ∧ Passes printable text name rest

/-- What is left behind `EXEC`: nothing, when the program is started. -/
inductive Executed (env : Environment World File) (world : World) (name : CString)
    (rest : List UInt8) : Option (World × List UInt8) → Prop
  | started : env.exec world name = none → Executed env world name rest none
  | returned {world' : World} {left : Option (World × List UInt8)} :
      env.exec world name = some world' → Done world' rest left →
        Executed env world name rest left

/-- The statements that `initrc_read` goes on after. -/
def keywords : List CString :=
  ["ECHO", "MODULE", "MOUNT", "CONFIG", "EXEC", "SYSINIT"].map cstr

/-- A statement with what follows on it, and what is left for the next round with the
world it finds. -/
inductive Command (env : Environment World File) (world : World) :
    CString → List UInt8 → Option (World × List UInt8) → Prop
  | comment {statement text run rest : List UInt8} {left : Option (World × List UInt8)} :
      statement.head? = some hash → Stops inComment text run rest → Done world rest left →
        Command env world statement text left
  | echo {text run rest : List UInt8} {left : Option (World × List UInt8)} :
      Stops echoed text.tail run rest → Done world rest left →
        Command env world (cstr "ECHO") text left
  | startModule {text name rest : List UInt8} {left : Option (World × List UInt8)} :
      Field inWord text.tail name rest → Opened env world name env.moduleStart rest left →
        Command env world (cstr "MODULE") text left
  | mount {text source middle dest behind rest : List UInt8} {offset : ℕ}
      {left : Option (World × List UInt8)} :
      Field inWord text.tail source middle → Field inWord middle.tail dest behind →
        Offset behind offset rest →
          Opened env world source (fun world file => env.mountFs world file dest offset)
            rest left →
            Command env world (cstr "MOUNT") text left
  | config {text : List UInt8} {left : Option (World × List UInt8)} :
      Done world text left → Command env world (cstr "CONFIG") text left
  | exec {text blank middle name rest : List UInt8} {left : Option (World × List UInt8)} :
      Stops skipped text blank middle → ExecName middle name rest →
        Executed env world name rest left → Command env world (cstr "EXEC") text left
  | sysinit {text : List UInt8} {left : Option (World × List UInt8)} :
      Done (env.heapInit world) text left → Command env world (cstr "SYSINIT") text left
  | stop {statement text : List UInt8} :
      statement.head? ≠ some hash →
        statement ∉ keywords →
          Command env world statement text none

/-- The blanks in front of a statement, the statement and its command. -/
def Statement (env : Environment World File) (world : World) (text : List UInt8)
    (next : Option (World × List UInt8)) : Prop :=
  ∃ blank start statement rest,
    Stops isBlank text blank start ∧ Field inWord start statement rest ∧
      Command env world statement rest next

/-- A text that is read statement after statement up to one that ends the reading. -/
inductive Script (env : Environment World File) : World → List UInt8 → Prop
  | last {world : World} {text : List UInt8} :
      Statement env world text none → Script env world text
  | next {world world' : World} {text rest : List UInt8} :
      Statement env world text (some (world', rest)) → Script env world' rest →
        Script env world text

/-! ## The loops and what they pass -/

variable {ptr : List UInt8} {i k : ℕ} {string rest : List UInt8} {more : UInt8 → Bool}

theorem terminate_eq_some_iff {copied : Option (CString × ℕ)} :
    terminate copied = some (string, k) ↔
      string.length < bufferSize ∧ copied = some (string, k) := by
  constructor
  · intro hterminate
    obtain ⟨⟨string', k'⟩, hcopied, hfits⟩ := Option.bind_eq_some_iff.mp hterminate
    dsimp only at hfits
    split at hfits
    · rename_i hlt
      obtain ⟨rfl, rfl⟩ := Prod.mk.inj (Option.some.inj hfits)
      exact ⟨hlt, hcopied⟩
    · cases hfits
  · rintro ⟨hlt, rfl⟩
    exact if_pos hlt

/-- Where `result` is a value and an index, `R` holds of the value and the text from the
index on, and the other way round. -/
structure Scans {α : Type*} (ptr : List UInt8) (result : Option (α × ℕ))
    (R : α → List UInt8 → Prop) : Prop where
  sound : ∀ {a k}, result = some (a, k) → R a (ptr.drop k)
  complete : ∀ {a rest}, R a rest → ∃ k, result = some (a, k) ∧ ptr.drop k = rest

theorem copyUpTo_scans :
    Scans ptr (terminate (copyUpTo more ptr bufferSize i)) (Field more (ptr.drop i)) where
  sound := by
    intro string k hcopied
    obtain ⟨hlt, hcopied⟩ := terminate_eq_some_iff.mp hcopied
    exact ⟨hlt, ((copyUpTo_eq_some_iff hlt).mp hcopied).2⟩
  complete := by
    rintro string rest ⟨hlt, hstops⟩
    have hdrop := hstops.drop
    refine ⟨i + string.length, terminate_eq_some_iff.mpr ⟨hlt, ?_⟩, hdrop⟩
    exact (copyUpTo_eq_some_iff hlt).mpr ⟨rfl, hdrop.symm ▸ hstops⟩

theorem copyWhile_scans :
    Scans ptr (terminate (copyWhile more ptr bufferSize i)) (Field more (ptr.drop i)) where
  sound := by
    intro string k hcopied
    obtain ⟨hlt, hcopied⟩ := terminate_eq_some_iff.mp hcopied
    exact ⟨hlt, (copyWhile_eq_some_iff.mp hcopied).2.2⟩
  complete := by
    rintro string rest ⟨hlt, hstops⟩
    have hdrop := hstops.drop
    refine ⟨i + string.length, terminate_eq_some_iff.mpr ⟨hlt, ?_⟩, hdrop⟩
    exact copyWhile_eq_some_iff.mpr ⟨hlt.le, rfl, hdrop.symm ▸ hstops⟩

theorem copyBelow_scans :
    Scans ptr (copyBelow printable ptr (bufferSize - 1) i) (ExecName (ptr.drop i)) where
  sound := fun hcopied => (copyBelow_eq_some_iff.mp hcopied).2
  complete := by
    intro string rest hends
    have hdrop : ptr.drop (i + string.length) = rest := by
      have hsplit : ptr.drop i = string ++ rest := by
        rcases hends with ⟨_, hstops⟩ | ⟨_, hpasses⟩
        · exact hstops.split
        · exact hpasses.split
      rw [← List.drop_drop, hsplit, List.drop_left]
    exact ⟨i + string.length, copyBelow_eq_some_iff.mpr ⟨rfl, hdrop.symm ▸ hends⟩, hdrop⟩

theorem Field.ne_nil {text : List UInt8} (hfield : Field more text string rest) : rest ≠ [] :=
  hfield.2.ne_nil

theorem ExecName.ne_nil {text : List UInt8} (hname : ExecName text string rest) :
    rest ≠ [] := by
  rcases hname with ⟨_, hstops⟩ | ⟨_, hpasses⟩
  · exact hstops.ne_nil
  · exact hpasses.inside

/-- The index stands for the text from there on. -/
def view (ptr : List UInt8) (next : Option (World × ℕ)) : Option (World × List UInt8) :=
  next.map (Prod.map id ptr.drop)

/-- Every access is inside, and `left` is what is left. -/
def Yields (ptr : List UInt8) (result : Option (Option (World × ℕ)))
    (left : Option (World × List UInt8)) : Prop :=
  ∃ next, result = some next ∧ view ptr next = left

theorem yields_some {next : Option (World × ℕ)} {left : Option (World × List UInt8)} :
    Yields ptr (some next) left ↔ view ptr next = left := by
  simp [Yields]

theorem yields_bind {α : Type*} {result : Option α} {f : α → Option (Option (World × ℕ))}
    {left : Option (World × List UInt8)} :
    Yields ptr (result.bind f) left ↔ ∃ a, result = some a ∧ Yields ptr (f a) left := by
  constructor
  · rintro ⟨next, hbind, hview⟩
    obtain ⟨a, hresult, hf⟩ := Option.bind_eq_some_iff.mp hbind
    exact ⟨a, hresult, next, hf, hview⟩
  · rintro ⟨a, rfl, next, hf, hview⟩
    exact ⟨next, hf, hview⟩

theorem LineEnd.cons {c : UInt8} {text : List UInt8} {next : Option (List UInt8)}
    (hc : c ≠ newline) (hend : LineEnd text next) : LineEnd (c :: text) next := by
  cases hend with
  | last hnone =>
      refine LineEnd.last ?_
      intro hmem
      rcases List.mem_cons.mp hmem with heq | hmem
      · exact hc heq.symm
      · exact hnone hmem
  | @line behind rest hsplit hnone =>
      refine @LineEnd.line _ (c :: behind) rest (by rw [hsplit, List.cons_append]) ?_
      intro hmem
      rcases List.mem_cons.mp hmem with heq | hmem
      · exact hc heq.symm
      · exact hnone hmem

theorem LineEnd.unique {text : List UInt8} {next next' : Option (List UInt8)}
    (hend : LineEnd text next) (hend' : LineEnd text next') : next = next' := by
  have hlast : ∀ {behind rest : List UInt8}, newline ∉ text →
      text ≠ behind ++ newline :: rest := by
    intro behind rest hnone hsplit
    exact hnone (by simp [hsplit])
  cases hend with
  | last hnone =>
      cases hend' with
      | last _ => rfl
      | line hsplit _ => exact absurd hsplit (hlast hnone)
  | @line behind rest hsplit hnone =>
      cases hend' with
      | last hnone' => exact absurd hsplit (hlast hnone')
      | @line behind' rest' hsplit' hnone' =>
          have hstops : Stops (· ≠ newline) text behind (newline :: rest) :=
            ⟨hsplit, fun c hc => decide_eq_true (ne_of_mem_of_not_mem hc hnone), newline, rest,
              rfl, by simp⟩
          have hstops' : Stops (· ≠ newline) text behind' (newline :: rest') :=
            ⟨hsplit', fun c hc => decide_eq_true (ne_of_mem_of_not_mem hc hnone'), newline, rest',
              rfl, by simp⟩
          rw [(List.cons.inj (hstops.unique hstops').2).2]

theorem endLine_lineEnd (hlt : i < ptr.length) :
    ∃ next, endLine ptr i = some next ∧ LineEnd (ptr.drop i) (next.map ptr.drop) := by
  fun_induction endLine ptr i with
  | case1 i _ hnewline =>
      refine ⟨some (i + 1), rfl, @LineEnd.line _ [] _ ?_ List.not_mem_nil⟩
      rw [List.drop_eq_getElem_cons hlt, hnewline, List.nil_append]
  | case2 i _ hnewline hlast =>
      refine ⟨none, rfl, LineEnd.last ?_⟩
      rw [List.drop_eq_getElem_cons hlt, List.drop_eq_nil_of_le hlast, List.mem_singleton]
      exact fun heq => hnewline heq.symm
  | case3 i _ hnewline hlast ih =>
      obtain ⟨next, hnext, hend⟩ := ih (not_le.mp hlast)
      refine ⟨next, hnext, ?_⟩
      rw [List.drop_eq_getElem_cons hlt]
      exact hend.cons hnewline
  | case4 i hge => exact absurd hlt hge

theorem afterLine_yields {world : World} {left : Option (World × List UInt8)}
    (hinside : ptr.drop i ≠ []) :
    Yields ptr (afterLine ptr world i) left ↔ Done world (ptr.drop i) left := by
  have hlt : i < ptr.length := not_le.mp fun hle => hinside (List.drop_eq_nil_of_le hle)
  obtain ⟨next, hnext, hend⟩ := endLine_lineEnd hlt
  have hview : view ptr (next.map (Prod.mk world)) = (next.map ptr.drop).map (Prod.mk world) := by
    cases next <;> rfl
  rw [afterLine, hnext, Option.map_some, yields_some, hview]
  constructor
  · intro hleft
    exact ⟨next.map ptr.drop, hend, hleft⟩
  · rintro ⟨next', hend', hleft⟩
    rw [hend.unique hend', hleft]

/-! ## The commands -/

variable {env : Environment World File} {world : World}
  {left : Option (World × List UInt8)}

theorem Scans.yields_bind {α : Type*} {result : Option (α × ℕ)}
    {R Q : α → List UInt8 → Prop} {f : α × ℕ → Option (Option (World × ℕ))}
    (hscans : Scans ptr result R) (hinside : ∀ {a rest}, R a rest → rest ≠ [])
    (hf : ∀ a k, ptr.drop k ≠ [] → (Yields ptr (f (a, k)) left ↔ Q a (ptr.drop k))) :
    Yields ptr (result.bind f) left ↔ ∃ a rest, R a rest ∧ Q a rest := by
  rw [Initrc.yields_bind]
  constructor
  · rintro ⟨⟨a, k⟩, hresult, hyields⟩
    have hR := hscans.sound hresult
    exact ⟨a, ptr.drop k, hR, (hf a k (hinside hR)).mp hyields⟩
  · rintro ⟨a, rest, hR, hQ⟩
    obtain ⟨k, hresult, rfl⟩ := hscans.complete hR
    exact ⟨(a, k), hresult, (hf a k (hinside hR)).mpr hQ⟩

theorem skipWhile_yields {f : ℕ → Option (Option (World × ℕ))} {Q : List UInt8 → Prop}
    (hf : ∀ k, ptr.drop k ≠ [] → (Yields ptr (f k) left ↔ Q (ptr.drop k))) :
    Yields ptr ((skipWhile more ptr i).bind f) left ↔
      ∃ run rest, Stops more (ptr.drop i) run rest ∧ Q rest := by
  rw [yields_bind]
  constructor
  · rintro ⟨k, hskip, hyields⟩
    obtain ⟨run, _, hstops⟩ := skipWhile_eq_some_iff.mp hskip
    exact ⟨run, ptr.drop k, hstops, (hf k hstops.ne_nil).mp hyields⟩
  · rintro ⟨run, rest, hstops, hQ⟩
    obtain rfl := hstops.drop
    exact ⟨i + run.length, skipWhile_eq_some_iff.mpr ⟨run, rfl, hstops⟩,
      (hf _ hstops.ne_nil).mpr hQ⟩

theorem opened_yields {name : CString} {use : World → File → World}
    (hinside : ptr.drop i ≠ []) :
    Yields ptr
        (match env.fopen world name with
          | (world, none) => some (some (world, i))
          | (world, some file) => afterLine ptr (use world file) i) left ↔
      Opened env world name use (ptr.drop i) left := by
  rcases hopen : env.fopen world name with ⟨world', _ | file⟩
  · dsimp only
    rw [yields_some]
    constructor
    · rintro rfl
      exact Opened.missing hopen
    · rintro (hmissing | ⟨hfound, _⟩)
      · obtain ⟨rfl, _⟩ := Prod.mk.inj (hopen.symm.trans hmissing)
        rfl
      · cases hopen.symm.trans hfound
  · dsimp only
    rw [afterLine_yields hinside]
    constructor
    · intro hdone
      exact Opened.found hopen hdone
    · rintro (hmissing | ⟨hfound, hdone⟩)
      · cases hopen.symm.trans hmissing
      · obtain ⟨rfl, hfile⟩ := Prod.mk.inj (hopen.symm.trans hfound)
        obtain rfl := Option.some.inj hfile
        exact hdone

theorem moduleCommand_yields :
    Yields ptr (moduleCommand env ptr world i) left ↔
      ∃ name rest, Field inWord (ptr.drop i).tail name rest ∧
        Opened env world name env.moduleStart rest left := by
  rw [List.tail_drop]
  exact copyUpTo_scans.yields_bind Field.ne_nil fun _ _ hinside => opened_yields hinside

theorem numberBase_scans : Scans ptr (numberBase ptr i) (Based (ptr.drop i)) where
  sound := by
    intro base k hbase
    obtain ⟨second, hsecond, hbase⟩ := Option.bind_eq_some_iff.mp hbase
    have hlt : i < ptr.length :=
      (Nat.lt_succ_self i).trans (List.getElem?_eq_some_iff.mp hsecond).1
    have hdrop : ptr.drop i = ptr[i] :: second :: ptr.drop (i + 2) := by
      rw [List.drop_eq_getElem_cons hlt, drop_of_getElem? hsecond]
    have hfirst : ptr[i]? = some ptr[i] := List.getElem?_eq_getElem hlt
    rw [hdrop]
    split at hbase
    · rename_i hx
      obtain ⟨rfl, rfl⟩ := Prod.mk.inj (Option.some.inj hbase)
      rw [hx]
      exact Based.hexadecimal
    · rename_i hx
      rw [hfirst, Option.bind_some] at hbase
      split at hbase
      · rename_i hzeros
        obtain ⟨rfl, rfl⟩ := Prod.mk.inj (Option.some.inj hbase)
        rw [hzeros.1, hzeros.2]
        exact Based.octal
      · rename_i hzeros
        obtain ⟨rfl, rfl⟩ := Prod.mk.inj (Option.some.inj hbase)
        rw [hdrop]
        exact Based.decimal hx hzeros
  complete := by
    intro base rest hbased
    generalize htext : ptr.drop i = text at hbased
    have hat : ∀ {first second : UInt8} {behind : List UInt8},
        ptr.drop i = first :: second :: behind →
          ptr[i]? = some first ∧ ptr[i + 1]? = some second ∧ ptr.drop (i + 2) = behind := by
      intro first second behind hdrop
      obtain ⟨hfirst, hdrop⟩ := getElem?_of_drop hdrop
      exact ⟨hfirst, getElem?_of_drop hdrop⟩
    cases hbased with
    | hexadecimal =>
        obtain ⟨_, hsecond, hbehind⟩ := hat htext
        exact ⟨i + 2, by rw [numberBase, hsecond, Option.bind_some, if_pos rfl], hbehind⟩
    | octal =>
        obtain ⟨hfirst, hsecond, hbehind⟩ := hat htext
        refine ⟨i + 2, ?_, hbehind⟩
        rw [numberBase, hsecond, Option.bind_some, if_neg (by decide), hfirst,
          Option.bind_some, if_pos ⟨rfl, rfl⟩]
    | decimal hx hzeros =>
        obtain ⟨hfirst, hsecond, _⟩ := hat htext
        refine ⟨i, ?_, htext⟩
        rw [numberBase, hsecond, Option.bind_some, if_neg hx, hfirst, Option.bind_some,
          if_neg hzeros]

theorem mountOffset_scans : Scans ptr (mountOffset ptr i) (Offset (ptr.drop i)) where
  sound := by
    intro offset k hoffset
    obtain ⟨c, hc, hoffset⟩ := Option.bind_eq_some_iff.mp hoffset
    rw [drop_of_getElem? hc]
    split at hoffset
    · rename_i hspace
      obtain ⟨⟨base, start⟩, hbase, hoffset⟩ := Option.bind_eq_some_iff.mp hoffset
      obtain ⟨⟨string, stop⟩, hstring, hoffset⟩ := Option.bind_eq_some_iff.mp hoffset
      obtain ⟨offset', hatoi, hpair⟩ := Option.map_eq_some_iff.mp hoffset
      obtain ⟨rfl, rfl⟩ := Prod.mk.inj hpair
      rw [hspace]
      exact Offset.number (numberBase_scans.sound hbase) (copyUpTo_scans.sound hstring) hatoi
    · rename_i hspace
      obtain ⟨rfl, rfl⟩ := Prod.mk.inj (Option.some.inj hoffset)
      rw [drop_of_getElem? hc]
      exact Offset.absent hspace
  complete := by
    intro offset rest hoffset
    generalize htext : ptr.drop i = text at hoffset
    cases hoffset with
    | absent hspace =>
        obtain ⟨hc, _⟩ := getElem?_of_drop htext
        exact ⟨i, by rw [mountOffset, hc, Option.bind_some, if_neg hspace], htext⟩
    | number hbased hfield hatoi =>
        obtain ⟨hc, hbehind⟩ := getElem?_of_drop htext
        rw [← hbehind] at hbased
        obtain ⟨start, hstart, hdigits⟩ := numberBase_scans.complete hbased
        rw [← hdigits] at hfield
        obtain ⟨stop, hstop, hrest⟩ := copyUpTo_scans.complete hfield
        refine ⟨stop, ?_, hrest⟩
        rw [mountOffset, hc, Option.bind_some, if_pos rfl, hstart, Option.bind_some]
        dsimp only
        rw [hstop, Option.bind_some]
        dsimp only
        rw [hatoi, Option.map_some]

theorem Offset.ne_nil {text : List UInt8} {offset : ℕ} (hoffset : Offset text offset rest) :
    rest ≠ [] := by
  cases hoffset with
  | absent _ => exact List.cons_ne_nil _ _
  | number _ hfield _ => exact hfield.ne_nil

theorem mountCommand_yields :
    Yields ptr (mountCommand env ptr world i) left ↔
      ∃ source middle, Field inWord (ptr.drop i).tail source middle ∧
        ∃ dest behind, Field inWord middle.tail dest behind ∧
          ∃ offset rest, Offset behind offset rest ∧
            Opened env world source
              (fun world file => env.mountFs world file dest offset) rest left := by
  rw [List.tail_drop]
  refine copyUpTo_scans.yields_bind Field.ne_nil fun source k _ => ?_
  rw [List.tail_drop]
  refine copyWhile_scans.yields_bind Field.ne_nil fun dest k _ => ?_
  exact mountOffset_scans.yields_bind Offset.ne_nil fun _ _ hinside => opened_yields hinside

theorem executed_yields {name : CString} (hinside : ptr.drop i ≠ []) :
    Yields ptr
        (match env.exec world name with
          | none => some none
          | some world => afterLine ptr world i) left ↔
      Executed env world name (ptr.drop i) left := by
  rcases hexec : env.exec world name with _ | world'
  · dsimp only
    rw [yields_some]
    constructor
    · rintro rfl
      exact Executed.started hexec
    · rintro (_ | ⟨hreturned, _⟩)
      · rfl
      · cases hexec.symm.trans hreturned
  · dsimp only
    rw [afterLine_yields hinside]
    constructor
    · intro hdone
      exact Executed.returned hexec hdone
    · rintro (hstarted | ⟨hreturned, hdone⟩)
      · cases hexec.symm.trans hstarted
      · obtain rfl := Option.some.inj (hexec.symm.trans hreturned)
        exact hdone

theorem execCommand_yields :
    Yields ptr (execCommand env ptr world i) left ↔
      ∃ blank middle, Stops skipped (ptr.drop i) blank middle ∧
        ∃ name rest, ExecName middle name rest ∧ Executed env world name rest left :=
  skipWhile_yields fun _ _ =>
    copyBelow_scans.yields_bind ExecName.ne_nil fun _ _ hinside => executed_yields hinside

theorem comment_yields :
    Yields ptr ((skipWhile inComment ptr i).bind (afterLine ptr world)) left ↔
      ∃ run rest, Stops inComment (ptr.drop i) run rest ∧ Done world rest left :=
  skipWhile_yields fun _ hinside => afterLine_yields hinside

theorem echo_yields :
    Yields ptr ((skipWhile echoed ptr (i + 1)).bind (afterLine ptr world)) left ↔
      ∃ run rest, Stops echoed (ptr.drop i).tail run rest ∧ Done world rest left := by
  rw [List.tail_drop]
  exact skipWhile_yields fun _ hinside => afterLine_yields hinside

theorem command_sound {statement : CString} (hinside : ptr.drop i ≠ [])
    (hyields : Yields ptr (command env ptr world statement i) left) :
    Command env world statement (ptr.drop i) left := by
  rw [command] at hyields
  split_ifs at hyields with hhash hecho hmodule hmount hconfig hexec hsysinit
  · obtain ⟨run, rest, hstops, hdone⟩ := comment_yields.mp hyields
    exact Command.comment hhash hstops hdone
  · obtain ⟨run, rest, hstops, hdone⟩ := echo_yields.mp hyields
    rw [hecho]
    exact Command.echo hstops hdone
  · obtain ⟨name, rest, hname, hopened⟩ := moduleCommand_yields.mp hyields
    rw [hmodule]
    exact Command.startModule hname hopened
  · obtain ⟨source, middle, hsource, dest, behind, hdest, offset, rest, hoffset, hopened⟩ :=
      mountCommand_yields.mp hyields
    rw [hmount]
    exact Command.mount hsource hdest hoffset hopened
  · rw [hconfig]
    exact Command.config ((afterLine_yields hinside).mp hyields)
  · obtain ⟨blank, middle, hblank, name, rest, hname, hdone⟩ := execCommand_yields.mp hyields
    rw [hexec]
    exact Command.exec hblank hname hdone
  · rw [hsysinit]
    exact Command.sysinit ((afterLine_yields hinside).mp hyields)
  · obtain rfl : none = left := yields_some.mp hyields
    refine Command.stop hhash ?_
    simp only [keywords, List.map_cons, List.map_nil, List.mem_cons, List.not_mem_nil, not_or]
    exact ⟨hecho, hmodule, hmount, hconfig, hexec, hsysinit, not_false⟩

theorem command_complete {statement : CString} (hinside : ptr.drop i ≠ [])
    (hcommand : Command env world statement (ptr.drop i) left) :
    Yields ptr (command env ptr world statement i) left := by
  generalize htext : ptr.drop i = text at hcommand
  cases hcommand with
  | comment hhash hstops hdone =>
      rw [command, if_pos hhash]
      exact comment_yields.mpr ⟨_, _, htext ▸ hstops, hdone⟩
  | echo hstops hdone => exact echo_yields.mpr ⟨_, _, htext ▸ hstops, hdone⟩
  | startModule hname hopened =>
      exact moduleCommand_yields.mpr ⟨_, _, htext ▸ hname, hopened⟩
  | mount hsource hdest hoffset hopened =>
      exact mountCommand_yields.mpr
        ⟨_, _, htext ▸ hsource, _, _, hdest, _, _, hoffset, hopened⟩
  | config hdone => exact (afterLine_yields hinside).mpr (htext ▸ hdone)
  | exec hblank hname hdone =>
      exact execCommand_yields.mpr ⟨_, _, htext ▸ hblank, _, _, hname, hdone⟩
  | sysinit hdone => exact (afterLine_yields hinside).mpr (htext ▸ hdone)
  | stop hhash hunknown =>
      simp only [keywords, List.map_cons, List.map_nil, List.mem_cons, List.not_mem_nil, not_or]
        at hunknown
      obtain ⟨hecho, hmodule, hmount, hconfig, hexec, hsysinit, _⟩ := hunknown
      rw [command, if_neg hhash, if_neg hecho, if_neg hmodule, if_neg hmount, if_neg hconfig,
        if_neg hexec, if_neg hsysinit]
      exact yields_some.mpr rfl

/-! ## Rounds -/

theorem ExecName.length_le {text : List UInt8} (hname : ExecName text string rest) :
    rest.length ≤ text.length := by
  rcases hname with ⟨_, hstops⟩ | ⟨_, hpasses⟩
  · exact hstops.length_le
  · exact hpasses.length_le

theorem Offset.length_le {text : List UInt8} {offset : ℕ} (hoffset : Offset text offset rest) :
    rest.length ≤ text.length := by
  cases hoffset with
  | absent _ => exact le_rfl
  | @number text digits _ _ base _ hbased hfield _ =>
      have hdigits : digits.length ≤ text.length := by
        cases hbased with
        | hexadecimal => exact (Nat.le_succ _).trans (Nat.le_succ _)
        | octal => exact (Nat.le_succ _).trans (Nat.le_succ _)
        | decimal _ _ => exact le_rfl
      exact (hfield.2.length_le.trans hdigits).trans (Nat.le_succ _)

theorem Done.length_le {text : List UInt8} {world' : World}
    (hdone : Done world text (some (world', rest))) : rest.length ≤ text.length := by
  obtain ⟨next, hend, hnext⟩ := hdone
  obtain ⟨rest', rfl, hpair⟩ := Option.map_eq_some_iff.mp hnext
  obtain ⟨rfl, rfl⟩ := Prod.mk.inj hpair
  cases hend with
  | line hsplit _ =>
      rw [hsplit, List.length_append, List.length_cons]
      omega

theorem Opened.length_le {text : List UInt8} {name : CString} {use : World → File → World}
    {world' : World} (hopened : Opened env world name use text (some (world', rest))) :
    rest.length ≤ text.length := by
  cases hopened with
  | missing _ => exact le_rfl
  | found _ hdone => exact hdone.length_le

theorem Executed.length_le {text : List UInt8} {name : CString} {world' : World}
    (hexecuted : Executed env world name text (some (world', rest))) :
    rest.length ≤ text.length := by
  cases hexecuted with
  | returned _ hdone => exact hdone.length_le

theorem length_tail_le (text : List UInt8) : text.tail.length ≤ text.length := by
  rw [List.length_tail]
  exact Nat.sub_le _ _

/-- A command that is followed by another has one of the names, or starts a comment. -/
theorem Command.shorter {statement text : List UInt8} {world' : World}
    (hcommand : Command env world statement text (some (world', rest))) :
    statement ≠ [] ∧ rest.length ≤ text.length := by
  cases hcommand with
  | comment hhash hstops hdone =>
      refine ⟨?_, hdone.length_le.trans hstops.length_le⟩
      rintro rfl
      cases hhash
  | echo hstops hdone =>
      exact ⟨by decide,
        (hdone.length_le.trans hstops.length_le).trans (length_tail_le text)⟩
  | startModule hname hopened =>
      exact ⟨by decide,
        (hopened.length_le.trans hname.2.length_le).trans (length_tail_le text)⟩
  | @mount _ source middle _ _ _ _ _ hsource hdest hoffset hopened =>
      refine ⟨by decide, ?_⟩
      calc rest.length ≤ middle.tail.length :=
            (hopened.length_le.trans hoffset.length_le).trans hdest.2.length_le
        _ ≤ text.tail.length := (length_tail_le middle).trans hsource.2.length_le
        _ ≤ text.length := length_tail_le text
  | config hdone => exact ⟨by decide, hdone.length_le⟩
  | exec hblank hname hdone =>
      exact ⟨by decide, (hdone.length_le.trans hname.length_le).trans hblank.length_le⟩
  | sysinit hdone => exact ⟨by decide, hdone.length_le⟩

theorem Statement.length_lt {text : List UInt8} {world' : World}
    (hstatement : Statement env world text (some (world', rest))) :
    rest.length < text.length := by
  obtain ⟨blank, start, statement, behind, hblank, hfield, hcommand⟩ := hstatement
  obtain ⟨hne, hle⟩ := hcommand.shorter
  have hpos := List.length_pos_iff.mpr hne
  have hstart := hblank.length_le
  rw [hfield.2.split, List.length_append] at hstart
  omega

/-- The text in front of a reader, with its world. -/
def Reader.ahead (ptr : List UInt8) (reader : Reader World) : World × List UInt8 :=
  (reader.world, ptr.drop reader.i)

theorem round_sound {reader : Reader World} {next : Option (Reader World)}
    (hreader : reader.statement ≠ cstr "END") (hround : round env ptr reader = some next) :
    Statement env reader.world (ptr.drop reader.i) (next.map (Reader.ahead ptr)) ∧
      ∀ reader' ∈ next, reader'.statement ≠ cstr "END" := by
  rw [round, if_neg hreader] at hround
  obtain ⟨start, hskip, hround⟩ := Option.bind_eq_some_iff.mp hround
  obtain ⟨⟨statement, behind⟩, hcopied, hround⟩ := Option.bind_eq_some_iff.mp hround
  obtain ⟨left, hcommand, rfl⟩ := Option.map_eq_some_iff.mp hround
  obtain ⟨blank, _, hblank⟩ := skipWhile_eq_some_iff.mp hskip
  have hfield := copyWhile_scans.sound hcopied
  constructor
  · refine ⟨blank, ptr.drop start, statement, ptr.drop behind, hblank, hfield, ?_⟩
    refine command_sound hfield.ne_nil ⟨left, hcommand, ?_⟩
    cases left <;> rfl
  · intro reader' hreader'
    obtain ⟨left, rfl, rfl⟩ := Option.map_eq_some_iff.mp hreader'
    rintro rfl
    cases hcommand

theorem round_complete {reader : Reader World}
    (hreader : reader.statement ≠ cstr "END")
    (hstatement : Statement env reader.world (ptr.drop reader.i) left) :
    ∃ next, round env ptr reader = some next ∧ next.map (Reader.ahead ptr) = left := by
  obtain ⟨blank, start, statement, behind, hblank, hfield, hcommand⟩ := hstatement
  obtain rfl := hblank.drop
  obtain ⟨k, hcopied, rfl⟩ := copyWhile_scans.complete hfield
  obtain ⟨next, hnext, hview⟩ := command_complete hfield.ne_nil hcommand
  refine ⟨next.map fun (world, i) => ⟨world, i, statement⟩, ?_, ?_⟩
  · have hskip := skipWhile_eq_some_iff.mpr ⟨blank, rfl, hblank⟩
    rw [round, if_neg hreader, hskip, Option.bind_some, hcopied, Option.bind_some]
    dsimp only
    rw [hnext, Option.map_some]
  · rw [← hview]
    cases next <;> rfl

theorem rounds_succ (reader : Reader World) (count : ℕ) :
    rounds env ptr (count + 1) reader =
      match round env ptr reader with
      | none => none
      | some none => some none
      | some (some reader) => rounds env ptr count reader := rfl

/-- In front of a script no round leaves the file or a buffer. -/
theorem rounds_of_script {text : List UInt8} (hscript : Script env world text)
    {reader : Reader World} (hahead : reader.ahead ptr = (world, text))
    (hreader : reader.statement ≠ cstr "END") (count : ℕ) :
    rounds env ptr count reader ≠ none := by
  induction hscript generalizing reader count with
  | last hstatement =>
      obtain ⟨rfl, rfl⟩ := Prod.mk.inj hahead
      obtain ⟨next, hround, hnext⟩ := round_complete hreader hstatement
      obtain rfl := Option.map_eq_none_iff.mp hnext
      cases count with
      | zero => exact Option.some_ne_none _
      | succ count =>
          rw [rounds_succ, hround]
          exact Option.some_ne_none _
  | next hstatement _ ih =>
      obtain ⟨rfl, rfl⟩ := Prod.mk.inj hahead
      obtain ⟨next, hround, hnext⟩ := round_complete hreader hstatement
      obtain ⟨reader', rfl, hahead'⟩ := Option.map_eq_some_iff.mp hnext
      cases count with
      | zero => exact Option.some_ne_none _
      | succ count =>
          rw [rounds_succ, hround]
          exact ih hahead' ((round_sound hreader hround).2 reader' rfl) count

/-- Where no round leaves the file or a buffer, a script is ahead: each round takes
something off the text. -/
theorem script_of_rounds {reader : Reader World} (hreader : reader.statement ≠ cstr "END")
    (hrounds : ∀ count, rounds env ptr count reader ≠ none) :
    Script env reader.world (ptr.drop reader.i) := by
  induction hlength : (ptr.drop reader.i).length using Nat.strong_induction_on
    generalizing reader with
  | _ length ih =>
      cases hround : round env ptr reader with
      | none => exact absurd (by rw [rounds_succ, hround]) (hrounds 1)
      | some next =>
          obtain ⟨hstatement, hnext⟩ := round_sound hreader hround
          cases next with
          | none => exact Script.last hstatement
          | some reader' =>
              refine Script.next hstatement (ih _ ?_ (hnext reader' rfl) ?_ rfl)
              · rw [← hlength]
                exact hstatement.length_lt
              · intro count
                have hsucc := hrounds (count + 1)
                rw [rounds_succ, hround] at hsucc
                exact hsucc

/-- Every access is inside exactly where the file is a script, or the stack happens to
say `END` at the start. -/
theorem initrcRead_memorySafe_iff (env : Environment World File) (ptr : List UInt8)
    (world : World) (stack : CString) :
    MemorySafe env ptr world stack ↔ stack = cstr "END" ∨ Script env world ptr := by
  by_cases hstack : stack = cstr "END"
  · refine iff_of_true ?_ (Or.inl hstack)
    intro count
    cases count with
    | zero => exact Option.some_ne_none _
    | succ count =>
        rw [rounds_succ, round, if_pos hstack]
        exact Option.some_ne_none _
  · rw [or_iff_right hstack]
    constructor
    · intro hsafe
      exact @script_of_rounds _ _ ptr env ⟨world, 0, stack⟩ hstack hsafe
    · intro hscript count
      exact rounds_of_script hscript rfl hstack count

/-- A system without files. -/
def noFiles : Environment Unit Unit where
  fopen _ _ := ((), none)
  moduleStart _ _ := ()
  mountFs _ _ _ _ := ()
  exec _ _ := some ()
  heapInit _ := ()

/-- A script without `END` is read on behind its last line. -/
theorem withoutEnd_unsafe : ¬ MemorySafe noFiles (cstr "SYSINIT\n") () [] := by
  intro hsafe
  have hstart : skipWhile isBlank (cstr "SYSINIT\n") 0 = some 0 := by
    rw [skipWhile]
    rfl
  have hstatement : terminate (copyWhile inWord (cstr "SYSINIT\n") bufferSize 0) =
      some (cstr "SYSINIT", 7) := by
    decide
  have hline : endLine (cstr "SYSINIT\n") 7 = some (some 8) := by
    rw [endLine]
    rfl
  have hfirst : round noFiles (cstr "SYSINIT\n") ⟨(), 0, []⟩ =
      some (some ⟨(), 8, cstr "SYSINIT"⟩) := by
    rw [round, if_neg (by decide), hstart, Option.bind_some, hstatement, Option.bind_some]
    change (afterLine (cstr "SYSINIT\n") () 7).map _ = _
    rw [afterLine, hline]
    rfl
  have hend : skipWhile isBlank (cstr "SYSINIT\n") 8 = none := by
    rw [skipWhile]
    rfl
  have hsecond : round noFiles (cstr "SYSINIT\n") ⟨(), 8, cstr "SYSINIT"⟩ = none := by
    rw [round, if_neg (by decide), hend, Option.bind_none]
  have htwo := hsafe 2
  rw [rounds_succ, hfirst] at htwo
  dsimp only at htwo
  rw [rounds_succ, hsecond] at htwo
  exact htwo rfl

end KimisOS.Initrc
