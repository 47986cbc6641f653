import KimisOS.Text.Initrc

/-!
# Start scripts as they are written

A script is a list of lines, each with its command, blanks in front of it and a remark
behind it.  `initrc_read` of its text runs the commands in their order, each of them
once, up to the first program that is started in its place, and otherwise ends at `END`,
whatever is behind that in the file.  A command whose file is not found leaves its remark
to a round of its own.
-/

namespace KimisOS.Initrc

open KimisOS.Fat32 (CString)
open KimisOS.Vfs (cstr)
open KimisOS.Scan
open KimisOS.Text (atoiStep digitValue foldl_atoiStep_map atoiFrom_iff)

variable {World File : Type*}

/-! ## Lines -/

/-- The name of a file, which every command takes as a whole. -/
structure Path where
  chars : CString
  printed : ∀ c ∈ chars, printable c
  named : chars ≠ []
  short : chars.length < bufferSize

/-- What follows on a `#`.  The first word is copied to `statement` with it. -/
structure Remark where
  chars : CString
  plain : ∀ c ∈ chars, inComment c
  short : (chars.takeWhile inWord).length + 1 < bufferSize

inductive Radix where
  | decimal
  | hexadecimal
  | octal

def Radix.base : Radix → ℕ
  | .decimal => 10
  | .hexadecimal => 16
  | .octal => 8

/-- What `MOUNT` knows the base by. -/
def Radix.lead : Radix → CString
  | .decimal => []
  | .hexadecimal => [zero, letterX]
  | .octal => [zero, zero]

/-- An offset in sectors, and how it is written. -/
structure Position where
  radix : Radix
  number : ℕ
  bounded : number < 2 ^ 32

/-- The letters of hexadecimal digits are small. -/
def smallDigit (digit : ℕ) : UInt8 :=
  UInt8.ofNat (if digit < 10 then 48 + digit else 87 + digit)

def Position.digits (position : Position) : CString :=
  if position.number = 0 then [zero]
  else ((Nat.digits position.radix.base position.number).map smallDigit).reverse

def Position.text (position : Position) : CString := position.radix.lead ++ position.digits

inductive Line where
  | comment (remark : Remark)
  | echo (text : {text : CString // ∀ c ∈ text, echoed c})
  | startModule (name : Path)
  | mount (source dest : Path) (position : Option Position)
  | config (text : {text : CString // newline ∉ text})
  | exec (program : Path)
  | sysinit

def offsetText : Option Position → CString
  | none => []
  | some position => space :: position.text

def Line.text : Line → CString
  | .comment remark => hash :: remark.chars
  | .echo text => cstr "ECHO" ++ space :: text.1
  | .startModule name => cstr "MODULE" ++ space :: name.chars
  | .mount source dest position =>
      cstr "MOUNT" ++ space :: source.chars ++ space :: dest.chars ++ offsetText position
  | .config text => cstr "CONFIG" ++ space :: text.1
  | .exec program => cstr "EXEC" ++ space :: program.chars
  | .sysinit => cstr "SYSINIT"

/-- What a command that needs a file makes of the system. -/
def useFile (env : Environment World File) (world : World) (name : CString)
    (use : World → File → World) : World :=
  match env.fopen world name with
  | (world, none) => world
  | (world, some file) => use world file

/-- What a line stands for.  There is no result where a program is started. -/
def Line.run (env : Environment World File) (world : World) : Line → Option World
  | .comment _ => some world
  | .echo _ => some world
  | .startModule name => some (useFile env world name.chars env.moduleStart)
  | .mount source dest position =>
      some (useFile env world source.chars fun world file =>
        env.mountFs world file dest.chars ((position.map Position.number).getD 0))
  | .config _ => some world
  | .exec program => env.exec world program.chars
  | .sysinit => some (env.heapInit world)

/-- `MOUNT` looks for an offset in what follows on the line. -/
def Line.OpenEnded : Line → Prop
  | .mount _ _ none => True
  | _ => False

/-- A line with the blanks in front of it, other lines among them, and the remark
behind it. -/
structure Entry where
  indent : CString
  line : Line
  remark : Option Remark
  blank : ∀ c ∈ indent, isBlank c
  apart : line.OpenEnded → ∀ note ∈ remark, note.chars.head? ≠ some letterX

def remarkText : Option Remark → CString
  | none => []
  | some remark => space :: hash :: remark.chars

def Entry.text (entry : Entry) : CString :=
  entry.indent ++ (entry.line.text ++ (remarkText entry.remark ++ [newline]))

def scriptText (entries : List Entry) : CString := entries.flatMap Entry.text

/-- The system behind some lines, when none of them has started a program. -/
def runLines (env : Environment World File) (world : World) (entries : List Entry) :
    Option World :=
  entries.foldlM (fun world entry => entry.line.run env world) world

/-! ## Numbers -/

section Numbers

variable {position : Position} {rest : CString}

theorem Radix.base_cases (radix : Radix) :
    radix.base = 8 ∨ radix.base = 10 ∨ radix.base = 16 := by
  cases radix with
  | decimal => exact .inr (.inl rfl)
  | hexadecimal => exact .inr (.inr rfl)
  | octal => exact .inl rfl

theorem digitValue_smallDigit {base digit : ℕ} (hbase : base = 8 ∨ base = 10 ∨ base = 16)
    (hdigit : digit < base) : digitValue base (smallDigit digit) = digit := by
  obtain rfl | rfl | rfl := hbase
  all_goals
    revert digit
    decide

theorem isDigit_smallDigit {digit : ℕ} (hdigit : digit < 16) :
    isDigit (smallDigit digit) = true := by
  revert digit
  decide

theorem smallDigit_eq_zero {digit : ℕ} (hdigit : digit < 16)
    (hzero : smallDigit digit = zero) : digit = 0 := by
  revert digit
  decide

theorem Position.digit_lt {digit : ℕ}
    (hdigit : digit ∈ Nat.digits position.radix.base position.number) :
    digit < position.radix.base := by
  have hbase := position.radix.base_cases
  exact Nat.digits_lt_base (by omega) hdigit

theorem Position.digits_isDigit : ∀ c ∈ position.digits, isDigit c := by
  intro c hc
  unfold Position.digits at hc
  split at hc
  · rw [List.mem_singleton.mp hc]
    decide
  · obtain ⟨digit, hdigit, rfl⟩ := List.mem_map.mp (List.mem_reverse.mp hc)
    have hlt := Position.digit_lt hdigit
    have hbase := position.radix.base_cases
    exact isDigit_smallDigit (by omega)

theorem Position.digits_length : position.digits.length < bufferSize := by
  unfold Position.digits
  split
  · decide
  · have hbase := position.radix.base_cases
    have hpow : 2 ^ 32 ≤ position.radix.base ^ 32 := Nat.pow_le_pow_left (by omega) 32
    have hlength : (Nat.digits position.radix.base position.number).length ≤ 32 :=
      (Nat.digits_length_le_iff (by omega) _).mpr (position.bounded.trans_le hpow)
    rw [List.length_reverse, List.length_map]
    exact hlength.trans_lt (by decide)

/-- `atoi` reads the number back. -/
theorem Position.atoiOf_digits :
    atoiOf position.digits position.radix.base = some position.number := by
  have hread : position.digits.foldl (atoiStep position.radix.base) 0 = position.number := by
    unfold Position.digits
    split
    · rename_i hzero
      rw [hzero]
      cases position.radix <;> rfl
    · rw [@foldl_atoiStep_map _ _ smallDigit id fun digit hdigit =>
          digitValue_smallDigit position.radix.base_cases (Position.digit_lt hdigit),
        List.map_id, Nat.ofDigits_digits, Nat.mod_eq_of_lt position.bounded]
  have hnonzero : 0 ∉ position.digits := by
    intro hmem
    exact absurd (position.digits_isDigit 0 hmem) (by decide)
  obtain ⟨offset, hoffset⟩ := atoiOf_total position.radix.base position.digits_length
  have hholds : RamData.HoldsString (fun k => position.digits.getD k 0) 0 position.digits := by
    intro k _
    rw [Nat.zero_add]
  obtain rfl : position.digits.foldl (atoiStep position.radix.base) 0 = offset :=
    (atoiFrom_iff hholds hnonzero).mp ⟨bufferSize, hoffset⟩
  rw [hoffset, hread]

/-- The first digit of a number with more than one is no zero. -/
theorem Position.digits_head {second : UInt8} {behind : CString}
    (hdigits : position.digits = zero :: second :: behind) : False := by
  unfold Position.digits at hdigits
  split at hdigits
  · cases hdigits
  · rename_i hnumber
    have hbase := position.radix.base_cases
    have hne : Nat.digits position.radix.base position.number ≠ [] :=
      Nat.digits_ne_nil_iff_ne_zero.mpr hnumber
    have hhead := congrArg List.head? hdigits
    rw [List.head?_reverse, List.getLast?_map, List.getLast?_eq_getLast_of_ne_nil hne] at hhead
    have hlast : smallDigit ((Nat.digits position.radix.base position.number).getLast hne) =
        zero := Option.some.inj hhead
    have hlt := Position.digit_lt (List.getLast_mem hne)
    exact Nat.getLast_digit_ne_zero _ hnumber (smallDigit_eq_zero (by omega) hlast)

end Numbers

/-! ## A line behind its statement -/

section Lines

variable {env : Environment World File} {world : World} {run rest : CString}
  {remark : Option Remark}

theorem stops_of_head {more : UInt8 → Bool} {c : UInt8} (hrun : ∀ c ∈ run, more c)
    (hc : more c = false) : Stops more (run ++ c :: rest) run (c :: rest) :=
  ⟨rfl, hrun, c, rest, rfl, hc⟩

/-- A space or the newline is behind what a line says. -/
theorem remark_head (remark : Option Remark) (rest : CString) :
    ∃ c tail, remarkText remark ++ newline :: rest = c :: tail ∧ (c = space ∨ c = newline) := by
  cases remark with
  | none => exact ⟨newline, rest, rfl, .inr rfl⟩
  | some note => exact ⟨space, _, rfl, .inl rfl⟩

theorem stops_remark {more : UInt8 → Bool} (hrun : ∀ c ∈ run, more c)
    (hspace : more space = false) (hnewline : more newline = false) :
    Stops more (run ++ (remarkText remark ++ newline :: rest)) run
      (remarkText remark ++ newline :: rest) := by
  obtain ⟨c, tail, htext, hc⟩ := remark_head remark rest
  rw [htext]
  apply stops_of_head hrun
  rcases hc with rfl | rfl
  · exact hspace
  · exact hnewline

theorem inWord_of_printable {c : UInt8} (hc : printable c = true) : inWord c = true := by
  have hne : ∀ d : UInt8, printable d = false → c ≠ d := by
    rintro d hd rfl
    rw [hc] at hd
    cases hd
  exact decide_eq_true ⟨hne space rfl, hne newline rfl, hne 0 rfl⟩

theorem Path.inWord {name : Path} : ∀ c ∈ name.chars, inWord c :=
  fun c hc => inWord_of_printable (name.printed c hc)

theorem Path.field {name : Path} {c : UInt8} (hc : Initrc.inWord c = false) :
    Field Initrc.inWord (name.chars ++ c :: rest) name.chars (c :: rest) :=
  ⟨name.short, stops_of_head Path.inWord hc⟩

theorem Path.field_remark {name : Path} :
    Field Initrc.inWord (name.chars ++ (remarkText remark ++ newline :: rest)) name.chars
      (remarkText remark ++ newline :: rest) :=
  ⟨name.short, stops_remark Path.inWord rfl rfl⟩

theorem remark_plain : ∀ c ∈ remarkText remark, inComment c := by
  cases remark with
  | none => exact fun c hc => absurd hc List.not_mem_nil
  | some note =>
      intro c hc
      rcases List.mem_cons.mp hc with rfl | hmem
      · rfl
      rcases List.mem_cons.mp hmem with rfl | hchar
      · rfl
      exact note.plain c hchar

theorem not_newline_of_plain (hplain : ∀ c ∈ run, inComment c) : newline ∉ run := by
  intro hmem
  exact absurd (hplain newline hmem) (by decide)

theorem done_line (hrun : newline ∉ run) :
    Done world (run ++ newline :: rest) (some (world, rest)) :=
  ⟨some rest, LineEnd.line rfl hrun, rfl⟩

theorem done_remark : Done world (remarkText remark ++ newline :: rest) (some (world, rest)) :=
  done_line (not_newline_of_plain remark_plain)

/-- A comment changes nothing. -/
def Entry.Silent (entry : Entry) : Prop := ∃ note, entry.line = .comment note

theorem blank_nil : ∀ c ∈ ([] : CString), isBlank c :=
  fun _ hc => absurd hc List.not_mem_nil

theorem apart_none {line : Line} :
    line.OpenEnded → ∀ note ∈ (none : Option Remark), note.chars.head? ≠ some letterX :=
  fun _ _ hnote => absurd hnote (Option.not_mem_none _)

def Remark.entry (note : Remark) : Entry where
  indent := []
  line := .comment note
  remark := none
  blank := blank_nil
  apart := apart_none

theorem Remark.entry_text (note : Remark) :
    note.entry.text = hash :: (note.chars ++ [newline]) := rfl

/-- The text that is left for the next round: the rest of the script, behind the end of
a line or a remark that was not passed. -/
def Leaves (rest left : CString) : Prop :=
  ∃ blank pending, left = blank ++ (scriptText pending ++ rest) ∧
    (∀ c ∈ blank, isBlank c) ∧ ∀ entry ∈ pending, entry.Silent

theorem leaves_rest : Leaves rest rest :=
  ⟨[], [], rfl, blank_nil, fun _ he => absurd he List.not_mem_nil⟩

theorem leaves_note {note : Remark} {blank : CString} (hblank : ∀ c ∈ blank, isBlank c) :
    Leaves rest (blank ++ hash :: (note.chars ++ newline :: rest)) := by
  refine ⟨blank, [note.entry], ?_, hblank, ?_⟩
  · rw [scriptText, List.flatMap_cons, List.flatMap_nil, List.append_nil, Remark.entry_text,
      List.cons_append, List.append_assoc]
    rfl
  · intro entry hentry
    rw [List.mem_singleton.mp hentry]
    exact ⟨note, rfl⟩

theorem leaves_remark : Leaves rest (remarkText remark ++ newline :: rest) := by
  cases remark with
  | none =>
      refine ⟨[newline], [], rfl, ?_, fun _ he => absurd he List.not_mem_nil⟩
      intro c hc
      rw [List.mem_singleton.mp hc]
      rfl
  | some note =>
      apply @leaves_note _ note [space]
      intro c hc
      rw [List.mem_singleton.mp hc]
      rfl

/-- A command that opens a file passes its line, or leaves the end of it. -/
theorem opened_useFile {name : CString} {use : World → File → World} {behind : CString}
    (hdone : ∀ world : World, Done world behind (some (world, rest)))
    (hleaves : Leaves rest behind) :
    ∃ left, Opened env world name use behind (some (useFile env world name use, left)) ∧
      Leaves rest left := by
  rcases hopen : env.fopen world name with ⟨world', _ | file⟩
  · refine ⟨behind, ?_, hleaves⟩
    have huse : useFile env world name use = world' := by rw [useFile, hopen]
    rw [huse]
    exact Opened.missing hopen
  · refine ⟨rest, ?_, leaves_rest⟩
    have huse : useFile env world name use = use world' file := by rw [useFile, hopen]
    rw [huse]
    exact Opened.found hopen (hdone _)

/-! ## Offsets -/

theorem Position.field {position : Position} :
    Field isDigit (position.digits ++ (remarkText remark ++ newline :: rest)) position.digits
      (remarkText remark ++ newline :: rest) :=
  ⟨position.digits_length, stops_remark position.digits_isDigit rfl rfl⟩

theorem Position.based {position : Position} :
    Based (position.text ++ (remarkText remark ++ newline :: rest)) position.radix.base
      (position.digits ++ (remarkText remark ++ newline :: rest)) := by
  rw [Position.text, List.append_assoc]
  cases hradix : position.radix with
  | hexadecimal => exact Based.hexadecimal
  | octal => exact Based.octal
  | decimal =>
      obtain ⟨c, tail, htext, hc⟩ := remark_head remark rest
      have hdigit := position.digits_isDigit
      have hhead := @Position.digits_head position
      rw [htext]
      cases hdigits : position.digits with
      | nil =>
          unfold Position.digits at hdigits
          split at hdigits
          · cases hdigits
          · rename_i hnumber
            have hempty := List.map_eq_nil_iff.mp (List.reverse_eq_nil_iff.mp hdigits)
            exact absurd (Nat.digits_eq_nil_iff_eq_zero.mp hempty) hnumber
      | cons first behind =>
          rw [hdigits] at hdigit hhead
          cases behind with
          | nil =>
              apply Based.decimal
              · rcases hc with rfl | rfl <;> decide
              · rintro ⟨-, rfl⟩
                rcases hc with hc | hc <;> exact absurd hc (by decide)
          | cons second behind =>
              apply Based.decimal
              · rintro rfl
                exact absurd (hdigit letterX (by simp)) (by decide)
              · rintro ⟨rfl, rfl⟩
                exact hhead rfl

/-- `MOUNT` takes the offset that is written, and zero where there is none. -/
theorem offset_reads {position : Option Position}
    (hapart : position = none → ∀ note ∈ remark, note.chars.head? ≠ some letterX) :
    ∃ behind, Offset (offsetText position ++ (remarkText remark ++ newline :: rest))
        ((position.map Position.number).getD 0) behind ∧
      (∀ world : World, Done world behind (some (world, rest))) ∧
      Leaves rest behind := by
  cases position with
  | some position =>
      exact ⟨_, Offset.number Position.based Position.field position.atoiOf_digits,
        fun _ => done_remark, leaves_remark⟩
  | none =>
      cases remark with
      | none =>
          refine ⟨newline :: rest, Offset.absent (by decide), fun _ => ?_, ?_⟩
          · exact done_line List.not_mem_nil
          · exact @leaves_remark rest none
      | some note =>
          -- the base is looked for behind the `#` of the remark
          refine ⟨hash :: (note.chars ++ newline :: rest), ?_, fun _ => ?_, ?_⟩
          · have hbased : Based (hash :: (note.chars ++ newline :: rest)) 10
                (hash :: (note.chars ++ newline :: rest)) := by
              have hhead := hapart rfl note rfl
              cases hchars : note.chars with
              | nil => exact Based.decimal (by decide) fun hzeros => absurd hzeros.1 (by decide)
              | cons second behind =>
                  rw [hchars] at hhead
                  refine Based.decimal ?_ fun hzeros => absurd hzeros.1 (by decide)
                  rintro rfl
                  exact hhead rfl
            refine Offset.number hbased ⟨by decide, ?_⟩ (rfl : atoiOf [] 10 = some 0)
            exact @stops_of_head [] _ isDigit hash
              (fun _ hmem => absurd hmem List.not_mem_nil) rfl
          · apply @done_line _ _ (hash :: note.chars)
            apply not_newline_of_plain
            exact fun c hmem => (List.mem_cons.mp hmem).elim (fun heq => heq ▸ rfl) (note.plain c)
          · exact @leaves_note _ note [] fun _ hmem => absurd hmem List.not_mem_nil

/-! ## Commands -/

def Line.statement : Line → CString
  | .comment note => hash :: note.chars.takeWhile inWord
  | .echo _ => cstr "ECHO"
  | .startModule _ => cstr "MODULE"
  | .mount _ _ _ => cstr "MOUNT"
  | .config _ => cstr "CONFIG"
  | .exec _ => cstr "EXEC"
  | .sysinit => cstr "SYSINIT"

def Line.arguments : Line → CString
  | .comment note => note.chars.dropWhile inWord
  | .echo text => space :: text.1
  | .startModule name => space :: name.chars
  | .mount source dest position =>
      space :: (source.chars ++ space :: (dest.chars ++ offsetText position))
  | .config text => space :: text.1
  | .exec program => space :: program.chars
  | .sysinit => []

theorem Line.text_eq (line : Line) : line.text = line.statement ++ line.arguments := by
  cases line with
  | comment note =>
      rw [statement, arguments, List.cons_append, List.takeWhile_append_dropWhile]
      rfl
  | mount source dest position =>
      simp only [text, statement, arguments, List.append_assoc, List.cons_append]
  | sysinit => exact (List.append_nil _).symm
  | _ => rfl

theorem Line.arguments_head {line : Line} {c : UInt8} {tail : CString}
    (harguments : line.arguments = c :: tail) : inWord c = false := by
  cases line with
  | comment note =>
      have hhead := List.head?_dropWhile_not inWord note.chars
      rw [show note.chars.dropWhile inWord = c :: tail from harguments] at hhead
      exact hhead
  | sysinit => cases harguments
  | _ =>
      obtain rfl := (List.cons.inj harguments).1
      rfl

theorem keyword_word : ∀ statement ∈ keywords,
    (∀ c ∈ statement, inWord c) ∧ statement.length < bufferSize := by
  decide +kernel

theorem Line.statement_word (line : Line) :
    (∀ c ∈ line.statement, inWord c) ∧ line.statement.length < bufferSize := by
  cases line with
  | comment note =>
      refine ⟨?_, note.short⟩
      intro c hc
      rcases List.mem_cons.mp hc with rfl | hmem
      · rfl
      · exact List.mem_takeWhile_imp hmem
  | echo _ => exact keyword_word _ (by simp [keywords, Line.statement])
  | startModule _ => exact keyword_word _ (by simp [keywords, Line.statement])
  | mount _ _ _ => exact keyword_word _ (by simp [keywords, Line.statement])
  | config _ => exact keyword_word _ (by simp [keywords, Line.statement])
  | exec _ => exact keyword_word _ (by simp [keywords, Line.statement])
  | sysinit => exact keyword_word _ (by simp [keywords, Line.statement])

theorem Line.statement_field {line : Line} :
    Field inWord (line.text ++ (remarkText remark ++ newline :: rest)) line.statement
      (line.arguments ++ (remarkText remark ++ newline :: rest)) := by
  obtain ⟨hword, hshort⟩ := line.statement_word
  rw [Line.text_eq, List.append_assoc]
  refine ⟨hshort, ?_⟩
  cases harguments : line.arguments with
  | nil => exact stops_remark hword rfl rfl
  | cons c tail => exact stops_of_head hword (Line.arguments_head harguments)

theorem Path.field_offset {dest : Path} {position : Option Position} :
    Field Initrc.inWord
      (dest.chars ++ (offsetText position ++ (remarkText remark ++ newline :: rest))) dest.chars
      (offsetText position ++ (remarkText remark ++ newline :: rest)) := by
  cases position with
  | none => exact Path.field_remark
  | some position => exact Path.field rfl

theorem Line.text_head (line : Line) : ∃ c tail, line.text = c :: tail ∧ isBlank c = false := by
  cases line with
  | comment note => exact ⟨hash, note.chars, rfl, rfl⟩
  | _ => exact ⟨_, _, rfl, rfl⟩

theorem Path.execName {name : Path} :
    ExecName (name.chars ++ (remarkText remark ++ newline :: rest)) name.chars
      (remarkText remark ++ newline :: rest) := by
  rcases Nat.lt_or_eq_of_le (Nat.le_sub_one_of_lt name.short) with hlt | hfull
  · exact .inl ⟨hlt, stops_remark name.printed rfl rfl⟩
  · exact .inr ⟨hfull, rfl, name.printed, by simp⟩

/-- The space between `EXEC` and the name is skipped. -/
theorem Path.stops_skipped {name : Path} {text : CString} :
    Stops skipped (space :: (name.chars ++ text)) [space] (name.chars ++ text) := by
  cases hchars : name.chars with
  | nil => exact absurd hchars name.named
  | cons c chars =>
      have hc : skipped c = false := by
        have hprinted := name.printed c (by simp [hchars])
        exact decide_eq_false (not_le.mpr (of_decide_eq_true hprinted).1)
      apply @stops_of_head [space] _ skipped c _ hc
      intro d hd
      rw [List.mem_singleton.mp hd]
      rfl

/-- A line does what it stands for. -/
theorem Line.command {line : Line} {world' : World} (hrun : line.run env world = some world')
    (hapart : line.OpenEnded → ∀ note ∈ remark, note.chars.head? ≠ some letterX) :
    ∃ left, Command env world line.statement
        (line.arguments ++ (remarkText remark ++ newline :: rest))
        (some (world', left)) ∧ Leaves rest left := by
  have hdone : ∀ world : World, Done world (remarkText remark ++ newline :: rest)
      (some (world, rest)) := fun _ => done_remark
  cases line with
  | comment note =>
      obtain rfl := Option.some.inj hrun
      have hplain : ∀ c ∈ note.chars.dropWhile inWord ++ remarkText remark, inComment c := by
        intro c hc
        rcases List.mem_append.mp hc with hmem | hmem
        · exact note.plain c ((List.dropWhile_sublist inWord).mem hmem)
        · exact remark_plain c hmem
      have hstops := @stops_of_head _ rest inComment newline hplain rfl
      rw [List.append_assoc] at hstops
      exact ⟨rest, Command.comment rfl hstops (@done_line _ _ [] rest List.not_mem_nil),
        leaves_rest⟩
  | echo text =>
      obtain rfl := Option.some.inj hrun
      refine ⟨rest, ?_, leaves_rest⟩
      cases remark with
      | none =>
          exact Command.echo (stops_of_head text.2 rfl)
            (@done_line _ _ [] rest List.not_mem_nil)
      | some note =>
          have hechoed : ∀ c ∈ text.1 ++ [space], echoed c := by
            intro c hc
            rcases List.mem_append.mp hc with hmem | hmem
            · exact text.2 c hmem
            · rw [List.mem_singleton.mp hmem]
              rfl
          have hnote : newline ∉ hash :: note.chars := by
            intro hmem
            rcases List.mem_cons.mp hmem with heq | hmem
            · exact absurd heq (by decide)
            · exact not_newline_of_plain note.plain hmem
          have hstops := @stops_of_head _ (note.chars ++ newline :: rest) echoed hash hechoed rfl
          rw [List.append_assoc] at hstops
          exact Command.echo hstops (done_line hnote)
  | startModule name =>
      obtain rfl := Option.some.inj hrun
      obtain ⟨left, hopened, hleaves⟩ := @opened_useFile _ _ env world rest name.chars
        env.moduleStart _ hdone leaves_remark
      exact ⟨left, Command.startModule Path.field_remark hopened, hleaves⟩
  | mount source dest position =>
      obtain rfl := Option.some.inj hrun
      obtain ⟨behind, hoffset, hbehind, hleaves⟩ := @offset_reads World rest remark position
        fun hnone => hapart (by rw [hnone]; trivial)
      obtain ⟨left, hopened, hleft⟩ := @opened_useFile _ _ env world rest source.chars
        (fun world file =>
          env.mountFs world file dest.chars ((position.map Position.number).getD 0))
        _ hbehind hleaves
      refine ⟨left, ?_, hleft⟩
      have htext : (Line.mount source dest position).arguments ++
          (remarkText remark ++ newline :: rest) = space :: (source.chars ++ space ::
            (dest.chars ++ (offsetText position ++ (remarkText remark ++ newline :: rest)))) := by
        simp only [arguments, List.cons_append, List.append_assoc]
      rw [htext]
      exact Command.mount (Path.field rfl) Path.field_offset hoffset hopened
  | config text =>
      obtain rfl := Option.some.inj hrun
      have hline : newline ∉ space :: (text.1 ++ remarkText remark) := by
        intro hmem
        rcases List.mem_cons.mp hmem with heq | hmem
        · exact absurd heq (by decide)
        rcases List.mem_append.mp hmem with hmem | hmem
        · exact text.2 hmem
        · exact not_newline_of_plain remark_plain hmem
      have hpassed := @done_line _ world _ rest hline
      rw [List.cons_append, List.append_assoc] at hpassed
      exact ⟨rest, Command.config hpassed, leaves_rest⟩
  | exec program =>
      exact ⟨rest, Command.exec Path.stops_skipped Path.execName
        (Executed.returned hrun (hdone _)), leaves_rest⟩
  | sysinit =>
      obtain rfl := Option.some.inj hrun
      exact ⟨rest, Command.sysinit (hdone _), leaves_rest⟩

/-- A line that has no result starts a program, and nothing is left. -/
theorem Line.command_started {line : Line} (hrun : line.run env world = none) :
    Command env world line.statement
      (line.arguments ++ (remarkText remark ++ newline :: rest)) none := by
  cases line with
  | exec program =>
      exact Command.exec Path.stops_skipped Path.execName (Executed.started hrun)
  | _ => cases hrun

theorem Entry.statement_of_command {entry : Entry} {blank : CString}
    {left : Option (World × CString)} (hblank : ∀ c ∈ blank, isBlank c)
    (hcommand : Command env world entry.line.statement
      (entry.line.arguments ++ (remarkText entry.remark ++ newline :: rest)) left) :
    Statement env world (blank ++ (entry.text ++ rest)) left := by
  refine ⟨blank ++ entry.indent,
    entry.line.text ++ (remarkText entry.remark ++ newline :: rest), _, _, ?_,
    Line.statement_field, hcommand⟩
  have htext : blank ++ (entry.text ++ rest) = (blank ++ entry.indent) ++
      (entry.line.text ++ (remarkText entry.remark ++ newline :: rest)) := by
    simp only [Entry.text, List.append_assoc, List.cons_append, List.nil_append]
  rw [htext]
  refine ⟨rfl, ?_, ?_⟩
  · intro c hc
    rcases List.mem_append.mp hc with hmem | hmem
    · exact hblank c hmem
    · exact entry.blank c hmem
  · obtain ⟨c, tail, hline, hc⟩ := entry.line.text_head
    exact ⟨c, _, by rw [hline, List.cons_append], hc⟩

theorem Entry.statement {entry : Entry} {blank : CString} {world' : World}
    (hrun : entry.line.run env world = some world') (hblank : ∀ c ∈ blank, isBlank c) :
    ∃ left, Statement env world (blank ++ (entry.text ++ rest)) (some (world', left)) ∧
      Leaves rest left := by
  obtain ⟨left, hcommand, hleaves⟩ :=
    @Line.command _ _ env world rest entry.remark entry.line world' hrun entry.apart
  exact ⟨left, Entry.statement_of_command hblank hcommand, hleaves⟩

end Lines

/-! ## Whole scripts -/

section Scripts

/-- The end of a script, and what is behind it in the file. -/
structure Ending where
  indent : CString
  behind : CString
  blank : ∀ c ∈ indent, isBlank c
  ends : ∃ c tail, behind = c :: tail ∧ inWord c = false

def Ending.text (ending : Ending) : CString := ending.indent ++ (cstr "END" ++ ending.behind)

/-- The file of a script. -/
def fileText (entries : List Entry) (ending : Ending) : CString :=
  scriptText entries ++ ending.text

variable {env : Environment World File} {world : World} {ptr stack : CString}
  {entries : List Entry} {ending : Ending} {reader : Reader World}

theorem Ending.statement {blank : CString} (hblank : ∀ c ∈ blank, isBlank c) :
    Statement env world (blank ++ ending.text) none := by
  obtain ⟨c, tail, hbehind, hc⟩ := ending.ends
  have hunknown : cstr "END" ∉ keywords := by decide +kernel
  refine ⟨blank ++ ending.indent, cstr "END" ++ ending.behind, cstr "END", ending.behind,
    ?_, ?_, Command.stop (by decide) hunknown⟩
  · rw [Ending.text, ← List.append_assoc]
    apply stops_of_head
    · intro c hc
      rcases List.mem_append.mp hc with hmem | hmem
      · exact hblank c hmem
      · exact ending.blank c hmem
    · rfl
  · rw [hbehind]
    exact ⟨by decide, stops_of_head (by decide +kernel) hc⟩

theorem fileText_cons {entry : Entry} {blank : CString} :
    blank ++ fileText (entry :: entries) ending =
      blank ++ (entry.text ++ fileText entries ending) := by
  simp only [fileText, scriptText, List.flatMap_cons, List.append_assoc]

@[simp]
theorem runLines_nil : runLines env world [] = some world := rfl

@[simp]
theorem runLines_cons {entry : Entry} : runLines env world (entry :: entries) =
    (entry.line.run env world).bind fun world => runLines env world entries :=
  List.foldlM_cons

theorem runLines_append {read ahead : List Entry} : runLines env world (read ++ ahead) =
    (runLines env world read).bind fun world => runLines env world ahead :=
  List.foldlM_append

/-- The reader stands in front of some lines, in a world they have not changed yet. -/
structure Reading (ptr : CString) (ending : Ending) (world : World) (entries : List Entry)
    (reader : Reader World) : Prop where
  world : reader.world = world
  goes : reader.statement ≠ cstr "END"
  ahead : ∃ blank, ptr.drop reader.i = blank ++ fileText entries ending ∧
    ∀ c ∈ blank, isBlank c

/-- A round runs the line in front of the reader.  What a comment can leave behind is in
front of the next one. -/
theorem Reading.round {entry : Entry} {world' : World}
    (hrun : entry.line.run env world = some world')
    (hreading : Reading ptr ending world (entry :: entries) reader) :
    ∃ reader' pending, Initrc.round env ptr reader = some (some reader') ∧
      Reading ptr ending world' (pending ++ entries) reader' ∧
      ∀ entry ∈ pending, entry.Silent := by
  obtain ⟨blank, hahead, hblank⟩ := hreading.ahead
  obtain ⟨left, hstatement, blank', pending, hleft, hblank', hsilent⟩ :=
    @Entry.statement World File env world (fileText entries ending) entry blank world' hrun hblank
  rw [← fileText_cons, ← hahead, ← hreading.world] at hstatement
  obtain ⟨next, hround, hnext⟩ := round_complete hreading.goes hstatement
  obtain ⟨reader', rfl, hreader⟩ := Option.map_eq_some_iff.mp hnext
  obtain ⟨hworld, hdrop⟩ := Prod.mk.inj hreader
  refine ⟨reader', pending, hround, ⟨hworld, ?_, blank', ?_, hblank'⟩, hsilent⟩
  · exact (round_sound hreading.goes hround).2 reader' rfl
  · rw [hdrop, hleft, fileText, fileText, scriptText, scriptText, scriptText,
      List.flatMap_append, List.append_assoc]

/-- The round in which a program is started is the last. -/
theorem Reading.started {entry : Entry} (hrun : entry.line.run env world = none)
    (hreading : Reading ptr ending world (entry :: entries) reader) :
    Initrc.round env ptr reader = some none := by
  obtain ⟨blank, hahead, hblank⟩ := hreading.ahead
  have hstatement := @Entry.statement_of_command World File env world
    (fileText entries ending) entry blank none hblank (Line.command_started hrun)
  rw [← fileText_cons, ← hahead, ← hreading.world] at hstatement
  obtain ⟨next, hround, hnext⟩ := round_complete hreading.goes hstatement
  obtain rfl := Option.map_eq_none_iff.mp hnext
  exact hround

theorem Reading.last (hreading : Reading ptr ending world [] reader) :
    Initrc.round env ptr reader = some none := by
  obtain ⟨blank, hahead, hblank⟩ := hreading.ahead
  have hstatement : Statement env reader.world (ptr.drop reader.i) none := by
    rw [hahead]
    exact Ending.statement hblank
  obtain ⟨next, hround, hnext⟩ := round_complete hreading.goes hstatement
  obtain rfl := Option.map_eq_none_iff.mp hnext
  exact hround

theorem rounds_append {count : ℕ} {reader' : Reader World} (more : ℕ)
    (hrounds : rounds env ptr count reader = some (some reader')) :
    rounds env ptr (count + more) reader = rounds env ptr more reader' := by
  induction count generalizing reader with
  | zero =>
      obtain rfl := Option.some.inj (Option.some.inj hrounds)
      rw [Nat.zero_add]
  | succ count ih =>
      rw [Nat.add_right_comm, rounds_succ]
      rw [rounds_succ] at hrounds
      rcases hround : Initrc.round env ptr reader with _ | _ | next
      · rw [hround] at hrounds
        cases hrounds
      · rw [hround] at hrounds
        cases hrounds
      · rw [hround] at hrounds
        exact ih hrounds

theorem Entry.Silent.run {entry : Entry} (hsilent : entry.Silent) :
    entry.line.run env world = some world := by
  obtain ⟨note, hline⟩ := hsilent
  rw [hline]
  rfl

theorem silent_append {pending others : List Entry} (hpending : ∀ entry ∈ pending, entry.Silent)
    (hothers : ∀ entry ∈ others, entry.Silent) :
    ∀ entry ∈ pending ++ others, entry.Silent := by
  intro entry hentry
  rcases List.mem_append.mp hentry with hmem | hmem
  · exact hpending entry hmem
  · exact hothers entry hmem

/-- The text in front of a reader gets shorter with every round. -/
theorem round_shorter {reader' : Reader World} (hgoes : reader.statement ≠ cstr "END")
    (hround : Initrc.round env ptr reader = some (some reader')) :
    (ptr.drop reader'.i).length < (ptr.drop reader.i).length :=
  (round_sound hgoes hround).1.length_lt

/-- The reader comes to the end of what a command has left of its line. -/
theorem Reading.passPending {pending : List Entry} (hpending : ∀ entry ∈ pending, entry.Silent)
    (hreading : Reading ptr ending world (pending ++ entries) reader) :
    ∃ count reader', rounds env ptr count reader = some (some reader') ∧
      Reading ptr ending world entries reader' := by
  induction hlength : (ptr.drop reader.i).length using Nat.strong_induction_on
    generalizing pending reader with
  | _ length ih =>
      cases pending with
      | nil => exact ⟨0, reader, rfl, hreading⟩
      | cons first pending =>
          rw [List.cons_append] at hreading
          obtain ⟨reader', left, hround, hnext, hleft⟩ :=
            hreading.round (hpending first List.mem_cons_self).run
          rw [← List.append_assoc] at hnext
          have hshorter := round_shorter hreading.goes hround
          rw [hlength] at hshorter
          have hsilent := silent_append hleft fun entry hmem =>
            hpending entry (List.mem_cons_of_mem first hmem)
          obtain ⟨count, final, hrounds, hfinal⟩ := ih _ hshorter hsilent hnext rfl
          refine ⟨count + 1, final, ?_, hfinal⟩
          rw [rounds_succ, hround]
          exact hrounds

/-- The reader runs a line after the other. -/
theorem Reading.run (read : List Entry) {world' : World}
    (hrun : runLines env world read = some world')
    (hreading : Reading ptr ending world (read ++ entries) reader) :
    ∃ count reader', rounds env ptr count reader = some (some reader') ∧
      Reading ptr ending world' entries reader' := by
  induction read generalizing world reader with
  | nil =>
      obtain rfl := Option.some.inj hrun
      exact ⟨0, reader, rfl, hreading⟩
  | cons first read ih =>
      rw [runLines_cons] at hrun
      rw [List.cons_append] at hreading
      obtain ⟨between, hfirst, hbetween⟩ := Option.bind_eq_some_iff.mp hrun
      obtain ⟨next, pending, hround, hnext, hsilent⟩ := hreading.round hfirst
      obtain ⟨passed, behind, hpassed, hbehind⟩ :=
        @Reading.passPending _ _ env _ _ _ _ _ _ hsilent hnext
      obtain ⟨count, final, hrounds, hfinal⟩ := ih hbetween hbehind
      refine ⟨(passed + count) + 1, final, ?_, hfinal⟩
      rw [rounds_succ, hround]
      exact (rounds_append count hpassed).trans hrounds

/-- Some of the lines are run, and some others are in front of the reader. -/
def Between (env : Environment World File) (ptr : CString) (ending : Ending) (world : World)
    (entries : List Entry) (reader : Reader World) : Prop :=
  ∃ read pending ahead world', entries = read ++ ahead ∧ (∀ entry ∈ pending, entry.Silent) ∧
    runLines env world read = some world' ∧ Reading ptr ending world' (pending ++ ahead) reader

theorem Between.round (hbetween : Between env ptr ending world entries reader) :
    ∃ next, Initrc.round env ptr reader = some next ∧
      ∀ reader' ∈ next, Between env ptr ending world entries reader' := by
  obtain ⟨read, pending, ahead, world', rfl, hsilent, hrun, hreading⟩ := hbetween
  have hlast : ∀ reader' ∈ (none : Option (Reader World)),
      Between env ptr ending world (read ++ ahead) reader' :=
    fun _ hmem => absurd hmem (Option.not_mem_none _)
  cases pending with
  | cons first pending =>
      rw [List.cons_append] at hreading
      obtain ⟨reader', left, hround, hnext, hleft⟩ :=
        hreading.round (hsilent first List.mem_cons_self).run
      rw [← List.append_assoc] at hnext
      refine ⟨some reader', hround, ?_⟩
      intro final hfinal
      obtain rfl := Option.some.inj hfinal
      exact ⟨read, left ++ pending, ahead, world', rfl, silent_append hleft fun entry hmem =>
        hsilent entry (List.mem_cons_of_mem first hmem), hrun, hnext⟩
  | nil =>
      rw [List.nil_append] at hreading
      cases ahead with
      | nil => exact ⟨none, hreading.last, hlast⟩
      | cons entry ahead =>
          cases hentry : entry.line.run env world' with
          | none => exact ⟨none, hreading.started hentry, hlast⟩
          | some world'' =>
              obtain ⟨reader', left, hround, hnext, hleft⟩ := hreading.round hentry
              refine ⟨some reader', hround, ?_⟩
              intro final hfinal
              obtain rfl := Option.some.inj hfinal
              refine ⟨read ++ [entry], left, ahead, world'', by simp, hleft, ?_, hnext⟩
              rw [runLines_append, hrun, Option.bind_some, runLines_cons, hentry]
              rfl

theorem Between.rounds (hbetween : Between env ptr ending world entries reader) (count : ℕ) :
    ∃ next, Initrc.rounds env ptr count reader = some next ∧
      ∀ reader' ∈ next, Between env ptr ending world entries reader' := by
  induction count generalizing reader with
  | zero =>
      refine ⟨some reader, rfl, ?_⟩
      intro final hfinal
      obtain rfl := Option.some.inj hfinal
      exact hbetween
  | succ count ih =>
      obtain ⟨next, hround, hnext⟩ := hbetween.round
      rw [rounds_succ, hround]
      cases next with
      | none => exact ⟨none, rfl, hnext⟩
      | some reader' => exact ih (hnext reader' rfl)

/-- `initrc_read` of the file runs the lines: it reads and writes inside, has always run
some of the first lines and nothing else, and comes to each place in front of which no
program is started.  It ends with the first program that is started, and else returns
behind all lines. -/
structure Runs (env : Environment World File) (ptr : CString) (world : World) (stack : CString)
    (entries : List Entry) : Prop where
  between : ∀ count, ∃ next, rounds env ptr count ⟨world, 0, stack⟩ = some next ∧
    ∀ reader ∈ next, ∃ read ahead, entries = read ++ ahead ∧
      runLines env world read = some reader.world
  comes : ∀ read ahead world', entries = read ++ ahead → runLines env world read = some world' →
    ∃ count reader, rounds env ptr count ⟨world, 0, stack⟩ = some (some reader) ∧
      reader.world = world'
  starts : ∀ read entry ahead world', entries = read ++ entry :: ahead →
    runLines env world read = some world' → entry.line.run env world' = none →
      ∃ count reader, rounds env ptr count ⟨world, 0, stack⟩ = some (some reader) ∧
        reader.world = world' ∧ Initrc.round env ptr reader = some none
  returns : ∀ world', runLines env world entries = some world' →
    ∃ count reader, rounds env ptr count ⟨world, 0, stack⟩ = some (some reader) ∧
      reader.world = world' ∧ Initrc.round env ptr reader = some none

theorem Reading.runs (hreading : Reading ptr ending world entries ⟨world, 0, stack⟩) :
    Runs env ptr world stack entries := by
  constructor
  case between =>
    intro count
    have hbetween : Between env ptr ending world entries ⟨world, 0, stack⟩ :=
      ⟨[], [], entries, world, rfl, fun _ hmem => absurd hmem List.not_mem_nil, rfl, hreading⟩
    obtain ⟨next, hrounds, hnext⟩ := hbetween.rounds count
    refine ⟨next, hrounds, ?_⟩
    intro reader hreader
    obtain ⟨read, pending, ahead, world', hentries, _, hrun, hahead⟩ := hnext reader hreader
    exact ⟨read, ahead, hentries, hahead.world ▸ hrun⟩
  case comes =>
    rintro read ahead world' rfl hrun
    obtain ⟨count, reader, hrounds, hahead⟩ := hreading.run read hrun
    exact ⟨count, reader, hrounds, hahead.world⟩
  case starts =>
    rintro read entry ahead world' rfl hrun hstarted
    obtain ⟨count, reader, hrounds, hahead⟩ := hreading.run read hrun
    exact ⟨count, reader, hrounds, hahead.world, hahead.started hstarted⟩
  case returns =>
    intro world' hrun
    rw [← List.append_nil entries] at hreading
    obtain ⟨count, reader, hrounds, hahead⟩ := hreading.run entries hrun
    exact ⟨count, reader, hrounds, hahead.world, hahead.last⟩

/-- The reader stands in front of the file. -/
theorem reading_start (hstack : stack ≠ cstr "END") :
    Reading (fileText entries ending) ending world entries ⟨world, 0, stack⟩ :=
  ⟨rfl, hstack, [], rfl, blank_nil⟩

inductive Call where
  | moduleStart (name : CString)
  | mountFs (source dest : CString) (offset : ℕ)
  | heapInit
  deriving DecidableEq

/-- A system with every file, which notes what is called and starts each program. -/
def noting : Environment (List Call) CString where
  fopen world name := (world, some name)
  moduleStart world file := world ++ [.moduleStart file]
  mountFs world file dest offset := world ++ [.mountFs file dest offset]
  exec _ _ := none
  heapInit world := world ++ [.heapInit]

/-- The lines of `initrc.conf` that start the disk driver and mount the disk. -/
def initrcConf : List Entry :=
  [⟨[], .startModule ⟨cstr "boot/idm.elf", by decide +kernel, by decide +kernel, by decide +kernel⟩,
      some ⟨cstr " Loads", by decide +kernel, by decide +kernel⟩, by simp, False.elim⟩,
    ⟨[], .mount ⟨cstr "/dev/disk/ide0", by decide +kernel, by decide +kernel, by decide +kernel⟩
        ⟨cstr "/sys", by decide +kernel, by decide +kernel, by decide +kernel⟩
        (some ⟨.octal, 4096, by decide⟩), none, by simp, by simp⟩,
    ⟨[], .sysinit, none, by simp, False.elim⟩]

/-- The line that leaves for the first program. -/
def initrcExec : Entry :=
  ⟨[], .exec ⟨cstr "/sys/exectest", by decide +kernel, by decide +kernel, by decide +kernel⟩,
    none, by simp, False.elim⟩

def initrcEnd : Ending where
  indent := [newline]
  behind := cstr " # Ends\n"
  blank := by simp [isBlank, newline, tab, space]
  ends := ⟨space, cstr "# Ends\n", by decide +kernel, by decide⟩

end Scripts

end KimisOS.Initrc
