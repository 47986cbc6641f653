import KimisOS.Text.Numbers

/-!
# Formatted output

`vprintf` sends a format to the serial port.  Strings and characters go through
`printf` once more, which takes them for formats, and a conversion that it does not
know is left behind the percent sign.
-/

namespace KimisOS.Text

open KimisOS.ByteStore
open KimisOS.Fat32 (CString)
open KimisOS.RamData (HoldsString strcpy)

/-- A string in memory, up to its terminator. -/
structure CStr where
  bytes : CString
  nonzero : 0 ∉ bytes

/-- An argument behind the format. -/
inductive Arg where
  | int (num : BitVec 32)
  | str (string : CStr)

/-- The array of `vprintf`, and that of `strpad` below it with the return address
between them.  At the start of a conversion they hold what was on the stack; `left` is
what is left of the format there. -/
structure Frame where
  stack : ℕ → ℕ → UInt8
  numb : ℕ
  tmp : ℕ
  tmp_ne : tmp ≠ 0
  apart : tmp + 12 ≤ numb

/-! ## `strpad` and `debug_puts` -/

/-- The characters in front of the next terminator. -/
def stringIn (mem : ℕ → UInt8) : ℕ → ℕ → Option CString
  | 0, _ => none
  | rounds + 1, str =>
      if mem str = 0 then some [] else (stringIn mem rounds (str + 1)).map (mem str :: ·)

def debugPuts (mem : ℕ → UInt8) (rounds string : ℕ) : Option (List UInt8) :=
  stringIn mem rounds string

/-- A `char` as a `uint32_t`. -/
def charWord (c : UInt8) : ℕ := if c < 128 then c.toNat else c.toNat + (2 ^ 32 - 256)

/-- The terminator of the first copy stands behind the last element of `tmp`. -/
def strpad (mem : ℕ → UInt8) (rounds tmp string : ℕ) (padding : UInt8) (length : ℕ) :
    Option (ℕ → UInt8) :=
  (stringIn mem rounds string).bind fun text =>
    if charWord padding ≤ text.length then some mem
    else
      let mem := store mem tmp (fun _ => padding)
        ((length + (2 ^ 32 - text.length)) % 2 ^ 32)
      (stringIn mem rounds string).bind fun text =>
        let mem := strcpy mem text (tmp + length - text.length)
        (stringIn mem rounds tmp).map fun padded => strcpy mem padded string

/-! ## `vprintf` -/

def percent : UInt8 := 0x25

section Vprintf

variable (frame : Frame) (rounds : ℕ)

/-- `%d`. -/
def putsDecimal (left : ℕ) (num : BitVec 32) : Option (List UInt8) :=
  (itoa num.toInt (frame.stack left) frame.numb 10).bind fun mem =>
    debugPuts mem rounds frame.numb

/-- `%x`. -/
def putsHex (left : ℕ) (num : BitVec 32) : Option (List UInt8) :=
  (itoa num.toInt (frame.stack left) frame.numb 16).bind fun mem =>
    (strpad mem rounds frame.tmp frame.numb 48 8).bind fun mem =>
      debugPuts mem rounds frame.numb

/-- `(char[]){num, 0}`, up to its terminator. -/
def charString (num : BitVec 32) : CString :=
  if UInt8.ofNat num.toNat = 0 then [] else [UInt8.ofNat num.toNat]

/-- What is sent, and the arguments that are left. -/
abbrev Sent := Option (List UInt8 × List Arg)

/-- `text` is sent in front of the rest. -/
def Sent.after (text : Option (List UInt8)) (rest : Sent) : Sent :=
  text.bind fun text => rest.map fun (sent, vars) => (text ++ sent, vars)

/-- The loop of `vprintf`, with the calls of `printf` in it.  It has no result where it
reads behind the terminator, or takes an argument that was not passed. -/
def vprintfLoop (printf : CString → Option (List UInt8)) : CString → List Arg → Sent
  | [], vars => some ([], vars)
  | c :: string, vars =>
      if c = percent then
        match string with
        | [] => none
        | kind :: string =>
            if kind = 0x64 then
              match vars with
              | .int num :: vars =>
                  Sent.after (putsDecimal frame rounds string.length num)
                    (vprintfLoop printf string vars)
              | _ => none
            else if kind = 0x78 then
              match vars with
              | .int num :: vars =>
                  Sent.after (putsHex frame rounds string.length num)
                    (vprintfLoop printf string vars)
              | _ => none
            else if kind = 0x73 then
              match vars with
              | .str ptr :: vars =>
                  Sent.after (printf ptr.bytes) (vprintfLoop printf string vars)
              | _ => none
            else if kind = 0x63 then
              match vars with
              | .int num :: vars =>
                  Sent.after (printf (charString num)) (vprintfLoop printf string vars)
              | _ => none
            else if kind = 0x62 then
              -- there is no `continue`: the next character is sent unseen
              match vars with
              | .int num :: vars =>
                  Sent.after (printf (if num ≠ 0 then [0x74, 0x72, 0x75, 0x65]
                    else [0x66, 0x61, 0x6c, 0x73, 0x65]))
                    (match string with
                    | [] => none
                    | next :: string =>
                        Sent.after (some [next]) (vprintfLoop printf string vars))
              | _ => none
            else Sent.after (some [kind]) (vprintfLoop printf string vars)
      else Sent.after (some [c]) (vprintfLoop printf string vars)

/-- `vprintf`, as deep as the calls of `printf` go.  These pass no arguments. -/
def vprintf : ℕ → CString → List Arg → Sent
  | 0 => fun _ _ => none
  | depth + 1 => vprintfLoop frame rounds fun ptr =>
      (vprintf depth ptr []).map fun (sent, _) => sent

end Vprintf

/-! ## What should be sent -/

inductive Conversion where
  | decimal
  | hexadecimal
  | character
  | chars
  deriving DecidableEq

def conversionOf (kind : UInt8) : Option Conversion :=
  if kind = 0x64 then some .decimal
  else if kind = 0x78 then some .hexadecimal
  else if kind = 0x63 then some .character
  else if kind = 0x73 then some .chars
  else none

/-- A piece of a format: a character, a conversion, or a percent sign with what follows
it. -/
inductive Piece where
  | char (c : UInt8)
  | conversion (conversion : Conversion)
  | other (bytes : List UInt8)
  deriving DecidableEq

def pieces : CString → List Piece
  | [] => []
  | c :: string =>
      if c = percent then
        match string with
        | [] => [.other [c]]
        | kind :: string =>
            (match conversionOf kind with
              | some conversion => .conversion conversion
              | none => .other [c, kind]) :: pieces string
      else .char c :: pieces string

/-- What an argument is replaced by. -/
def Conversion.text : Conversion → Arg → Option (List UInt8)
  | .decimal, .int num => some (representation 10 num.toInt)
  | .hexadecimal, .int num => some ((numeral 16 num.toNat).leftpad 8 48)
  | .character, .int num => some [UInt8.ofNat num.toNat]
  | .chars, .str string => some string.bytes
  | _, _ => none

/-- The format with its conversions replaced, and the arguments that are left.  There is
none for arguments that do not belong to the conversions. -/
def expand : List Piece → List Arg → Sent
  | [], vars => some ([], vars)
  | .char c :: pieces, vars => Sent.after (some [c]) (expand pieces vars)
  | .other bytes :: pieces, vars => Sent.after (some bytes) (expand pieces vars)
  | .conversion _ :: _, [] => none
  | .conversion conversion :: pieces, arg :: vars =>
      Sent.after (conversion.text arg) (expand pieces vars)

/-- The number of conversions. -/
def conversions : List Piece → ℕ
  | [] => 0
  | .conversion _ :: pieces => conversions pieces + 1
  | _ :: pieces => conversions pieces

/-- A format and arguments for its conversions. -/
structure Call where
  format : CStr
  vars : List Arg
  matched : (expand (pieces format.bytes) vars).isSome

/-- Whatever is on the stack, the format is sent with its conversions replaced, and no
more arguments are taken than it has conversions. -/
def PrintsVerbatim (call : Call) : Prop :=
  ∀ frame : Frame, ∃ depth rounds sent left,
    vprintf frame rounds depth call.format.bytes call.vars = some (sent, left) ∧
      (expand (pieces call.format.bytes) call.vars).map Prod.fst = some sent ∧
      call.vars.length ≤ left.length + conversions (pieces call.format.bytes)

/-- An argument that is printed as it is. -/
def Conversion.Plain : Conversion → Arg → Prop
  | .decimal, .int num => 0 ≤ num.toInt
  | .hexadecimal, .int _ => True
  | .character, .int num => UInt8.ofNat num.toNat ≠ 0 ∧ UInt8.ofNat num.toNat ≠ percent
  | .chars, .str string => percent ∉ string.bytes
  | _, _ => False

/-- Every percent sign begins a conversion, and every argument is printed as it is. -/
def Plain : List Piece → List Arg → Prop
  | [], _ => True
  | .char _ :: pieces, vars => Plain pieces vars
  | .other _ :: _, _ => False
  | .conversion _ :: _, [] => False
  | .conversion conversion :: pieces, arg :: vars => conversion.Plain arg ∧ Plain pieces vars

/-! ## Numbers -/

section Numbers

variable {mem : ℕ → UInt8} {address rounds base number : ℕ} {string : CString}

theorem stringIn_eq (hholds : HoldsString mem address string) (hstring : 0 ∉ string)
    (hrounds : string.length < rounds) : stringIn mem rounds address = some string := by
  induction string generalizing address rounds with
  | nil =>
      obtain ⟨rounds, rfl⟩ := Nat.exists_eq_succ_of_ne_zero (Nat.ne_zero_of_lt hrounds)
      have hend : mem address = 0 := hholds 0 le_rfl
      rw [stringIn, if_pos hend]
  | cons c string ih =>
      obtain ⟨rounds, rfl⟩ := Nat.exists_eq_succ_of_ne_zero (Nat.ne_zero_of_lt hrounds)
      have hc : mem address = c := hholds 0 (Nat.zero_le _)
      have hne : mem address ≠ 0 := by
        rw [hc]
        exact fun hzero => hstring (List.mem_cons.mpr (.inl hzero.symm))
      have hrest : HoldsString mem (address + 1) string := by
        intro k hk
        rw [Nat.add_assoc, Nat.add_comm 1 k]
        exact hholds (k + 1) (Nat.succ_le_succ hk)
      rw [stringIn, if_neg hne, hc, ih hrest (fun hmem => hstring (List.mem_cons_of_mem _ hmem))
        (Nat.lt_of_succ_lt_succ hrounds)]
      rfl

/-- Without a terminator there is no end. -/
theorem stringIn_none (hmem : ∀ a, address ≤ a → mem a ≠ 0) :
    stringIn mem rounds address = none := by
  induction rounds generalizing address with
  | zero => rfl
  | succ rounds ih =>
      rw [stringIn, if_neg (hmem address le_rfl), ih fun a ha => hmem a (Nat.le_of_succ_le ha)]
      rfl

/-- More rounds do not change a string that was found. -/
theorem stringIn_mono {more : ℕ} (hfound : stringIn mem rounds address = some string)
    (hmore : rounds ≤ more) : stringIn mem more address = some string := by
  induction rounds generalizing address string more with
  | zero => cases hfound
  | succ rounds ih =>
      obtain ⟨more, rfl⟩ := Nat.exists_eq_succ_of_ne_zero (Nat.ne_zero_of_lt hmore)
      rw [stringIn] at hfound ⊢
      by_cases hend : mem address = 0
      · rwa [if_pos hend] at hfound ⊢
      · rw [if_neg hend] at hfound ⊢
        obtain ⟨rest, hrest, rfl⟩ := Option.map_eq_some_iff.mp hfound
        rw [ih hrest (Nat.le_of_succ_le_succ hmore), Option.map_some]

theorem strpad_mono {tmp length more : ℕ} {padding : UInt8} {mem' : ℕ → UInt8}
    (hpad : strpad mem rounds tmp address padding length = some mem') (hmore : rounds ≤ more) :
    strpad mem more tmp address padding length = some mem' := by
  rw [strpad] at hpad ⊢
  obtain ⟨text, htext, hrest⟩ := Option.bind_eq_some_iff.mp hpad
  rw [stringIn_mono htext hmore, Option.bind_some]
  split
  next hlong => rwa [if_pos hlong] at hrest
  next hshort =>
    rw [if_neg hshort] at hrest
    obtain ⟨again, hagain, hcopies⟩ := Option.bind_eq_some_iff.mp hrest
    obtain ⟨padded, hpadded, hlast⟩ := Option.map_eq_some_iff.mp hcopies
    dsimp only
    rw [stringIn_mono hagain hmore, Option.bind_some, stringIn_mono hpadded hmore,
      Option.map_some, hlast]

theorem length_numeral_le {digits : ℕ} (hbase : 2 ≤ base) (hdigits : 0 < digits)
    (hnumber : number < base ^ digits) : (numeral base number).length ≤ digits := by
  by_cases hzero : number = 0
  · rw [hzero]
    exact hdigits
  · rw [numeral_of_ne hzero, List.length_reverse, List.length_map]
    exact (Nat.digits_length_le_iff hbase number).mpr hnumber

/-- `strcpy` leaves a string at its destination. -/
theorem holdsString_strcpy (hdest : address ≠ 0) :
    HoldsString (strcpy mem string address) address string := by
  intro k hk
  rw [strcpy, if_neg hdest, store_inside (by omega)]

theorem strcpy_outside {a : ℕ} (ha : a < address ∨ address + string.length < a) :
    strcpy mem string address a = mem a := by
  rw [strcpy]
  split
  · rfl
  · exact store_outside (by omega)

/-- A short string is padded to `length` characters. -/
theorem strpad_eq {tmp length : ℕ} {padding : UInt8} (hholds : HoldsString mem address string)
    (hstring : 0 ∉ string) (hpadding : padding ≠ 0) (hshort : string.length ≤ length)
    (hlength : length < charWord padding) (hword : length < 2 ^ 31) (hrounds : length < rounds)
    (htmp : tmp ≠ 0) (hapart : tmp + length < address) :
    ∃ mem', strpad mem rounds tmp address padding length = some mem' ∧
      HoldsString mem' address (string.leftpad length padding) := by
  have hspaces : (length + (2 ^ 32 - string.length)) % 2 ^ 32 = length - string.length := by
    omega
  generalize hpadded : store mem tmp (fun _ => padding) (length - string.length) = padded
  have hkept : HoldsString padded address string := by
    intro k hk
    rw [← hpadded, store_outside (by omega)]
    exact hholds k hk
  have hplace : tmp + length - string.length = tmp + (length - string.length) := by omega
  generalize hjoined : strcpy padded string (tmp + (length - string.length)) = joined
  have hcopied := @holdsString_strcpy padded (tmp + (length - string.length)) string (by omega)
  rw [hjoined] at hcopied
  have hlengths : (string.leftpad length padding).length = length := by
    rw [List.leftpad, List.length_append, List.length_replicate]
    omega
  have hjoin : HoldsString joined tmp (string.leftpad length padding) := by
    intro k hk
    rw [hlengths] at hk
    rw [List.leftpad]
    by_cases hfirst : k < length - string.length
    · rw [← hjoined, strcpy_outside (by omega), ← hpadded, store_inside hfirst,
        List.getD_append _ _ _ _ (by rwa [List.length_replicate]),
        List.getD_eq_getElem _ _ (by rwa [List.length_replicate]), List.getElem_replicate]
    · obtain ⟨j, rfl⟩ := Nat.exists_eq_add_of_le (Nat.not_lt.mp hfirst)
      rw [← Nat.add_assoc, hcopied j (by omega),
        List.getD_append_right _ _ _ _ (by rw [List.length_replicate]; omega),
        List.length_replicate, Nat.add_sub_cancel_left]
  have hnonzero : 0 ∉ string.leftpad length padding := by
    rw [List.leftpad, List.mem_append, not_or]
    exact ⟨fun hmem => hpadding (List.eq_of_mem_replicate hmem).symm, hstring⟩
  refine ⟨strcpy joined (string.leftpad length padding) address, ?_,
    holdsString_strcpy (by omega)⟩
  rw [strpad, stringIn_eq hholds hstring (by omega), Option.bind_some, if_neg (by omega),
    hspaces]
  dsimp only
  rw [hpadded, stringIn_eq hkept hstring (by omega), Option.bind_some, hplace, hjoined,
    stringIn_eq hjoin hnonzero (by omega), Option.map_some]

end Numbers

/-! ## Conversions -/

section Puts

variable {frame : Frame} {rounds left : ℕ} {num : BitVec 32}

theorem Frame.numb_ne (frame : Frame) : frame.numb ≠ 0 := by
  have hapart := frame.apart
  omega

theorem toInt_bounds (num : BitVec 32) : -2 ^ 31 ≤ num.toInt ∧ num.toInt < 2 ^ 32 := by
  have hlow := BitVec.le_toInt num
  have hhigh := BitVec.toInt_lt (x := num)
  omega

theorem toInt_word (num : BitVec 32) : (num.toInt % 2 ^ 32).toNat = num.toNat := by
  have hbound := num.isLt
  rw [BitVec.toInt_eq_toNat_cond]
  split <;> omega

/-- A number that is not negative is printed whatever was in the array. -/
theorem putsDecimal_eq (hnum : 0 ≤ num.toInt) (hrounds : 10 < rounds) :
    putsDecimal frame rounds left num = some (representation 10 num.toInt) := by
  obtain ⟨hlow, hhigh⟩ := toInt_bounds num
  have hsigned : ¬(num.toInt < 0 ∧ 10 = 10) := fun h => absurd h.1 (Int.not_lt.mpr hnum)
  obtain ⟨mem, hmem, hholds⟩ := @itoa_unsigned 10 frame.numb (frame.stack left) num.toInt
    frame.numb_ne (by decide) (by decide) hlow hhigh hsigned
  have hlength : (numeral 10 (num.toInt % 2 ^ 32).toNat).length ≤ 10 := by
    refine length_numeral_le (by decide) (by decide) ?_
    rw [toInt_word]
    exact num.isLt.trans (by decide)
  rw [putsDecimal, hmem, Option.bind_some, debugPuts, representation, if_neg hsigned]
  exact stringIn_eq hholds (zero_notMem_numeral (by decide) (by decide)) (by omega)

theorem putsHex_eq (hrounds : 8 < rounds) :
    putsHex frame rounds left num = some ((numeral 16 num.toNat).leftpad 8 48) := by
  obtain ⟨hlow, hhigh⟩ := toInt_bounds num
  obtain ⟨mem, hmem, hholds⟩ := @itoa_unsigned 16 frame.numb (frame.stack left) num.toInt
    frame.numb_ne (by decide) (by decide) hlow hhigh fun h => absurd h.2 (by decide)
  have hapart := frame.apart
  have hnonzero : 0 ∉ numeral 16 num.toNat := zero_notMem_numeral (by decide) (by decide)
  have hlength : (numeral 16 num.toNat).length ≤ 8 :=
    length_numeral_le (by decide) (by decide) num.isLt
  rw [toInt_word] at hholds
  obtain ⟨padded, hpadded, hword⟩ := strpad_eq hholds hnonzero (show (48 : UInt8) ≠ 0 by decide)
    hlength (by decide) (by decide) hrounds frame.tmp_ne (by omega)
  have hlengths : ((numeral 16 num.toNat).leftpad 8 48).length = 8 := by
    rw [List.leftpad, List.length_append, List.length_replicate]
    omega
  have hzero : 0 ∉ (numeral 16 num.toNat).leftpad 8 48 := by
    rw [List.leftpad, List.mem_append, not_or]
    exact ⟨fun h => absurd (List.eq_of_mem_replicate h) (by decide), hnonzero⟩
  rw [putsHex, hmem, Option.bind_some, hpadded, Option.bind_some, debugPuts]
  exact stringIn_eq hword hzero (by omega)

theorem putsDecimal_some {text : List UInt8} (hnum : 0 ≤ num.toInt)
    (hputs : putsDecimal frame rounds left num = some text) :
    text = representation 10 num.toInt := by
  rw [putsDecimal] at hputs
  obtain ⟨mem, hmem, hsent⟩ := Option.bind_eq_some_iff.mp hputs
  have hmore := @putsDecimal_eq frame (max rounds 11) left num hnum (by omega)
  rw [putsDecimal, hmem, Option.bind_some, debugPuts,
    stringIn_mono hsent (Nat.le_max_left _ _)] at hmore
  exact Option.some.inj hmore

theorem putsHex_some {text : List UInt8} (hputs : putsHex frame rounds left num = some text) :
    text = (numeral 16 num.toNat).leftpad 8 48 := by
  rw [putsHex] at hputs
  obtain ⟨mem, hmem, hpads⟩ := Option.bind_eq_some_iff.mp hputs
  obtain ⟨padded, hpadded, hsent⟩ := Option.bind_eq_some_iff.mp hpads
  have hmore := @putsHex_eq frame (max rounds 9) left num (by omega)
  rw [putsHex, hmem, Option.bind_some, strpad_mono hpadded (Nat.le_max_left _ _),
    Option.bind_some, debugPuts, stringIn_mono hsent (Nat.le_max_left _ _)] at hmore
  exact Option.some.inj hmore

end Puts

/-! ## Steps of the loop -/

section Loop

variable {frame : Frame} {rounds : ℕ} {printf : CString → Option (List UInt8)}
  {string : CString} {vars left : List Arg} {sent : List UInt8} {c kind : UInt8}
  {conversion : Conversion}

theorem Sent.after_eq_some {text : Option (List UInt8)} {rest : Sent} :
    Sent.after text rest = some (sent, left) ↔
      ∃ front back, text = some front ∧ rest = some (back, left) ∧ sent = front ++ back := by
  rw [Sent.after, Option.bind_eq_some_iff]
  constructor
  · rintro ⟨front, rfl, hrest⟩
    obtain ⟨⟨back, vars⟩, rfl, heq⟩ := Option.map_eq_some_iff.mp hrest
    obtain ⟨rfl, rfl⟩ := Prod.mk.inj heq
    exact ⟨front, back, rfl, rfl, rfl⟩
  · rintro ⟨front, back, rfl, rfl, rfl⟩
    exact ⟨front, rfl, rfl⟩

/-- What a conversion sends for its argument. -/
def Conversion.put (frame : Frame) (rounds : ℕ) (printf : CString → Option (List UInt8))
    (left : ℕ) : Conversion → Arg → Option (List UInt8)
  | .decimal, .int num => putsDecimal frame rounds left num
  | .hexadecimal, .int num => putsHex frame rounds left num
  | .character, .int num => printf (charString num)
  | .chars, .str ptr => printf ptr.bytes
  | _, _ => none

theorem vprintfLoop_char (hc : c ≠ percent) :
    vprintfLoop frame rounds printf (c :: string) vars =
      Sent.after (some [c]) (vprintfLoop frame rounds printf string vars) := by
  rw [vprintfLoop.eq_def]
  dsimp only
  rw [if_neg hc]

theorem conversionOf_eq_some (hkind : conversionOf kind = some conversion) :
    (kind = 0x64 ∧ conversion = .decimal) ∨ (kind = 0x78 ∧ conversion = .hexadecimal) ∨
      (kind = 0x63 ∧ conversion = .character) ∨ (kind = 0x73 ∧ conversion = .chars) := by
  rw [conversionOf] at hkind
  split at hkind
  next h => exact Or.inl ⟨h, (Option.some.inj hkind).symm⟩
  next =>
    split at hkind
    next h => exact Or.inr (Or.inl ⟨h, (Option.some.inj hkind).symm⟩)
    next =>
      split at hkind
      next h => exact Or.inr (Or.inr (Or.inl ⟨h, (Option.some.inj hkind).symm⟩))
      next =>
        split at hkind
        next h => exact Or.inr (Or.inr (Or.inr ⟨h, (Option.some.inj hkind).symm⟩))
        next => exact absurd hkind (by simp)

theorem conversionOf_eq_none :
    conversionOf kind = none ↔ kind ≠ 0x64 ∧ kind ≠ 0x78 ∧ kind ≠ 0x63 ∧ kind ≠ 0x73 := by
  rw [conversionOf]
  split_ifs <;> simp_all

theorem vprintfLoop_conversion (hkind : conversionOf kind = some conversion) :
    vprintfLoop frame rounds printf (percent :: kind :: string) vars =
      match vars with
      | [] => none
      | arg :: vars => Sent.after (conversion.put frame rounds printf string.length arg)
          (vprintfLoop frame rounds printf string vars) := by
  rcases conversionOf_eq_some hkind with ⟨rfl, rfl⟩ | ⟨rfl, rfl⟩ | ⟨rfl, rfl⟩ | ⟨rfl, rfl⟩
  all_goals
    rw [vprintfLoop.eq_def]
    cases vars with
    | nil => rfl
    | cons arg vars => cases arg <;> rfl

theorem vprintfLoop_other (hkind : conversionOf kind = none) (hb : kind ≠ 0x62) :
    vprintfLoop frame rounds printf (percent :: kind :: string) vars =
      Sent.after (some [kind]) (vprintfLoop frame rounds printf string vars) := by
  obtain ⟨hd, hx, hc, hs⟩ := conversionOf_eq_none.mp hkind
  rw [vprintfLoop.eq_def]
  dsimp only
  rw [if_pos rfl, if_neg hd, if_neg hx, if_neg hs, if_neg hc, if_neg hb]

/-- `%b` sends a word and the character behind it. -/
theorem vprintfLoop_boolean
    (hsent : vprintfLoop frame rounds printf (percent :: 0x62 :: string) vars =
      some (sent, left)) :
    ∃ word front back, (word = [0x74, 0x72, 0x75, 0x65] ∨
        word = [0x66, 0x61, 0x6c, 0x73, 0x65]) ∧
      printf word = some front ∧ sent = front ++ back := by
  rw [vprintfLoop.eq_def] at hsent
  dsimp only at hsent
  rw [if_pos rfl, if_neg (by decide), if_neg (by decide), if_neg (by decide), if_neg (by decide),
    if_pos rfl] at hsent
  split at hsent
  next num vars =>
    obtain ⟨front, back, hfront, -, hall⟩ := Sent.after_eq_some.mp hsent
    refine ⟨_, front, back, ?_, hfront, hall⟩
    split
    · exact Or.inl rfl
    · exact Or.inr rfl
  next => simp at hsent

end Loop

section Pieces

variable {string : CString} {c kind : UInt8} {conversion : Conversion}

theorem pieces_char (hc : c ≠ percent) : pieces (c :: string) = .char c :: pieces string := by
  rw [pieces.eq_def]
  dsimp only
  rw [if_neg hc]

theorem pieces_conversion (hkind : conversionOf kind = some conversion) :
    pieces (percent :: kind :: string) = .conversion conversion :: pieces string := by
  rw [pieces.eq_def]
  dsimp only
  rw [if_pos rfl, hkind]

theorem pieces_other (hkind : conversionOf kind = none) :
    pieces (percent :: kind :: string) = .other [percent, kind] :: pieces string := by
  rw [pieces.eq_def]
  dsimp only
  rw [if_pos rfl, hkind]

end Pieces

/-! ## Plain calls -/

section Plain

variable {frame : Frame} {rounds depth : ℕ} {string : CString} {vars : List Arg}

/-- A string without a percent sign is sent as it is. -/
theorem vprintf_verbatim (hstring : percent ∉ string) :
    vprintf frame rounds (depth + 1) string vars = some (string, vars) := by
  rw [vprintf]
  induction string with
  | nil => rfl
  | cons c string ih =>
      rw [List.mem_cons, not_or] at hstring
      rw [vprintfLoop_char (Ne.symm hstring.1), ih hstring.2]
      rfl

/-- A plain argument is sent as the text that it stands for. -/
theorem Conversion.Plain.put_eq {conversion : Conversion} {arg : Arg} {left : ℕ}
    (hplain : conversion.Plain arg) (hrounds : 10 < rounds) :
    conversion.put frame rounds
        (fun ptr => (vprintf frame rounds (depth + 1) ptr []).map Prod.fst) left arg =
      conversion.text arg := by
  cases conversion with
  | decimal =>
      cases arg with
      | int num => exact putsDecimal_eq hplain hrounds
      | str ptr => exact hplain.elim
  | hexadecimal =>
      cases arg with
      | int num => exact putsHex_eq (by omega)
      | str ptr => exact hplain.elim
  | character =>
      cases arg with
      | int num =>
          obtain ⟨hnonzero, hpercent⟩ := hplain
          have hchar : charString num = [UInt8.ofNat num.toNat] := if_neg hnonzero
          rw [Conversion.put, hchar,
            vprintf_verbatim (fun hmem => hpercent (List.mem_singleton.mp hmem).symm)]
          rfl
      | str ptr => exact hplain.elim
  | chars =>
      cases arg with
      | int num => exact hplain.elim
      | str ptr =>
          have hpercent : percent ∉ ptr.bytes := hplain
          rw [Conversion.put, vprintf_verbatim hpercent]
          rfl

theorem vprintf_plain (hplain : Plain (pieces string) vars) (hrounds : 10 < rounds) :
    vprintf frame rounds (depth + 2) string vars = expand (pieces string) vars := by
  rw [vprintf]
  induction string using pieces.induct generalizing vars with
  | case1 => rfl
  | case2 => exact hplain.elim
  | case3 kind string ih =>
      cases hkind : conversionOf kind with
      | none =>
          rw [pieces_other hkind] at hplain
          exact hplain.elim
      | some conversion =>
          rw [pieces_conversion hkind] at hplain ⊢
          rw [vprintfLoop_conversion hkind]
          cases vars with
          | nil => exact hplain.elim
          | cons arg vars =>
              obtain ⟨harg, hrest⟩ := hplain
              dsimp only
              rw [harg.put_eq hrounds, ih hrest, expand]
  | case4 c string hc ih =>
      rw [pieces_char hc] at hplain ⊢
      rw [vprintfLoop_char hc, ih hplain, expand]

/-- Every conversion has taken one argument. -/
theorem expand_length {all : List Piece} {sent : List UInt8} {left : List Arg}
    (hexpand : expand all vars = some (sent, left)) :
    vars.length = left.length + conversions all := by
  induction all generalizing vars sent with
  | nil =>
      rw [expand, Option.some.injEq, Prod.mk.injEq] at hexpand
      rw [hexpand.2]
      rfl
  | cons piece all ih =>
      cases piece with
      | char c =>
          obtain ⟨_, _, -, hrest, -⟩ := Sent.after_eq_some.mp hexpand
          exact ih hrest
      | other bytes =>
          obtain ⟨_, _, -, hrest, -⟩ := Sent.after_eq_some.mp hexpand
          exact ih hrest
      | conversion conversion =>
          cases vars with
          | nil => cases hexpand
          | cons arg vars =>
              obtain ⟨_, _, -, hrest, -⟩ := Sent.after_eq_some.mp hexpand
              rw [List.length_cons, ih hrest, conversions, Nat.add_assoc]

end Plain

/-! ## Where the output first differs -/

section Lag

variable {frame : Frame} {rounds depth : ℕ} {string w text a b : List UInt8}

/-- What a percent sign or a zero character that was not sent leaves to be sent. -/
def Lag (w : List UInt8) : Prop := ∀ c ∈ w, c = percent ∨ c = 0

theorem Lag.append_percent (hlag : Lag w) : Lag (w ++ [percent]) := by
  intro c hc
  rcases List.mem_append.mp hc with hw | hlast
  · exact hlag c hw
  · exact Or.inl (List.mem_singleton.mp hlast)

/-- A text without these characters cannot catch up. -/
theorem Lag.eq_nil (hlag : Lag w) (htext : text ≠ [])
    (hchars : ∀ c ∈ text, c ≠ percent ∧ c ≠ 0) (heq : text ++ a = w ++ (text ++ b)) :
    w = [] ∧ a = b := by
  cases w with
  | nil => exact ⟨rfl, List.append_cancel_left heq⟩
  | cons h w =>
      obtain ⟨c, text, rfl⟩ := List.exists_cons_of_ne_nil htext
      obtain ⟨rfl, -⟩ := List.cons.inj heq
      obtain ⟨hpercent, hzero⟩ := hchars c List.mem_cons_self
      exact absurd (hlag c List.mem_cons_self) (not_or.mpr ⟨hpercent, hzero⟩)

/-- Behind an unknown conversion the output lags by one character more. -/
theorem Lag.other {kind : UInt8} (hlag : Lag w) (hkind : kind ≠ 0)
    (heq : kind :: a = w ++ (percent :: kind :: b)) :
    ∃ w', Lag w' ∧ w' ≠ [] ∧ a = w' ++ b := by
  have hlonger := hlag.append_percent
  rw [List.append_cons] at heq
  obtain ⟨h, rest, hrest⟩ := List.exists_cons_of_ne_nil
    (List.append_ne_nil_of_right_ne_nil w (List.cons_ne_nil percent []))
  rw [hrest] at heq hlonger
  obtain ⟨rfl, htail⟩ := List.cons.inj heq
  have hpercent : kind = percent :=
    (hlonger kind List.mem_cons_self).resolve_right hkind
  refine ⟨rest ++ [percent], ?_, List.append_ne_nil_of_right_ne_nil _ (List.cons_ne_nil _ _), ?_⟩
  · exact Lag.append_percent fun c hc => hlonger c (List.mem_cons_of_mem _ hc)
  · rw [htail, hpercent, List.append_assoc]
    rfl

/-- A string that `printf` takes for its format. -/
theorem vprintf_string {left : List Arg} (hzero : 0 ∉ string)
    (hsent : vprintf frame rounds depth string [] = some (text, left)) (hlag : Lag w)
    (heq : text ++ a = w ++ (string ++ b)) :
    ∃ w', Lag w' ∧ a = w' ++ b ∧ (w' = [] → w = [] ∧ percent ∉ string) := by
  cases depth with
  | zero => cases hsent
  | succ depth =>
      rw [vprintf] at hsent
      induction string using pieces.induct generalizing text w with
      | case1 =>
          cases hsent
          exact ⟨w, hlag, heq, fun hw => ⟨hw, List.not_mem_nil⟩⟩
      | case2 => cases hsent
      | case3 kind string ih =>
          simp only [List.mem_cons, not_or] at hzero
          cases hkind : conversionOf kind with
          | some conversion =>
              rw [vprintfLoop_conversion hkind] at hsent
              cases hsent
          | none =>
              by_cases hb : kind = 0x62
              · subst hb
                cases hsent
              · rw [vprintfLoop_other hkind hb] at hsent
                obtain ⟨_, back, hfront, hback, rfl⟩ := Sent.after_eq_some.mp hsent
                cases hfront
                obtain ⟨more, hmore, hne, hrest⟩ := hlag.other (Ne.symm hzero.2.1) heq
                obtain ⟨w', hw', ha, hnil⟩ := ih hzero.2.2 hmore hrest hback
                exact ⟨w', hw', ha, fun h => absurd (hnil h).1 hne⟩
      | case4 c string hc ih =>
          rw [List.mem_cons, not_or] at hzero
          rw [vprintfLoop_char hc] at hsent
          obtain ⟨_, back, hfront, hback, rfl⟩ := Sent.after_eq_some.mp hsent
          cases hfront
          have hchars : ∀ d ∈ [c], d ≠ percent ∧ d ≠ 0 := by
            intro d hd
            rw [List.mem_singleton.mp hd]
            exact ⟨hc, Ne.symm hzero.1⟩
          obtain ⟨rfl, hrest⟩ := hlag.eq_nil (List.cons_ne_nil c []) hchars heq
          obtain ⟨w', hw', ha, hnil⟩ := ih hzero.2 hlag hrest hback
          refine ⟨w', hw', ha, fun h => ⟨rfl, ?_⟩⟩
          rw [List.mem_cons, not_or]
          exact ⟨Ne.symm hc, (hnil h).2⟩

theorem numeral_chars {base number : ℕ} (hbase : 8 ≤ base) (htable : base ≤ 16) :
    ∀ c ∈ numeral base number, c ≠ percent ∧ c ≠ 0 := by
  intro c hc
  refine ⟨?_, fun hzero => zero_notMem_numeral hbase htable (hzero ▸ hc)⟩
  by_cases hnumber : number = 0
  · subst hnumber
    rw [List.mem_singleton.mp hc]
    decide
  · rw [numeral_of_ne hnumber, List.mem_reverse, List.mem_map] at hc
    obtain ⟨digit, hmem, rfl⟩ := hc
    have hdigit : digit < 16 :=
      (Nat.digits_lt_base (by omega) hmem).trans_le htable
    have hdigits : ∀ digit < 16, digitChar digit ≠ percent := by decide
    exact hdigits digit hdigit

theorem numeral_ne_nil {base number : ℕ} : numeral base number ≠ [] := by
  by_cases hnumber : number = 0
  · subst hnumber
    exact List.cons_ne_nil _ _
  · rw [numeral_of_ne hnumber, ne_eq, List.reverse_eq_nil_iff, List.map_eq_nil_iff,
      Nat.digits_eq_nil_iff_eq_zero]
    exact hnumber

/-- A stack without a zero. -/
def onesFrame : Frame where
  stack := fun _ _ => 1
  numb := 13
  tmp := 1
  tmp_ne := by decide
  apart := by decide

theorem writeDigits_ne_zero {res a : ℕ} {buffer : List UInt8} (hbuffer : buffer ≠ [])
    (hdigits : ∀ c ∈ buffer.reverse, c ≠ 0) :
    writeDigits (fun _ => 1) res 1 buffer a ≠ 0 := by
  have hlength := List.length_pos_of_ne_nil hbuffer
  rw [writeDigits]
  by_cases hsign : a = res
  · rw [hsign, Function.update_self, placeDigits_apply, if_neg (by omega),
      Function.update_of_ne (by omega)]
    decide
  · rw [Function.update_of_ne hsign, placeDigits_apply]
    split
    next hinside =>
      rw [List.getD_eq_getElem _ _ (by rw [List.length_reverse]; omega)]
      exact hdigits _ (List.getElem_mem _)
    next houtside =>
      rw [Function.update_of_ne (by omega)]
      decide

/-- Behind the digits of a negative number there is no terminator on that stack. -/
theorem putsDecimal_negative {left : ℕ} {num : BitVec 32} (hnum : num.toInt < 0) :
    putsDecimal onesFrame rounds left num = none := by
  obtain ⟨hlow, hhigh⟩ := toInt_bounds num
  have hdigits : ∀ c ∈ ((Nat.digits 10 num.toInt.natAbs).map digitChar).reverse, c ≠ 0 := by
    rw [← numeral_of_ne (by omega)]
    intro c hc
    exact (numeral_chars (by decide) (by decide) c hc).2
  have hne : (Nat.digits 10 num.toInt.natAbs).map digitChar ≠ [] := by
    rw [ne_eq, List.map_eq_nil_iff, Nat.digits_eq_nil_iff_eq_zero]
    omega
  rw [putsDecimal, itoa_eq onesFrame.numb_ne (by omega) (by decide) (by decide) hlow hhigh,
    if_pos ⟨hnum, rfl⟩, Option.bind_some, debugPuts]
  exact stringIn_none fun a _ => writeDigits_ne_zero hne hdigits

/-- What a conversion leaves to be sent is a lag, and there is none exactly behind a plain
argument. -/
theorem Conversion.put_lag {conversion : Conversion} {arg : Arg} {left : ℕ}
    {front expected : List UInt8} (hlag : Lag w)
    (hput : conversion.put onesFrame rounds
      (fun ptr => (vprintf onesFrame rounds depth ptr []).map Prod.fst) left arg = some front)
    (htext : conversion.text arg = some expected)
    (heq : front ++ a = w ++ (expected ++ b)) :
    ∃ w', Lag w' ∧ a = w' ++ b ∧ (w' = [] → w = [] ∧ conversion.Plain arg) := by
  cases conversion with
  | decimal =>
      cases arg with
      | str ptr => cases hput
      | int num =>
          cases htext
          by_cases hnum : 0 ≤ num.toInt
          · obtain rfl := putsDecimal_some hnum hput
            have hunsigned : representation 10 num.toInt =
                numeral 10 (num.toInt % 2 ^ 32).toNat :=
              if_neg fun h => absurd h.1 (Int.not_lt.mpr hnum)
            rw [hunsigned] at heq
            obtain ⟨rfl, hrest⟩ := hlag.eq_nil numeral_ne_nil
              (numeral_chars (by decide) (by decide)) heq
            exact ⟨[], hlag, hrest, fun _ => ⟨rfl, hnum⟩⟩
          · rw [Conversion.put, putsDecimal_negative (Int.not_le.mp hnum)] at hput
            cases hput
  | hexadecimal =>
      cases arg with
      | str ptr => cases hput
      | int num =>
          cases htext
          obtain rfl := putsHex_some hput
          have hne : (numeral 16 num.toNat).leftpad 8 48 ≠ [] :=
            List.append_ne_nil_of_right_ne_nil _ numeral_ne_nil
          have hchars : ∀ c ∈ (numeral 16 num.toNat).leftpad 8 48, c ≠ percent ∧ c ≠ 0 := by
            intro c hc
            rcases List.mem_append.mp hc with hpad | hdigit
            · rw [List.eq_of_mem_replicate hpad]
              exact ⟨by decide, by decide⟩
            · exact numeral_chars (by decide) (by decide) c hdigit
          obtain ⟨rfl, hrest⟩ := hlag.eq_nil hne hchars heq
          exact ⟨[], hlag, hrest, fun _ => ⟨rfl, trivial⟩⟩
  | character =>
      cases arg with
      | str ptr => cases hput
      | int num =>
          cases htext
          obtain ⟨⟨sent, vars⟩, hsent, rfl⟩ := Option.map_eq_some_iff.mp hput
          by_cases hzero : UInt8.ofNat num.toNat = 0
          · -- nothing is sent for a zero
            have hlonger : Lag (w ++ [0]) := by
              intro c hc
              rcases List.mem_append.mp hc with hw | hlast
              · exact hlag c hw
              · exact Or.inr (List.mem_singleton.mp hlast)
            have hempty : charString num = [] := if_pos hzero
            rw [hempty] at hsent
            obtain ⟨w', hw', ha, hnil⟩ := vprintf_string List.not_mem_nil hsent hlonger
              (show sent ++ a = w ++ [0] ++ ([] ++ b) by
                rw [heq, hzero, List.append_assoc]
                rfl)
            exact ⟨w', hw', ha, fun h => absurd (hnil h).1
              (List.append_ne_nil_of_right_ne_nil _ (List.cons_ne_nil _ _))⟩
          · have hchar : charString num = [UInt8.ofNat num.toNat] := if_neg hzero
            rw [hchar] at hsent
            obtain ⟨w', hw', ha, hnil⟩ := vprintf_string
              (fun hmem => hzero (List.mem_singleton.mp hmem).symm) hsent hlag heq
            refine ⟨w', hw', ha, fun h => ⟨(hnil h).1, hzero, ?_⟩⟩
            exact fun hpercent => (hnil h).2 (List.mem_singleton.mpr hpercent.symm)
  | chars =>
      cases arg with
      | int num => cases hput
      | str ptr =>
          obtain ⟨⟨sent, vars⟩, hsent, rfl⟩ := Option.map_eq_some_iff.mp hput
          cases htext
          exact vprintf_string ptr.nonzero hsent hlag heq

/-- A word of `%b` does not begin with a percent sign. -/
theorem boolean_lag {word front back : List UInt8} (hlag : Lag w)
    (hword : word = [0x74, 0x72, 0x75, 0x65] ∨ word = [0x66, 0x61, 0x6c, 0x73, 0x65])
    (hfront : (vprintf frame rounds depth word []).map Prod.fst = some front)
    (heq : front ++ back = w ++ percent :: b) : False := by
  have hchars : percent ∉ word ∧ ∃ c rest, word = c :: rest ∧ c ≠ percent ∧ c ≠ 0 := by
    rcases hword with rfl | rfl
    · exact ⟨by decide, _, _, rfl, by decide, by decide⟩
    · exact ⟨by decide, _, _, rfl, by decide, by decide⟩
  obtain ⟨hpercent, c, rest, rfl, hne, hzero⟩ := hchars
  cases depth with
  | zero => cases hfront
  | succ depth =>
      rw [vprintf_verbatim hpercent] at hfront
      cases hfront
      cases w with
      | nil => exact hne (List.cons.inj heq).1
      | cons h w =>
          obtain ⟨rfl, -⟩ := List.cons.inj heq
          exact not_or.mpr ⟨hne, hzero⟩ (hlag c List.mem_cons_self)

/-- The output does not catch up, so that a format sent in full is plain. -/
theorem vprintf_lag {vars left rest : List Arg} {sent expected : List UInt8}
    (hzero : 0 ∉ string)
    (hsent : vprintf onesFrame rounds depth string vars = some (sent, left))
    (hexpand : expand (pieces string) vars = some (expected, rest)) (hlag : Lag w)
    (heq : sent = w ++ expected) : w = [] ∧ Plain (pieces string) vars := by
  cases depth with
  | zero => cases hsent
  | succ depth =>
      rw [vprintf] at hsent
      induction string using pieces.induct generalizing vars sent expected w with
      | case1 =>
          cases hsent
          cases hexpand
          exact ⟨(List.append_eq_nil_iff.mp heq.symm).1, trivial⟩
      | case2 => cases hsent
      | case3 kind string ih =>
          simp only [List.mem_cons, not_or] at hzero
          cases hkind : conversionOf kind with
          | some conversion =>
              rw [vprintfLoop_conversion hkind] at hsent
              rw [pieces_conversion hkind] at hexpand ⊢
              cases vars with
              | nil => cases hsent
              | cons arg vars =>
                  obtain ⟨front, back, hput, hback, rfl⟩ := Sent.after_eq_some.mp hsent
                  obtain ⟨text, tail, htext, htail, rfl⟩ := Sent.after_eq_some.mp hexpand
                  obtain ⟨w', hw', hrest, hnil⟩ := Conversion.put_lag hlag hput htext heq
                  obtain ⟨hempty, hplain⟩ := ih hzero.2.2 htail hw' hrest hback
                  obtain ⟨hw, harg⟩ := hnil hempty
                  exact ⟨hw, harg, hplain⟩
          | none =>
              rw [pieces_other hkind] at hexpand
              obtain ⟨_, tail, hbytes, htail, rfl⟩ := Sent.after_eq_some.mp hexpand
              cases hbytes
              by_cases hb : kind = 0x62
              · subst hb
                obtain ⟨word, front, back, hword, hfront, rfl⟩ := vprintfLoop_boolean hsent
                exact (boolean_lag hlag hword hfront heq).elim
              · rw [vprintfLoop_other hkind hb] at hsent
                obtain ⟨_, back, hfront, hback, rfl⟩ := Sent.after_eq_some.mp hsent
                cases hfront
                obtain ⟨more, hmore, hne, hrest⟩ := hlag.other (Ne.symm hzero.2.1) heq
                exact absurd (ih hzero.2.2 htail hmore hrest hback).1 hne
      | case4 c string hc ih =>
          rw [List.mem_cons, not_or] at hzero
          rw [vprintfLoop_char hc] at hsent
          rw [pieces_char hc] at hexpand ⊢
          obtain ⟨_, back, hfront, hback, rfl⟩ := Sent.after_eq_some.mp hsent
          obtain ⟨_, tail, htext, htail, rfl⟩ := Sent.after_eq_some.mp hexpand
          cases hfront
          cases htext
          have hchars : ∀ d ∈ [c], d ≠ percent ∧ d ≠ 0 := by
            intro d hd
            rw [List.mem_singleton.mp hd]
            exact ⟨hc, Ne.symm hzero.1⟩
          obtain ⟨rfl, hrest⟩ := hlag.eq_nil (List.cons_ne_nil c []) hchars heq
          exact ⟨rfl, (ih hzero.2 htail hlag hrest hback).2⟩

end Lag

/-- A call prints its format with the conversions replaced exactly if it is plain. -/
theorem printsVerbatim_iff (call : Call) :
    PrintsVerbatim call ↔ Plain (pieces call.format.bytes) call.vars := by
  obtain ⟨⟨expected, rest⟩, hexpand⟩ := Option.isSome_iff_exists.mp call.matched
  constructor
  · intro hprints
    obtain ⟨depth, rounds, sent, left, hsent, hsame, -⟩ := hprints onesFrame
    rw [hexpand] at hsame
    exact (vprintf_lag call.format.nonzero hsent hexpand (fun c hc => absurd hc List.not_mem_nil)
      (Option.some.inj hsame).symm).2
  · intro hplain frame
    refine ⟨2, 11, expected, rest, ?_, ?_, (expand_length hexpand).le⟩
    · rw [vprintf_plain hplain (by decide), hexpand]
    · rw [hexpand]
      rfl

/-- `printf("%s", "50%")`. -/
def halfFull : Call where
  format := ⟨[percent, 0x73], by decide⟩
  vars := [.str ⟨[0x35, 0x30, percent], by decide⟩]
  matched := rfl

/-- The percent sign at the end of the string takes the loop behind its terminator. -/
theorem halfFull_not_verbatim : ¬PrintsVerbatim halfFull := by
  intro hprints
  obtain ⟨depth, rounds, sent, left, hsent, -, -⟩ := hprints onesFrame
  cases depth with
  | zero => cases hsent
  | succ depth =>
      cases depth with
      | zero => cases hsent
      | succ depth => cases hsent

end KimisOS.Text
