/-
  File:      Bray/Format/Integer.lean
  Subject:   INTEGERS AS TEXT (std/format/rendering.bray, std/format/integer_width.bray, std/numeric/parsing.bray): the
  writers of 64 and of 128 bits, and the parser that reads what they write.

  A negative value is written from its negative remainders, so that the minimum needs no positive counterpart. That
  writer spells the absolute value like the unsigned one (`writeSignedFrom_neg`), which puts one list of digits behind
  all four writers (`spell`). The parser accepts exactly the numerals whose value fits (`parse_eq_ok`).

  A writer is the list of calls it makes on its sink, an overflow or an index outside a buffer is `none`.
-/
import Mathlib.Data.List.Forall2
import Mathlib.Tactic.IntervalCases
import Mathlib.Tactic.Linarith

namespace Bray.Format

open List

/-! ## 1. Options and sinks -/

inductive Radix where
  | binary
  | octal
  | decimal
  | hexadecimalLowercase
  | hexadecimalUppercase
  deriving DecidableEq

inductive Alignment where
  | left
  | center
  | right

inductive Sign where
  | negativeOnly
  | always
  | space
  deriving DecidableEq

structure Options where
  radix : Radix := .decimal
  precision : Option Nat := none
  width : Nat := 0
  alignment : Alignment := .right
  sign : Sign := .negativeOnly

/-- A radix whose digits have a byte; dividing by it gets smaller. -/
abbrev Base : Type := {radix : Nat // 2 ≤ radix ∧ radix ≤ 16}

def radixValue : Radix → Base
  | .binary => ⟨2, by decide⟩
  | .octal => ⟨8, by decide⟩
  | .decimal => ⟨10, by decide⟩
  | .hexadecimalLowercase | .hexadecimalUppercase => ⟨16, by decide⟩

def uppercaseDigits (options : Options) : Bool := options.radix == .hexadecimalUppercase

def minimumDigits (options : Options) : Nat := options.precision.getD 1

/-- A call on a `Sink`. -/
inductive Call where
  | prepare (additional : Nat)
  | write (source : List UInt8)
  | writeRepeated (value : UInt8) (count : Nat)

def Call.bytes : Call → List UInt8
  | .prepare _ => []
  | .write source => source
  | .writeRepeated value count => List.replicate count value

/-- What a sink that accepts every call has received. -/
def output (calls : List Call) : List UInt8 := calls.flatMap Call.bytes

/-! ## 2. Machine integers -/

def unsigned (bits n : Nat) : Option Nat := if n < 2 ^ bits then some n else none

def signed (bits : Nat) (n : Int) : Option Int := if -2 ^ (bits - 1) ≤ n ∧ n < 2 ^ (bits - 1) then some n else none

inductive Width where
  | w8
  | w16
  | w32
  | w64
  | w128
  | size

def Width.bits : Width → Nat
  | .w8 => 8
  | .w16 => 16
  | .w32 => 32
  | .w64 | .size => 64
  | .w128 => 128

structure IntegerType where
  signed : Bool
  width : Width

namespace IntegerType

def minimum (type : IntegerType) : Int := if type.signed then -2 ^ (type.width.bits - 1) else 0

def maximum (type : IntegerType) : Int := if type.signed then 2 ^ (type.width.bits - 1) - 1 else 2 ^ type.width.bits - 1

/-- `truncate_to`: the low bits, read as a value of the type. -/
def truncateTo (type : IntegerType) (value : Int) : Int :=
  if type.signed then value.bmod (2 ^ type.width.bits) else value % 2 ^ type.width.bits

abbrev Value (type : IntegerType) : Type := {v : Int // type.minimum ≤ v ∧ v ≤ type.maximum}

end IntegerType

/-! ## 3. The writers -/

def digitOffset (uppercase : Bool) : UInt8 := if uppercase then 65 else 97

/-- `digit_byte` and `native_digit_byte`. -/
def digitByte (value : Nat) (uppercase : Bool) : UInt8 :=
  if value ≤ 9 then 48 + value.toUInt8
  else if value ≤ 14 then digitOffset uppercase + (value - 10).toUInt8
  else digitOffset uppercase + 5

/-- `signed_digit_byte` and `signed_native_digit_byte`. -/
def signedDigitByte (value : Int) (uppercase : Bool) : UInt8 :=
  if 0 ≤ value ∧ value ≤ 14 then digitByte value.toNat uppercase else digitByte 15 uppercase

theorem Base.div_lt (radix : Base) {n : Nat} (h : radix.val ≤ n) : n / radix < n :=
  Nat.div_lt_self (by have := radix.property; omega) radix.property.1

theorem Base.tdiv_lt (radix : Base) {n : Int} (h : n ≤ -(radix.val : Int)) : (n.tdiv radix).natAbs < n.natAbs := by
  rw [Int.natAbs_tdiv]
  exact radix.div_lt (by omega)

def digitCount (radix : Base) (remaining count : Nat) : Nat :=
  if h : radix.val ≤ remaining then digitCount radix (remaining / radix) (count + 1) else count
termination_by remaining
decreasing_by exact radix.div_lt h

def signedCount (radix : Base) (remaining : Int) (count : Nat) : Nat :=
  if h : remaining ≤ -(radix.val : Int) then signedCount radix (remaining.tdiv radix) (count + 1) else count
termination_by remaining.natAbs
decreasing_by exact radix.tdiv_lt h

/-- The digits before `start`, written downwards in front of the ones already there. -/
def writeFrom (radix : Base) (uppercase : Bool) : Nat → Nat → List UInt8 → Option (List UInt8)
  | 0, _, _ => none
  | start + 1, remaining, digits =>
    if radix.val ≤ remaining then
      writeFrom radix uppercase start (remaining / radix) (digitByte (remaining % radix) uppercase :: digits)
    else some (digitByte remaining uppercase :: digits)

/-- The same from a value that is not positive, whose remainders are not positive either. -/
def writeSignedFrom (bits : Nat) (radix : Base) (uppercase : Bool) : Nat → Int → List UInt8 → Option (List UInt8)
  | 0, _, _ => none
  | start + 1, remaining, digits =>
    if remaining ≤ -(radix.val : Int) then do
      let digit ← signed bits (-(remaining.tmod radix))
      writeSignedFrom bits radix uppercase start (remaining.tdiv radix) (signedDigitByte digit uppercase :: digits)
    else do
      let digit ← signed bits (-remaining)
      some (signedDigitByte digit uppercase :: digits)

def normalized (bits : Nat) (value : Int) : Option Int := if 0 < value then signed bits (-value) else some value

def signLength (negative : Bool) (options : Options) : Nat :=
  if negative then 1 else if options.sign = .negativeOnly then 0 else 1

def usizeMax : Nat := 2 ^ 64 - 1

def integerContentLength (sign digits : Nat) : Nat := (unsigned 64 (sign + digits)).getD usizeMax

def paddingCount (width contentLength : Nat) : Nat := if contentLength < width then width - contentLength else 0

def leftPadding (padding : Nat) (options : Options) : Nat :=
  match options.alignment with
  | .left => 0
  | .center => padding / 2
  | .right => padding

def writePadding (count : Nat) : List Call := [.writeRepeated 32 count]

def writeLeadingZeroes (count : Nat) : List Call := [.writeRepeated 48 count]

def writeRequestedSign (negative : Bool) (options : Options) : List Call :=
  if negative then [.write [45]]
  else match options.sign with
    | .negativeOnly => []
    | .always => [.write [43]]
    | .space => [.write [32]]

/-- What the four integer writers share: they differ in the sign, the count of digits and the digits. -/
def writeInteger (negative : Bool) (naturalDigits : Nat) (written : Option (List UInt8)) (options : Options) :
    Option (List Call) := do
  let digits := max naturalDigits (minimumDigits options)
  let contentLength := integerContentLength (signLength negative options) digits
  let padding := paddingCount options.width contentLength
  let left := leftPadding padding options
  let additional ← unsigned 64 (contentLength + padding)
  let content ← written
  some ([.prepare additional] ++ writePadding left ++ writeRequestedSign negative options ++
    writeLeadingZeroes (digits - naturalDigits) ++ [.write content] ++ writePadding (padding - left))

/-- `unsigned_digit_count` and `unsigned_native_digit_count`. -/
def unsignedDigitCount (value : Nat) (radix : Base) : Nat := digitCount radix value 1

/-- `signed_digit_count` and `signed_native_digit_count`. -/
def signedDigitCount (value : Int) (radix : Base) : Nat := signedCount radix value 1

def writeUnsignedDigits (value : Nat) (radix : Base) (uppercase : Bool) : Option (List UInt8) :=
  writeFrom radix uppercase 128 value []

def writeUnsignedNativeDigits (value : Nat) (radix : Base) (uppercase : Bool) : Option (List UInt8) :=
  writeFrom radix uppercase 64 value []

def writeSignedDigits (value : Int) (radix : Base) (uppercase : Bool) : Option (List UInt8) :=
  writeSignedFrom 128 radix uppercase 128 value []

def writeSignedNativeDigits (value : Int) (radix : Base) (uppercase : Bool) : Option (List UInt8) :=
  writeSignedFrom 64 radix uppercase 64 value []

def normalizedSignedInteger (value : Int) : Option Int := normalized 128 value

def normalizedSignedNativeInteger (value : Int) : Option Int := normalized 64 value

def writeUnsignedInteger (value : Nat) (options : Options) : Option (List Call) :=
  let radix := radixValue options.radix
  writeInteger false (unsignedDigitCount value radix) (writeUnsignedDigits value radix (uppercaseDigits options)) options

def writeUnsignedNativeInteger (value : Nat) (options : Options) : Option (List Call) :=
  let radix := radixValue options.radix
  writeInteger false (unsignedDigitCount value radix) (writeUnsignedNativeDigits value radix (uppercaseDigits options))
    options

def writeSignedInteger (value : Int) (options : Options) : Option (List Call) := do
  let radix := radixValue options.radix
  let normalized ← normalizedSignedInteger value
  writeInteger (value < 0) (signedDigitCount normalized radix)
    (writeSignedDigits normalized radix (uppercaseDigits options)) options

def writeSignedNativeInteger (value : Int) (options : Options) : Option (List Call) := do
  let radix := radixValue options.radix
  let normalized ← normalizedSignedNativeInteger value
  writeInteger (value < 0) (signedDigitCount normalized radix)
    (writeSignedNativeDigits normalized radix (uppercaseDigits options)) options

/-- The `Format` implementation of each type. -/
def format (type : IntegerType) (value : type.Value) (options : Options) : Option (List Call) :=
  match type.signed, type.width with
  | false, .w128 => writeUnsignedInteger value.val.toNat options
  | false, _ => writeUnsignedNativeInteger value.val.toNat options
  | true, .w128 => writeSignedInteger value.val options
  | true, _ => writeSignedNativeInteger value.val options

/-! ## 4. The parser -/

inductive ParseError where
  | empty
  | invalidDigit
  | invalidRadix
  | overflow

def digitValue (byte : UInt8) : Option Nat :=
  if 48 ≤ byte.toNat ∧ byte.toNat ≤ 57 then some (byte.toNat - 48)
  else if 65 ≤ byte.toNat ∧ byte.toNat ≤ 90 then some (byte.toNat - 65 + 10)
  else if 97 ≤ byte.toNat ∧ byte.toNat ≤ 122 then some (byte.toNat - 97 + 10)
  else none

/-- The loop of `parse_magnitude`; the guard stands before a step of `u128` that could overflow. -/
def magnitudeFrom (radix value : Nat) : List UInt8 → Option (Except ParseError Nat)
  | [] => some (.ok value)
  | byte :: rest =>
    match digitValue byte with
    | none => some (.error .invalidDigit)
    | some digit =>
      if radix ≤ digit then some (.error .invalidDigit)
      else if (2 ^ 128 - 1 - digit) / radix < value then some (.error .overflow)
      else do
        let scaled ← unsigned 128 (value * radix)
        let next ← unsigned 128 (scaled + digit)
        magnitudeFrom radix next rest

def parseMagnitude (text : List UInt8) (start radix : Nat) : Option (Except ParseError Nat) :=
  if radix < 2 ∨ 36 < radix then some (.error .invalidRadix)
  else if text.length ≤ start then some (.error .empty)
  else magnitudeFrom radix 0 (text.drop start)

def parseU128 (text : List UInt8) (radix : Nat) : Option (Except ParseError Nat) := parseMagnitude text 0 radix

def parseUnsigned (type : IntegerType) (maximum : Int) (text : List UInt8) (radix : Nat) :
    Option (Except ParseError Int) := do
  match ← parseU128 text radix with
  | .error error => some (.error error)
  | .ok value => if maximum < value then some (.error .overflow) else some (.ok (type.truncateTo value))

def parseI128 (text : List UInt8) (radix : Nat) : Option (Except ParseError Int) :=
  match text with
  | [] => some (.error .empty)
  | first :: _ => do
    let start := if first = 43 ∨ first = 45 then 1 else 0
    match ← parseMagnitude text start radix with
    | .error error => some (.error error)
    | .ok magnitude =>
      if first = 45 then
        let minimumMagnitude ← unsigned 128 (2 ^ 127 - 1 + 1)
        if minimumMagnitude < magnitude then some (.error .overflow)
        else if magnitude = minimumMagnitude then some (.ok (-2 ^ 127))
        else do
          let value ← signed 128 (-(IntegerType.mk true .w128).truncateTo magnitude)
          some (.ok value)
      else if 2 ^ 127 - 1 < magnitude then some (.error .overflow)
      else some (.ok ((IntegerType.mk true .w128).truncateTo magnitude))

def parseSigned (type : IntegerType) (minimum maximum : Int) (text : List UInt8) (radix : Nat) :
    Option (Except ParseError Int) := do
  match ← parseI128 text radix with
  | .error error => some (.error error)
  | .ok value =>
    if value < minimum ∨ maximum < value then some (.error .overflow)
    else some (.ok (type.truncateTo ((IntegerType.mk false .w128).truncateTo value)))

/-- The `parse_` function of each type. -/
def parse (type : IntegerType) (text : List UInt8) (radix : UInt8) : Option (Except ParseError Int) :=
  match type.signed, type.width with
  | false, .w128 => do
    match ← parseU128 text radix.toNat with
    | .error error => some (.error error)
    | .ok value => some (.ok value)
  | false, _ => parseUnsigned type type.maximum text radix.toNat
  | true, .w128 => parseI128 text radix.toNat
  | true, _ => parseSigned type type.minimum type.maximum text radix.toNat

/-! ## 5. Numerals -/

/-- The byte is a digit of that value, in either case of letters. -/
def Digit (byte : UInt8) (digit : Nat) : Prop :=
  digit ≤ 9 ∧ byte.toNat = 48 + digit ∨
    10 ≤ digit ∧ digit ≤ 35 ∧ (byte.toNat = 65 + (digit - 10) ∨ byte.toNat = 97 + (digit - 10))

instance (byte : UInt8) (digit : Nat) : Decidable (Digit byte digit) := inferInstanceAs (Decidable (_ ∨ _))

/-- What digits denote, read on from a value. -/
def valueFrom (radix value : Nat) (digits : List Nat) : Nat := digits.foldl (fun v d => v * radix + d) value

def Spells (radix : Nat) (text : List UInt8) (digits : List Nat) : Prop :=
  List.Forall₂ (fun byte digit => Digit byte digit ∧ digit < radix) text digits

/-- The text is at least one digit of that radix, and denotes that value. -/
def Denotes (radix : Nat) (text : List UInt8) (value : Nat) : Prop :=
  ∃ digits, digits ≠ [] ∧ Spells radix text digits ∧ value = valueFrom radix 0 digits

/-- The same after an optional sign, which only signed types have. -/
def Numeral (signed : Bool) (radix : Nat) (text : List UInt8) (value : Int) : Prop :=
  ∃ magnitude : Nat, Denotes radix text magnitude ∧ value = magnitude ∨
    signed = true ∧ ∃ rest, Denotes radix rest magnitude ∧
      (text = 43 :: rest ∧ value = magnitude ∨ text = 45 :: rest ∧ value = -magnitude)

/-! ## 6. Digits written -/

/-- The digits of a value, the highest one first. -/
def spell (radix : Base) (value : Nat) : List Nat :=
  if h : radix.val ≤ value then spell radix (value / radix) ++ [value % radix] else [value]
termination_by value
decreasing_by exact radix.div_lt h

theorem spell_of_le {radix : Base} {value : Nat} (h : radix.val ≤ value) :
    spell radix value = spell radix (value / radix) ++ [value % radix] := by
  rw [spell, dif_pos h]

theorem spell_of_lt {radix : Base} {value : Nat} (h : ¬ radix.val ≤ value) : spell radix value = [value] := by
  rw [spell, dif_neg h]

theorem spell_ne_nil (radix : Base) (value : Nat) : spell radix value ≠ [] := by
  by_cases h : radix.val ≤ value
  · rw [spell_of_le h]
    exact append_ne_nil_of_right_ne_nil _ (cons_ne_nil _ _)
  · rw [spell_of_lt h]
    exact cons_ne_nil _ _

theorem spell_lt (radix : Base) (value : Nat) : ∀ d ∈ spell radix value, d < radix := by
  induction value using Nat.strong_induction_on with
  | _ value ih =>
    intro d hd
    by_cases h : radix.val ≤ value
    · rw [spell_of_le h, mem_append, mem_singleton] at hd
      obtain hd | rfl := hd
      · exact ih _ (radix.div_lt h) d hd
      · exact Nat.mod_lt _ (by have := radix.property; omega)
    · rw [spell_of_lt h, mem_singleton] at hd
      omega

theorem valueFrom_spell (radix : Base) (value : Nat) : valueFrom radix 0 (spell radix value) = value := by
  induction value using Nat.strong_induction_on with
  | _ value ih =>
    by_cases h : radix.val ≤ value
    · have higher := ih _ (radix.div_lt h)
      rw [spell_of_le h, valueFrom, foldl_append]
      change valueFrom radix 0 (spell radix (value / radix)) * radix + value % radix = value
      rw [higher]
      exact Nat.div_add_mod' value radix
    · rw [spell_of_lt h]
      change 0 * radix.val + value = value
      omega

theorem length_spell_le (radix : Base) : ∀ (bits value : Nat), value < 2 ^ (bits + 1) →
    (spell radix value).length ≤ bits + 1
  | 0, value, small => by
    have := radix.property
    rw [spell_of_lt (by omega), length_singleton]
  | bits + 1, value, small => by
    by_cases h : radix.val ≤ value
    · have half : value / radix ≤ value / 2 := Nat.div_le_div_left radix.property.1 (by decide)
      have higher := length_spell_le radix bits (value / radix) (by rw [pow_succ] at small; omega)
      rw [spell_of_le h, length_append, length_singleton]
      omega
    · rw [spell_of_lt h, length_singleton]
      omega

theorem digitCount_eq (radix : Base) (value count : Nat) :
    digitCount radix value (count + 1) = count + (spell radix value).length := by
  induction value using Nat.strong_induction_on generalizing count with
  | _ value ih =>
    by_cases h : radix.val ≤ value
    · rw [digitCount, dif_pos h, ih _ (radix.div_lt h), spell_of_le h, length_append, length_singleton]
      omega
    · rw [digitCount, dif_neg h, spell_of_lt h, length_singleton]

/-- The buffer holds the digits if there are no more of them than it has room for. -/
theorem writeFrom_eq (radix : Base) (uppercase : Bool) : ∀ (start value : Nat) (after : List UInt8),
    (spell radix value).length ≤ start →
      writeFrom radix uppercase start value after = some ((spell radix value).map (digitByte · uppercase) ++ after)
  | 0, value, _, room => absurd (length_eq_zero_iff.mp (by omega)) (spell_ne_nil radix value)
  | start + 1, value, after, room => by
    by_cases h : radix.val ≤ value
    · rw [spell_of_le h, length_append, length_singleton] at room
      rw [writeFrom, if_pos h, writeFrom_eq radix uppercase start _ _ (by omega), spell_of_le h]
      simp
    · rw [writeFrom, if_neg h, spell_of_lt h]
      rfl

section Signed

variable {radix : Base} {bits : Nat}

theorem signed_digit (wide : 6 ≤ bits) {d : Nat} (h : d < 16) : signed bits (d : Int) = some (d : Int) := by
  have large : (2 : Int) ^ 5 ≤ 2 ^ (bits - 1) := pow_le_pow_right₀ (by decide) (by omega)
  exact if_pos ⟨by omega, by omega⟩

theorem signedDigitByte_eq (uppercase : Bool) {d : Nat} (h : d < 16) :
    signedDigitByte (d : Int) uppercase = digitByte d uppercase := by
  unfold signedDigitByte
  split
  · rfl
  · rw [show d = 15 by omega]

theorem le_neg_iff {n : Nat} : -(n : Int) ≤ -(radix.val : Int) ↔ radix.val ≤ n := by omega

theorem signedCount_neg (value count : Nat) : signedCount radix (-(value : Int)) count = digitCount radix value count := by
  induction value using Nat.strong_induction_on generalizing count with
  | _ value ih =>
    by_cases h : radix.val ≤ value
    · rw [signedCount, dif_pos (le_neg_iff.mpr h), digitCount, dif_pos h, Int.neg_tdiv, ← Int.ofNat_tdiv]
      exact ih _ (radix.div_lt h) _
    · rw [signedCount, dif_neg (mt le_neg_iff.mp h), digitCount, dif_neg h]

/-- **Negative remainders spell the absolute value.** -/
theorem writeSignedFrom_neg (wide : 6 ≤ bits) (uppercase : Bool) : ∀ (start value : Nat) (after : List UInt8),
    writeSignedFrom bits radix uppercase start (-(value : Int)) after = writeFrom radix uppercase start value after
  | 0, _, _ => rfl
  | start + 1, value, after => by
    have base := radix.property
    by_cases h : radix.val ≤ value
    · have digit : value % radix < 16 := lt_of_lt_of_le (Nat.mod_lt _ (by omega)) base.2
      rw [writeSignedFrom, if_pos (le_neg_iff.mpr h), writeFrom, if_pos h, Int.neg_tmod, neg_neg, ← Int.ofNat_tmod,
        signed_digit wide digit, Int.neg_tdiv, ← Int.ofNat_tdiv]
      change writeSignedFrom bits radix uppercase start _ (signedDigitByte _ uppercase :: after) = _
      rw [signedDigitByte_eq uppercase digit]
      exact writeSignedFrom_neg wide uppercase start _ _
    · have digit : value < 16 := by omega
      rw [writeSignedFrom, if_neg (mt le_neg_iff.mp h), writeFrom, if_neg h, neg_neg, signed_digit wide digit]
      exact congrArg (fun d => some (d :: after)) (signedDigitByte_eq uppercase digit)

theorem normalized_eq {value : Int} (h : value < 2 ^ (bits - 1)) : normalized bits value = some (-(value.natAbs : Int)) := by
  unfold normalized signed
  split
  · rw [if_pos ⟨by omega, by omega⟩]
    congr 1
    omega
  · congr 1
    omega

end Signed

/-! ## 7. Texts parsed -/

/-- The run traps on no overflow, and its result is `Ok` of exactly the values with that property. -/
def Accepts {α : Type} (run : Option (Except ParseError α)) (accepted : α → Prop) : Prop :=
  ∃ result, run = some result ∧ ∀ v, result = .ok v ↔ accepted v

section Accepts

variable {α β : Type} {run : Option (Except ParseError α)} {accepted : α → Prop}

theorem accepts_error {error : ParseError} (none : ∀ v, ¬ accepted v) : Accepts (some (.error error)) accepted :=
  ⟨_, rfl, fun v => ⟨nofun, fun h => absurd h (none v)⟩⟩

theorem accepts_ok {value : α} (only : ∀ v, accepted v ↔ value = v) : Accepts (some (.ok value)) accepted :=
  ⟨_, rfl, fun v => by rw [only, Except.ok.injEq]⟩

theorem Accepts.iff {other : α → Prop} (h : Accepts run accepted) (same : ∀ v, accepted v ↔ other v) :
    Accepts run other := by
  obtain ⟨result, e, only⟩ := h
  exact ⟨result, e, fun v => (only v).trans (same v)⟩

/-- What goes on from a value, and hands an error on. -/
theorem Accepts.bind {next : Except ParseError α → Option (Except ParseError β)} {accepted' : β → Prop}
    (h : Accepts run accepted) (after : α → β → Prop) (hands : ∀ error, next (.error error) = some (.error error))
    (step : ∀ a, accepted a → Accepts (next (.ok a)) (after a)) (same : ∀ b, accepted' b ↔ ∃ a, accepted a ∧ after a b) :
    Accepts (run >>= next) accepted' := by
  obtain ⟨result, rfl, only⟩ := h
  change Accepts (next result) accepted'
  cases result with
  | error error =>
    rw [hands]
    refine accepts_error fun b hb => ?_
    obtain ⟨a, ha, -⟩ := (same b).mp hb
    exact nomatch (only a).mpr ha
  | ok a =>
    have ha := (only a).mp rfl
    refine (step a ha).iff fun b => ⟨fun hb => (same b).mpr ⟨a, ha, hb⟩, fun hb => ?_⟩
    obtain ⟨a', ha', hb⟩ := (same b).mp hb
    cases (only a').mpr ha'
    exact hb

end Accepts

theorem digitValue_eq_some {byte : UInt8} {digit : Nat} : digitValue byte = some digit ↔ Digit byte digit := by
  unfold digitValue Digit
  split
  · rw [Option.some.injEq]
    omega
  split
  · rw [Option.some.injEq]
    omega
  split
  · rw [Option.some.injEq]
    omega
  · simp only [reduceCtorEq, false_iff]
    omega

theorem digit_digitByte (uppercase : Bool) {digit : Nat} (h : digit < 16) : Digit (digitByte digit uppercase) digit := by
  interval_cases digit <;> cases uppercase <;> decide

section Text

variable {radix value : Nat} {text : List UInt8}

theorem le_valueFrom (positive : 1 ≤ radix) : ∀ (digits : List Nat) (value : Nat), value ≤ valueFrom radix value digits
  | [], _ => le_rfl
  | digit :: digits, value =>
    calc value ≤ value * radix + digit := (Nat.le_mul_of_pos_right value positive).trans (Nat.le_add_right _ _)
      _ ≤ valueFrom radix (value * radix + digit) digits := le_valueFrom positive digits _

/-- The guard stops exactly the step that leaves `u128`. -/
theorem guard_iff (positive : 1 ≤ radix) {digit : Nat} (small : digit < 2 ^ 128) :
    (2 ^ 128 - 1 - digit) / radix < value ↔ 2 ^ 128 ≤ value * radix + digit := by
  rw [Nat.div_lt_iff_lt_mul positive]
  omega

theorem magnitudeFrom_accepts (positive : 1 ≤ radix) (small : radix ≤ 36) (inside : value < 2 ^ 128) :
    Accepts (magnitudeFrom radix value text)
      (fun v => ∃ digits, Spells radix text digits ∧ v = valueFrom radix value digits ∧ v < 2 ^ 128) := by
  induction text generalizing value with
  | nil =>
    refine accepts_ok fun v => ⟨?_, ?_⟩
    · rintro ⟨_, spells, rfl, -⟩
      cases spells
      rfl
    · rintro rfl
      exact ⟨[], .nil, rfl, inside⟩
  | cons byte rest ih =>
    unfold magnitudeFrom
    cases read : digitValue byte with
    | none =>
      refine accepts_error fun v => ?_
      rintro ⟨_, spells, -⟩
      obtain _ | ⟨⟨is, -⟩, -⟩ := spells
      exact nomatch (digitValue_eq_some.mpr is).symm.trans read
    | some digit =>
      have only {digit' : Nat} (h : Digit byte digit') : digit' = digit :=
        Option.some.inj ((digitValue_eq_some.mpr h).symm.trans read)
      dsimp only
      by_cases low : radix ≤ digit
      · rw [if_pos low]
        refine accepts_error fun v => ?_
        rintro ⟨_, spells, -⟩
        obtain _ | ⟨⟨is, below⟩, -⟩ := spells
        have := only is
        omega
      rw [if_neg low]
      by_cases full : (2 ^ 128 - 1 - digit) / radix < value
      · rw [if_pos full]
        refine accepts_error fun v => ?_
        rintro ⟨_, spells, rfl, fits⟩
        obtain _ | ⟨⟨is, -⟩, -⟩ := spells
        obtain rfl := only is
        have large := (guard_iff positive (by omega)).mp full
        change valueFrom radix (value * radix + _) _ < _ at fits
        exact absurd ((le_valueFrom positive _ _).trans_lt fits) (by omega)
      · have room : ¬ 2 ^ 128 ≤ value * radix + digit := mt (guard_iff positive (by omega)).mpr full
        rw [if_neg full, unsigned, if_pos (by omega)]
        change Accepts (unsigned 128 (value * radix + digit) >>= _) _
        rw [unsigned, if_pos (by omega)]
        refine (ih (by omega)).iff fun v => ⟨?_, ?_⟩
        · rintro ⟨digits, spells, e, fits⟩
          exact ⟨digit :: digits, .cons ⟨digitValue_eq_some.mp read, by omega⟩ spells, e, fits⟩
        · rintro ⟨_, spells, e, fits⟩
          obtain _ | ⟨⟨is, -⟩, spells⟩ := spells
          obtain rfl := only is
          exact ⟨_, spells, e, fits⟩

/-- A magnitude is a text that denotes it in a radix that has digits, if it fits `u128`. -/
theorem parseMagnitude_accepts (start : Nat) : Accepts (parseMagnitude text start radix)
      (fun v => (2 ≤ radix ∧ radix ≤ 36) ∧ Denotes radix (text.drop start) v ∧ v < 2 ^ 128) := by
  unfold parseMagnitude
  split
  · exact accepts_error fun v h => by omega
  split
  · rename_i short
    refine accepts_error fun v => ?_
    rintro ⟨-, ⟨digits, some, spells, -⟩, -⟩
    rw [drop_eq_nil_of_le short] at spells
    cases spells
    exact some rfl
  · refine (magnitudeFrom_accepts (by omega) (by omega) (by decide)).iff fun v => ⟨?_, ?_⟩
    · rintro ⟨digits, spells, rfl, fits⟩
      refine ⟨by omega, ⟨digits, ?_, spells, rfl⟩, fits⟩
      rintro rfl
      have := spells.length_eq
      rw [length_drop, length_nil] at this
      omega
    · rintro ⟨-, ⟨digits, -, spells, rfl⟩, fits⟩
      exact ⟨digits, spells, rfl, fits⟩

end Text

/-! ## 8. The types -/

section Types

variable {radix : Nat} {text : List UInt8} {type : IntegerType}

theorem maximum_lt (type : IntegerType) : type.maximum < 2 ^ 128 := by
  obtain ⟨_ | _, _ | _⟩ := type <;> decide

theorem truncateTo_value (v : type.Value) : type.truncateTo v.val = v.val := by
  obtain ⟨v, low, high⟩ := v
  unfold IntegerType.minimum IntegerType.maximum IntegerType.truncateTo at *
  dsimp only
  split at low
  · rename_i signed
    rw [if_pos signed] at *
    have double : 2 ^ type.width.bits = 2 * 2 ^ (type.width.bits - 1) := by cases type.width <;> rfl
    refine Int.bmod_eq_of_le ?_ ?_ <;> push_cast [double] <;> omega
  · rename_i unsigned
    rw [if_neg unsigned] at *
    exact Int.emod_eq_of_lt low (by omega)

/-- The way of a signed value through its bits. -/
theorem truncateTo_bits (signed : type.signed = true) (v : type.Value) :
    type.truncateTo ((IntegerType.mk false .w128).truncateTo v.val) = v.val := by
  have divides : ((2 ^ type.width.bits : Nat) : Int) ∣ 2 ^ 128 := by cases type.width <;> decide
  have same := truncateTo_value v
  rw [IntegerType.truncateTo, if_pos signed] at *
  change (v.val % 2 ^ 128).bmod _ = _
  rw [← Int.emod_bmod, Int.emod_emod_of_dvd _ divides, Int.emod_bmod, same]

theorem parseUnsigned_accepts (unsigned : type.signed = false) :
    Accepts (parseUnsigned type type.maximum text radix) fun v =>
      (2 ≤ radix ∧ radix ≤ 36) ∧ Numeral type.signed radix text v ∧ type.minimum ≤ v ∧ v ≤ type.maximum := by
  have most := maximum_lt type
  have least : type.minimum = 0 := by simp [IntegerType.minimum, unsigned]
  refine (parseMagnitude_accepts 0).bind (fun (m : Nat) v => (m : Int) ≤ type.maximum ∧ v = m)
    (fun error => rfl) (fun m hm => ?_) fun v => ⟨?_, ?_⟩
  · dsimp only
    split
    · exact accepts_error fun v hv => by omega
    · refine accepts_ok fun v => ?_
      rw [truncateTo_value ⟨m, by omega, by omega⟩]
      exact ⟨fun hv => hv.2.symm, fun hv => ⟨by omega, hv.symm⟩⟩
  · rintro ⟨base, ⟨m, ⟨denotes, rfl⟩ | ⟨signed, -⟩⟩, -, high⟩
    · exact ⟨m, ⟨base, denotes, by omega⟩, high, rfl⟩
    · exact nomatch unsigned.symm.trans signed
  · rintro ⟨m, ⟨base, denotes, -⟩, high, rfl⟩
    exact ⟨base, ⟨m, .inl ⟨denotes, rfl⟩⟩, by omega, high⟩

theorem not_denotes_sign {rest : List UInt8} {first : UInt8} {m : Nat} (sign : first = 43 ∨ first = 45) :
    ¬ Denotes radix (first :: rest) m := by
  rintro ⟨digits, -, spells, -⟩
  obtain _ | ⟨⟨is, -⟩, -⟩ := spells
  obtain rfl | rfl := sign <;> obtain ⟨-, e⟩ | ⟨-, -, e⟩ := is <;> simp at e <;> omega

theorem numeral_cons {first : UInt8} {rest : List UInt8} {v : Int} :
    Numeral true radix (first :: rest) v ↔
      ∃ m : Nat, Denotes radix ((first :: rest).drop (if first = 43 ∨ first = 45 then 1 else 0)) m ∧
        v = if first = 45 then -(m : Int) else m := by
  refine exists_congr fun m => ?_
  by_cases sign : first = 43 ∨ first = 45
  · simp only [not_denotes_sign sign, false_and, false_or, true_and, List.cons.injEq]
    constructor
    · rintro ⟨_, denotes, ⟨⟨rfl, rfl⟩, rfl⟩ | ⟨⟨rfl, rfl⟩, rfl⟩⟩
      · exact ⟨denotes, rfl⟩
      · exact ⟨denotes, rfl⟩
    · rintro ⟨denotes, rfl⟩
      obtain rfl | rfl := sign
      · exact ⟨rest, denotes, .inl ⟨⟨rfl, rfl⟩, rfl⟩⟩
      · exact ⟨rest, denotes, .inr ⟨⟨rfl, rfl⟩, rfl⟩⟩
  · rw [if_neg sign, if_neg fun minus => sign (.inr minus), drop_zero, or_iff_left]
    rintro ⟨-, _, -, ⟨e, -⟩ | ⟨e, -⟩⟩
    · exact sign (.inl (List.cons.inj e).1)
    · exact sign (.inr (List.cons.inj e).1)

theorem parseI128_accepts :
    Accepts (parseI128 text radix) fun v =>
      (2 ≤ radix ∧ radix ≤ 36) ∧ Numeral true radix text v ∧ -2 ^ 127 ≤ v ∧ v < 2 ^ 127 := by
  have exact_of {m : Nat} (h : m < 2 ^ 127) : (IntegerType.mk true .w128).truncateTo m = m :=
    truncateTo_value (⟨m, show (-2 ^ 127 : Int) ≤ m by omega, show (m : Int) ≤ 2 ^ 127 - 1 by omega⟩ :
      IntegerType.Value ⟨true, .w128⟩)
  obtain _ | ⟨first, rest⟩ := text
  · refine accepts_error fun v => ?_
    rintro ⟨-, ⟨m, ⟨⟨digits, some, spells, -⟩, -⟩ | ⟨-, rest, -, ⟨e, -⟩ | ⟨e, -⟩⟩⟩, -⟩
    · cases spells
      exact some rfl
    · exact nomatch e
    · exact nomatch e
  refine (parseMagnitude_accepts _).bind
    (fun (m : Nat) v => (v = if first = 45 then -(m : Int) else m) ∧ -2 ^ 127 ≤ v ∧ v < 2 ^ 127) (fun error => rfl)
    (fun m hm => ?_) fun v => ?_
  · by_cases minus : first = 45
    · simp only [if_pos minus]
      change Accepts (if 2 ^ 127 < m then _ else _) _
      split
      · exact accepts_error fun v hv => by omega
      split
      · exact accepts_ok fun v => ⟨fun hv => by omega, fun hv => ⟨by omega, by omega⟩⟩
      · rw [exact_of (by omega), signed, if_pos ⟨by omega, by omega⟩]
        exact accepts_ok fun v => ⟨fun hv => by omega, fun hv => ⟨by omega, by omega⟩⟩
    · simp only [if_neg minus]
      split
      · exact accepts_error fun v hv => by omega
      · rw [exact_of (by omega)]
        exact accepts_ok fun v => ⟨fun hv => by omega, fun hv => ⟨by omega, by omega⟩⟩
  · rw [numeral_cons]
    constructor
    · rintro ⟨base, ⟨m, denotes, e⟩, low, high⟩
      exact ⟨m, ⟨base, denotes, by split at e <;> omega⟩, e, low, high⟩
    · rintro ⟨m, ⟨base, denotes, -⟩, e, low, high⟩
      exact ⟨base, ⟨m, denotes, e⟩, low, high⟩

theorem parseSigned_accepts (signed : type.signed = true) :
    Accepts (parseSigned type type.minimum type.maximum text radix) fun v =>
      (2 ≤ radix ∧ radix ≤ 36) ∧ Numeral type.signed radix text v ∧ type.minimum ≤ v ∧ v ≤ type.maximum := by
  have inside : -2 ^ 127 ≤ type.minimum ∧ type.maximum < 2 ^ 127 := by
    obtain ⟨_ | _, _ | _⟩ := type <;> cases signed <;> decide
  rw [signed]
  refine parseI128_accepts.bind (fun v w => (type.minimum ≤ v ∧ v ≤ type.maximum) ∧ w = v) (fun error => rfl)
    (fun v hv => ?_) fun v => ⟨?_, ?_⟩
  · dsimp only
    split
    · exact accepts_error fun w hw => by omega
    · refine accepts_ok fun w => ?_
      rw [truncateTo_bits signed ⟨v, by omega, by omega⟩]
      exact ⟨fun hw => hw.2.symm, fun hw => ⟨by omega, hw.symm⟩⟩
  · rintro ⟨base, numeral, low, high⟩
    exact ⟨v, ⟨base, numeral, by omega, by omega⟩, ⟨low, high⟩, rfl⟩
  · rintro ⟨v, ⟨base, numeral, -⟩, ⟨low, high⟩, rfl⟩
    exact ⟨base, numeral, low, high⟩

/-- **The texts a parser accepts** are the numerals of the radix whose value is in the range of the type. -/
theorem parse_accepts (type : IntegerType) (text : List UInt8) (radix : UInt8) :
    Accepts (parse type text radix) fun v =>
      (2 ≤ radix.toNat ∧ radix.toNat ≤ 36) ∧ Numeral type.signed radix.toNat text v ∧
        type.minimum ≤ v ∧ v ≤ type.maximum := by
  obtain ⟨_ | _, width⟩ := type <;> cases width
  case false.w128 =>
    refine (parseMagnitude_accepts 0).bind (fun (m : Nat) v => v = (m : Int)) (fun error => rfl)
      (fun m hm => accepts_ok fun v => eq_comm) fun v => ⟨?_, ?_⟩
    · rintro ⟨base, ⟨m, ⟨denotes, rfl⟩ | ⟨signed, -⟩⟩, -, high⟩
      · change (m : Int) ≤ 2 ^ 128 - 1 at high
        exact ⟨m, ⟨base, denotes, by omega⟩, rfl⟩
      · exact nomatch signed
    · rintro ⟨m, ⟨base, denotes, fits⟩, rfl⟩
      exact ⟨base, ⟨m, .inl ⟨denotes, rfl⟩⟩, show (0 : Int) ≤ m by omega, show (m : Int) ≤ 2 ^ 128 - 1 by omega⟩
  case true.w128 =>
    refine parseI128_accepts.iff fun v => ?_
    change _ ↔ _ ∧ _ ∧ (-2 ^ 127 : Int) ≤ v ∧ v ≤ 2 ^ 127 - 1
    rw [Int.le_sub_one_iff]
  case false.w8 | false.w16 | false.w32 | false.w64 | false.size => exact parseUnsigned_accepts rfl
  case true.w8 | true.w16 | true.w32 | true.w64 | true.size => exact parseSigned_accepts rfl

end Types

/-! ## 9. What the writers write -/

def digitsOf (radix : Base) (value : Nat) (uppercase : Bool) : List UInt8 :=
  (spell radix value).map (digitByte · uppercase)

section Writers

variable {radix : Base} {uppercase : Bool} {options : Options}

theorem length_digitsOf (value : Nat) : (digitsOf radix value uppercase).length = digitCount radix value 1 := by
  rw [digitsOf, length_map, digitCount_eq radix value 0, Nat.zero_add]

theorem writeFrom_full {bits value : Nat} (small : value < 2 ^ (bits + 1)) :
    writeFrom radix uppercase (bits + 1) value [] = some (digitsOf radix value uppercase) := by
  rw [writeFrom_eq radix uppercase _ _ _ (length_spell_le radix bits value small), append_nil, digitsOf]

/-- What all writers come to: the sign, the digits of the absolute value and their count. -/
def written (value : Int) (options : Options) : Option (List Call) :=
  let radix := radixValue options.radix
  writeInteger (value < 0) (digitCount radix value.natAbs 1)
    (some (digitsOf radix value.natAbs (uppercaseDigits options))) options

theorem writeUnsignedDigits_eq {value : Nat} (small : value < 2 ^ 128) :
    writeUnsignedDigits value radix uppercase = some (digitsOf radix value uppercase) :=
  writeFrom_full small

theorem writeUnsignedNativeDigits_eq {value : Nat} (small : value < 2 ^ 64) :
    writeUnsignedNativeDigits value radix uppercase = some (digitsOf radix value uppercase) :=
  writeFrom_full small

/-- The signed digits of a normalized value, in a buffer of as many digits as the type has bits. -/
theorem writeSignedFrom_full {bits value : Nat} (wide : 5 ≤ bits) (small : value ≤ 2 ^ bits) :
    writeSignedFrom (bits + 1) radix uppercase (bits + 1) (-(value : Int)) [] =
      some (digitsOf radix value uppercase) := by
  rw [writeSignedFrom_neg (by omega), writeFrom_full (by have := Nat.two_pow_pos bits; rw [pow_succ]; omega)]

theorem writeSignedDigits_eq {value : Nat} (small : value ≤ 2 ^ 127) :
    writeSignedDigits (-(value : Int)) radix uppercase = some (digitsOf radix value uppercase) :=
  writeSignedFrom_full (by decide) small

theorem writeSignedNativeDigits_eq {value : Nat} (small : value ≤ 2 ^ 63) :
    writeSignedNativeDigits (-(value : Int)) radix uppercase = some (digitsOf radix value uppercase) :=
  writeSignedFrom_full (by decide) small

theorem writeUnsignedInteger_eq {value : Nat} (small : value < 2 ^ 128) :
    writeUnsignedInteger value options = written value options := by
  rw [writeUnsignedInteger, writeUnsignedDigits_eq small, written, decide_eq_false (by omega)]
  rfl

theorem writeUnsignedNativeInteger_eq {value : Nat} (small : value < 2 ^ 64) :
    writeUnsignedNativeInteger value options = written value options := by
  rw [writeUnsignedNativeInteger, writeUnsignedNativeDigits_eq small, written, decide_eq_false (by omega)]
  rfl

theorem writeSignedInteger_eq {value : Int} (low : -2 ^ 127 ≤ value) (high : value < 2 ^ 127) :
    writeSignedInteger value options = written value options := by
  rw [writeSignedInteger, normalizedSignedInteger, normalized_eq high]
  change writeInteger _ (signedCount _ _ 1) (writeSignedDigits _ _ _) _ = _
  rw [writeSignedDigits_eq (by omega), signedCount_neg]
  rfl

theorem writeSignedNativeInteger_eq {value : Int} (low : -2 ^ 63 ≤ value) (high : value < 2 ^ 63) :
    writeSignedNativeInteger value options = written value options := by
  rw [writeSignedNativeInteger, normalizedSignedNativeInteger, normalized_eq high]
  change writeInteger _ (signedCount _ _ 1) (writeSignedNativeDigits _ _ _) _ = _
  rw [writeSignedNativeDigits_eq (by omega), signedCount_neg]
  rfl

theorem format_eq (type : IntegerType) (value : type.Value) : format type value options = written value.val options := by
  obtain ⟨value, low, high⟩ := value
  obtain ⟨_ | _, width⟩ := type
  · have nonneg : 0 ≤ value := low
    have same : (value.toNat : Int) = value := Int.toNat_of_nonneg nonneg
    have bound : value.toNat < 2 ^ width.bits := by
      change value ≤ 2 ^ width.bits - 1 at high
      have : ((2 ^ width.bits : Nat) : Int) = 2 ^ width.bits := by push_cast; rfl
      omega
    cases width
    case w128 => exact (writeUnsignedInteger_eq bound).trans (by rw [same])
    all_goals
      refine (writeUnsignedNativeInteger_eq (bound.trans_le ?_)).trans (by rw [same])
      decide
  · cases width
    case w128 => exact writeSignedInteger_eq low (Int.le_sub_one_iff.mp high)
    all_goals
      change -_ ≤ value at low
      change value ≤ _ - 1 at high
      exact writeSignedNativeInteger_eq (by norm_num [Width.bits] at low ⊢; omega) (by norm_num [Width.bits] at high ⊢; omega)

/-- With no width and the default sign. -/
theorem output_writeInteger (negative : Bool) (digits : Nat) (content : List UInt8) (radix : Radix)
    (precision : Option Nat) (alignment : Alignment) :
    ∃ calls, writeInteger negative digits (some content) { radix, precision, alignment } = some calls ∧
      output calls = (if negative then [45] else []) ++ List.replicate (max digits (precision.getD 1) - digits) 48 ++
        content := by
  have room (n : Nat) : unsigned 64 ((unsigned 64 n).getD usizeMax + 0) = some ((unsigned 64 n).getD usizeMax) := by
    unfold unsigned
    split
    · rename_i h
      exact if_pos h
    · rfl
  have none : leftPadding 0 { radix, precision, alignment } = 0 := by cases alignment <;> rfl
  unfold writeInteger integerContentLength minimumDigits paddingCount
  dsimp only
  rw [if_neg (Nat.not_lt_zero _), room, none]
  refine ⟨_, rfl, ?_⟩
  cases negative <;> simp [output, Call.bytes, writePadding, writeLeadingZeroes, writeRequestedSign]

end Writers

/-- The text written denotes the value, whatever zeroes stand in front of its digits. -/
theorem numeral_written (signed : Bool) (radix : Base) (uppercase : Bool) (value : Int) (zeroes : Nat)
    (sign : value < 0 → signed = true) :
    Numeral signed radix ((if value < 0 then [45] else []) ++ List.replicate zeroes 48 ++
      digitsOf radix value.natAbs uppercase) value := by
  have denotes : Denotes radix (List.replicate zeroes 48 ++ digitsOf radix value.natAbs uppercase) value.natAbs := by
    refine ⟨List.replicate zeroes 0 ++ spell radix value.natAbs,
      append_ne_nil_of_right_ne_nil _ (spell_ne_nil radix _), rel_append ?_ ?_, ?_⟩
    · induction zeroes with
      | zero => exact .nil
      | succ n ih => exact .cons ⟨by decide, by omega⟩ ih
    · refine forall₂_map_left_iff.mpr (forall₂_same.mpr fun d hd => ?_)
      have below := spell_lt radix value.natAbs d hd
      exact ⟨digit_digitByte uppercase (by omega), below⟩
    · have leading : valueFrom radix 0 (List.replicate zeroes 0) = 0 := by
        induction zeroes with
        | zero => rfl
        | succ n ih => simpa [valueFrom, replicate_succ] using ih
      rw [valueFrom, foldl_append]
      change _ = valueFrom radix (valueFrom radix 0 _) _
      rw [leading, valueFrom_spell]
  refine ⟨value.natAbs, ?_⟩
  by_cases negative : value < 0
  · rw [if_pos negative]
    exact .inr ⟨sign negative, _, denotes, .inr ⟨rfl, by omega⟩⟩
  · rw [if_neg negative]
    exact .inl ⟨denotes, by omega⟩

/-- **Integers written are read back**: in every radix, with any zeroes in front; the writers of the two widths agree
and fill no buffer past its end; and a text is accepted if it is a numeral whose value the type has. -/
theorem integers_read_back :
    (∀ (type : IntegerType) (value : type.Value) (radix : Radix) (precision : Option Nat) (alignment : Alignment),
      ∃ calls, format type value { radix, precision, alignment } = some calls ∧
        parse type (output calls) (radixValue radix).val.toUInt8 = some (.ok value.val)) ∧
    (∀ (value : IntegerType.Value ⟨false, .w64⟩) (options : Options),
      writeUnsignedNativeInteger value.val.toNat options = writeUnsignedInteger value.val.toNat options) ∧
    (∀ (value : IntegerType.Value ⟨true, .w64⟩) (options : Options),
      writeSignedNativeInteger value.val options = writeSignedInteger value.val options) ∧
    (∀ (radix : Base) (uppercase : Bool), (∀ value : IntegerType.Value ⟨false, .w128⟩, ∃ digits,
        writeUnsignedDigits value.val.toNat radix uppercase = some digits ∧
          digits.length = unsignedDigitCount value.val.toNat radix) ∧
      (∀ value : IntegerType.Value ⟨false, .w64⟩, ∃ digits,
        writeUnsignedNativeDigits value.val.toNat radix uppercase = some digits ∧
          digits.length = unsignedDigitCount value.val.toNat radix) ∧
      (∀ value : IntegerType.Value ⟨true, .w128⟩, ∃ normalized digits,
        normalizedSignedInteger value.val = some normalized ∧
          writeSignedDigits normalized radix uppercase = some digits ∧
          digits.length = signedDigitCount normalized radix) ∧
      ∀ value : IntegerType.Value ⟨true, .w64⟩, ∃ normalized digits,
        normalizedSignedNativeInteger value.val = some normalized ∧
          writeSignedNativeDigits normalized radix uppercase = some digits ∧
          digits.length = signedDigitCount normalized radix) ∧
    ∀ (type : IntegerType) (text : List UInt8) (radix : UInt8), Accepts (parse type text radix) fun v =>
        (2 ≤ radix.toNat ∧ radix.toNat ≤ 36) ∧ Numeral type.signed radix.toNat text v ∧
          type.minimum ≤ v ∧ v ≤ type.maximum := by
  have nat {bits : Nat} {v : Int} (low : 0 ≤ v) (high : v ≤ 2 ^ bits - 1) : v.toNat < 2 ^ bits := by
    have : ((2 ^ bits : Nat) : Int) = 2 ^ bits := by push_cast; rfl
    omega
  refine ⟨fun type value radix precision alignment => ?_, fun ⟨v, low, high⟩ options => ?_,
    fun ⟨v, low, high⟩ options => ?_, fun radix uppercase => ⟨?_, ?_, ?_, ?_⟩, parse_accepts⟩
  · rw [format_eq]
    obtain ⟨calls, wrote, out⟩ := output_writeInteger (value.val < 0)
      (digitCount (radixValue radix) value.val.natAbs 1)
      (digitsOf (radixValue radix) value.val.natAbs (uppercaseDigits { radix, precision, alignment })) radix precision
      alignment
    refine ⟨calls, wrote, ?_⟩
    obtain ⟨result, parsed, only⟩ := parse_accepts type (output calls) (radixValue radix).val.toUInt8
    have same : (radixValue radix).val.toUInt8.toNat = (radixValue radix).val := by cases radix <;> rfl
    have base := (radixValue radix).property
    rw [parsed, (only value.val).mpr ⟨by omega, ?_, value.property⟩]
    rw [same, out]
    simp only [decide_eq_true_eq]
    refine numeral_written _ _ _ _ _ fun negative => ?_
    by_contra unsigned
    have low := value.property.1
    simp only [IntegerType.minimum, if_neg unsigned] at low
    omega
  · have small : v.toNat < 2 ^ 64 := nat low high
    exact (writeUnsignedNativeInteger_eq small).trans (writeUnsignedInteger_eq (by omega)).symm
  · change (-2 ^ 63 : Int) ≤ v at low
    change v ≤ 2 ^ 63 - 1 at high
    exact (writeSignedNativeInteger_eq low (by omega)).trans (writeSignedInteger_eq (by omega) (by omega)).symm
  · rintro ⟨v, low, high⟩
    exact ⟨_, writeUnsignedDigits_eq (nat low high), length_digitsOf _⟩
  · rintro ⟨v, low, high⟩
    exact ⟨_, writeUnsignedNativeDigits_eq (nat low high), length_digitsOf _⟩
  · rintro ⟨v, low, high⟩
    have small : v.natAbs ≤ 2 ^ 127 := by
      change (-2 ^ 127 : Int) ≤ v at low
      change v ≤ 2 ^ 127 - 1 at high
      omega
    exact ⟨_, _, normalized_eq (Int.le_sub_one_iff.mp high), writeSignedDigits_eq small,
      (length_digitsOf _).trans (signedCount_neg _ 1).symm⟩
  · rintro ⟨v, low, high⟩
    have small : v.natAbs ≤ 2 ^ 63 := by
      change (-2 ^ 63 : Int) ≤ v at low
      change v ≤ 2 ^ 63 - 1 at high
      omega
    exact ⟨_, _, normalized_eq (Int.le_sub_one_iff.mp high), writeSignedNativeDigits_eq small,
      (length_digitsOf _).trans (signedCount_neg _ 1).symm⟩

end Bray.Format
