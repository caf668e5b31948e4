import InferFlux.Library.Occurrence
import InferFlux.Text.IncrementalUtf8
import Mathlib.Algebra.Group.Int.Defs
import Mathlib.Algebra.Group.Nat.Defs

/-!
# Header blocks

Embeds `GetHeaderValue` from `server/http/http_utils.h`, and the conversions of the C++
standard library that the HTTP server applies to the texts it receives, in the C locale.
-/

namespace InferFlux.Http

open InferFlux.Text

def kCrLf : Bytes := [13, 10]

def kHeaderEnd : Bytes := [13, 10, 13, 10]

def toLower (c : UInt8) : UInt8 := if c ≥ 65 && c ≤ 90 then c + 32 else c

def isBlank (c : UInt8) : Bool := c = 32 || c = 9

def isTrailingBlank (c : UInt8) : Bool := isBlank c || c = 13 || c = 10

/-- The value of a header without the blanks around it. A value of blanks and line breaks
only, as it can come from a lone line break, is empty if it starts with a line break; else
`find_last_not_of` returns `npos` and only the leading blanks go. -/
def trimValue (value : Bytes) : Bytes :=
  let rest := value.dropWhile isBlank
  if rest.all isTrailingBlank then
    if rest.length = value.length then [] else rest
  else (rest.reverse.dropWhile isTrailingBlank).reverse

def scanLines (name : Bytes) : Nat → Bytes → Bytes
  | 0, _ => []
  | fuel + 1, rest =>
    if rest.isEmpty then []
    else
      let lineEnd := Occurrence.first [kCrLf] rest
      let line := match lineEnd with
        | some i => rest.take i
        | none => rest
      let onward := match lineEnd with
        | some i => scanLines name fuel (rest.drop (i + 2))
        | none => []
      match line.findIdx? (· = 58) with
      | some colon =>
        if (line.take colon).map toLower = name then trimValue (line.drop (colon + 1)) else onward
      | none => onward

/-- Every line takes at least the two bytes of its break, so the scan ends within as many
steps as there are bytes. -/
def getHeaderValue (headers name : Bytes) : Bytes :=
  scanLines (name.map toLower) (headers.length + 1) headers

inductive ConversionError where
  | invalidArgument
  | outOfRange
  deriving DecidableEq, Repr

def isSpace (c : UInt8) : Bool := c = 32 || (c ≥ 9 && c ≤ 13)

def isDigit (c : UInt8) : Bool := c ≥ 48 && c ≤ 57

def digitsValue (digits : Bytes) : Nat := digits.foldl (fun v c => v * 10 + (c.toNat - 48)) 0

def scanInteger (text : Bytes) : Bool × Bytes :=
  match text.dropWhile isSpace with
  | 45 :: rest => (true, rest.takeWhile isDigit)
  | 43 :: rest => (false, rest.takeWhile isDigit)
  | rest => (false, rest.takeWhile isDigit)

/-- `std::stoull`, which negates modulo `2 ^ 64`. -/
def stoull (text : Bytes) : Except ConversionError Nat :=
  let (negative, digits) := scanInteger text
  let value := digitsValue digits
  if digits.isEmpty then .error .invalidArgument
  else if value ≥ 2 ^ 64 then .error .outOfRange
  else .ok (if negative then (2 ^ 64 - value) % 2 ^ 64 else value)

def stoi (text : Bytes) : Except ConversionError Int :=
  let (negative, digits) := scanInteger text
  let value : Int := if negative then - digitsValue digits else digitsValue digits
  if digits.isEmpty then .error .invalidArgument
  else if value < - 2 ^ 31 || value ≥ 2 ^ 31 then .error .outOfRange
  else .ok value

def toDecimal (n : Nat) : Bytes := (Nat.toDigits 10 n).map fun c => UInt8.ofNat c.toNat

variable {n : Nat}

theorem toNat_of_mem_toDigits {d : Char} (h : d ∈ Nat.toDigits 10 n) :
    48 ≤ d.toNat ∧ d.toNat ≤ 57 := by
  have hdigit := Nat.isDigit_of_mem_toDigits (by omega) (by omega) h
  simp only [Char.isDigit, Bool.and_eq_true, decide_eq_true_eq] at hdigit
  exact ⟨UInt32.le_iff_toNat_le.mp hdigit.1, UInt32.le_iff_toNat_le.mp hdigit.2⟩

variable {c : UInt8}

theorem isDigit_of_mem_toDecimal (h : c ∈ toDecimal n) : isDigit c = true := by
  obtain ⟨d, hd, rfl⟩ := List.mem_map.mp h
  have hdigit := toNat_of_mem_toDigits hd
  simp only [isDigit, ge_iff_le, UInt8.le_iff_toNat_le, UInt8.toNat_ofNat', UInt8.reduceToNat,
    Bool.and_eq_true, decide_eq_true_eq]
  omega

theorem toDecimal_ne_nil (n : Nat) : toDecimal n ≠ [] := by
  simp [toDecimal, Nat.toDigits_ne_nil]

theorem digitsValue_toDecimal (n : Nat) : digitsValue (toDecimal n) = n := by
  have hfold : ∀ (digits : List Char) (value : Nat), (∀ d ∈ digits, d.toNat ≤ 57) →
      (digits.map fun c => UInt8.ofNat c.toNat).foldl (fun v c => v * 10 + (c.toNat - 48)) value =
        Nat.ofDigitChars 10 digits value := by
    intro digits
    induction digits with
    | nil => intros; rfl
    | cons d digits ih =>
      intro value hdigits
      have hd : (UInt8.ofNat d.toNat).toNat = d.toNat := by
        rw [UInt8.toNat_ofNat']
        have := hdigits d (by simp)
        omega
      rw [List.map_cons, List.foldl_cons, ih _ fun e he => hdigits e (by simp [he]), hd,
        Nat.ofDigitChars_cons, Nat.mul_comm]
      rfl
  calc digitsValue (toDecimal n)
      = Nat.ofDigitChars 10 (Nat.toDigits 10 n) 0 :=
        hfold _ 0 fun d hd => (toNat_of_mem_toDigits hd).2
    _ = n := Nat.ofDigitChars_ten_toDigits

theorem not_isSpace_of_isDigit (h : isDigit c = true) : isSpace c = false ∧ c ≠ 43 ∧ c ≠ 45 := by
  revert h
  obtain ⟨b⟩ := c
  revert b
  decide

theorem scanInteger_digits {digits : Bytes} (h : ∀ c ∈ digits, isDigit c = true) :
    scanInteger digits = (false, digits) ∧ scanInteger (45 :: digits) = (true, digits) := by
  have htake : digits.takeWhile isDigit = digits := by
    simpa using @List.takeWhile_append_of_pos _ isDigit digits [] h
  refine ⟨?_, ?_⟩
  · cases digits with
    | nil => rfl
    | cons c digits =>
      obtain ⟨hspace, hplus, hminus⟩ := not_isSpace_of_isDigit (h c (by simp))
      have hdrop : (c :: digits).dropWhile isSpace = c :: digits := by simp [hspace]
      rw [scanInteger, hdrop]
      split
      · grind
      · grind
      · rw [htake]
  · have hminus : isSpace 45 = false := by decide
    simp [scanInteger, hminus, htake]

/-- `std::stoi` undoes `std::to_string`. -/
theorem stoi_toDecimal (h : n < 2 ^ 31) : stoi (toDecimal n) = .ok n := by
  have hscan := (scanInteger_digits fun _ => isDigit_of_mem_toDecimal (n := n)).1
  simp [stoi, hscan, digitsValue_toDecimal, toDecimal_ne_nil]
  omega

theorem stoi_neg_toDecimal (h : n ≤ 2 ^ 31) : stoi (45 :: toDecimal n) = .ok (-n) := by
  have hscan := (scanInteger_digits fun _ => isDigit_of_mem_toDecimal (n := n)).2
  simp [stoi, hscan, digitsValue_toDecimal, toDecimal_ne_nil]
  omega

end InferFlux.Http
