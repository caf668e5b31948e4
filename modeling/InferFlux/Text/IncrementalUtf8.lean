import Mathlib.Data.List.Basic

/-!
# Incremental assembly of UTF-8 text

Embeds `IncrementalUtf8Assembler` from `runtime/text/incremental_utf8.cpp`. Token pieces
arrive as arbitrary bytes; an incomplete sequence at the end of a piece is kept until the
next piece, an ill-formed byte is replaced by U+FFFD.
-/

namespace InferFlux.Text

/-- The contents of a `std::string`. -/
abbrev Bytes := List UInt8

def bytes (s : String) : Bytes := s.toUTF8.data.toList

/-- Text in well-formed UTF-8: the encodings of some code points one after the other. -/
def ValidUtf8 (text : Bytes) : Prop :=
  ∃ chars : List Char, text = chars.flatMap String.utf8EncodeChar

def kReplacementCharacter : Bytes := [0xEF, 0xBF, 0xBD]

def isContinuation (byte : UInt8) : Bool := byte ≥ 0x80 && byte ≤ 0xBF

def sequenceLength (lead : UInt8) : Nat :=
  if lead ≤ 0x7F then 1
  else if lead ≥ 0xC2 && lead ≤ 0xDF then 2
  else if lead ≥ 0xE0 && lead ≤ 0xEF then 3
  else if lead ≥ 0xF0 && lead ≤ 0xF4 then 4
  else 0

def isValidSecondByte (lead second : UInt8) : Bool :=
  if !isContinuation second then false
  else if lead = 0xE0 then second ≥ 0xA0
  else if lead = 0xED then second ≤ 0x9F
  else if lead = 0xF0 then second ≥ 0x90
  else if lead = 0xF4 then second ≤ 0x8F
  else true

/-- `valid_available_prefix`: the bytes after `lead` that have arrived, at most as many as
its sequence has, can stand there. -/
def validAvailable (lead : UInt8) : Bytes → Bool
  | [] => true
  | second :: more => isValidSecondByte lead second && more.all isContinuation

structure Utf8AssemblyResult where
  text : Bytes := []
  replacements : Nat := 0
  deriving DecidableEq, Repr

namespace Utf8AssemblyResult

/-- Put `text` before what the rest of the loop appends. -/
def copied (text : Bytes) (r : Utf8AssemblyResult) : Utf8AssemblyResult :=
  { r with text := text ++ r.text }

/-- `replace_invalid`, before what the rest of the loop appends. -/
def replaced (r : Utf8AssemblyResult) : Utf8AssemblyResult :=
  { text := kReplacementCharacter ++ r.text, replacements := r.replacements + 1 }

end Utf8AssemblyResult

/-- The loop of `Consume` at the unread part of the pending bytes: what it appends to the
result and which bytes it leaves pending. Each round reads a byte, so a fuel of the number
of unread bytes is enough. -/
def consumeLoop (finish : Bool) : Nat → Bytes → Utf8AssemblyResult × Bytes
  | 0, unread => ({}, unread)
  | _ + 1, [] => ({}, [])
  | fuel + 1, lead :: rest =>
    let length := sequenceLength lead
    if length = 1 then
      let (result, pending) := consumeLoop finish fuel rest
      (result.copied [lead], pending)
    else if length = 0 then
      let (result, pending) := consumeLoop finish fuel rest
      (result.replaced, pending)
    else if !validAvailable lead (rest.take (length - 1)) then
      let (result, pending) := consumeLoop finish fuel rest
      (result.replaced, pending)
    else if rest.length + 1 < length then
      if !finish then ({}, lead :: rest)
      else (Utf8AssemblyResult.replaced {}, [])
    else
      let (result, pending) := consumeLoop finish fuel (rest.drop (length - 1))
      (result.copied (lead :: rest.take (length - 1)), pending)

structure IncrementalUtf8Assembler where
  pending : Bytes := []
  deriving DecidableEq, Repr

namespace IncrementalUtf8Assembler

def consume (a : IncrementalUtf8Assembler) (finish : Bool) :
    Utf8AssemblyResult × IncrementalUtf8Assembler :=
  let (result, pending) := consumeLoop finish a.pending.length a.pending
  (result, { pending })

def append (a : IncrementalUtf8Assembler) (piece : Bytes) :
    Utf8AssemblyResult × IncrementalUtf8Assembler :=
  consume { pending := a.pending ++ piece } false

def finish (a : IncrementalUtf8Assembler) : Utf8AssemblyResult × IncrementalUtf8Assembler :=
  a.consume true

end IncrementalUtf8Assembler

/-- The encoding of a code point is one sequence the table of lead and second bytes accepts. -/
theorem utf8EncodeChar_accepted (c : Char) :
    ∃ lead rest, String.utf8EncodeChar c = lead :: rest ∧
      sequenceLength lead = rest.length + 1 ∧ validAvailable lead rest = true := by
  have hrange : c.val.toNat < 0xD800 ∨ 0xDFFF < c.val.toNat ∧ c.val.toNat < 0x110000 := c.valid
  simp only [String.utf8EncodeChar]
  generalize c.val.toNat = v at hrange
  split_ifs with h1 h2 h3
  · refine ⟨_, _, rfl, ?_, rfl⟩
    simp [sequenceLength, UInt8.le_iff_toNat_le]
    omega
  all_goals
    refine ⟨_, _, rfl, ?_, ?_⟩
    all_goals
      simp [sequenceLength, validAvailable, isValidSecondByte, isContinuation,
        UInt8.le_iff_toNat_le, ← UInt8.toNat_inj]
      split_ifs <;> omega

theorem consumeLoop_accepted (finish : Bool) (fuel : Nat) {lead : UInt8} {rest : Bytes}
    (hlen : sequenceLength lead = rest.length + 1) (hvalid : validAvailable lead rest = true)
    (more : Bytes) :
    consumeLoop finish (fuel + 1) (lead :: rest ++ more) =
      ((consumeLoop finish fuel more).1.copied (lead :: rest),
        (consumeLoop finish fuel more).2) := by
  by_cases hone : rest = []
  · subst hone
    simp [consumeLoop, hlen]
  · have hcomplete : ¬ rest.length + more.length < rest.length := by omega
    simp [consumeLoop, hlen, hvalid, hone, hcomplete]

theorem consumeLoop_validUtf8 (finish : Bool) (chars : List Char) (fuel : Nat)
    (hfuel : (chars.flatMap String.utf8EncodeChar).length ≤ fuel) :
    consumeLoop finish fuel (chars.flatMap String.utf8EncodeChar) =
      ({ text := chars.flatMap String.utf8EncodeChar }, []) := by
  induction chars generalizing fuel with
  | nil => cases fuel <;> rfl
  | cons c chars ih =>
    obtain ⟨lead, rest, henc, hlen, hvalid⟩ := utf8EncodeChar_accepted c
    rw [List.flatMap_cons, henc] at hfuel ⊢
    cases fuel with
    | zero => simp at hfuel
    | succ fuel =>
      have hrest : (chars.flatMap String.utf8EncodeChar).length ≤ fuel := by
        simp only [List.cons_append, List.length_cons, List.length_append] at hfuel
        omega
      rw [consumeLoop_accepted finish fuel hlen hvalid, ih fuel hrest]
      simp [Utf8AssemblyResult.copied]

namespace IncrementalUtf8Assembler

/-- Well-formed text is passed on unchanged and nothing is held back. -/
theorem append_validUtf8 {piece : Bytes} (hvalid : ValidUtf8 piece) :
    append {} piece = ({ text := piece }, {}) := by
  obtain ⟨chars, rfl⟩ := hvalid
  simp [append, consume, consumeLoop_validUtf8]

@[simp] theorem finish_empty : finish {} = ({}, {}) := rfl

end IncrementalUtf8Assembler

theorem consumeLoop_text_eq_nil (finish : Bool) (fuel : Nat) (unread : Bytes)
    (hfuel : unread.length ≤ fuel) (htext : (consumeLoop finish fuel unread).1.text = []) :
    (consumeLoop finish fuel unread).2 = unread ∧ (finish = true → unread = []) := by
  cases fuel with
  | zero => simp_all [consumeLoop]
  | succ fuel =>
    cases unread with
    | nil => simp [consumeLoop]
    | cons lead rest =>
      simp only [consumeLoop] at htext ⊢
      split_ifs at htext ⊢ <;>
        simp_all [Utf8AssemblyResult.copied, Utf8AssemblyResult.replaced, kReplacementCharacter]

namespace IncrementalUtf8Assembler

variable {a : IncrementalUtf8Assembler}

theorem append_text_eq_nil {piece : Bytes} (htext : (a.append piece).1.text = []) :
    (a.append piece).2.pending = a.pending ++ piece :=
  (consumeLoop_text_eq_nil false _ (a.pending ++ piece) (Nat.le_refl _) htext).1

theorem finish_text_eq_nil_iff : a.finish.1.text = [] ↔ a.pending = [] := by
  constructor
  · intro htext
    exact (consumeLoop_text_eq_nil true _ a.pending (Nat.le_refl _) htext).2 rfl
  · intro hpending
    simp [finish, consume, hpending, consumeLoop]

end IncrementalUtf8Assembler

end InferFlux.Text
