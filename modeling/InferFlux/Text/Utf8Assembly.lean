import InferFlux.Text.IncrementalUtf8

/-!
# Assembly of a whole stream

What `IncrementalUtf8Assembler` makes of a stream that arrives in chunks: the texts returned
by `Append` on them, followed by that of `Finish`. A decision about a sequence depends on its
own bytes only, and is put off while they are incomplete. So the result depends on the stream
alone (`assemble_eq`); it is well-formed UTF-8, and it is the stream itself if that is.
-/

namespace InferFlux.Text

open List

open Utf8AssemblyResult

namespace Utf8AssemblyResult

def andThen (r s : Utf8AssemblyResult) : Utf8AssemblyResult where
  text := r.text ++ s.text
  replacements := r.replacements + s.replacements

theorem andThen_assoc (r s t : Utf8AssemblyResult) :
    (r.andThen s).andThen t = r.andThen (s.andThen t) := by
  simp [andThen, Nat.add_assoc]

@[simp]
theorem empty_andThen (r : Utf8AssemblyResult) : andThen {} r = r := by
  simp [andThen]

theorem copied_andThen (text : Bytes) (r s : Utf8AssemblyResult) :
    (r.copied text).andThen s = (r.andThen s).copied text := by
  simp [copied, andThen]

theorem replaced_andThen (r s : Utf8AssemblyResult) :
    r.replaced.andThen s = (r.andThen s).replaced := by
  simp [replaced, andThen, Nat.add_right_comm]

end Utf8AssemblyResult

namespace IncrementalUtf8Assembler

/-- `Append` on one chunk after the other. -/
def appendAll (a : IncrementalUtf8Assembler) :
    List Bytes → Utf8AssemblyResult × IncrementalUtf8Assembler
  | [] => ({}, a)
  | chunk :: chunks =>
    let (result, a) := a.append chunk
    let (results, a) := appendAll a chunks
    (result.andThen results, a)

end IncrementalUtf8Assembler

def assemble (chunks : List Bytes) : Utf8AssemblyResult :=
  let (result, a) := IncrementalUtf8Assembler.appendAll {} chunks
  result.andThen a.finish.1

/-- The loop of `Consume` on all of the unread bytes. -/
def consumed (finish : Bool) (unread : Bytes) : Utf8AssemblyResult × Bytes :=
  consumeLoop finish unread.length unread

variable (finish : Bool)

theorem consumeLoop_eq_consumed {fuel : Nat} {unread : Bytes} (hfuel : unread.length ≤ fuel) :
    consumeLoop finish fuel unread = consumed finish unread := by
  unfold consumed
  generalize hn : unread.length = n at hfuel ⊢
  replace hn : unread.length ≤ n := by omega
  induction n generalizing fuel unread with
  | zero =>
    obtain rfl : unread = [] := by simpa using hn
    cases fuel <;> rfl
  | succ n ih =>
    obtain ⟨fuel, rfl⟩ : ∃ m, fuel = m + 1 := ⟨fuel - 1, by omega⟩
    cases unread with
    | nil => rfl
    | cons lead rest =>
      rw [length_cons] at hn
      have hrest : consumeLoop finish fuel rest = consumeLoop finish n rest :=
        ih (by omega) (by omega)
      have hdrop : consumeLoop finish fuel (rest.drop (sequenceLength lead - 1)) =
          consumeLoop finish n (rest.drop (sequenceLength lead - 1)) :=
        ih (by omega) (by rw [length_drop]; omega)
      simp [consumeLoop, hrest, hdrop]

/-- What one round does with a lead byte and the bytes after it. -/
inductive Round (lead : UInt8) (rest : Bytes) : Prop where
  /-- The sequence is complete. -/
  | copy (tail more : Bytes) (hrest : rest = tail ++ more)
      (hlen : sequenceLength lead = tail.length + 1) (hvalid : validAvailable lead tail = true)
  /-- No sequence can start here. -/
  | replace (hbad : sequenceLength lead = 0 ∨
      validAvailable lead (rest.take (sequenceLength lead - 1)) = false)
  /-- The sequence may become complete. -/
  | wait (hlen : rest.length + 1 < sequenceLength lead) (hvalid : validAvailable lead rest = true)

theorem round (lead : UInt8) (rest : Bytes) : Round lead rest := by
  by_cases hzero : sequenceLength lead = 0
  · exact .replace (.inl hzero)
  cases hvalid : validAvailable lead (rest.take (sequenceLength lead - 1)) with
  | false => exact .replace (.inr hvalid)
  | true =>
    by_cases hlen : rest.length + 1 < sequenceLength lead
    · rw [take_of_length_le (by omega)] at hvalid
      exact .wait hlen hvalid
    · refine .copy _ _ (take_append_drop (sequenceLength lead - 1) rest).symm ?_ hvalid
      rw [length_take]
      omega

variable {lead : UInt8} {tail : Bytes}

theorem consumed_copy (hlen : sequenceLength lead = tail.length + 1)
    (hvalid : validAvailable lead tail = true) (more : Bytes) :
    consumed finish (lead :: (tail ++ more)) =
      ((consumed finish more).1.copied (lead :: tail), (consumed finish more).2) := by
  have hstep := consumeLoop_accepted finish (tail ++ more).length hlen hvalid more
  have hmore : consumeLoop finish (tail ++ more).length more = consumed finish more :=
    consumeLoop_eq_consumed finish (by simp)
  rw [hmore] at hstep
  exact hstep

variable {rest : Bytes}

theorem consumed_replace (hbad : sequenceLength lead = 0 ∨
      validAvailable lead (rest.take (sequenceLength lead - 1)) = false) :
    consumed finish (lead :: rest) =
      ((consumed finish rest).1.replaced, (consumed finish rest).2) := by
  have hone : sequenceLength lead ≠ 1 := by
    intro h
    rw [h] at hbad
    simp [validAvailable] at hbad
  obtain h | h := hbad <;> simp [consumed, consumeLoop, hone, h]

theorem consumed_wait (hlen : rest.length + 1 < sequenceLength lead)
    (hvalid : validAvailable lead rest = true) (finish : Bool) :
    consumed finish (lead :: rest) = if finish then (replaced {}, []) else ({}, lead :: rest) := by
  have htake : rest.take (sequenceLength lead - 1) = rest := take_of_length_le (by omega)
  have hone : sequenceLength lead ≠ 1 := by omega
  have hzero : sequenceLength lead ≠ 0 := by omega
  cases finish <;> simp [consumed, consumeLoop, hone, hzero, htake, hvalid, hlen]

/-- More bytes do not make an impossible sequence possible. -/
theorem validAvailable_append {more : Bytes} (h : validAvailable lead (tail ++ more) = true) :
    validAvailable lead tail = true := by
  cases tail with
  | nil => rfl
  | cons second tail =>
    simp only [cons_append, validAvailable, all_append, Bool.and_eq_true] at h ⊢
    exact ⟨h.1, h.2.1⟩

/-- Reading some bytes, and then what they leave pending with the bytes that follow, is reading
all of them. -/
theorem consumed_append (first more : Bytes) :
    consumed finish (first ++ more) =
      ((consumed false first).1.andThen (consumed finish ((consumed false first).2 ++ more)).1,
        (consumed finish ((consumed false first).2 ++ more)).2) := by
  induction hn : first.length using Nat.strongRecOn generalizing first with
  | ind n ih =>
  subst hn
  cases first with
  | nil => simp [consumed, consumeLoop]
  | cons lead rest =>
    rw [cons_append]
    cases round lead rest with
    | copy tail after hrest hlen hvalid =>
      subst hrest
      have hafter := ih after.length (by simp only [length_cons, length_append]; omega) after rfl
      rw [append_assoc, consumed_copy finish hlen hvalid, consumed_copy false hlen hvalid, hafter,
        copied_andThen]
    | replace hbad =>
      have hafter := ih rest.length (by simp) rest rfl
      have hbad' : sequenceLength lead = 0 ∨
          validAvailable lead ((rest ++ more).take (sequenceLength lead - 1)) = false := by
        refine hbad.imp_right fun h => ?_
        rw [take_append]
        by_contra hvalid
        rw [Bool.not_eq_false] at hvalid
        rw [validAvailable_append hvalid] at h
        cases h
      rw [consumed_replace finish hbad', consumed_replace false hbad, hafter, replaced_andThen]
    | wait hlen hvalid =>
      -- All of the bytes stay pending.
      rw [consumed_wait hlen hvalid false]
      simp

namespace IncrementalUtf8Assembler

theorem appendAll_finish (a : IncrementalUtf8Assembler) (chunks : List Bytes) :
    (a.appendAll chunks).1.andThen (a.appendAll chunks).2.finish.1 =
      (consumed true (a.pending ++ chunks.flatten)).1 := by
  induction chunks generalizing a with
  | nil => simp [appendAll, finish, consume, consumed]
  | cons chunk chunks ih =>
    have hstep := consumed_append true (a.pending ++ chunk) chunks.flatten
    simp only [appendAll, andThen_assoc, ih, flatten_cons, ← append_assoc, hstep]
    rfl

end IncrementalUtf8Assembler

/-- The result is that of the loop on the whole stream, however it arrives. -/
theorem assemble_eq (chunks : List Bytes) : assemble chunks = (consumed true chunks.flatten).1 := by
  have h := IncrementalUtf8Assembler.appendAll_finish {} chunks
  simpa [assemble] using h

theorem exists_char {v : Nat} (h : v < 0xD800 ∨ 0xDFFF < v ∧ v < 0x110000) :
    ∃ c : Char, c.val.toNat = v :=
  ⟨Char.ofNatAux v h, rfl⟩

theorem toNat_lead (lead : UInt8) :
    (sequenceLength lead = 1 → lead.toNat ≤ 0x7F) ∧
      (sequenceLength lead = 2 → 0xC2 ≤ lead.toNat ∧ lead.toNat ≤ 0xDF) ∧
      (sequenceLength lead = 3 → 0xE0 ≤ lead.toNat ∧ lead.toNat ≤ 0xEF) ∧
      (sequenceLength lead = 4 → 0xF0 ≤ lead.toNat ∧ lead.toNat ≤ 0xF4) ∧
      sequenceLength lead ≤ 4 := by
  simp only [sequenceLength, Bool.and_eq_true, decide_eq_true_eq, ge_iff_le,
    UInt8.le_iff_toNat_le, UInt8.toNat_ofNat]
  split_ifs <;> simp <;> omega

variable {b : UInt8}

theorem toNat_continuation (h : isContinuation b = true) : 0x80 ≤ b.toNat ∧ b.toNat ≤ 0xBF := by
  simpa [isContinuation, UInt8.le_iff_toNat_le] using h

theorem toNat_second (h : isValidSecondByte lead b = true) :
    0x80 ≤ b.toNat ∧ b.toNat ≤ 0xBF ∧ (lead.toNat = 0xE0 → 0xA0 ≤ b.toNat) ∧
      (lead.toNat = 0xED → b.toNat ≤ 0x9F) ∧ (lead.toNat = 0xF0 → 0x90 ≤ b.toNat) ∧
      (lead.toNat = 0xF4 → b.toNat ≤ 0x8F) := by
  have hcont : isContinuation b = true := by
    by_contra hno
    simp [isValidSecondByte, hno] at h
  obtain ⟨hlow, hhigh⟩ := toNat_continuation hcont
  simp only [isValidSecondByte, hcont, Bool.not_true, Bool.false_eq_true, if_false,
    ← UInt8.toNat_inj, UInt8.toNat_ofNat] at h
  refine ⟨hlow, hhigh, ?_, ?_, ?_, ?_⟩
  all_goals
    intro hlead
    simpa [hlead, UInt8.le_iff_toNat_le] using h

/-- A sequence that the table of lead and second bytes accepts encodes a code point. -/
theorem exists_utf8EncodeChar (hlen : sequenceLength lead = tail.length + 1)
    (hvalid : validAvailable lead tail = true) : ∃ c, String.utf8EncodeChar c = lead :: tail := by
  obtain ⟨h1, h2, h3, h4, h5⟩ := toNat_lead lead
  match tail, hlen, hvalid with
  | [], hlen, _ =>
    have hlead := h1 hlen
    obtain ⟨c, hc⟩ := exists_char (v := lead.toNat) (by omega)
    refine ⟨c, ?_⟩
    simp [String.utf8EncodeChar, hc, hlead]
  | [b], hlen, hvalid =>
    obtain ⟨hlow, hhigh⟩ := h2 hlen
    have hsecond : isValidSecondByte lead b = true := by simpa [validAvailable] using hvalid
    obtain ⟨hb, hb', -⟩ := toNat_second hsecond
    obtain ⟨c, hc⟩ := exists_char (v := (lead.toNat - 0xC0) * 64 + (b.toNat - 0x80)) (by omega)
    refine ⟨c, ?_⟩
    simp only [String.utf8EncodeChar, hc]
    rw [if_neg (by omega), if_pos (by omega)]
    simp only [cons.injEq, and_true, ← UInt8.toNat_inj, UInt8.toNat_ofNat']
    omega
  | [b, c], hlen, hvalid =>
    obtain ⟨hlow, hhigh⟩ := h3 hlen
    simp only [validAvailable, all_cons, all_nil, Bool.and_true, Bool.and_eq_true] at hvalid
    obtain ⟨hb, hb', hE0, hED, -⟩ := toNat_second hvalid.1
    obtain ⟨hc, hc'⟩ := toNat_continuation hvalid.2
    obtain ⟨ch, hch⟩ := exists_char
      (v := (lead.toNat - 0xE0) * 4096 + (b.toNat - 0x80) * 64 + (c.toNat - 0x80)) (by omega)
    refine ⟨ch, ?_⟩
    simp only [String.utf8EncodeChar, hch]
    rw [if_neg (by omega), if_neg (by omega), if_pos (by omega)]
    simp only [cons.injEq, and_true, ← UInt8.toNat_inj, UInt8.toNat_ofNat']
    omega
  | [b, c, d], hlen, hvalid =>
    obtain ⟨hlow, hhigh⟩ := h4 hlen
    simp only [validAvailable, all_cons, all_nil, Bool.and_true, Bool.and_eq_true] at hvalid
    obtain ⟨hb, hb', -, -, hF0, hF4⟩ := toNat_second hvalid.1
    obtain ⟨hc, hc'⟩ := toNat_continuation hvalid.2.1
    obtain ⟨hd, hd'⟩ := toNat_continuation hvalid.2.2
    obtain ⟨ch, hch⟩ := exists_char (v := (lead.toNat - 0xF0) * 262144 + (b.toNat - 0x80) * 4096 +
      (c.toNat - 0x80) * 64 + (d.toNat - 0x80)) (by omega)
    refine ⟨ch, ?_⟩
    simp only [String.utf8EncodeChar, hch]
    rw [if_neg (by omega), if_neg (by omega), if_neg (by omega)]
    simp only [cons.injEq, and_true, ← UInt8.toNat_inj, UInt8.toNat_ofNat']
    omega
  | _ :: _ :: _ :: _ :: _, hlen, _ =>
    simp only [length_cons] at hlen
    omega

theorem validUtf8_encoded {c : Char} {text : Bytes} (hc : String.utf8EncodeChar c = text)
    (h : ValidUtf8 rest) : ValidUtf8 (text ++ rest) := by
  obtain ⟨chars, rfl⟩ := h
  exact ⟨c :: chars, by rw [flatMap_cons, hc]⟩

theorem kReplacementCharacter_eq :
    String.utf8EncodeChar (Char.ofNat 0xFFFD) = kReplacementCharacter := by
  decide

theorem validUtf8_consumed (unread : Bytes) : ValidUtf8 (consumed finish unread).1.text := by
  induction hn : unread.length using Nat.strongRecOn generalizing unread with
  | ind n ih =>
  subst hn
  cases unread with
  | nil => exact ⟨[], rfl⟩
  | cons lead rest =>
    cases round lead rest with
    | copy tail more hrest hlen hvalid =>
      subst hrest
      obtain ⟨c, hc⟩ := exists_utf8EncodeChar hlen hvalid
      rw [consumed_copy finish hlen hvalid]
      exact validUtf8_encoded hc (ih more.length (by simp only [length_cons, length_append]; omega) more rfl)
    | replace hbad =>
      rw [consumed_replace finish hbad]
      exact validUtf8_encoded kReplacementCharacter_eq (ih rest.length (by simp) rest rfl)
    | wait hlen hvalid =>
      rw [consumed_wait hlen hvalid]
      cases finish with
      | false => exact ⟨[], rfl⟩
      | true => exact validUtf8_encoded kReplacementCharacter_eq ⟨[], rfl⟩

theorem consumed_validUtf8 {text : Bytes} (h : ValidUtf8 text) :
    consumed finish text = ({ text }, []) := by
  obtain ⟨chars, rfl⟩ := h
  exact consumeLoop_validUtf8 finish chars _ (Nat.le_refl _)

/-- However a stream is cut into chunks, the assembler makes the same of it as of the stream
in one chunk: well-formed UTF-8, and the stream itself without replacements if that is
well-formed. -/
theorem assemble_chunks (chunks : List Bytes) :
    assemble chunks = assemble [chunks.flatten] ∧ ValidUtf8 (assemble chunks).text ∧
      (ValidUtf8 chunks.flatten →
        assemble chunks = { text := chunks.flatten, replacements := 0 }) := by
  refine ⟨?_, ?_, ?_⟩
  · simp [assemble_eq]
  · rw [assemble_eq]
    exact validUtf8_consumed true _
  · intro h
    rw [assemble_eq, consumed_validUtf8 true h]

/-- A character whose bytes arrive one by one. -/
theorem assemble_single_bytes :
    assemble [[0xE2], [0x82], [0xAC]] = { text := [0xE2, 0x82, 0xAC], replacements := 0 } :=
  (assemble_chunks [[0xE2], [0x82], [0xAC]]).2.2 ⟨[Char.ofNat 0x20AC], by decide⟩

end InferFlux.Text
