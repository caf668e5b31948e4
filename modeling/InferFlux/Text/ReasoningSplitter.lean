import InferFlux.Library.Exhaust
import InferFlux.Library.Holdback
import InferFlux.Text.IncrementalUtf8

/-!
# The split of reasoning and content

Embeds `ReasoningSplitter` from `runtime/text/reasoning_splitter.cpp`: the text of models that
think in `<think>` blocks, fed in pieces. Inside of a block the closing tag is searched for;
outside of one a tag is recognised only at the front of the bytes that are still pending.

The accumulated sizes that `Finish` records for the metrics are left out.
-/

namespace InferFlux.Text

open Occurrence Exhaust Holdback List Option

def kOpenTag : Bytes := bytes "<think>"
def kCloseTag : Bytes := bytes "</think>"
def kMaxTagLen : Nat := kCloseTag.length

def startsWithTag (text tag : Bytes) : Bool :=
  tag.length ≤ text.length && text.take tag.length = tag

/-- The text could become the tag if more bytes arrived. -/
def maybePartialTag (text tag : Bytes) : Bool :=
  text.length < tag.length && tag.take text.length = text

structure Parts where
  reasoning : Bytes := []
  content : Bytes := []
  deriving DecidableEq, Repr

namespace ReasoningSplitter

inductive State where
  | normal
  | inThink
  deriving DecidableEq, Repr

end ReasoningSplitter

structure ReasoningSplitter where
  state : ReasoningSplitter.State := .normal
  /-- Bytes that may be the beginning of a tag. -/
  pending : Bytes := []
  reasoning : Bytes := []
  content : Bytes := []
  drainedReasoningBytes : Nat := 0
  drainedContentBytes : Nat := 0
  deriving DecidableEq, Repr

namespace ReasoningSplitter

/-- How many of the last bytes may begin a closing tag. -/
def keepLen (pending : Bytes) : Nat :=
  Nat.findGreatest
    (fun k => k ≤ pending.length ∧ pending.drop (pending.length - k) = kCloseTag.take k)
    (kCloseTag.length - 1)

/-- How many of the last bytes may begin a tag. -/
def holdLen (pending : Bytes) : Nat :=
  Nat.findGreatest
    (fun k => k ≤ pending.length ∧
      (maybePartialTag (pending.drop (pending.length - k)) kOpenTag ∨
        maybePartialTag (pending.drop (pending.length - k)) kCloseTag))
    kMaxTagLen

def emitReasoning (s : ReasoningSplitter) (emit : Nat) : ReasoningSplitter :=
  { s with reasoning := s.reasoning ++ s.pending.take emit, pending := s.pending.drop emit }

def emitContent (s : ReasoningSplitter) (emit : Nat) : ReasoningSplitter :=
  { s with content := s.content ++ s.pending.take emit, pending := s.pending.drop emit }

/-- One round of the loop of `Feed`, if it makes progress. -/
def step (s : ReasoningSplitter) : Option ReasoningSplitter :=
  if s.pending.isEmpty then none
  else
    match s.state with
    | .inThink =>
      match first [kCloseTag] s.pending with
      | some close =>
        some { s with
          reasoning := s.reasoning ++ s.pending.take close
          pending := s.pending.drop (close + kCloseTag.length)
          state := .normal }
      | none =>
        let emit := s.pending.length - keepLen s.pending
        if emit = 0 then none else some (s.emitReasoning emit)
    | .normal =>
      if startsWithTag s.pending kOpenTag then
        some { s with pending := s.pending.drop kOpenTag.length, state := .inThink }
      else if startsWithTag s.pending kCloseTag then
        some { s with pending := s.pending.drop kCloseTag.length }
      else
        let emit := s.pending.length - holdLen s.pending
        if emit = 0 then none else some (s.emitContent emit)

/-- `pending_ += piece`. -/
def push (s : ReasoningSplitter) (piece : Bytes) : ReasoningSplitter :=
  { s with pending := s.pending ++ piece }

/-- The loop of `Feed`; every round that makes progress takes bytes from the pending ones. -/
def settle (s : ReasoningSplitter) : ReasoningSplitter :=
  exhaust step (fun s => s.pending.length) s

def feed (s : ReasoningSplitter) (piece : Bytes) : ReasoningSplitter :=
  (s.push piece).settle

def finish (s : ReasoningSplitter) : Parts :=
  match s.state with
  | .inThink => { reasoning := s.reasoning ++ s.pending, content := s.content }
  | .normal => { reasoning := s.reasoning, content := s.content ++ s.pending }

def drain (s : ReasoningSplitter) : Parts × ReasoningSplitter :=
  ({ reasoning := s.reasoning.drop s.drainedReasoningBytes
     content := s.content.drop s.drainedContentBytes },
    { s with
      drainedReasoningBytes := s.reasoning.length
      drainedContentBytes := s.content.length })

def split (output : Bytes) : Parts :=
  (feed {} output).finish

def feedAll (s : ReasoningSplitter) (pieces : List Bytes) : ReasoningSplitter :=
  pieces.foldl feed s

/-! ## Tags and what is held back -/

def tags : List Bytes := [kOpenTag, kCloseTag]

def StartsTag (text : Bytes) : Prop := ∃ tag ∈ tags, tag <+: text

instance (text : Bytes) : Decidable (StartsTag text) :=
  inferInstanceAs (Decidable (∃ tag ∈ tags, tag <+: text))

variable {text : Bytes}

theorem startsWithTag_iff {tag : Bytes} : startsWithTag text tag ↔ tag <+: text := by
  rw [startsWithTag, Bool.and_eq_true, decide_eq_true_eq, decide_eq_true_eq, prefix_iff_eq_take]
  constructor
  · rintro ⟨_, h⟩
    exact h.symm
  · intro h
    refine ⟨?_, h.symm⟩
    have := congrArg length h
    rw [length_take] at this
    omega

theorem maybePartialTag_iff {tag : Bytes} :
    maybePartialTag text tag ↔ text <+: tag ∧ text.length < tag.length := by
  rw [maybePartialTag, Bool.and_eq_true, decide_eq_true_eq, decide_eq_true_eq,
    prefix_iff_eq_take, and_comm, eq_comm]

theorem nonNesting_tags : NonNesting tags := by decide

theorem not_startsTag_of_unfinished (h : Unfinished tags text) : ¬ StartsTag text := by
  rintro ⟨tag, htag, hpre⟩
  obtain ⟨m, hm, htext, hlt⟩ := h
  have heq := nonNesting_tags.eq_of_prefix htag hm (hpre.trans htext) prefix_rfl
  have hlen := hpre.length_le
  rw [heq] at hlen
  omega

theorem unfinished_of_startsTag_append {more : Bytes} (hnot : ¬ StartsTag text)
    (h : StartsTag (text ++ more)) : Unfinished tags text := by
  obtain ⟨tag, htag, hpre⟩ := h
  exact unfinished_of_prefix_append htag (fun hocc => hnot ⟨tag, htag, hocc⟩) hpre

theorem not_startsTag_held (text : Bytes) : ¬ StartsTag (held tags text) := by
  obtain hnil | hun := held_eq_nil_or_unfinished tags text
  · rw [hnil]
    decide
  · exact not_startsTag_of_unfinished hun

theorem keepLen_eq (pending : Bytes) : keepLen pending = holdback [kCloseTag] pending := by
  apply findGreatest_eq_holdback
  intro k
  change k ≤ kCloseTag.length - 1 ∧ k ≤ pending.length ∧ ending pending k = kCloseTag.take k ↔ _
  simp only [Unfinished, mem_singleton, exists_eq_left]
  constructor
  · rintro ⟨hle, hk, heq⟩
    have hlen : kCloseTag.length = 8 := by decide
    refine ⟨hk, ?_, by rw [length_ending hk]; omega⟩
    rw [heq]
    exact take_prefix ..
  · rintro ⟨hk, hpre, hlt⟩
    rw [length_ending hk] at hlt
    refine ⟨by omega, hk, ?_⟩
    have := prefix_iff_eq_take.mp hpre
    rwa [length_ending hk] at this

theorem holdLen_eq (pending : Bytes) : holdLen pending = holdback tags pending := by
  apply findGreatest_eq_holdback
  intro k
  simp only [maybePartialTag_iff, Unfinished, tags, mem_cons, not_mem_nil, or_false,
    exists_eq_or_imp, exists_eq_left]
  constructor
  · rintro ⟨_, hk, hun⟩
    exact ⟨hk, hun⟩
  · rintro ⟨hk, hun⟩
    refine ⟨?_, hk, hun⟩
    have hopen : kOpenTag.length = 7 := by decide
    have hclose : kCloseTag.length = 8 := by decide
    rw [length_ending hk] at hun
    rw [kMaxTagLen]
    omega

/-! ## The rounds of the loop -/

def State.markers : State → List Bytes
  | .normal => tags
  | .inThink => [kCloseTag]

/-- Pass the safe part of the pending bytes on. -/
def emitSafe (s : ReasoningSplitter) : ReasoningSplitter :=
  match s.state with
  | .inThink => s.emitReasoning (safe [kCloseTag] s.pending).length
  | .normal => s.emitContent (safe tags s.pending).length

/-- The tag that the splitter recognises in a text that is all it has: the state after it and
the text behind it. -/
def recognise : State × Bytes → Option (State × Bytes)
  | (.normal, text) =>
    if kOpenTag <+: text then some (.inThink, text.drop kOpenTag.length)
    else if kCloseTag <+: text then some (.normal, text.drop kCloseTag.length)
    else none
  | (.inThink, text) =>
    (first [kCloseTag] text).map fun close => (.normal, text.drop (close + kCloseTag.length))

/-- The bytes that are not lost. -/
def total (s : ReasoningSplitter) : Nat :=
  s.reasoning.length + s.content.length + s.pending.length

@[simp]
theorem push_nil (s : ReasoningSplitter) : s.push [] = s := by
  simp [push]

theorem push_push (s : ReasoningSplitter) (x y : Bytes) : (s.push x).push y = s.push (x ++ y) := by
  simp [push]

theorem recognise_normal_eq_none_iff : recognise (.normal, text) = none ↔ ¬ StartsTag text := by
  simp only [recognise, StartsTag, tags]
  split_ifs with hopen hclose <;> simp [*]

theorem close_le_length {close : Nat} (h : first [kCloseTag] text = some close) :
    close + kCloseTag.length ≤ text.length :=
  ((first_isPrefix_iff (by decide) prefix_rfl).mp h).2

variable {s : ReasoningSplitter}

theorem step_of_close {close : Nat} (hstate : s.state = .inThink)
    (h : first [kCloseTag] s.pending = some close) :
    step s = some { s with
      reasoning := s.reasoning ++ s.pending.take close
      pending := s.pending.drop (close + kCloseTag.length)
      state := .normal } := by
  have hne : s.pending ≠ [] := by
    rintro heq
    rw [heq] at h
    cases h
  simp [step, hne, hstate, h]

theorem step_push_of_recognise {p : State × Bytes} (h : recognise (s.state, s.pending) = some p) :
    ∃ t : ReasoningSplitter, (t.state, t.pending) = p ∧ t.content = s.content ∧ t.total < s.total ∧
      ∀ y, step (s.push y) = some (t.push y) := by
  have hopenLen : kOpenTag.length = 7 := by decide
  have hcloseLen : kCloseTag.length = 8 := by decide
  obtain ⟨state, pending, r, c, dr, dc⟩ := s
  cases state with
  | normal =>
    simp only [recognise] at h
    split_ifs at h with hopen hclose
    · obtain rfl := some.inj h
      have hle := hopen.length_le
      refine ⟨⟨.inThink, pending.drop kOpenTag.length, r, c, dr, dc⟩, rfl, rfl, ?_, ?_⟩
      · simp only [total, List.length_drop]
        omega
      · intro y
        have hy : kOpenTag <+: pending ++ y := hopen.trans (List.prefix_append ..)
        have hne : pending ++ y ≠ [] := hy.ne_nil (by decide)
        simp only [step, push, List.isEmpty_iff, hne, if_false, startsWithTag_iff.mpr hy, if_true]
        rw [drop_append_of_le_length hle]
    · obtain rfl := some.inj h
      have hle := hclose.length_le
      refine ⟨⟨.normal, pending.drop kCloseTag.length, r, c, dr, dc⟩, rfl, rfl, ?_, ?_⟩
      · simp only [total, length_drop]
        omega
      · intro y
        have hy : kCloseTag <+: pending ++ y := hclose.trans (prefix_append ..)
        have hnot : ¬ startsWithTag (pending ++ y) kOpenTag := by
          intro hopen
          have heq := nonNesting_tags.eq_of_prefix (by decide) (by decide)
            (startsWithTag_iff.mp hopen) hy
          cases heq
        have hne : pending ++ y ≠ [] := hy.ne_nil (by decide)
        simp only [step, push, List.isEmpty_iff, hne, if_false, hnot, startsWithTag_iff.mpr hy,
          if_true]
        rw [List.drop_append_of_le_length hle]
        rfl
  | inThink =>
    simp only [recognise, map_eq_some_iff] at h
    obtain ⟨close, hfirst, rfl⟩ := h
    have hle := close_le_length hfirst
    refine ⟨⟨.normal, pending.drop (close + kCloseTag.length), r ++ pending.take close, c, dr, dc⟩,
      rfl, rfl, ?_, ?_⟩
    · simp only [total, List.length_append, List.length_take, List.length_drop]
      omega
    · intro y
      rw [step_of_close rfl (first_append_of_some (by decide) hfirst y)]
      simp only [push]
      rw [drop_append_of_le_length hle, take_append_of_le_length (by omega)]

theorem step_of_recognise_none (h : recognise (s.state, s.pending) = none) :
    step s = if safe s.state.markers s.pending = [] then none else some s.emitSafe := by
  obtain ⟨state, pending, r, c, dr, dc⟩ := s
  by_cases hempty : pending = []
  · subst hempty
    simp [step, safe]
  have hlen (ms : List Bytes) : (safe ms pending).length = pending.length - holdback ms pending := by
    simp [safe]
  have hiff (ms : List Bytes) : pending.length - holdback ms pending = 0 ↔ safe ms pending = [] := by
    rw [← hlen, length_eq_zero_iff]
  cases state with
  | normal =>
    rw [recognise_normal_eq_none_iff] at h
    have hopen : ¬ startsWithTag pending kOpenTag :=
      fun hpre => h ⟨kOpenTag, by decide, startsWithTag_iff.mp hpre⟩
    have hclose : ¬ startsWithTag pending kCloseTag :=
      fun hpre => h ⟨kCloseTag, by decide, startsWithTag_iff.mp hpre⟩
    simp only [step, List.isEmpty_iff, hempty, if_false, hopen, hclose, holdLen_eq, hiff,
      State.markers, emitSafe, hlen]
    rfl
  | inThink =>
    simp only [recognise, map_eq_none_iff] at h
    simp [step, hempty, h, keepLen_eq, hiff, State.markers, emitSafe, hlen]

/-! ## The loop -/

@[simp]
theorem emitSafe_state (s : ReasoningSplitter) : s.emitSafe.state = s.state := by
  simp only [emitSafe]
  split <;> simp [emitReasoning, emitContent, *]

@[simp]
theorem emitSafe_pending (s : ReasoningSplitter) :
    s.emitSafe.pending = held s.state.markers s.pending := by
  simp only [emitSafe]
  split <;> simp [emitReasoning, emitContent, State.markers, drop_length_safe, *]

theorem emitSafe_total (s : ReasoningSplitter) : s.emitSafe.total = s.total := by
  simp only [emitSafe]
  split <;>
  · simp only [total, emitReasoning, emitContent, length_append, length_take, length_drop]
    omega

theorem emitSafe_of_safe_eq_nil (h : safe s.state.markers s.pending = []) : s.emitSafe = s := by
  obtain ⟨state, pending, r, c, dr, dc⟩ := s
  cases state <;>
  · simp only [State.markers] at h
    simp [emitSafe, emitReasoning, emitContent, h]

theorem emitSafe_push_emitSafe (s : ReasoningSplitter) (y : Bytes) :
    (s.emitSafe.push y).emitSafe = (s.push y).emitSafe := by
  obtain ⟨state, pending, r, c, dr, dc⟩ := s
  cases state <;>
  · simp only [emitSafe, emitReasoning, emitContent, push, take_length_safe, drop_length_safe]
    rw [held_append _ pending y, safe_append _ pending y, append_assoc]

theorem recognise_held {state : State} (h : recognise (state, text) = none) :
    recognise (state, held state.markers text) = none := by
  cases state with
  | normal => exact recognise_normal_eq_none_iff.mpr (not_startsTag_held text)
  | inThink =>
    simp only [recognise, map_eq_none_iff, first_eq_none_iff, State.markers] at h ⊢
    intro j hj
    refine h ((safe [kCloseTag] text).length + j) ?_
    rwa [← anyAt_append_add (safe [kCloseTag] text), safe_append_held] at hj

theorem recognise_shrinks : Shrinks recognise (fun p => p.2.length) := by
  intro p q h
  obtain ⟨t, rfl, -, hlt, -⟩ := step_push_of_recognise (s := { state := p.1, pending := p.2 }) h
  simp only [total, length_nil] at hlt ⊢
  omega

variable {t : ReasoningSplitter}

theorem step_cases (h : step s = some t) :
    (recognise (s.state, s.pending) = some (t.state, t.pending) ∧ t.content = s.content ∧
        t.total < s.total) ∨
      (recognise (s.state, s.pending) = none ∧ safe s.state.markers s.pending ≠ [] ∧
        t = s.emitSafe) := by
  cases hrec : recognise (s.state, s.pending) with
  | some p =>
    obtain ⟨t', rfl, hcontent, hlt, hstep⟩ := step_push_of_recognise hrec
    have ht := hstep []
    rw [push_nil, push_nil, h, some.injEq] at ht
    subst ht
    exact .inl ⟨rfl, hcontent, hlt⟩
  | none =>
    rw [step_of_recognise_none hrec] at h
    split_ifs at h with hsafe
    exact .inr ⟨rfl, hsafe, (some.inj h).symm⟩

theorem step_shrinks : Shrinks step (fun s => s.pending.length) := by
  intro s t h
  obtain ⟨hrec, _⟩ | ⟨_, hsafe, rfl⟩ := step_cases h
  · exact recognise_shrinks _ _ hrec
  · have hlen := length_safe_add s.state.markers s.pending
    have hpos := length_pos_iff.mpr hsafe
    simp only [emitSafe_pending]
    omega

theorem step_total_le (h : step s = some t) : t.total ≤ s.total := by
  obtain ⟨_, _, hlt⟩ | ⟨_, _, rfl⟩ := step_cases h
  · exact hlt.le
  · exact s.emitSafe_total.le

theorem settle_of_step (h : step s = some t) : s.settle = t.settle :=
  exhaust_of_some step_shrinks h

theorem settle_of_recognise_none (h : recognise (s.state, s.pending) = none) :
    s.settle = s.emitSafe := by
  have hstep := step_of_recognise_none h
  split_ifs at hstep with hsafe
  · rw [emitSafe_of_safe_eq_nil hsafe]
    exact exhaust_of_none hstep
  · rw [settle_of_step hstep]
    apply exhaust_of_none
    rw [step_of_recognise_none (by simpa using recognise_held h), if_pos]
    rw [emitSafe_state, emitSafe_pending, safe_eq_nil_iff, held_held]

theorem settle_total_le (s : ReasoningSplitter) : s.settle.total ≤ s.total := by
  induction s using exhaust_induction step_shrinks with
  | done s h => exact (congrArg total (exhaust_of_none h)).le
  | more s t h ih =>
    rw [settle_of_step h]
    exact ih.trans (step_total_le h)

theorem finish_settle (h : recognise (s.state, s.pending) = none) : s.settle.finish = s.finish := by
  rw [settle_of_recognise_none h]
  obtain ⟨state, pending, r, c, dr, dc⟩ := s
  cases state <;> simp [emitSafe, emitReasoning, emitContent, finish]

theorem not_startsTag_content (hs : s.content = []) : ¬ StartsTag s.settle.finish.content := by
  induction hn : s.pending.length using Nat.strongRecOn generalizing s with
  | _ n ih =>
    cases h : recognise (s.state, s.pending) with
    | some p =>
      obtain ⟨t, rfl, hcontent, -, hstep⟩ := step_push_of_recognise h
      have ht := hstep []
      rw [push_nil, push_nil] at ht
      rw [settle_of_step ht]
      exact ih _ (hn ▸ recognise_shrinks _ _ h) (hcontent.trans hs) rfl
    | none =>
      rw [finish_settle h, finish]
      cases hstate : s.state with
      | inThink =>
        have hnil : ¬ StartsTag [] := by decide
        simpa [hs] using hnil
      | normal =>
        rw [hstate, recognise_normal_eq_none_iff] at h
        simpa [hs] using h

/-- The content of a split is left alone by a second one. -/
theorem split_content (text : Bytes) : split (split text).content = ⟨[], (split text).content⟩ := by
  have hnot : ¬ StartsTag (split text).content := not_startsTag_content rfl
  rw [split, feed, finish_settle (recognise_normal_eq_none_iff.mpr hnot)]
  rfl

end ReasoningSplitter

end InferFlux.Text
