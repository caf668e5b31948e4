import InferFlux.Text.ReasoningSplitter

/-!
# The split of harmony channels

Embeds `HarmonySplitter` from `runtime/text/harmony_splitter.cpp` and what the streaming
handler of `server/http/http_server.cpp` sends of its output: the text of models that write in
named channels, fed in pieces, and drained after some of them.
-/

namespace InferFlux.Text

open Occurrence Exhaust Holdback List Option

def kAnalysisOpen : Bytes := bytes "<|channel|>analysis<|message|>"
def kFinalOpen : Bytes := bytes "<|channel|>final<|message|>"
def kCommentaryOpen : Bytes := bytes "<|channel|>commentary"
def kMessage : Bytes := bytes "<|message|>"
def kEnd : Bytes := bytes "<|end|>"
def kReturn : Bytes := bytes "<|return|>"
def kStartAssistant : Bytes := bytes "<|start|>assistant"

structure MarkerHit where
  pos : Nat
  marker : Bytes
  deriving DecidableEq, Repr

/-- One candidate of `findEarliestMarker`. -/
def MarkerHit.improve (text : Bytes) (best : Option MarkerHit) (cand : Bytes) : Option MarkerHit :=
  match first [cand] text with
  | some pos => if best.all (fun hit => pos < hit.pos) then some ⟨pos, cand⟩ else best
  | none => best

def findEarliestMarker (text : Bytes) (candidates : List Bytes) : Option MarkerHit :=
  candidates.foldl (MarkerHit.improve text) none

/-- The longest suffix that could become one of the candidates. -/
def holdbackSuffixLen (text : Bytes) (candidates : List Bytes) : Nat :=
  let maxLen := candidates.foldl (fun n cand => max n (cand.length - 1)) 0
  Nat.findGreatest
    (fun k => ∃ cand ∈ candidates, k < cand.length ∧ cand.take k = text.drop (text.length - k))
    (min maxLen text.length)

namespace HarmonySplitter

inductive State where
  /-- Outside of any channel. -/
  | normal
  | analysis
  | final
  /-- A commentary channel was opened; its message has not begun. -/
  | commentaryScan
  | commentary
  deriving DecidableEq, Repr

inductive Sink where
  | reasoning
  | content
  | discarded
  deriving DecidableEq, Repr

def State.candidates : State → List Bytes
  | .normal => [kAnalysisOpen, kFinalOpen, kCommentaryOpen, kStartAssistant]
  | .analysis | .final => [kEnd, kReturn]
  | .commentaryScan => [kMessage, kAnalysisOpen, kFinalOpen]
  | .commentary => [kEnd, kReturn]

def State.sink : State → Sink
  | .normal => .content
  | .analysis => .reasoning
  | .final => .content
  | .commentaryScan => .discarded
  | .commentary => .discarded

def State.after (state : State) (marker : Bytes) : State :=
  match state with
  | .normal =>
    if marker = kAnalysisOpen then .analysis
    else if marker = kFinalOpen then .final
    else if marker = kCommentaryOpen then .commentaryScan
    else .normal
  | .analysis | .final => .normal
  | .commentaryScan =>
    if marker = kMessage then .commentary
    else if marker = kAnalysisOpen then .analysis
    else .final
  | .commentary => .normal

end HarmonySplitter

structure HarmonySplitter where
  state : HarmonySplitter.State := .normal
  /-- Bytes that may be the beginning of a marker. -/
  pending : Bytes := []
  reasoning : Bytes := []
  content : Bytes := []
  drainedReasoningBytes : Nat := 0
  drainedContentBytes : Nat := 0
  deriving DecidableEq, Repr

namespace HarmonySplitter

def write (s : HarmonySplitter) (text : Bytes) : HarmonySplitter :=
  match s.state.sink with
  | .reasoning => { s with reasoning := s.reasoning ++ text }
  | .content => { s with content := s.content ++ text }
  | .discarded => s

def setPending (s : HarmonySplitter) (pending : Bytes) : HarmonySplitter :=
  { s with pending }

def setState (s : HarmonySplitter) (state : State) : HarmonySplitter :=
  { s with state }

def emit (s : HarmonySplitter) (n : Nat) : HarmonySplitter :=
  (s.write (s.pending.take n)).setPending (s.pending.drop n)

/-- Pass on what cannot become part of a marker, if there is any. -/
def emitSafePrefix (s : HarmonySplitter) : Option HarmonySplitter :=
  let n := s.pending.length - holdbackSuffixLen s.pending s.state.candidates
  if n = 0 then none else some (s.emit n)

def takeMarker (s : HarmonySplitter) (hit : MarkerHit) : HarmonySplitter :=
  ((s.write (s.pending.take hit.pos)).setPending
    (s.pending.drop (hit.pos + hit.marker.length))).setState (s.state.after hit.marker)

/-- One round of the loop of `Feed`, if it makes progress. -/
def step (s : HarmonySplitter) : Option HarmonySplitter :=
  if s.pending.isEmpty then none
  else
    match findEarliestMarker s.pending s.state.candidates with
    | none => s.emitSafePrefix
    | some hit => some (s.takeMarker hit)

/-- `pending_ += piece`. -/
def push (s : HarmonySplitter) (piece : Bytes) : HarmonySplitter :=
  s.setPending (s.pending ++ piece)

/-- The loop of `Feed`; every round that makes progress takes bytes from the pending ones. -/
def settle (s : HarmonySplitter) : HarmonySplitter :=
  exhaust step (fun s => s.pending.length) s

def feed (s : HarmonySplitter) (piece : Bytes) : HarmonySplitter :=
  (s.push piece).settle

def finish (s : HarmonySplitter) : Parts :=
  let s := s.write s.pending
  { reasoning := s.reasoning, content := s.content }

def drain (s : HarmonySplitter) : Parts × HarmonySplitter :=
  ({ reasoning := s.reasoning.drop s.drainedReasoningBytes
     content := s.content.drop s.drainedContentBytes },
    { s with
      drainedReasoningBytes := s.reasoning.length
      drainedContentBytes := s.content.length })

def split (output : Bytes) : Parts :=
  (feed {} output).finish

structure Stream where
  splitter : HarmonySplitter := {}
  /-- The deltas of all calls of `Drain`. -/
  drained : Parts := {}
  deriving DecidableEq, Repr

/-- Feed a piece, and drain the splitter after it or not. -/
def Stream.next (stream : Stream) (piece : Bytes) (drains : Bool) : Stream :=
  let fed := stream.splitter.feed piece
  if drains then
    { splitter := fed.drain.2
      drained :=
        { reasoning := stream.drained.reasoning ++ fed.drain.1.reasoning
          content := stream.drained.content ++ fed.drain.1.content } }
  else { stream with splitter := fed }

def Stream.run (pieces : List (Bytes × Bool)) : Stream :=
  pieces.foldl (fun stream piece => stream.next piece.1 piece.2) {}

/-- What the handler sends at the end: the output of `Finish` without the bytes it has sent. -/
def Stream.residual (stream : Stream) : Parts :=
  { reasoning := stream.splitter.finish.reasoning.drop stream.drained.reasoning.length
    content := stream.splitter.finish.content.drop stream.drained.content.length }

/-! ## The search for markers -/

def Best (text : Bytes) (cands : List Bytes) : Option MarkerHit → Prop
  | none => ∀ c ∈ cands, first [c] text = none
  | some hit => hit.marker ∈ cands ∧ first [hit.marker] text = some hit.pos ∧
      ∀ c ∈ cands, ∀ p, first [c] text = some p → hit.pos ≤ p

variable {cands : List Bytes} {text : Bytes}

theorem Best.improve {best : Option MarkerHit} (h : Best text cands best) (cand : Bytes) :
    Best text (cands ++ [cand]) (MarkerHit.improve text best cand) := by
  cases hfirst : first [cand] text with
  | none =>
    simp only [MarkerHit.improve, hfirst]
    cases best with
    | none | some hit => grind [Best]
  | some pos =>
    cases best with
    | none | some hit => grind [Best, MarkerHit.improve]

theorem best_findEarliestMarker (text : Bytes) (cands : List Bytes) :
    Best text cands (findEarliestMarker text cands) := by
  induction cands using reverseRecOn with
  | nil => simp [findEarliestMarker, Best]
  | append_singleton cands cand ih =>
    rw [findEarliestMarker, foldl_append, ← findEarliestMarker]
    exact ih.improve cand

variable {i : Nat}

theorem anyAt_singleton_iff {m : Bytes} : AnyAt [m] text i ↔ m ≠ [] ∧ m <+: text.drop i := by
  simp [AnyAt]

theorem first_of_anyAt (h : AnyAt cands text i) :
    ∃ c ∈ cands, ∃ p ≤ i, first [c] text = some p := by
  obtain ⟨c, hc, hne, hpre⟩ := h
  have hat : AnyAt [c] text i := anyAt_singleton_iff.mpr ⟨hne, hpre⟩
  cases hfirst : first [c] text with
  | none => exact absurd hat (first_eq_none_iff.mp hfirst i)
  | some p =>
    refine ⟨c, hc, p, ?_, hfirst⟩
    by_contra hlt
    exact (first_eq_some_iff.mp hfirst).2 i (by omega) hat

variable {hit : MarkerHit}

theorem first_of_findEarliestMarker (h : findEarliestMarker text cands = some hit) :
    first cands text = some hit.pos ∧ hit.marker ∈ cands ∧ hit.marker ≠ [] ∧
      hit.marker <+: text.drop hit.pos := by
  have hbest := best_findEarliestMarker text cands
  rw [h] at hbest
  obtain ⟨hmem, hfirst, hmin⟩ := hbest
  obtain ⟨hne, hpre⟩ := anyAt_singleton_iff.mp (first_eq_some_iff.mp hfirst).1
  refine ⟨first_eq_some_iff.mpr ⟨⟨hit.marker, hmem, hne, hpre⟩, ?_⟩, hmem, hne, hpre⟩
  intro j hj hat
  obtain ⟨c, hc, p, hp, hfirst'⟩ := first_of_anyAt hat
  have := hmin c hc p hfirst'
  omega

theorem findEarliestMarker_eq_none_iff :
    findEarliestMarker text cands = none ↔ first cands text = none := by
  cases hfind : findEarliestMarker text cands with
  | none =>
    have hbest := best_findEarliestMarker text cands
    rw [hfind] at hbest
    refine iff_of_true rfl (first_eq_none_iff.mpr fun i hi => ?_)
    obtain ⟨c, hc, p, _, hfirst⟩ := first_of_anyAt hi
    rw [hbest c hc] at hfirst
    cases hfirst
  | some hit => simp [(first_of_findEarliestMarker hfind).1]

theorem findEarliestMarker_eq_some (hms : NonNesting cands)
    (hfirst : first cands text = some hit.pos) (hmem : hit.marker ∈ cands)
    (hpre : hit.marker <+: text.drop hit.pos) : findEarliestMarker text cands = some hit := by
  cases hfind : findEarliestMarker text cands with
  | none =>
    rw [findEarliestMarker_eq_none_iff.mp hfind] at hfirst
    cases hfirst
  | some found =>
    obtain ⟨hfirst', hmem', _, hpre'⟩ := first_of_findEarliestMarker hfind
    have hpos : found.pos = hit.pos := some.inj (hfirst'.symm.trans hfirst)
    rw [hpos] at hpre'
    have hmarker := hms.eq_of_prefix hmem' hmem hpre' hpre
    cases found
    cases hit
    simp_all

theorem nonNesting_candidates (state : State) : NonNesting state.candidates := by
  cases state <;> decide

theorem hit_le_length (h : findEarliestMarker text cands = some hit) :
    hit.pos + hit.marker.length ≤ text.length ∧ 0 < hit.marker.length := by
  obtain ⟨_, _, hne, hpre⟩ := first_of_findEarliestMarker h
  have hlen := hpre.length_le
  have hpos := length_pos_iff.mpr hne
  rw [length_drop] at hlen
  omega

theorem findEarliestMarker_append (hms : NonNesting cands)
    (h : findEarliestMarker text cands = some hit) (y : Bytes) :
    findEarliestMarker (text ++ y) cands = some hit := by
  obtain ⟨hfirst, hmem, _, hpre⟩ := first_of_findEarliestMarker h
  have hle := hit_le_length h
  apply findEarliestMarker_eq_some hms (first_append_of_some hms hfirst y) hmem
  rw [drop_append_of_le_length (by omega)]
  exact hpre.trans (prefix_append ..)

/-- Without a marker in the text, the search may go on from the bytes that are held back. -/
theorem findEarliestMarker_held (hms : NonNesting cands) (h : findEarliestMarker text cands = none)
    (y : Bytes) :
    findEarliestMarker (text ++ y) cands =
      (findEarliestMarker (held cands text ++ y) cands).map fun hit =>
        { hit with pos := (safe cands text).length + hit.pos } := by
  have hfirst := first_append (first_eq_none_iff.mp (findEarliestMarker_eq_none_iff.mp h)) y
  cases hheld : findEarliestMarker (held cands text ++ y) cands with
  | none =>
    rw [findEarliestMarker_eq_none_iff.mp hheld] at hfirst
    exact findEarliestMarker_eq_none_iff.mpr hfirst
  | some hit =>
    obtain ⟨hpos, hmem, _, hpre⟩ := first_of_findEarliestMarker hheld
    rw [hpos] at hfirst
    refine findEarliestMarker_eq_some hms hfirst hmem ?_
    rw [← safe_append_held cands text, append_assoc, safe_append_held, drop_length_add_append]
    exact hpre

theorem length_sub_one_le_foldl (cands : List Bytes) (n : Nat) :
    n ≤ cands.foldl (fun n cand => max n (cand.length - 1)) n ∧
      ∀ c ∈ cands, c.length - 1 ≤ cands.foldl (fun n cand => max n (cand.length - 1)) n := by
  induction cands generalizing n with
  | nil => simp
  | cons cand cands ih =>
    obtain ⟨hle, hmem⟩ := ih (max n (cand.length - 1))
    simp only [foldl_cons, mem_cons]
    refine ⟨by omega, ?_⟩
    rintro c (rfl | hc)
    · omega
    · exact hmem c hc

theorem holdbackSuffixLen_eq (text : Bytes) (cands : List Bytes) :
    holdbackSuffixLen text cands = holdback cands text := by
  apply findGreatest_eq_holdback
  intro k
  change _ ∧ (∃ cand ∈ cands, k < cand.length ∧ cand.take k = ending text k) ↔ _
  constructor
  · rintro ⟨hle, cand, hmem, hlt, heq⟩
    have hk : k ≤ text.length := by omega
    refine ⟨hk, cand, hmem, ?_, by rwa [length_ending hk]⟩
    rw [← heq]
    exact take_prefix ..
  · rintro ⟨hk, cand, hmem, hpre, hlt⟩
    rw [length_ending hk] at hlt
    have hmax := (length_sub_one_le_foldl cands 0).2 cand hmem
    refine ⟨by omega, cand, hmem, hlt, ?_⟩
    have := prefix_iff_eq_take.mp hpre
    rw [length_ending hk] at this
    exact this.symm

/-! ## The loop -/

/-- Pass on what is safe. -/
def emitSafe (s : HarmonySplitter) : HarmonySplitter :=
  s.emit (safe s.state.candidates s.pending).length

def marker (s : HarmonySplitter) : Option MarkerHit :=
  findEarliestMarker s.pending s.state.candidates

@[simp]
theorem setPending_state (s : HarmonySplitter) (p : Bytes) : (s.setPending p).state = s.state := rfl

@[simp]
theorem setPending_pending (s : HarmonySplitter) (p : Bytes) : (s.setPending p).pending = p := rfl

@[simp]
theorem setPending_setPending (s : HarmonySplitter) (p q : Bytes) :
    (s.setPending p).setPending q = s.setPending q := rfl

@[simp]
theorem setPending_self (s : HarmonySplitter) : s.setPending s.pending = s := rfl

@[simp]
theorem setState_pending (s : HarmonySplitter) (state : State) :
    (s.setState state).pending = s.pending := rfl

theorem setState_setPending (s : HarmonySplitter) (state : State) (p : Bytes) :
    (s.setState state).setPending p = (s.setPending p).setState state := rfl

@[simp]
theorem write_state (s : HarmonySplitter) (text : Bytes) : (s.write text).state = s.state := by
  simp only [write]
  split <;> rfl

@[simp]
theorem write_nil (s : HarmonySplitter) : s.write [] = s := by
  simp only [write]
  split <;> simp

theorem write_write (s : HarmonySplitter) (x y : Bytes) :
    (s.write x).write y = s.write (x ++ y) := by
  obtain ⟨state, pending, r, c, dr, dc⟩ := s
  cases state <;> simp [write, State.sink]

theorem write_setPending (s : HarmonySplitter) (text pending : Bytes) :
    (s.setPending pending).write text = (s.write text).setPending pending := by
  simp only [write, setPending_state]
  split <;> rfl

@[simp]
theorem push_nil (s : HarmonySplitter) : s.push [] = s := by
  simp [push]

theorem push_push (s : HarmonySplitter) (x y : Bytes) : (s.push x).push y = s.push (x ++ y) := by
  simp [push]

theorem emitSafe_eq (s : HarmonySplitter) :
    s.emitSafe = (s.write (safe s.state.candidates s.pending)).setPending
      (held s.state.candidates s.pending) := by
  rw [emitSafe, emit, take_length_safe, drop_length_safe]

variable {s : HarmonySplitter}

theorem step_of_marker (h : s.marker = some hit) : step s = some (s.takeMarker hit) := by
  have hne : s.pending ≠ [] := by
    have := hit_le_length h
    rintro heq
    rw [heq, List.length_nil] at this
    omega
  rw [marker] at h
  simp [step, hne, h]

theorem step_of_no_marker (h : s.marker = none) :
    step s = if safe s.state.candidates s.pending = [] then none else some s.emitSafe := by
  have hlen : (safe s.state.candidates s.pending).length =
      s.pending.length - holdback s.state.candidates s.pending := by
    simp [safe]
  by_cases hne : s.pending = []
  · simp [step, hne, safe]
  · rw [marker] at h
    simp [step, hne, h, emitSafePrefix, holdbackSuffixLen_eq, ← hlen, emitSafe]

variable {t : HarmonySplitter}

theorem step_cases (h : step s = some t) :
    (∃ hit, s.marker = some hit ∧ t = s.takeMarker hit) ∨
      (s.marker = none ∧ safe s.state.candidates s.pending ≠ [] ∧ t = s.emitSafe) := by
  cases hmarker : s.marker with
  | some hit =>
    rw [step_of_marker hmarker] at h
    exact .inl ⟨hit, rfl, (some.inj h).symm⟩
  | none =>
    rw [step_of_no_marker hmarker] at h
    split_ifs at h with hsafe
    exact .inr ⟨rfl, hsafe, (some.inj h).symm⟩

theorem step_shrinks : Shrinks step (fun s => s.pending.length) := by
  intro s t h
  obtain ⟨hit, hmarker, rfl⟩ | ⟨-, hsafe, rfl⟩ := step_cases h
  · have hle := hit_le_length hmarker
    simp only [takeMarker, setState_pending, setPending_pending, length_drop]
    omega
  · have hlen := length_safe_add s.state.candidates s.pending
    have hpos := length_pos_iff.mpr hsafe
    simp only [emitSafe_eq, setPending_pending]
    omega

theorem settle_of_step (h : step s = some t) : s.settle = t.settle :=
  exhaust_of_some step_shrinks h

theorem marker_emitSafe_push (h : s.marker = none) (y : Bytes) :
    (s.push y).marker = (s.emitSafe.push y).marker.map fun hit =>
      { hit with pos := (safe s.state.candidates s.pending).length + hit.pos } := by
  have hheld := findEarliestMarker_held (nonNesting_candidates s.state) h y
  simpa [marker, push, emitSafe_eq] using hheld

theorem emitSafe_push_emitSafe (s : HarmonySplitter) (y : Bytes) :
    (s.emitSafe.push y).emitSafe = (s.push y).emitSafe := by
  simp only [emitSafe_eq, push, setPending_state, setPending_pending, setPending_setPending,
    write_state, write_setPending, write_write]
  rw [held_append _ s.pending y, safe_append _ s.pending y]

theorem takeMarker_emitSafe_push (s : HarmonySplitter) (hit : MarkerHit) (y : Bytes) :
    (s.emitSafe.push y).takeMarker hit = (s.push y).takeMarker
      { hit with pos := (safe s.state.candidates s.pending).length + hit.pos } := by
  have happ : s.pending ++ y =
      safe s.state.candidates s.pending ++ (held s.state.candidates s.pending ++ y) := by
    rw [← append_assoc, safe_append_held]
  simp only [emitSafe_eq, takeMarker, push, setPending_state, setPending_pending,
    setPending_setPending, write_state, write_setPending, write_write]
  rw [happ, take_length_add_append, Nat.add_assoc, drop_length_add_append]

/-- Without a marker the loop passes on what is safe. -/
theorem settle_of_no_marker (h : s.marker = none) : s.settle = s.emitSafe := by
  have hstep := step_of_no_marker h
  split_ifs at hstep with hsafe
  · have : s.emitSafe = s := by
      rw [emitSafe, hsafe]
      simp [emit]
    rw [this]
    exact exhaust_of_none hstep
  · have hnone : s.emitSafe.marker = none := by
      have := marker_emitSafe_push h []
      rw [push_nil, push_nil, h] at this
      exact map_eq_none_iff.mp this.symm
    rw [settle_of_step hstep]
    apply exhaust_of_none
    rw [step_of_no_marker hnone, if_pos]
    simp [emitSafe_eq, setPending_state, setPending_pending, write_state, safe_eq_nil_iff,
      held_held]

/-- A round of the loop may come before or after more bytes. -/
theorem settle_push_of_step (h : step s = some t) (y : Bytes) :
    (s.push y).settle = (t.push y).settle := by
  obtain ⟨hit, hmarker, rfl⟩ | ⟨hmarker, -, rfl⟩ := step_cases h
  · have hle := hit_le_length hmarker
    have hpush : (s.push y).marker = some hit :=
      findEarliestMarker_append (nonNesting_candidates s.state) hmarker y
    rw [settle_of_step (step_of_marker hpush)]
    simp only [takeMarker, push, setPending_state, setPending_pending, setState_pending,
      setPending_setPending, setState_setPending, write_setPending]
    rw [take_append_of_le_length (by omega), drop_append_of_le_length (by omega)]
  · have hpush := marker_emitSafe_push hmarker y
    cases hemit : (s.emitSafe.push y).marker with
    | none =>
      rw [hemit, map_none] at hpush
      rw [settle_of_no_marker hpush, settle_of_no_marker hemit, emitSafe_push_emitSafe]
    | some hit =>
      rw [hemit, map_some] at hpush
      rw [settle_of_step (step_of_marker hpush), settle_of_step (step_of_marker hemit),
        takeMarker_emitSafe_push]

theorem settle_push_settle (s : HarmonySplitter) (y : Bytes) :
    (s.settle.push y).settle = (s.push y).settle :=
  exhaust_comm step_shrinks (fun _ _ h => settle_push_of_step h y) s

theorem feed_feed (s : HarmonySplitter) (x y : Bytes) : (s.feed x).feed y = s.feed (x ++ y) := by
  rw [feed, feed, settle_push_settle, push_push, feed]

/-! ## Draining -/

def setDrained (s : HarmonySplitter) (reasoning content : Nat) : HarmonySplitter :=
  { s with drainedReasoningBytes := reasoning, drainedContentBytes := content }

theorem write_setDrained (s : HarmonySplitter) (r c : Nat) (text : Bytes) :
    (s.setDrained r c).write text = (s.write text).setDrained r c := by
  obtain ⟨state, pending, _, _, _, _⟩ := s
  cases state <;> rfl

theorem step_setDrained (s : HarmonySplitter) (r c : Nat) :
    step (s.setDrained r c) = (step s).map fun s => s.setDrained r c := by
  have hemit (n : Nat) : (s.setDrained r c).emit n = (s.emit n).setDrained r c := by
    rw [emit, write_setDrained]
    rfl
  have htake (hit : MarkerHit) :
      (s.setDrained r c).takeMarker hit = (s.takeMarker hit).setDrained r c := by
    rw [takeMarker, write_setDrained]
    rfl
  have hpending : (s.setDrained r c).pending = s.pending := rfl
  have hstate : (s.setDrained r c).state = s.state := rfl
  simp only [step, emitSafePrefix, hpending, hstate, hemit, htake]
  split
  · rfl
  · split
    · split_ifs <;> rfl
    · rfl

theorem feed_setDrained (s : HarmonySplitter) (r c : Nat) (piece : Bytes) :
    (s.setDrained r c).feed piece = (s.feed piece).setDrained r c := by
  have hpush : (s.setDrained r c).push piece = (s.push piece).setDrained r c := rfl
  rw [feed, hpush, settle, exhaust_map (fun s => step_setDrained s r c) fun _ => rfl, feed, settle]

theorem finish_setDrained (s : HarmonySplitter) (r c : Nat) :
    (s.setDrained r c).finish = s.finish := by
  simp only [finish, write_setDrained]
  rfl

/-- What has been collected stays. -/
def Grows (s t : HarmonySplitter) : Prop :=
  s.reasoning <+: t.reasoning ∧ s.content <+: t.content

theorem Grows.refl (s : HarmonySplitter) : Grows s s := ⟨List.prefix_rfl, List.prefix_rfl⟩

theorem Grows.trans {u : HarmonySplitter} (h : Grows s t) (h' : Grows t u) : Grows s u :=
  ⟨h.1.trans h'.1, h.2.trans h'.2⟩

theorem grows_write (s : HarmonySplitter) (text : Bytes) : Grows s (s.write text) := by
  simp only [write]
  split
  · exact ⟨prefix_append .., prefix_rfl⟩
  · exact ⟨prefix_rfl, prefix_append ..⟩
  · exact Grows.refl s

theorem grows_step (h : step s = some t) : Grows s t := by
  obtain ⟨hit, -, rfl⟩ | ⟨-, -, rfl⟩ := step_cases h
  · exact grows_write s _
  · exact grows_write s _

theorem grows_settle (s : HarmonySplitter) : Grows s s.settle := by
  induction s using exhaust_induction step_shrinks with
  | done s h =>
    rw [settle, exhaust_of_none h]
    exact Grows.refl s
  | more s t h ih =>
    rw [settle_of_step h]
    exact (grows_step h).trans ih

theorem grows_feed (s : HarmonySplitter) (piece : Bytes) : Grows s (s.feed piece) :=
  grows_settle (s.push piece)

/-- The stream after the text `fed`: its splitter has been fed the text, and the drained bytes
are the first ones that it collected. -/
structure Stream.Sent (stream : Stream) (fed : Bytes) : Prop where
  splitter : stream.splitter = (feed {} fed).setDrained
    stream.drained.reasoning.length stream.drained.content.length
  reasoning : stream.drained.reasoning <+: stream.splitter.reasoning
  content : stream.drained.content <+: stream.splitter.content

theorem Stream.Sent.next {stream : Stream} {fed : Bytes} (h : stream.Sent fed) (piece : Bytes)
    (drains : Bool) : (stream.next piece drains).Sent (fed ++ piece) := by
  have hfeed : stream.splitter.feed piece = (feed {} (fed ++ piece)).setDrained
      stream.drained.reasoning.length stream.drained.content.length := by
    rw [h.splitter, feed_setDrained, feed_feed]
  have hgrows := grows_feed stream.splitter piece
  have hreasoning := h.reasoning.trans hgrows.1
  have hcontent := h.content.trans hgrows.2
  cases drains with
  | false => exact ⟨hfeed, hreasoning, hcontent⟩
  | true =>
    -- all that the splitter has collected is drained now
    rw [hfeed] at hreasoning hcontent
    let s := feed {} (fed ++ piece)
    have hnext : stream.next piece true =
        ⟨s.setDrained s.reasoning.length s.content.length, ⟨s.reasoning, s.content⟩⟩ := by
      simp only [Stream.next, if_true, hfeed]
      exact congrArg _ (congrArg₂ Parts.mk (prefix_iff_eq_append.mp hreasoning)
        (prefix_iff_eq_append.mp hcontent))
    rw [hnext]
    exact ⟨rfl, prefix_rfl, prefix_rfl⟩

theorem Stream.sent_run (pieces : List (Bytes × Bool)) :
    (Stream.run pieces).Sent (pieces.map Prod.fst).flatten := by
  induction pieces using reverseRecOn with
  | nil => exact ⟨by rfl, prefix_rfl, prefix_rfl⟩
  | append_singleton pieces piece ih =>
    rw [Stream.run, foldl_append, ← Stream.run]
    simpa using ih.next piece.1 piece.2

/-- However the text is cut, and after whichever pieces the splitter is drained: `Finish` gives
the split of the whole text, what was drained is the beginning of it, and the handler sends the
rest. -/
theorem stream_finish_eq_split (pieces : List (Bytes × Bool)) :
    let stream := Stream.run pieces
    let whole := split (pieces.map Prod.fst).flatten
    stream.splitter.finish = whole ∧
      stream.drained.reasoning <+: whole.reasoning ∧ stream.drained.content <+: whole.content ∧
      stream.drained.reasoning ++ stream.residual.reasoning = whole.reasoning ∧
      stream.drained.content ++ stream.residual.content = whole.content := by
  intro stream whole
  have hsent := Stream.sent_run pieces
  have hfinish : stream.splitter.finish = whole := by
    rw [hsent.splitter, finish_setDrained]
    rfl
  have hgrows := grows_write stream.splitter stream.splitter.pending
  have hreasoning : stream.drained.reasoning <+: stream.splitter.finish.reasoning :=
    hsent.reasoning.trans hgrows.1
  have hcontent : stream.drained.content <+: stream.splitter.finish.content :=
    hsent.content.trans hgrows.2
  rw [← hfinish]
  exact ⟨rfl, hreasoning, hcontent, prefix_iff_eq_append.mp hreasoning,
    prefix_iff_eq_append.mp hcontent⟩

/-! ## Text without markers -/

/-- The bytes of the content so far, and of what may still go there. -/
def reach (s : HarmonySplitter) : Nat := s.content.length + s.pending.length

theorem length_content_write_le (s : HarmonySplitter) (text : Bytes) :
    (s.write text).content.length ≤ s.content.length + text.length := by
  unfold write
  split <;> simp

theorem reach_takeMarker {hit : MarkerHit} (h : s.marker = some hit) :
    (s.takeMarker hit).reach < s.reach := by
  have hle := hit_le_length h
  have hwrite := length_content_write_le s (s.pending.take hit.pos)
  simp only [reach, takeMarker, setState, setPending, length_drop, length_take] at hwrite ⊢
  omega

theorem reach_settle_le (s : HarmonySplitter) : s.settle.reach ≤ s.reach := by
  induction s using exhaust_induction step_shrinks with
  | done s h => rw [settle, exhaust_of_none h]
  | more s t h ih =>
    rw [settle_of_step h]
    refine ih.trans ?_
    obtain ⟨hit, hmarker, rfl⟩ | ⟨-, -, rfl⟩ := step_cases h
    · exact (reach_takeMarker hmarker).le
    · have hwrite := length_content_write_le s (safe s.state.candidates s.pending)
      have hlen := length_safe_add s.state.candidates s.pending
      simp only [reach, emitSafe_eq, setPending]
      omega

/-- The text opens no channel and no message. -/
def MarkerFree (text : Bytes) : Prop := ∀ m ∈ State.normal.candidates, ¬ m <:+: text

theorem findEarliestMarker_eq_none_iff_markerFree :
    findEarliestMarker text State.normal.candidates = none ↔ MarkerFree text := by
  have hne : ∀ m ∈ State.normal.candidates, m ≠ [] := by decide
  rw [findEarliestMarker_eq_none_iff, first_eq_none_iff]
  constructor
  · rintro h m hm ⟨front, back, rfl⟩
    exact h front.length ⟨m, hm, hne m hm, by simp [append_assoc]⟩
  · rintro h i ⟨m, hm, -, hpre⟩
    exact h m hm (hpre.isInfix.trans (drop_suffix i text).isInfix)

/-- The split leaves a text as it is if there is no marker in it, and drops bytes otherwise. -/
theorem split_of_markerFree (h : MarkerFree text) : split text = ⟨[], text⟩ := by
  have hnone : (push {} text).marker = none := findEarliestMarker_eq_none_iff_markerFree.mpr h
  rw [split, feed, settle_of_no_marker hnone, finish, emitSafe_eq, write_setPending,
    setPending_pending, write_write, safe_append_held]
  rfl

theorem markerFree_of_split_content (h : (split text).content = text) : MarkerFree text := by
  rw [← findEarliestMarker_eq_none_iff_markerFree]
  by_contra hsome
  obtain ⟨hit, hhit⟩ := ne_none_iff_exists'.mp hsome
  have hmarker : (push {} text).marker = some hit := hhit
  have hfinish := length_content_write_le (feed {} text) (feed {} text).pending
  have hreach := reach_settle_le ((push {} text).takeMarker hit)
  rw [← settle_of_step (step_of_marker hmarker), ← feed] at hreach
  have hlt := reach_takeMarker hmarker
  have hlen : (push {} text).reach = text.length := by simp [reach, push, setPending]
  have hcontent : ((feed {} text).write (feed {} text).pending).content.length = text.length :=
    congrArg length h
  simp only [reach] at hreach hlt hlen
  omega

end HarmonySplitter

end InferFlux.Text
