import InferFlux.Text.ReasoningSplitter

/-!
# Reasoning and content when the text is cut

A cut of the text can bring a tag to the front of the pending bytes that is not at the front
of the uncut text (`Exposed`). The pieces give the split of the whole text exactly if no cut
does that (`feedAll_finish_eq_split_iff`): any other cut leaves the splitter where the uncut
text would leave it (`settle_push_settle`), and a tag that a cut exposes is lost from the
output (`total_feed_lt_of_exposed`).
-/

namespace InferFlux.Text

open Occurrence Exhaust Holdback List

namespace ReasoningSplitter

/-- What the tags and think blocks at the front leave of a text; nothing if the last block is
not closed. -/
def proseFrom (p : State × Bytes) : Bytes :=
  match exhaust recognise (fun p => p.2.length) p with
  | (.normal, rest) => rest
  | (.inThink, _) => []

variable {p : State × Bytes} {q : State × Bytes}

theorem proseFrom_of_recognise (h : recognise p = some q) : proseFrom p = proseFrom q := by
  rw [proseFrom, exhaust_of_some recognise_shrinks h, proseFrom]

variable {text : Bytes}

theorem proseFrom_normal (h : recognise (.normal, text) = none) :
    proseFrom (.normal, text) = text := by
  rw [proseFrom, exhaust_of_none h]

theorem proseFrom_inThink (h : recognise (.inThink, text) = none) :
    proseFrom (.inThink, text) = [] := by
  rw [proseFrom, exhaust_of_none h]

/-- After the text `p` some of its prose has been passed on, and the bytes that are held back
begin a tag in the text that follows. -/
def ExposedFrom (p : State × Bytes) (after : Bytes) : Prop :=
  safe tags (proseFrom p) ≠ [] ∧ StartsTag (held tags (proseFrom p) ++ after)

instance (p : State × Bytes) (after : Bytes) : Decidable (ExposedFrom p after) :=
  inferInstanceAs (Decidable (_ ∧ _))

variable {s : ReasoningSplitter}

theorem settle_push_of_recognise (h : recognise (s.state, s.pending) = some p) :
    ∃ t : ReasoningSplitter, (t.state, t.pending) = p ∧
      ∀ y, (s.push y).settle = (t.push y).settle := by
  obtain ⟨t, ht, _, _, hstep⟩ := step_push_of_recognise h
  exact ⟨t, ht, fun y => settle_of_step (hstep y)⟩

/-- Inside of a block a cut does not matter. -/
theorem settle_push_inThink (hstate : s.state = .inThink)
    (h : recognise (s.state, s.pending) = none) (y : Bytes) :
    (s.emitSafe.push y).settle = (s.push y).settle := by
  simp only [hstate, recognise, Option.map_eq_none_iff, first_eq_none_iff] at h
  have hfirst : first [kCloseTag] (s.push y).pending = _ := first_append h y
  have hheld : (s.emitSafe.push y).pending = held [kCloseTag] s.pending ++ y := by
    simp [push, hstate, State.markers]
  rw [← hheld] at hfirst
  have hpush : (s.push y).state = .inThink := hstate
  have hemit : (s.emitSafe.push y).state = .inThink := by simp [push, hstate]
  cases hclose : first [kCloseTag] (s.emitSafe.push y).pending with
  | none =>
    rw [hclose, Option.map_none] at hfirst
    rw [settle_of_recognise_none, settle_of_recognise_none, emitSafe_push_emitSafe]
    · simp [hpush, recognise, hfirst]
    · simp [hemit, recognise, hclose]
  | some close =>
    rw [hclose, Option.map_some] at hfirst
    have happ : s.pending ++ y = safe [kCloseTag] s.pending ++ (held [kCloseTag] s.pending ++ y) := by
      rw [← append_assoc, safe_append_held]
    rw [settle_of_step (step_of_close hemit hclose), settle_of_step (step_of_close hpush hfirst)]
    simp only [push, emitSafe, hstate, emitReasoning, take_length_safe, drop_length_safe]
    rw [happ, take_length_add_append, Nat.add_assoc, drop_length_add_append, append_assoc]

/-- No tag begins prose of which some has been passed on. -/
theorem recognise_normal_append (hnone : recognise (.normal, text) = none) (h : safe tags text ≠ [])
    (y : Bytes) : recognise (.normal, text ++ y) = none := by
  rw [recognise_normal_eq_none_iff] at hnone ⊢
  intro hstarts
  have hun := unfinished_of_startsTag_append hnone hstarts
  exact h (safe_eq_nil_iff.mpr (held_of_unfinished hun))

/-- Outside of a block a cut does not matter if it does not bring a tag to the front. -/
theorem settle_push_normal (hstate : s.state = .normal)
    (h : recognise (s.state, s.pending) = none) (y : Bytes)
    (hcut : safe tags s.pending = [] ∨ ¬ StartsTag (held tags s.pending ++ y)) :
    (s.emitSafe.push y).settle = (s.push y).settle := by
  obtain ⟨state, pending, r, c, dr, dc⟩ := s
  subst hstate
  by_cases hsafe : safe tags pending = []
  · rw [emitSafe_of_safe_eq_nil (by simpa [State.markers] using hsafe)]
  have hcut := hcut.resolve_left hsafe
  rw [settle_of_recognise_none, settle_of_recognise_none, emitSafe_push_emitSafe]
  · exact recognise_normal_append h hsafe y
  · simpa [push, State.markers] using recognise_normal_eq_none_iff.mpr hcut

/-- The loop may run at a cut that does not expose a tag. -/
theorem settle_push_settle (s : ReasoningSplitter) (y : Bytes)
    (h : ¬ ExposedFrom (s.state, s.pending) y) : (s.settle.push y).settle = (s.push y).settle := by
  induction hp : (s.state, s.pending) using exhaust_induction recognise_shrinks generalizing s with
  | done p hnone =>
    subst hp
    rw [settle_of_recognise_none hnone]
    cases hstate : s.state with
    | inThink => exact settle_push_inThink hstate hnone y
    | normal =>
      apply settle_push_normal hstate hnone y
      rw [hstate] at h hnone
      rw [ExposedFrom, proseFrom_normal hnone] at h
      by_cases hsafe : safe tags s.pending = []
      · exact .inl hsafe
      · exact .inr fun hstarts => h ⟨hsafe, hstarts⟩
  | more p q hrec ih =>
    subst hp
    obtain ⟨t, ht, hsettle⟩ := settle_push_of_recognise hrec
    have hs : s.settle = t.settle := by simpa using hsettle []
    rw [hs, hsettle y]
    apply ih t _ ht
    rw [ht]
    rwa [ExposedFrom, proseFrom_of_recognise hrec] at h

/-- Once some prose has been passed on, the uncut text loses no more bytes. -/
theorem settle_of_safe_ne_nil (s : ReasoningSplitter)
    (h : safe tags (proseFrom (s.state, s.pending)) ≠ []) :
    s.settle.state = .normal ∧ s.settle.pending = held tags (proseFrom (s.state, s.pending)) ∧
      ∀ y, (s.push y).settle.total = s.settle.total + y.length := by
  induction hp : (s.state, s.pending) using exhaust_induction recognise_shrinks generalizing s with
  | done p hnone =>
    subst hp
    cases hstate : s.state with
    | inThink =>
      rw [hstate] at h hnone
      rw [proseFrom_inThink hnone] at h
      exact absurd rfl h
    | normal =>
      have hquiet := settle_of_recognise_none hnone
      rw [hstate] at h hnone
      rw [proseFrom_normal hnone] at h ⊢
      refine ⟨by rw [hquiet, emitSafe_state, hstate], ?_, ?_⟩
      · rw [hquiet, emitSafe_pending, hstate, State.markers]
      · intro y
        have hwhole : recognise ((s.push y).state, (s.push y).pending) = none := by
          simp only [push, hstate]
          exact recognise_normal_append hnone h y
        rw [settle_of_recognise_none hwhole, hquiet, emitSafe_total, emitSafe_total]
        simp only [total, push, length_append]
        omega
  | more p q hrec ih =>
    subst hp
    obtain ⟨t, ht, hsettle⟩ := settle_push_of_recognise hrec
    have hs : s.settle = t.settle := by simpa using hsettle []
    rw [proseFrom_of_recognise hrec] at h ⊢
    simp only [hs, hsettle]
    exact ih t (ht ▸ h) ht

theorem total_feed_le (s : ReasoningSplitter) (y : Bytes) :
    (s.feed y).total ≤ s.total + y.length := by
  refine (settle_total_le _).trans ?_
  simp only [total, push, length_append]
  omega

theorem total_feedAll_le (s : ReasoningSplitter) (pieces : List Bytes) :
    (s.feedAll pieces).total ≤ s.total + pieces.flatten.length := by
  induction pieces generalizing s with
  | nil => exact Nat.le_add_right ..
  | cons p ps ih =>
    have hfirst := total_feed_le s p
    have hrest := ih (s.feed p)
    simp only [feedAll, foldl_cons, flatten_cons, length_append] at hrest ⊢
    omega

variable {y : Bytes}

/-- A tag that a cut exposes is lost. -/
theorem total_feed_lt_of_exposed (h : ExposedFrom (s.state, s.pending) y) :
    (s.settle.feed y).total < s.settle.total + y.length := by
  obtain ⟨hstate, hpending, _⟩ := settle_of_safe_ne_nil s h.1
  have hsome : recognise ((s.settle.push y).state, (s.settle.push y).pending) ≠ none := by
    simp only [push, hstate, hpending, ne_eq, recognise_normal_eq_none_iff, not_not]
    exact h.2
  obtain ⟨p, hp⟩ := Option.ne_none_iff_exists'.mp hsome
  obtain ⟨t, _, _, hlt, hstep⟩ := step_push_of_recognise hp
  have ht := hstep []
  rw [push_nil, push_nil] at ht
  have hle := settle_total_le t
  rw [feed, settle_of_step ht]
  simp only [total, push, length_append] at hlt hle ⊢
  omega

theorem total_finish (s : ReasoningSplitter) :
    s.finish.reasoning.length + s.finish.content.length = s.total := by
  simp only [finish]
  split <;> simp only [total, length_append] <;> omega

theorem recognise_append (h : recognise p = some q) (y : Bytes) :
    recognise (p.1, p.2 ++ y) = some (q.1, q.2 ++ y) := by
  obtain ⟨t, rfl, -, hlt, hstep⟩ :=
    step_push_of_recognise (s := { state := p.1, pending := p.2 }) h
  obtain ⟨hrec, _⟩ | ⟨_, _, heq⟩ := step_cases (hstep y)
  · exact hrec
  · have htotal := congrArg total heq
    rw [emitSafe_total] at htotal
    simp only [total, push, length_append] at htotal hlt
    omega

theorem proseFrom_append (p : State × Bytes) (y : Bytes) (h : safe tags (proseFrom p) ≠ []) :
    proseFrom (p.1, p.2 ++ y) = proseFrom p ++ y := by
  induction p using exhaust_induction recognise_shrinks with
  | done p hnone =>
    obtain ⟨state, text⟩ := p
    cases state with
    | inThink =>
      rw [proseFrom_inThink hnone] at h
      exact absurd rfl h
    | normal =>
      rw [proseFrom_normal hnone] at h ⊢
      exact proseFrom_normal (recognise_normal_append hnone h y)
  | more p q hrec ih =>
    rw [proseFrom_of_recognise hrec] at h ⊢
    rw [proseFrom_of_recognise (recognise_append hrec y), ih h]

theorem ExposedFrom.append (h : ExposedFrom p y) (rest : Bytes) : ExposedFrom p (y ++ rest) := by
  obtain ⟨hsafe, tag, htag, hpre⟩ := h
  refine ⟨hsafe, tag, htag, ?_⟩
  rw [← append_assoc]
  exact hpre.trans (prefix_append ..)

/-- A tag that is exposed and not complete yet is exposed at the next cut. -/
theorem exposedFrom_of_append {rest : Bytes} (hcut : ¬ ExposedFrom p y)
    (h : ExposedFrom p (y ++ rest)) : ExposedFrom (p.1, p.2 ++ y) rest := by
  obtain ⟨hsafe, hstarts⟩ := h
  rw [← append_assoc] at hstarts
  have hun := unfinished_of_startsTag_append (fun hy => hcut ⟨hsafe, hy⟩) hstarts
  rw [ExposedFrom, proseFrom_append p y hsafe, safe_append, held_append, held_of_unfinished hun]
  exact ⟨fun hnil => hsafe (append_eq_nil_iff.mp hnil).1, hstarts⟩

theorem not_exposedFrom_nil (p : State × Bytes) : ¬ ExposedFrom p [] := by
  rintro ⟨_, hstarts⟩
  rw [append_nil] at hstarts
  exact not_startsTag_held _ hstarts

/-- After a cut that exposes a tag the pieces hold fewer bytes than the text. -/
theorem total_feedAll_lt_of_exposed {p : Bytes} (ps : List Bytes)
    (h : ExposedFrom (s.state, s.pending) p) :
    (s.settle.feedAll (p :: ps)).total < (s.push (p :: ps).flatten).settle.total := by
  rw [(settle_of_safe_ne_nil s h.1).2.2]
  have hlt := total_feed_lt_of_exposed h
  have hle := total_feedAll_le (s.settle.feed p) ps
  simp only [feedAll, foldl_cons, flatten_cons, length_append] at hle ⊢
  omega

/-- Feeding the pieces of a text is feeding the text exactly if no cut exposes a tag. -/
theorem feedAll_settle_iff (s : ReasoningSplitter) (pieces : List Bytes) :
    (s.settle.feedAll pieces).finish = (s.push pieces.flatten).settle.finish ↔
      ∀ before after, pieces = before ++ after →
        ¬ ExposedFrom (s.state, s.pending ++ before.flatten) after.flatten := by
  induction pieces generalizing s with
  | nil =>
    simp only [feedAll, foldl_nil, flatten_nil, push_nil, true_iff]
    intro before after hsplit
    obtain ⟨rfl, rfl⟩ := append_eq_nil_iff.mp hsplit.symm
    exact not_exposedFrom_nil _
  | cons p ps ih =>
    by_cases hexposed : ExposedFrom (s.state, s.pending) p
    · -- the exposed tag is lost for good
      constructor
      · intro heq
        have hlt := total_feedAll_lt_of_exposed ps hexposed
        rw [← total_finish, ← total_finish, heq] at hlt
        exact absurd hlt (Nat.lt_irrefl _)
      · intro hnone
        exact absurd (by simpa using hexposed.append ps.flatten) (hnone [] (p :: ps) rfl)
    · have hfeed : s.settle.feed p = (s.push p).settle := settle_push_settle s p hexposed
      have hpush : s.push (p :: ps).flatten = (s.push p).push ps.flatten := by
        rw [push_push, flatten_cons]
      rw [feedAll, foldl_cons, hfeed, hpush]
      refine (ih (s.push p)).trans ?_
      constructor
      · intro hnone before after hsplit
        cases before with
        | nil =>
          subst hsplit
          intro hstart
          simp only [flatten_nil, append_nil, flatten_cons] at hstart
          exact hnone [] ps rfl (by simpa [push] using exposedFrom_of_append hexposed hstart)
        | cons q before =>
          obtain ⟨rfl, rfl⟩ := cons.inj hsplit
          simpa [push] using hnone before after rfl
      · intro hnone before after hsplit
        have := hnone (p :: before) after (by rw [hsplit, cons_append])
        simpa [push] using this

/-- The prose of a text: what its leading tags and think blocks leave of it. -/
def prose (text : Bytes) : Bytes := proseFrom (.normal, text)

/-- The text `before` has prose that cannot belong to a tag, and what comes after that prose
makes a tag with the text `after`. -/
def Exposed (before after : Bytes) : Prop :=
  safe tags (prose before) ≠ [] ∧ StartsTag (held tags (prose before) ++ after)

/-- The pieces of a text are split like the text exactly if no cut exposes a tag in its
prose. -/
theorem feedAll_finish_eq_split_iff (pieces : List Bytes) :
    (feedAll {} pieces).finish = split pieces.flatten ↔
      ∀ before after, pieces = before ++ after → ¬ Exposed before.flatten after.flatten := by
  exact feedAll_settle_iff {} pieces

/-- The block after the first word is reasoning when the tag is a piece of its own. -/
theorem split_depends_on_cuts :
    (feedAll {} [bytes "a", bytes "<think>", bytes "b"]).finish =
        { reasoning := bytes "b", content := bytes "a" } ∧
      split [bytes "a", bytes "<think>", bytes "b"].flatten =
        { reasoning := [], content := bytes "a<think>b" } := by
  decide

end ReasoningSplitter

end InferFlux.Text
