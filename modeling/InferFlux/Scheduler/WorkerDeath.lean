import InferFlux.Scheduler.RequestPlaces

/-!
# Queued requests after the death of a worker

A decode worker that dies fails what is queued. `WorkerLoop` does not: what is queued when it
dies stays there, unless another thread takes it or dies as well, and `Generate` goes on accepting
requests.
-/

namespace InferFlux.Scheduler

open LoggedRun List

variable {c : PoolConfig} {s s' : Shared} {calls : List Nat} {t t' : MainWorker} {op : MainOp}

section

variable (h : MainMove c s t op s' t' calls)
include h

/-- A step of `WorkerLoop` that stays in the loop adds to the decode queue what it pushes. -/
theorem MainMove.pendingDecode_subset :
    ∀ r ∈ s'.pendingDecode, r ∈ s.pendingDecode ∨ r ∈ t.pushed op := by
  cases h with
  | passed _ _ _ _ h => exact h.decode
  | built _ _ _ _ _ =>
    intro r hr
    simp only [Shared.remove] at hr
    split_ifs at hr
    · exact .inl hr
    · exact .inl (mem_eraseDups.mp (mem_filter.mp hr).1)
  | answered | ended | answeredTwice | died => exact fun _ => .inl

theorem MainMove.passed_of_pushed (hne : t.pushed op ≠ []) :
    Passed s t.held (t.pushed op) s' t'.held := by
  cases h with
  | passed _ _ _ _ h => exact h
  | built ht hop _ _ _ =>
    subst ht hop
    exact absurd rfl hne
  | answered _ _ _ hpushed _ _
  | ended _ _ hpushed _ _ _
  | answeredTwice _ _ hpushed _ _
  | died _ _ hpushed => exact absurd hpushed hne

/-- A step keeps `WorkerLoop` in its loop, ends it when nothing is queued, or is its death. -/
theorem MainMove.loop :
    (¬ t.Dies s op ∧ t'.inLoop ∧ s'.died = s.died) ∨ (¬ t.Dies s op ∧ s' = s ∧ s.queued = []) ∨
      t.Dies s op ∧ t' = .died ∧ ∃ again held, (∀ r ∈ again, r ∈ s.answered) ∧
        s' = { s with answered := s.answered ++ again }.abandon held := by
  cases h with
  | passed _ hloop' hlive _ h =>
    refine .inl ⟨hlive, hloop', ?_⟩
    rw [h.frame]
    rfl
  | built ht hop _ _ hloop' =>
    subst ht hop
    exact .inl ⟨not_dies MainOp.noConfusion rfl, hloop', rfl⟩
  | answered _ hloop' hlive _ _ _ => exact .inl ⟨hlive, hloop', rfl⟩
  | ended _ hlive _ _ hprefill hdecode =>
    exact .inr (.inl ⟨hlive, rfl, by rw [Shared.queued, hprefill, hdecode]; rfl⟩)
  | @answeredTwice r rest _ hdies _ _ hanswered =>
    exact .inr (.inr ⟨hdies, rfl, [r], rest, by simpa using hanswered, rfl⟩)
  | died _ hdies _ => exact .inr (.inr ⟨hdies, rfl, [], t.held, by simp, by simp⟩)

end

variable {d d' : DecodeWorker}

theorem DecodeMove.pendingPrefill_eq {op : DecodeOp} (h : DecodeMove s d op s' d' calls)
    (hloop' : d'.inLoop) : s'.pendingPrefill = s.pendingPrefill ∧ s'.died = s.died := by
  cases h with
  | passed _ _ _ hprefill h =>
    refine ⟨hprefill, ?_⟩
    rw [h.frame]
    rfl
  | rejectedAll => exact ⟨rfl, rfl⟩
  | answered => exact ⟨rfl, rfl⟩
  | left | answeredTwice | died | failed | terminated => cases hloop'

namespace Workers

variable {w w' : Workers} {op : WorkerOp} {log : List Nat}

/-- Some thread will take what is queued for the prefill, or fail it. -/
def PrefillServed (w : Workers) : Prop := w.main.inLoop ∨ .leaving ∈ w.decode

/-- Some thread will take what is queued for the decode, or fail it. -/
def DecodeServed (c : PoolConfig) (w : Workers) : Prop :=
  c.useDecodeWorkers = false ∧ w.main.inLoop ∨ ∃ d ∈ w.decode, d ≠ .ended

/-- After a worker has died, every queued request that no thread will take has its answer. -/
structure QueuedAnswered (c : PoolConfig) (w : Workers) : Prop where
  prefill : ∀ r ∈ w.shared.pendingPrefill, r ∈ w.shared.answered ∨ w.PrefillServed
  decode : ∀ r ∈ w.shared.pendingDecode, r ∈ w.shared.answered ∨ w.DecodeServed c

/-- The step leaves a request without an answer in a queue that no thread serves: `Generate`
after the death of `WorkerLoop`, the death of `WorkerLoop`, or a batch that is handed over after
the death of the decode workers. -/
def Forsakes (c : PoolConfig) (w : Workers) : WorkerOp → Prop
  | .generate => w.shared.died ∧ ¬ w.PrefillServed
  | .main op =>
    (w.main.Dies w.shared op ∧
      ((.leaving ∉ w.decode ∧ ∃ r ∈ w.shared.pendingPrefill, r ∉ w.shared.answered) ∨
        (∀ d ∈ w.decode, d = .ended) ∧ ∃ r ∈ w.shared.pendingDecode, r ∉ w.shared.answered)) ∨
    w.shared.died ∧ c.useDecodeWorkers ∧ (∀ d ∈ w.decode, d = .ended) ∧
      ∃ r ∈ w.main.pushed op, r ∉ w.shared.answered
  | _ => False

theorem DecodeServed.of_not_ended (h : ¬ ∀ d ∈ w.decode, d = .ended) : w.DecodeServed c := by
  push Not at h
  exact .inr h

/-- A queue that a thread serves can hold what it likes. -/
theorem QueuedAnswered.of_leaving (h : .leaving ∈ w.decode) : w.QueuedAnswered c :=
  ⟨fun _ _ => .inr (.inr h), fun _ _ => .inr (.inr ⟨_, h, DecodeWorker.noConfusion⟩)⟩

section

variable (hw : w.shared.died → w.QueuedAnswered c)
include hw

theorem QueuedAnswered.main {op : MainOp} {s : Shared} {t : MainWorker}
    (hpass : ¬ w.Forsakes c (.main op)) (h : MainMove c w.shared w.main op s t calls)
    (hdied : s.died) : QueuedAnswered c { w with shared := s, main := t } := by
  have hanswered {r : Nat} (hr : r ∈ w.shared.answered) : r ∈ s.answered := by
    rw [h.promises.answered]
    exact mem_append_left _ hr
  obtain ⟨-, hloop', hkeep⟩ | ⟨-, rfl, hqueued⟩ | ⟨hdies, rfl, again, held, -, rfl⟩ := h.loop
  · refine ⟨fun r _ => .inr (.inl hloop'), fun r hr => ?_⟩
    cases hsplit : c.useDecodeWorkers with
    | false => exact .inr (.inl ⟨hsplit, hloop'⟩)
    | true =>
      rw [hkeep] at hdied
      obtain hr | hr := h.pendingDecode_subset r hr
      · obtain hr | ⟨hunified, -⟩ | hserved := (hw hdied).decode r hr
        · exact .inl (hanswered hr)
        · cases hsplit.symm.trans hunified
        · exact .inr (.inr hserved)
      · refine or_iff_not_imp_left.mpr fun hopen => .of_not_ended fun hended => ?_
        exact hpass (.inr ⟨hdied, hsplit, hended, r, hr, fun hmem => hopen (hanswered hmem)⟩)
  · obtain ⟨hprefill, hdecode⟩ := append_eq_nil_iff.mp hqueued
    exact ⟨by simp [hprefill], by simp [hdecode]⟩
  · refine ⟨fun r hr => ?_, fun r hr => ?_⟩
    · refine or_iff_not_imp_left.mpr fun hopen => .inr (not_not.mp fun hleaving => ?_)
      exact hpass (.inl ⟨hdies, .inl ⟨hleaving, r, hr, fun hmem => hopen (hanswered hmem)⟩⟩)
    · refine or_iff_not_imp_left.mpr fun hopen => .of_not_ended fun hended => ?_
      exact hpass (.inl ⟨hdies, .inr ⟨hended, r, hr, fun hmem => hopen (hanswered hmem)⟩⟩)

theorem QueuedAnswered.decode_inLoop {op : DecodeOp} {s : Shared} {before after : List DecodeWorker}
    (hworkers : w.decode = before ++ d :: after) (h : DecodeMove w.shared d op s d' calls)
    (hloop : d.inLoop) (hloop' : d'.inLoop) (hdied : s.died) :
    QueuedAnswered c { w with shared := s, decode := before ++ d' :: after } := by
  obtain ⟨hprefill, hkeep⟩ := h.pendingPrefill_eq hloop'
  refine ⟨fun r hr => ?_, fun r _ => .inr (.inr ⟨d', by simp, ?_⟩)⟩
  · rw [hprefill] at hr
    rw [hkeep] at hdied
    obtain hr | hmain | hleaving := (hw hdied).prefill r hr
    · left
      rw [h.promises.answered]
      exact mem_append_left _ hr
    · exact .inr (.inl hmain)
    · -- the worker of this step is not the one that leaves
      rw [hworkers] at hleaving
      obtain hleaving | rfl | hleaving : .leaving ∈ before ∨ .leaving = d ∨ .leaving ∈ after := by
        simpa using hleaving
      · exact .inr (.inr (by simp [hleaving]))
      · cases hloop
      · exact .inr (.inr (by simp [hleaving]))
  · rintro rfl
    cases hloop'

/-- A step that forsakes no request keeps the queued requests answered or served. -/
theorem QueuedAnswered.step (hpass : ¬ w.Forsakes c op) (h : w.step c op = some (w', calls))
    (hdied : w'.shared.died) (hlive : w'.shared.terminated = false) : w'.QueuedAnswered c := by
  obtain ⟨-, h⟩ := step_move h
  cases h with
  | generated _ =>
    have hserved : w.PrefillServed := by
      by_contra hnone
      exact hpass ⟨hdied, hnone⟩
    exact ⟨fun _ _ => .inr hserved, (hw hdied).decode⟩
  | stopped => exact ⟨(hw hdied).prefill, (hw hdied).decode⟩
  | main hstep => exact QueuedAnswered.main hw hpass (mainStep_move hstep) hdied
  | @decode k op s d d' calls before after hk hbefore hworkers hstep =>
    have hmove := decodeStep_move hstep
    obtain ⟨-, hloop, hloop'⟩ | ⟨-, -, rfl, -⟩ | ⟨rfl, rfl | ⟨rfl, hqueued⟩⟩ := hmove.loop
    · exact QueuedAnswered.decode_inLoop hw hworkers hmove hloop hloop' hdied
    · exact .of_leaving (by simp)
    · exact .of_leaving (by simp)
    · obtain ⟨hprefill, hdecode⟩ := append_eq_nil_iff.mp hqueued
      exact ⟨by simp [hprefill], by simp [hdecode]⟩

end

/-- What a run keeps that forsakes no request. -/
structure Attended (c : PoolConfig) (w : Workers) (log : List Nat) : Prop extends
    w.Accounted log where
  queued : w.shared.died → w.shared.terminated = false → w.QueuedAnswered c

theorem Attended.step (hw : w.Attended c log) (hpass : ¬ w.Forsakes c op)
    (h : w.step c op = some (w', calls)) : w'.Attended c (log ++ calls) := by
  have hlive := (step_move h).1
  exact ⟨hw.toAccounted.step h, QueuedAnswered.step (fun hdied => hw.queued hdied hlive) hpass h⟩

theorem Attended.start (c : PoolConfig) : (start c).Attended c [] :=
  ⟨Accounted.start c, fun hdied => by cases hdied⟩

theorem Accounted.lt_nextSequence (hw : w.Accounted log) {r : Nat} (hr : r ∈ w.shared.answered) :
    r < w.shared.nextSequence := by
  refine (hw.mem_places r).mp ?_
  simp [places, Shared.places, hr]

/-- A step that forsakes a request leaves it without an answer. -/
theorem Forsakes.not_queuedAnswered (hw : w.Accounted log) (hpass : w.Forsakes c op)
    (h : w.step c op = some (w', calls)) :
    w'.shared.died ∧ w'.shared.terminated = false ∧ ¬ w'.QueuedAnswered c := by
  obtain ⟨hlive, h⟩ := step_move h
  cases h with
  | generated _ =>
    obtain ⟨hdied, hserved⟩ := hpass
    refine ⟨hdied, hlive, fun hqueued => ?_⟩
    obtain hanswered | hserved' := hqueued.prefill w.shared.nextSequence (by simp [Shared.pushPrefill])
    · exact Nat.lt_irrefl _ (hw.lt_nextSequence hanswered)
    · exact hserved hserved'
  | stopped => cases hpass
  | @main op s t calls hstep =>
    have hmove := mainStep_move hstep
    obtain ⟨hdies, hleft⟩ | ⟨hdied, hsplit, hended, r, hr, hopen⟩ := hpass
    · obtain ⟨hnot, -⟩ | ⟨hnot, -⟩ | ⟨-, rfl, again, held, hagain, rfl⟩ := hmove.loop
      · exact absurd hdies hnot
      · exact absurd hdies hnot
      · have hopen {r : Nat} (hr : r ∉ w.shared.answered) : r ∉ w.shared.answered ++ again :=
          fun hmem => (mem_append.mp hmem).elim hr fun hmem => hr (hagain r hmem)
        refine ⟨rfl, hlive, fun hqueued => ?_⟩
        obtain ⟨hleaving, r, hr, hunanswered⟩ | ⟨hended, r, hr, hunanswered⟩ := hleft
        · obtain hanswered | hmain | hserved := hqueued.prefill r hr
          · exact hopen hunanswered hanswered
          · cases hmain
          · exact hleaving hserved
        · obtain hanswered | ⟨-, hmain⟩ | ⟨d, hd, hne⟩ := hqueued.decode r hr
          · exact hopen hunanswered hanswered
          · cases hmain
          · exact hne (hended d hd)
    · have hpassed := hmove.passed_of_pushed (ne_nil_of_mem hr)
      have hframe : s.died = w.shared.died ∧ s.terminated = w.shared.terminated ∧
          s.answered = w.shared.answered := by
        rw [hpassed.frame]
        exact ⟨rfl, rfl, rfl⟩
      refine ⟨hframe.1.trans hdied, hframe.2.1.trans hlive, fun hqueued => ?_⟩
      obtain hanswered | ⟨hunified, -⟩ | ⟨d, hd, hne⟩ := hqueued.decode r (hpassed.pushed r hr)
      · exact hopen (hframe.2.2 ▸ hanswered)
      · cases hsplit.symm.trans hunified
      · exact hne (hended d hd)
  | decode => cases hpass

/-- In every run the queued requests that no thread will take have their answers once a worker
has died, if and only if no step forsakes one. -/
theorem queuedAnswered_iff (c : PoolConfig) (ops : List WorkerOp) {w : Workers} {log : List Nat}
    (hrun : run (step c) (start c) ops = some (w, log)) :
    Always (step c)
        (fun w _ => w.shared.died → w.shared.terminated = false → w.QueuedAnswered c) (start c) ops ↔
      Along (step c) (fun w op => ¬ w.Forsakes c op) (start c) ops := by
  refine always_iff_along (Attended.start c) (fun _ _ hw => hw.queued)
    (fun _ _ _ _ _ hw hpass h => hw.step hpass h) (fun w log op w' calls hw hpass h hqueued => ?_)
    hrun
  obtain ⟨hdied, hlive, hnot⟩ := (not_not.mp hpass).not_queuedAnswered hw.toAccounted h
  exact hnot (hqueued hdied hlive)

/-- A decode worker dies and fails what is queued. -/
theorem queuedAnswered_decodeWorker_died :
    Always (step { decodePoolSize := 1 })
      (fun w _ => w.shared.died → w.shared.terminated = false →
        w.QueuedAnswered { decodePoolSize := 1 }) (start { decodePoolSize := 1 })
      [.generate, .decode 0 .throw, .decode 0 .failAll] := by
  have hrun : run (step { decodePoolSize := 1 }) (start { decodePoolSize := 1 })
      [.generate, .decode 0 .throw, .decode 0 .failAll] =
      some (⟨{ nextSequence := 1, answered := [0], invalid := [0], died := true }, .waiting,
        [.ended]⟩, [0]) := rfl
  refine (queuedAnswered_iff _ _ hrun).mpr ⟨fun hgenerate => ?_, fun _ _ _ => ⟨id, fun _ _ _ =>
    ⟨id, fun _ _ _ => trivial⟩⟩⟩
  cases hgenerate.1

/-- `WorkerLoop` dies in unified mode while a request is queued: the request stays in the queue
without an answer, and nobody is left to take it. -/
theorem workerLoop_died_request_queued :
    ∃ w, run (step {}) (start {}) [.generate, .generate, .main (.build [⟨0, true⟩]), .main .throw] =
        some (w, []) ∧
      w.shared.died ∧ w.shared.terminated = false ∧ w.shared.pendingPrefill = [1] ∧
      1 ∉ w.shared.answered ∧ w.main = .died ∧ w.decode = [] :=
  ⟨⟨{ nextSequence := 2, pendingPrefill := [1], abandoned := [0], died := true }, .died, []⟩,
    rfl, rfl, rfl, rfl, List.not_mem_nil, rfl, rfl⟩

end Workers

end InferFlux.Scheduler
