import InferFlux.Scheduler.WorkerMoves

/-!
# Where the requests are

Every accepted request is somewhere: in a queue, in the hands of a thread, among the answered or
among the abandoned requests. `MainMove.places` and `DecodeMove.places` say that a step moves
requests from one place to another; `Accounted` is what holds in every state of every run.
-/

namespace InferFlux.Scheduler

open LoggedRun DecodeWorker Selected List Shared

variable {c : PoolConfig} {s s' : Shared} {calls : List Nat}

def Shared.places (s : Shared) : List Nat := s.queued ++ s.answered ++ s.abandoned

theorem eraseDups_of_nodup {l : List Nat} (h : l.Nodup) : l.eraseDups = l := by
  induction l with
  | nil => rfl
  | cons a l ih =>
    obtain ⟨ha, hl⟩ := nodup_cons.mp h
    have hfilter : l.filter (fun b => !b == a) = l := by
      rw [filter_eq_self]
      grind
    rw [eraseDups_cons, hfilter, ih hl]

variable {held' : List Nat} {held : List Nat}

theorem Passed.places {pushed : List Nat} (h : Passed s held pushed s' held') :
    (s'.places ++ held').Perm (s.places ++ held) := by
  refine perm_iff_count.mpr fun a => ?_
  have hcount := h.perm.count_eq a
  rw [h.frame] at hcount ⊢
  simp only [Shared.places, Shared.queued, Shared.withQueues, count_append] at hcount ⊢
  omega

variable {r : Nat}

theorem places_answer (h : held.Perm (r :: held')) :
    (places { s with answered := s.answered ++ [r] } ++ held').Perm (s.places ++ held) := by
  refine perm_iff_count.mpr fun a => ?_
  have hcount := h.count_eq a
  simp only [places, queued, count_append, count_cons, count_nil] at hcount ⊢
  omega

theorem places_abandon : ((s.abandon held).places).Perm (s.places ++ held) := by
  simp [places, queued, abandon]

variable {selection : List Selected}

section

variable (h : s.Selectable c selection)
include h

theorem mem_of_selectable (hr : r ∈ selection.map request) :
    r ∈ s.pendingPrefill ∨ c.useDecodeWorkers = false ∧ r ∈ s.pendingDecode := by
  obtain ⟨item, hitem, rfl⟩ := mem_map.mp hr
  have := h.2.2 item hitem
  split_ifs at this
  · exact .inl this
  · exact .inr ⟨this.1, this.2.1⟩

theorem mem_remove : r ∈ (s.remove c selection).queued ++ selection.map request ↔ r ∈ s.queued := by
  have hchosen : r ∈ selection.map request → _ := mem_of_selectable h
  simp only [remove, queued, mem_append]
  cases hsplit : c.useDecodeWorkers <;>
    simp only [Bool.false_eq_true, if_true, if_false, mem_filter, mem_eraseDups] <;>
    grind

theorem nodup_remove (hnodup : s.queued.Nodup) :
    ((s.remove c selection).queued ++ selection.map request).Nodup := by
  obtain ⟨hprefill, hdecode, hdisjoint⟩ := nodup_append.mp hnodup
  have hchosen {r : Nat} : r ∈ selection.map request → _ := mem_of_selectable h
  refine nodup_append.mpr ⟨nodup_append.mpr ?_, h.1, ?_⟩
  · simp only [remove, eraseDups_of_nodup hprefill, eraseDups_of_nodup hdecode]
    refine ⟨hprefill.filter _, ?_, ?_⟩
    · split_ifs
      · exact hdecode
      · exact hdecode.filter _
    · split_ifs <;> grind
  · simp only [remove, queued, mem_append, mem_filter, mem_eraseDups]
    split_ifs <;> grind

theorem places_remove (hnodup : s.queued.Nodup) :
    ((s.remove c selection).places ++ selection.map request).Perm s.places := by
  have hqueues : ((s.remove c selection).queued ++ selection.map request).Perm s.queued :=
    (perm_ext_iff_of_nodup (nodup_remove h hnodup) hnodup).mpr fun r => mem_remove h
  refine perm_iff_count.mpr fun a => ?_
  have hcount := hqueues.count_eq a
  have hframe : (s.remove c selection).answered = s.answered ∧
      (s.remove c selection).abandoned = s.abandoned := ⟨rfl, rfl⟩
  simp only [places, count_append, hframe] at hcount ⊢
  omega

end

theorem failCalls_eq_queued (hnodup : s.queued.Nodup) (hvalid : ∀ r ∈ s.queued, r ∉ s.invalid) :
    s.failCalls = s.queued := by
  rw [failCalls, ← queued, eraseDups_of_nodup hnodup, filter_eq_self]
  simpa using hvalid

variable {t t' : MainWorker}

/-- A step of `WorkerLoop` moves requests from one place to another, or builds a batch. -/
theorem MainMove.places_or_built {op : MainOp} (h : MainMove c s t op s' t' calls) :
    (s'.places ++ t'.held).Perm (s.places ++ t.held) ∨
      t.held = [] ∧ ∃ selection, s.Selectable c selection ∧ s' = s.remove c selection ∧
        t'.held = selection.map request := by
  cases h with
  | passed _ _ _ _ h => exact .inl h.places
  | built ht _ hselectable hheld _ => exact .inr ⟨by rw [ht]; rfl, _, hselectable, rfl, hheld⟩
  | answered _ _ _ _ hheld _ => exact .inl (places_answer hheld)
  | ended ht _ _ _ _ _ =>
    rw [ht]
    exact .inl (.refl _)
  | answeredTwice _ _ _ hheld _ =>
    exact .inl (by simpa [MainWorker.held] using places_abandon.trans (places_answer hheld))
  | died _ _ _ => exact .inl (by simpa [MainWorker.held] using places_abandon)

theorem MainMove.places {op : MainOp} (h : MainMove c s t op s' t' calls)
    (hnodup : s.queued.Nodup) : (s'.places ++ t'.held).Perm (s.places ++ t.held) := by
  obtain h | ⟨ht, selection, hselectable, rfl, ht'⟩ := h.places_or_built
  · exact h
  · rw [ht, ht', append_nil]
    exact places_remove hselectable hnodup

theorem MainMove.mem_places {op : MainOp} (h : MainMove c s t op s' t' calls) :
    r ∈ s'.places ++ t'.held ↔ r ∈ s.places ++ t.held := by
  obtain h | ⟨ht, selection, hselectable, rfl, ht'⟩ := h.places_or_built
  · exact h.mem_iff
  · have hmem := mem_remove hselectable (r := r)
    have hframe : (s.remove c selection).answered = s.answered ∧
        (s.remove c selection).abandoned = s.abandoned := ⟨rfl, rfl⟩
    simp only [ht, ht', Shared.places, hframe, append_nil, mem_append] at hmem ⊢
    grind

/-- The worker has rejected every request of its batch. -/
def DecodeWorker.RejectsAll (d : DecodeWorker) (op : DecodeOp) : Prop :=
  ∃ batch stepwise, d = .checking batch [] [] ∧ op = .execute stepwise

variable {d d' : DecodeWorker} {op : DecodeOp}

/-- A step of a decode worker does so, unless the worker has rejected its whole batch. -/
theorem DecodeMove.places (h : DecodeMove s d op s' d' calls) (hpass : ¬ d.RejectsAll op)
    (hnodup : s.places.Nodup) (hinvalid : s.invalid ⊆ s.answered) :
    (s'.places ++ d'.held).Perm (s.places ++ d.held) := by
  have hqueued : s.queued.Nodup := (nodup_append.mp (nodup_append.mp hnodup).1).1
  have hopen : ∀ r ∈ s.queued, r ∉ s.answered := fun r hr hanswered =>
    (nodup_append.mp (nodup_append.mp hnodup).1).2.2 r hr r hanswered rfl
  cases h with
  | passed _ _ _ _ h => exact h.places
  | rejectedAll hd hop => exact absurd ⟨_, _, hd, hop⟩ hpass
  | answered _ _ _ hheld _ => exact places_answer hheld
  | left hd _ =>
    rw [hd]
    exact .refl _
  | answeredTwice _ _ hheld _ =>
    simpa [held] using places_abandon.trans (places_answer hheld)
  | died _ _ => simpa [held] using places_abandon
  | failed hd _ _ =>
    have hcalls := failCalls_eq_queued hqueued fun r hr h => hopen r hr (hinvalid h)
    rw [hcalls, hd]
    refine perm_iff_count.mpr fun a => ?_
    simp only [places, queued, withQueues, held, count_append, count_nil]
    omega
  | terminated _ _ hr hanswered _ => exact absurd hanswered (hopen _ hr)

/-- What a step does to the promises, and to the requests of a thread that dies. -/
structure Calls (s s' : Shared) (calls : List Nat) : Prop where
  answered : s'.answered = s.answered ++ calls
  invalid : s'.invalid ⊆ s.invalid ++ calls
  nextSequence : s'.nextSequence = s.nextSequence
  abandoned : s'.died ∨ s'.died = s.died ∧ s'.abandoned = s.abandoned

theorem Passed.promises {pushed : List Nat} (h : Passed s held pushed s' held') :
    Calls s s' [] := by
  rw [h.frame]
  exact ⟨(append_nil _).symm, by simp [withQueues], rfl, .inr ⟨rfl, rfl⟩⟩

theorem MainMove.promises {op : MainOp} (h : MainMove c s t op s' t' calls) : Calls s s' calls := by
  cases h with
  | passed _ _ _ _ h => exact h.promises
  | _ =>
    exact ⟨by simp [remove, abandon], by simp [remove, abandon], rfl, by simp [remove, abandon]⟩

theorem DecodeMove.promises (h : DecodeMove s d op s' d' calls) : Calls s s' calls := by
  cases h with
  | passed _ _ _ _ h => exact h.promises
  | _ =>
    exact ⟨by simp [abandon], by simp [abandon], rfl, by simp [abandon, withQueues]⟩

/-- A worker that checks its batch has checked, accepted or answered each request of it. -/
def DecodeWorker.Checked (answered : List Nat) : DecodeWorker → Prop
  | .assembled batch => batch ≠ []
  | .checking batch todo exec => batch ≠ [] ∧ ∀ r ∈ batch, r ∈ todo ∨ r ∈ exec ∨ r ∈ answered
  | _ => True

theorem DecodeWorker.Checked.mono {answered answered' : List Nat} (h : d.Checked answered)
    (hsub : answered ⊆ answered') : d.Checked answered' := by
  cases d with
  | checking batch todo exec =>
    exact ⟨h.1, fun r hr => (h.2 r hr).imp_right (.imp_right (hsub ·))⟩
  | _ => exact h

theorem setValue_checked {next : DecodeWorker}
    (h : s.setValue r next .leaving held = (s', d', calls))
    (hnext : next.Checked (s.answered ++ [r])) : d'.Checked s'.answered := by
  rw [setValue] at h
  split_ifs at h
  · cases h
    trivial
  · cases h
    exact hnext

theorem decodeStep_checked (hd : d.Checked s.answered)
    (h : decodeStep c s d op = some (s', d', calls)) : d'.Checked s'.answered := by
  unfold decodeStep at h
  split at h
  · split_ifs at h with _ _ hempty
    · cases h
      trivial
    · cases h
      split_ifs with htaken
      · trivial
      · exact fun hnil => htaken (by simp [hnil])
    · cases h
      intro hnil
      exact hempty (by simp [(append_eq_nil_iff.mp hnil).1])
  · cases h
    trivial
  · cases h
    exact ⟨hd, fun r hr => .inl hr⟩
  · obtain ⟨hne, hbatch⟩ := hd
    split_ifs at h
    · cases h
      refine ⟨hne, fun r hr => ?_⟩
      grind
    · refine setValue_checked (Option.some.inj h) ⟨hne, fun r hr => ?_⟩
      grind
  · cases h
    split_ifs <;> trivial
  · split at h
    · exact setValue_checked (Option.some.inj h) trivial
    · split_ifs at h
      cases h
      trivial
    · split_ifs at h
      cases h
      trivial
    · cases h
  · cases h
    trivial
  · unfold failAllQueued at h
    split at h <;>
    · cases h
      trivial
  · split_ifs at h
    cases h
    trivial
  · cases h

/-- A step of a decode worker loses no request, also when the worker keeps a rejected batch. -/
theorem DecodeMove.mem_places (h : DecodeMove s d op s' d' calls)
    (hinvalid : s.invalid ⊆ s.answered) (hchecked : d.Checked s.answered) :
    r ∈ s'.places ++ d'.held ↔ r ∈ s.places ++ d.held := by
  cases h with
  | passed _ _ _ _ h => exact h.places.mem_iff
  | rejectedAll hd _ =>
    subst hd
    have hanswered := hchecked.2 r
    simp only [Shared.places, held, mem_append, append_nil]
    grind
  | answered _ _ _ hheld _ => exact (places_answer hheld).mem_iff
  | left hd _ =>
    rw [hd]
    rfl
  | answeredTwice _ _ hheld _ =>
    simpa [held] using (places_abandon.trans (places_answer hheld)).mem_iff
  | died _ _ => simpa [held] using places_abandon.mem_iff
  | failed hd _ _ =>
    have hcalls := mem_failCalls (s := s) (r := r)
    simp only [Shared.places, Shared.queued, Shared.withQueues, held, mem_append,
      append_nil, nil_append] at hcalls ⊢
    grind
  | terminated hd _ _ _ hcalls =>
    have hqueued : r ∈ calls → r ∈ s.queued := (hcalls ·)
    simp only [Shared.places, Shared.queued, held, mem_append, append_nil] at hqueued ⊢
    grind

namespace Workers

variable {w w' : Workers} {op : WorkerOp} {log : List Nat}

def places (w : Workers) : List Nat :=
  w.shared.places ++ w.main.held ++ w.decode.flatMap DecodeWorker.held

/-- Every accepted request is somewhere, the log has the answers, and only a thread that dies
abandons requests. -/
structure Accounted (w : Workers) (log : List Nat) : Prop where
  answered : w.shared.answered = log
  mem_places : ∀ r, r ∈ w.places ↔ r < w.shared.nextSequence
  invalid : w.shared.invalid ⊆ w.shared.answered
  checked : ∀ d ∈ w.decode, d.Checked w.shared.answered
  abandoned : w.shared.abandoned ≠ [] → w.shared.died

theorem Accounted.of_calls (hw : w.Accounted log) (hplaces : ∀ r, r ∈ w'.places ↔ r ∈ w.places)
    (hcalls : Calls w.shared w'.shared calls)
    (hchecked : ∀ d ∈ w'.decode, d.Checked w'.shared.answered) : w'.Accounted (log ++ calls) := by
  refine ⟨?_, fun r => ?_, ?_, hchecked, fun hne => ?_⟩
  · rw [hcalls.answered, hw.answered]
  · rw [hcalls.nextSequence, hplaces, hw.mem_places]
  · rw [hcalls.answered]
    refine List.Subset.trans hcalls.invalid (append_subset.mpr ⟨?_, subset_append_right ..⟩)
    exact List.Subset.trans hw.invalid (subset_append_left ..)
  · obtain hdied | ⟨hdied, habandoned⟩ := hcalls.abandoned
    · exact hdied
    · rw [hdied]
      exact hw.abandoned (habandoned ▸ hne)

theorem Accounted.checked_append (hw : w.Accounted log) (hcalls : Calls w.shared s calls)
    (hd : d ∈ w.decode) : d.Checked s.answered := by
  rw [hcalls.answered]
  exact (hw.checked d hd).mono (subset_append_left ..)

theorem places_generate (w : Workers) :
    (places { w with shared := { w.shared.pushPrefill [w.shared.nextSequence] with
      nextSequence := w.shared.nextSequence + 1 } }).Perm (w.shared.nextSequence :: w.places) := by
  refine perm_iff_count.mpr fun a => ?_
  simp only [places, Shared.places, Shared.queued, Shared.pushPrefill, count_append,
    count_cons, count_nil]
  omega

theorem Accounted.step (hw : w.Accounted log) (h : w.step c op = some (w', calls)) :
    w'.Accounted (log ++ calls) := by
  obtain ⟨-, h⟩ := step_move h
  cases h with
  | generated _ =>
    refine ⟨?_, fun r => ?_, hw.invalid, hw.checked, hw.abandoned⟩
    · rw [append_nil, ← hw.answered]
      rfl
    · rw [(places_generate w).mem_iff, mem_cons, hw.mem_places]
      change _ ↔ r < w.shared.nextSequence + 1
      omega
  | stopped => exact hw.of_calls (fun _ => .rfl) ⟨by simp, by simp, rfl, .inr ⟨rfl, rfl⟩⟩ hw.checked
  | main hstep =>
    have hmove := mainStep_move hstep
    refine hw.of_calls (fun r => ?_) hmove.promises fun d hd => hw.checked_append hmove.promises hd
    have hmem := hmove.mem_places (r := r)
    simp only [places, mem_append] at hmem ⊢
    rw [hmem]
  | @decode k op s d d' calls before after hk hbefore hworkers hstep =>
    have hmove := decodeStep_move hstep
    have hd : d ∈ w.decode := mem_of_getElem? hk
    refine hw.of_calls (fun r => ?_) hmove.promises fun other hother => ?_
    · have hmem := hmove.mem_places hw.invalid (hw.checked d hd) (r := r)
      simp only [places, hworkers, flatMap_append, flatMap_cons, mem_append] at hmem ⊢
      grind
    · obtain hother | rfl | hother : other ∈ before ∨ other = d' ∨ other ∈ after := by
        simpa using hother
      · exact hw.checked_append hmove.promises (by simp [hworkers, hother])
      · exact decodeStep_checked (hw.checked d hd) hstep
      · exact hw.checked_append hmove.promises (by simp [hworkers, hother])

theorem places_start (c : PoolConfig) : (start c).places = [] := by
  have : (start c).decode.flatMap held = [] := by
    refine flatMap_eq_nil_iff.mpr fun d hd => ?_
    rw [eq_of_mem_replicate hd]
    rfl
  rw [places, this]
  rfl

theorem Accounted.start (c : PoolConfig) : (start c).Accounted [] := by
  refine ⟨rfl, fun r => ?_, by simp [Workers.start], fun d hd => ?_, by simp [Workers.start]⟩
  · rw [places_start]
    exact iff_of_false not_mem_nil (Nat.not_lt_zero r)
  · rw [eq_of_mem_replicate hd]
    trivial

end Workers

end InferFlux.Scheduler
