import InferFlux.Scheduler.Workers
import Mathlib.Data.List.Perm.Basic
import Mathlib.Data.List.Nodup

/-!
# What the steps of the threads do

The steps of `Workers.lean` sorted by what they do to the requests: a thread passes requests on
between its hands and the queues, answers one of them, builds a batch, leaves its loop or ends by
an exception. `mainStep_move` and `decodeStep_move` say that there are no others.
-/

namespace InferFlux.Scheduler

open MainWorker Selected List Option Bool Shared

namespace Shared

def queued (s : Shared) : List Nat := s.pendingPrefill ++ s.pendingDecode

def withQueues (s : Shared) (pendingPrefill pendingDecode : List Nat) : Shared :=
  { s with pendingPrefill, pendingDecode }

end Shared

variable {c : PoolConfig} {s s' s'' : Shared} {calls : List Nat}

/-- A thread passes on requests that it holds or that are queued; `pushed` are those that it
pushes to the decode queue. -/
structure Passed (s : Shared) (held pushed : List Nat) (s' : Shared) (held' : List Nat) : Prop where
  frame : s' = s.withQueues s'.pendingPrefill s'.pendingDecode
  perm : (s'.queued ++ held').Perm (s.queued ++ held)
  decode : ∀ r ∈ s'.pendingDecode, r ∈ s.pendingDecode ∨ r ∈ pushed
  pushed : ∀ r ∈ pushed, r ∈ s'.pendingDecode

namespace Passed

variable {held held' held'' pushed requests : List Nat}

theorem kept (h : held'.Perm held) : Passed s held [] s held' :=
  ⟨rfl, h.append_left _, fun _ => .inl, by simp⟩

theorem pushDecode (h : held.Perm (requests ++ held')) :
    Passed s held requests (s.pushDecode requests) held' := by
  refine ⟨rfl, ?_, fun r hr => mem_append.mp hr, fun r hr => mem_append_right _ hr⟩
  have := (h.append_left s.queued).symm
  simpa only [Shared.queued, Shared.pushDecode, append_assoc] using this

theorem pushPrefill (h : held.Perm (requests ++ held')) :
    Passed s held [] (s.pushPrefill requests) held' := by
  refine ⟨rfl, perm_iff_count.mpr fun r => ?_, fun _ => .inl, by simp⟩
  have := h.count_eq r
  simp only [Shared.queued, Shared.pushPrefill, count_append] at this ⊢
  omega

theorem trans (h : Passed s held [] s' held') (h' : Passed s' held' pushed s'' held'') :
    Passed s held pushed s'' held'' := by
  refine ⟨?_, h'.perm.trans h.perm, fun r hr => ?_, h'.pushed⟩
  · rw [h'.frame, h.frame]
    rfl
  · obtain hr | hr := h'.decode r hr
    · exact (h.decode r hr).imp_right (by simp)
    · exact .inr hr

end Passed

variable {i r : Nat}

theorem count_eraseIdx {queue : List Nat} (h : queue[i]? = some r) (a : Nat) :
    (queue.eraseIdx i).count a + [r].count a = queue.count a := by
  obtain ⟨hi, rfl⟩ := List.getElem?_eq_some_iff.mp h
  have := (getElem_cons_eraseIdx_perm hi).count_eq a
  simp only [count_cons, count_nil] at this ⊢
  omega

theorem takeQueued_passed {fromDecode : Bool} {held : List Nat}
    (h : s.takeQueued fromDecode i = some (r, s')) : Passed s held [] s' (r :: held) := by
  cases fromDecode with
  | true =>
    obtain ⟨_, hr, heq⟩ := map_eq_some_iff.mp h
    cases heq
    refine ⟨rfl, perm_iff_count.mpr fun a => ?_, fun a ha => .inl (mem_of_mem_eraseIdx ha), by simp⟩
    have := count_eraseIdx hr a
    simp only [queued, count_append, count_cons, count_nil] at this ⊢
    omega
  | false =>
    obtain ⟨_, hr, heq⟩ := map_eq_some_iff.mp h
    cases heq
    refine ⟨rfl, perm_iff_count.mpr fun a => ?_, fun _ => .inl, by simp⟩
    have := count_eraseIdx hr a
    simp only [queued, count_append, count_cons, count_nil] at this ⊢
    omega

variable {batch : List Selected} {item : Selected}

theorem set_request_perm (h : batch[i]? = some item) (prefill : Bool) :
    (item.request :: (batch.set i ⟨r, prefill⟩).map request).Perm (r :: batch.map request) := by
  obtain ⟨hi, rfl⟩ := List.getElem?_eq_some_iff.mp h
  have hold := (getElem_cons_eraseIdx_perm hi).map request
  have hset : ((batch.set i ⟨r, prefill⟩).map request).Perm
      (r :: (batch.eraseIdx i).map request) := by
    have := (getElem_cons_eraseIdx_perm (l := batch.set i ⟨r, prefill⟩)
      (by simpa using hi)).map request
    rw [getElem_set_self, eraseIdx_set_eq] at this
    exact this.symm
  exact (hset.cons _).trans ((List.Perm.swap ..).trans (hold.cons r))

/-- A request that is done moves from the front of one list to the end of the next. -/
theorem append_concat_perm (r : Nat) (todo finished : List Nat) :
    (todo ++ (finished ++ [r])).Perm (r :: todo ++ finished) := by
  rw [← append_assoc]
  exact perm_append_singleton ..

/-! ## `WorkerLoop` -/

namespace MainWorker

def pushed : MainWorker → MainOp → List Nat
  | .selected batch, .applyFairness (some swap) =>
    (batch[swap.batchIndex]?).toList.flatMap fun item => if item.prefill then [] else [item.request]
  | .staging (item :: _) _ _ _, .stage .published => if item.prefill then [item.request] else []
  | .staging [] worker _ _, .handOver => worker
  | .publishing [] requeue, .requeue => requeue
  | _, _ => []

def target : MainWorker → MainOp → Option Nat
  | .staging (item :: _) _ _ _, .stage .rejected => if item.prefill then some item.request else none
  | .checking (r :: _) _, .check false => some r
  | .publishing (r :: _) _, .publish .finished => some r
  | _, _ => none

theorem pushed_throw (t : MainWorker) : t.pushed .throw = [] := by
  cases t with
  | staging todo _ _ _ => cases todo <;> rfl
  | publishing todo _ => cases todo <;> rfl
  | _ => rfl

def Dies (s : Shared) (t : MainWorker) (op : MainOp) : Prop :=
  op = .throw ∨ ∃ r ∈ t.target op, r ∈ s.answered

end MainWorker

/-- What a step of `WorkerLoop` does. -/
inductive MainMove (c : PoolConfig) (s : Shared) (t : MainWorker) (op : MainOp) :
    Shared → MainWorker → List Nat → Prop where
  | passed {s' : Shared} {t' : MainWorker} (hloop : t.inLoop) (hloop' : t'.inLoop)
    (hlive : ¬ t.Dies s op) (hheld : t.held = [] → t'.held = [])
    (h : Passed s t.held (t.pushed op) s' t'.held) : MainMove c s t op s' t' []
  | built {selection : List Selected} {t' : MainWorker} (ht : t = .waiting)
    (hop : op = .build selection) (hselectable : s.Selectable c selection)
    (hheld : t'.held = selection.map Selected.request) (hloop' : t'.inLoop) :
    MainMove c s t op (s.remove c selection) t' []
  | answered {t' : MainWorker} {r : Nat} (hloop : t.inLoop) (hloop' : t'.inLoop)
    (hlive : ¬ t.Dies s op) (hpushed : t.pushed op = []) (hheld : t.held.Perm (r :: t'.held))
    (hopen : r ∉ s.answered) :
    MainMove c s t op { s with answered := s.answered ++ [r] } t' [r]
  | ended (ht : t = .waiting) (hlive : ¬ t.Dies s op) (hpushed : t.pushed op = []) (hstop : s.stop)
    (hprefill : s.pendingPrefill = []) (hdecode : s.pendingDecode = []) :
    MainMove c s t op s .ended []
  | answeredTwice {r : Nat} {rest : List Nat} (hloop : t.inLoop) (hdies : t.Dies s op)
    (hpushed : t.pushed op = []) (hheld : t.held.Perm (r :: rest)) (hanswered : r ∈ s.answered) :
    MainMove c s t op ({ s with answered := s.answered ++ [r] }.abandon rest) .died [r]
  | died (hloop : t.inLoop) (hdies : t.Dies s op) (hpushed : t.pushed op = []) :
    MainMove c s t op (s.abandon t.held) .died []

namespace MainMove

variable {t t' : MainWorker} {op : MainOp} {requests : List Nat}

theorem kept (hloop : t.inLoop) (hloop' : t'.inLoop) (hlive : ¬ t.Dies s op)
    (hpushed : t.pushed op = []) (h : t'.held.Perm t.held) : MainMove c s t op s t' [] := by
  refine .passed hloop hloop' hlive (fun hnil => ?_) ?_
  · rw [hnil] at h
    exact h.eq_nil
  · rw [hpushed]
    exact .kept h

theorem eq_nil_of_perm_append {held held' : List Nat} (h : held.Perm (requests ++ held'))
    (hnil : held = []) : held' = [] := by
  rw [hnil] at h
  exact (append_eq_nil_iff.mp h.symm.eq_nil).2

theorem pushPrefill (hloop : t.inLoop) (hloop' : t'.inLoop) (hlive : ¬ t.Dies s op)
    (hpushed : t.pushed op = []) (h : t.held.Perm (requests ++ t'.held)) :
    MainMove c s t op (s.pushPrefill requests) t' [] := by
  refine .passed hloop hloop' hlive (eq_nil_of_perm_append h) ?_
  rw [hpushed]
  exact .pushPrefill h

theorem pushDecode (hloop : t.inLoop) (hloop' : t'.inLoop) (hlive : ¬ t.Dies s op)
    (hpushed : t.pushed op = requests) (h : t.held.Perm (requests ++ t'.held)) :
    MainMove c s t op (s.pushDecode requests) t' [] := by
  refine .passed hloop hloop' hlive (eq_nil_of_perm_append h) ?_
  rw [hpushed]
  exact .pushDecode h

end MainMove

variable {t t' : MainWorker} {op : MainOp}

theorem mainMove_setValue {next : MainWorker}
    (h : s.setValue r next .died next.held = (s', t', calls)) (hloop : t.inLoop)
    (hnext : next.inLoop) (hop : op ≠ .throw) (htarget : t.target op = some r)
    (hpushed : t.pushed op = []) (hheld : t.held.Perm (r :: next.held)) :
    MainMove c s t op s' t' calls := by
  simp only [setValue] at h
  split_ifs at h with hanswered
  · cases h
    exact .answeredTwice hloop (.inr ⟨r, htarget, hanswered⟩) hpushed hheld hanswered
  · cases h
    refine .answered hloop hnext ?_ hpushed hheld hanswered
    rintro (hthrow | ⟨r', hr', hmem⟩)
    · exact hop hthrow
    · cases htarget.symm.trans hr'
      exact hanswered hmem

theorem not_dies (hop : op ≠ .throw) (htarget : t.target op = none) : ¬ t.Dies s op := by
  simp [MainWorker.Dies, hop, htarget]

theorem applySwap_passed {batch' : List Selected} {swap : Swap}
    (h : s.applySwap batch swap = some (s', batch')) :
    Passed s (batch.map request)
      ((selected batch).pushed (.applyFairness (some swap))) s'
      (batch'.map request) := by
  obtain ⟨displaced, hdisplaced, h⟩ := bind_eq_some_iff.mp h
  obtain ⟨⟨queued, s₁⟩, hqueued, h⟩ := bind_eq_some_iff.mp h
  cases h
  refine (takeQueued_passed hqueued).trans ?_
  have hperm := (set_request_perm (r := queued) hdisplaced (swap.prefill && !swap.fromDecode)).symm
  simp only [pushed, hdisplaced, toList_some, flatMap_singleton]
  split_ifs
  · exact .pushPrefill hperm
  · exact .pushDecode hperm

theorem stageStep_move {todo : List Selected} {worker ready kept : List Nat} {fate : Fate}
    (h : stageStep c s item todo worker ready kept fate = some (s', t', calls)) :
    MainMove c s (.staging (item :: todo) worker ready kept) (.stage fate) s' t' calls := by
  have hlive (htarget : (staging (item :: todo) worker ready kept).target (.stage fate) =
      none) : ¬ (staging (item :: todo) worker ready kept).Dies s (.stage fate) :=
    not_dies MainOp.noConfusion htarget
  cases hphase : item.prefill with
  | false =>
    simp only [stageStep, hphase, Bool.not_false, if_true] at h
    split_ifs at h with hfate
    cases h
    subst hfate
    refine .kept rfl rfl (hlive rfl) rfl (perm_iff_count.mpr fun a => ?_)
    simp only [held, map_cons, count_append, count_cons, count_nil]
    omega
  | true =>
    simp only [stageStep, hphase, Bool.not_true, Bool.false_eq_true, if_false] at h
    cases fate with
    | kept =>
      cases h
      refine .kept rfl rfl (hlive rfl) rfl (perm_iff_count.mpr fun a => ?_)
      simp only [held, map_cons, count_append, count_cons, count_nil]
      omega
    | rejected =>
      exact mainMove_setValue (some.inj h) rfl rfl MainOp.noConfusion
        (by simp [target, hphase]) rfl (.refl _)
    | retried =>
      obtain ⟨_, h⟩ := ite_none_right_eq_some.mp h
      cases h
      exact .pushPrefill rfl rfl (hlive rfl) rfl (.refl _)
    | published =>
      obtain ⟨_, h⟩ := ite_none_right_eq_some.mp h
      cases h
      exact .pushDecode rfl rfl (hlive rfl) (by simp [pushed, hphase]) (.refl _)
    | handedOver =>
      obtain ⟨_, h⟩ := ite_none_right_eq_some.mp h
      cases h
      refine .kept rfl rfl (hlive rfl) rfl (perm_iff_count.mpr fun a => ?_)
      simp only [held, map_cons, count_append, count_cons, count_nil]
      omega

theorem buildStep_move {selection : List Selected}
    (h : mainStep c s .waiting (.build selection) = some (s', t', calls)) :
    MainMove c s .waiting (.build selection) s' t' calls := by
  simp only [mainStep] at h
  split_ifs at h with _ hexit _ hselectable hempty
  · cases h
    simp only [and_eq_true, List.isEmpty_iff] at hexit
    exact .ended rfl (not_dies MainOp.noConfusion rfl) rfl hexit.1.1 hexit.1.2 hexit.2
  · cases h
    refine .built rfl rfl hselectable ?_ rfl
    rw [isEmpty_iff.mp hempty]
    rfl
  · cases h
    exact .built rfl rfl hselectable rfl rfl

variable {todo requeue : List Nat} {outcome : Outcome}

theorem publishStep_move
    (h : mainStep c s (.publishing (r :: todo) requeue) (.publish outcome) = some (s', t', calls)) :
    MainMove c s (.publishing (r :: todo) requeue) (.publish outcome) s' t' calls := by
  cases outcome with
  | finished =>
    exact mainMove_setValue (some.inj h) rfl rfl MainOp.noConfusion rfl rfl (.refl _)
  | yielded =>
    cases h
    exact .kept rfl rfl (not_dies MainOp.noConfusion rfl) rfl (append_concat_perm ..)
  | sliced =>
    simp only [mainStep] at h
    split_ifs at h
    cases h
    exact .pushPrefill rfl rfl (not_dies MainOp.noConfusion rfl) rfl (.refl _)
  | active => cases h

theorem mainStep_move (h : mainStep c s t op = some (s', t', calls)) :
    MainMove c s t op s' t' calls := by
  unfold mainStep at h
  split at h
  · exact buildStep_move h
  · cases h
    refine .kept rfl rfl (not_dies MainOp.noConfusion rfl) rfl ?_
    simp [held]
  · obtain ⟨⟨s₁, batch'⟩, hswap, heq⟩ := map_eq_some_iff.mp h
    cases heq
    refine .passed rfl rfl (not_dies MainOp.noConfusion rfl) (fun hheld => ?_) ?_
    · -- the batch has the request that is displaced
      obtain ⟨displaced, hdisplaced, _⟩ := bind_eq_some_iff.mp hswap
      rw [map_eq_nil_iff.mp hheld] at hdisplaced
      cases hdisplaced
    · simpa [held] using applySwap_passed hswap
  · exact stageStep_move h
  · cases h
    refine .pushDecode rfl ?_ (not_dies MainOp.noConfusion rfl) rfl ?_
    · split_ifs <;> rfl
    · split_ifs with hempty <;> simp_all [held]
  · split_ifs at h with haccepted
    · cases h
      subst haccepted
      exact .kept rfl rfl (not_dies MainOp.noConfusion rfl) rfl (append_concat_perm ..)
    · obtain rfl := eq_false_iff.mpr haccepted
      exact mainMove_setValue (some.inj h) rfl rfl MainOp.noConfusion rfl rfl (.refl _)
  · cases h
    refine .kept rfl ?_ (not_dies MainOp.noConfusion rfl) rfl ?_
    · split_ifs <;> rfl
    · split_ifs with hempty <;> simp_all [held]
  · exact publishStep_move h
  · cases h
    refine .pushDecode rfl rfl (not_dies MainOp.noConfusion rfl) rfl ?_
    simp [held]
  · split_ifs at h with hloop
    cases h
    exact .died hloop (.inl rfl) (pushed_throw _)
  · cases h

/-! ## `DecodeWorkerLoop` -/

namespace DecodeWorker

def target : DecodeWorker → DecodeOp → Option Nat
  | .checking _ (r :: _) _, .check false => some r
  | .publishing _ (r :: _) _ _, .publish .finished => some r
  | _, _ => none

/-- The step takes the worker out of its loop: by an exception, or because the scheduler stops
and the worker finds nothing to do. -/
def Leaves (s : Shared) (d : DecodeWorker) (op : DecodeOp) : Prop :=
  op = .throw ∨ (∃ r ∈ d.target op, r ∈ s.answered) ∨
    d = .waiting [] ∧ s.stop ∧ s.pendingDecode = [] ∧ ∃ compatible, op = .pick compatible false

end DecodeWorker

/-- The step is none of those that decide whether the worker goes on. -/
def DecodeOp.inPass : DecodeOp → Bool
  | .throw | .pick _ _ => false
  | _ => true

inductive DecodeMove (s : Shared) (d : DecodeWorker) (op : DecodeOp) :
    Shared → DecodeWorker → List Nat → Prop where
  | passed {s' : Shared} {d' : DecodeWorker} {pushed : List Nat} (hloop : d.inLoop)
    (hloop' : d'.inLoop) (hstays : ¬ d.Leaves s op)
    (hprefill : s'.pendingPrefill = s.pendingPrefill) (h : Passed s d.held pushed s' d'.held) :
    DecodeMove s d op s' d' []
  | rejectedAll {batch : List Nat} {stepwise : Bool} (hd : d = .checking batch [] [])
    (hop : op = .execute stepwise) : DecodeMove s d op s (.waiting batch) []
  | answered {d' : DecodeWorker} {r : Nat} (hloop : d.inLoop) (hloop' : d'.inLoop)
    (hstays : ¬ d.Leaves s op) (hheld : d.held.Perm (r :: d'.held)) (hopen : r ∉ s.answered) :
    DecodeMove s d op { s with answered := s.answered ++ [r] } d' [r]
  | left (hd : d = .waiting []) (hleaves : d.Leaves s op) : DecodeMove s d op s .leaving []
  | answeredTwice {r : Nat} {rest : List Nat} (hloop : d.inLoop) (hleaves : d.Leaves s op)
    (hheld : d.held.Perm (r :: rest)) (hanswered : r ∈ s.answered) :
    DecodeMove s d op ({ s with answered := s.answered ++ [r] }.abandon rest) .leaving [r]
  | died (hloop : d.inLoop) (hleaves : d.Leaves s op) :
    DecodeMove s d op (s.abandon d.held) .leaving []
  | failed (hd : d = .leaving) (hstays : ¬ d.Leaves s op)
    (hopen : ∀ r ∈ s.failCalls, r ∉ s.answered) :
    DecodeMove s d op
      { s.withQueues [] [] with
        answered := s.answered ++ s.failCalls, invalid := s.invalid ++ s.failCalls } .ended s.failCalls
  | terminated {r : Nat} {calls : List Nat} (hd : d = .leaving) (hstays : ¬ d.Leaves s op)
    (hr : r ∈ s.queued) (hanswered : r ∈ s.answered) (hcalls : calls ⊆ s.queued) :
    DecodeMove s d op { s with answered := s.answered ++ calls, terminated := true } .leaving calls

variable {d d' : DecodeWorker} {op : DecodeOp}

theorem decodeMove_setValue {next : DecodeWorker}
    (h : s.setValue r next .leaving next.held = (s', d', calls)) (hloop : d.inLoop)
    (hnext : next.inLoop) (hop : op.inPass) (htarget : d.target op = some r)
    (hheld : d.held.Perm (r :: next.held)) : DecodeMove s d op s' d' calls := by
  simp only [setValue] at h
  split_ifs at h with hanswered
  · cases h
    exact .answeredTwice hloop (.inr (.inl ⟨r, htarget, hanswered⟩)) hheld hanswered
  · cases h
    refine .answered hloop hnext ?_ hheld hanswered
    rintro (rfl | ⟨r', hr', hmem⟩ | ⟨_, _, _, _, rfl⟩)
    · cases hop
    · cases htarget.symm.trans hr'
      exact hanswered hmem
    · cases hop

theorem not_leaves (hop : op.inPass) (htarget : d.target op = none) : ¬ d.Leaves s op := by
  rintro (rfl | ⟨r, hr, _⟩ | ⟨_, _, _, _, rfl⟩)
  · cases hop
  · cases htarget.symm.trans hr
  · cases hop

theorem appendCompatible_perm (compatible : Nat → Bool) (queue : List Nat) (places : Nat) :
    ((appendCompatible compatible queue places).1 ++
      (appendCompatible compatible queue places).2).Perm queue := by
  fun_induction appendCompatible compatible queue places with
  | case1 => exact .refl _
  | case2 => exact .refl _
  | case3 r queue places hfits joined left heq ih =>
    rw [heq] at ih
    exact ih.cons r
  | case4 r queue places hfits joined left heq ih =>
    rw [heq] at ih
    exact perm_middle.trans (ih.cons r)

theorem takeDecode_passed (held taken : List Nat) {left : List Nat}
    (h : (taken ++ left).Perm s.pendingDecode) :
    Passed s held left { s with pendingDecode := left } (held ++ taken) := by
  refine ⟨rfl, perm_iff_count.mpr fun a => ?_, fun _ => .inr, fun _ => id⟩
  have := h.count_eq a
  simp only [queued, count_append] at this ⊢
  omega

theorem pickStep_move {batch : List Nat} {compatible : Nat → Bool} {transportWork : Bool}
    (h : decodeStep c s (.waiting batch) (.pick compatible transportWork) = some (s', d', calls)) :
    DecodeMove s (.waiting batch) (.pick compatible transportWork) s' d' calls := by
  simp only [decodeStep] at h
  split_ifs at h with hwait hexit hempty htaken
  · cases h
    simp only [and_eq_true, List.isEmpty_iff, not_eq_true'] at hexit
    obtain ⟨⟨⟨hstop, rfl⟩, hdecode⟩, rfl⟩ := hexit
    exact .left rfl (.inr (.inr ⟨rfl, hstop, hdecode, compatible, rfl⟩))
  all_goals
    have hstays : ¬ (DecodeWorker.waiting batch).Leaves s (.pick compatible transportWork) := by
      rintro (hthrow | ⟨r, hr, _⟩ | ⟨hd, hstop, hdecode, _, heq⟩)
      · cases hthrow
      · cases hr
      · cases hd
        cases heq
        simp [hstop, hdecode] at hexit
    have hqueue := take_append_drop c.maxBatchSize s.pendingDecode
    cases h
  · obtain rfl := isEmpty_iff.mp hempty
    rw [isEmpty_iff.mp htaken] at hqueue
    exact .passed rfl rfl hstays rfl (takeDecode_passed [] [] (by rw [hqueue]))
  · obtain rfl := isEmpty_iff.mp hempty
    exact .passed rfl rfl hstays rfl (takeDecode_passed [] _ (by rw [hqueue]))
  · exact .passed rfl rfl hstays rfl (takeDecode_passed _ _ (appendCompatible_perm ..))

theorem decodePublish_move {stepwise : Bool} {active : List Nat}
    (h : decodeStep c s (.publishing stepwise (r :: todo) active requeue) (.publish outcome) =
      some (s', d', calls)) :
    DecodeMove s (.publishing stepwise (r :: todo) active requeue) (.publish outcome) s' d' calls := by
  have hreorder {held' : List Nat}
      (h : ∀ a, held'.count a = (r :: (todo ++ active ++ requeue)).count a) :
      Passed s (DecodeWorker.publishing stepwise (r :: todo) active requeue).held [] s held' :=
    .kept (perm_iff_count.mpr h)
  cases outcome with
  | finished =>
    exact decodeMove_setValue (some.inj h) rfl rfl rfl rfl (.refl _)
  | yielded | active =>
    simp only [decodeStep] at h
    split_ifs at h
    cases h
    refine .passed rfl rfl (not_leaves rfl rfl) rfl (hreorder fun a => ?_)
    simp only [DecodeWorker.held, count_append, count_cons, count_nil]
    omega
  | sliced => cases h

theorem mem_failCalls : r ∈ s.failCalls ↔ r ∈ s.queued ∧ r ∉ s.invalid := by
  simp [failCalls, queued]

theorem failAll_move (h : s.failAllQueued = (s', d', calls)) :
    DecodeMove s .leaving .failAll s' d' calls := by
  have hstays : ¬ DecodeWorker.leaving.Leaves s .failAll :=
    not_leaves rfl rfl
  unfold failAllQueued at h
  split at h
  · rename_i hfind
    cases h
    exact .failed rfl hstays fun r hr => by simpa using find?_eq_none.mp hfind r hr
  · rename_i r hfind
    cases h
    have hmem := mem_failCalls.mp (mem_of_find?_eq_some hfind)
    have hanswered := find?_some hfind
    refine .terminated rfl hstays hmem.1 (by simpa using hanswered) fun a ha => ?_
    obtain ha | ha := mem_append.mp ha
    · exact (mem_failCalls.mp ((takeWhile_sublist _).subset ha)).1
    · rw [mem_singleton.mp ha]
      exact hmem.1

theorem decodeStep_move (h : decodeStep c s d op = some (s', d', calls)) :
    DecodeMove s d op s' d' calls := by
  unfold decodeStep at h
  split at h
  · exact pickStep_move h
  · cases h
    refine .passed rfl rfl (not_leaves rfl rfl) rfl (.kept ?_)
    simp [DecodeWorker.held]
  · cases h
    refine .passed rfl rfl (not_leaves rfl rfl) rfl (.kept ?_)
    simp [DecodeWorker.held]
  · split_ifs at h with haccepted
    · cases h
      subst haccepted
      exact .passed rfl rfl (not_leaves rfl rfl) rfl (.kept (append_concat_perm ..))
    · obtain rfl := eq_false_iff.mpr haccepted
      exact decodeMove_setValue (some.inj h) rfl rfl rfl rfl (.refl _)
  · split_ifs at h with hempty
    · cases h
      obtain rfl := isEmpty_iff.mp hempty
      exact .rejectedAll rfl rfl
    · cases h
      refine .passed rfl rfl (not_leaves rfl rfl) rfl (.kept ?_)
      simp [DecodeWorker.held]
  · exact decodePublish_move (c := c) h
  · cases h
    refine .passed rfl rfl (not_leaves rfl rfl) rfl (.pushDecode ?_)
    simpa [DecodeWorker.held] using perm_append_comm
  · exact failAll_move (some.inj h)
  · split_ifs at h with hloop
    cases h
    exact .died hloop (.inl rfl)
  · cases h

/-- A step keeps the worker in its loop, takes it out of the loop, or ends it. -/
theorem DecodeMove.loop (h : DecodeMove s d op s' d' calls) :
    (¬ d.Leaves s op ∧ d.inLoop ∧ d'.inLoop) ∨
      (d.Leaves s op ∧ d.inLoop ∧ d' = .leaving ∧ s'.queued = s.queued) ∨
      d = .leaving ∧ (d' = .leaving ∨ d' = .ended ∧ s'.queued = []) := by
  cases h with
  | passed hloop hloop' hstays _ _
  | answered hloop hloop' hstays _ _ => exact .inl ⟨hstays, hloop, hloop'⟩
  | rejectedAll hd hop =>
    subst hd hop
    exact .inl ⟨not_leaves rfl rfl, rfl, rfl⟩
  | left hd hleaves => exact .inr (.inl ⟨hleaves, by rw [hd]; rfl, rfl, rfl⟩)
  | answeredTwice hloop hleaves _ _
  | died hloop hleaves => exact .inr (.inl ⟨hleaves, hloop, rfl, rfl⟩)
  | failed hd _ _ => exact .inr (.inr ⟨hd, .inr ⟨rfl, rfl⟩⟩)
  | terminated hd _ _ _ _ => exact .inr (.inr ⟨hd, .inl rfl⟩)

/-! ## The system -/

inductive Workers.Move (c : PoolConfig) (w : Workers) : WorkerOp → Workers → List Nat → Prop where
  | generated (hstop : w.shared.stop = false) :
    Move c w .generate
      { w with
        shared :=
          { w.shared.pushPrefill [w.shared.nextSequence] with
            nextSequence := w.shared.nextSequence + 1 } } []
  | stopped : Move c w .stop { w with shared := { w.shared with stop := true } } []
  | main {op : MainOp} {s : Shared} {t : MainWorker} {calls : List Nat}
    (hstep : mainStep c w.shared w.main op = some (s, t, calls)) :
    Move c w (.main op) { w with shared := s, main := t } calls
  | decode {k : Nat} {op : DecodeOp} {s : Shared} {d d' : DecodeWorker} {calls : List Nat}
    {before after : List DecodeWorker} (hk : w.decode[k]? = some d) (hbefore : before.length = k)
    (hworkers : w.decode = before ++ d :: after)
    (hstep : decodeStep c w.shared d op = some (s, d', calls)) :
    Move c w (.decode k op) { w with shared := s, decode := before ++ d' :: after } calls

theorem Workers.step_move {w w' : Workers} {op : WorkerOp} (h : w.step c op = some (w', calls)) :
    w.shared.terminated = false ∧ w.Move c op w' calls := by
  obtain ⟨hlive, h⟩ := ite_none_left_eq_some.mp h
  refine ⟨by simpa using hlive, ?_⟩
  cases op with
  | generate =>
    obtain ⟨hstop, h⟩ := ite_none_left_eq_some.mp h
    cases h
    exact .generated (by simpa using hstop)
  | stop =>
    cases h
    exact .stopped
  | main op =>
    obtain ⟨⟨s, t, calls⟩, hstep, heq⟩ := bind_eq_some_iff.mp h
    cases heq
    exact .main hstep
  | decode k op =>
    obtain ⟨d, hk, h⟩ := bind_eq_some_iff.mp h
    obtain ⟨⟨s, d', calls⟩, hstep, heq⟩ := bind_eq_some_iff.mp h
    cases heq
    obtain ⟨hlt, rfl⟩ := List.getElem?_eq_some_iff.mp hk
    have hset : w.decode.set k d' = _ := set_eq_take_append_cons_drop
    rw [if_pos hlt] at hset
    rw [hset]
    exact .decode hk (by simp [Nat.le_of_lt hlt]) (by simp) hstep

end InferFlux.Scheduler
