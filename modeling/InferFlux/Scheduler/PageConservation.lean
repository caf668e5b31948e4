import Mathlib.Data.Multiset.OrderedMonoid
import InferFlux.Execution.BatchRounds
import InferFlux.Library.Ledger
import InferFlux.Scheduler.ProcessBatch

/-!
# Conservation of KV pages

Every page reference taken for a request should be given up exactly once, or go to the
prefix cache, by the time its promise is set. The ledger of a request is the list of its page
events. Staging keeps it in step with the block table, and so does the publication of a
request that has a sequence slot. `ExecuteRequest` does not: it writes the page it reserves
over the block table, whose pages are then never released, and if it throws in a request
without a slot its page stays behind. `pages_settled_iff` says that these are the only losses.
-/

namespace InferFlux.Scheduler

open InferFlux.Execution Ledger InferenceRequest PendingRequest Multiset Option LoggedRun

def entry : PageEvent → Entry Int
  | .reserved pages => .take pages
  | .acquired pages => .take pages
  | .released pages => .give pages
  | .transferred pages => .give pages

def Moves (held : Multiset Int) (events : List PageEvent) (held' : Multiset Int) : Prop :=
  Posts held (events.map entry) held'

variable {held' : Multiset Int} {events : List PageEvent}

theorem Moves.append {held held'' : Multiset Int} {events' : List PageEvent}
    (h : Moves held events held') (h' : Moves held' events' held'') :
    Moves held (events ++ events') held'' := by
  rw [Moves, List.map_append]
  exact Posts.append h h'

theorem Moves.frame {held : Multiset Int} (h : Moves held events held') (other : Multiset Int) :
    Moves (held + other) events (held' + other) :=
  Posts.frame h other

theorem moves_nil (held : Multiset Int) : Moves held [] held := Posts.nil held

theorem moves_reserved (pages : List Int) : Moves 0 [.reserved pages] (Multiset.ofList pages) := by
  simpa [Moves, entry] using Posts.take 0 pages

theorem moves_acquired (held : Multiset Int) (pages : List Int) :
    Moves held [.acquired pages] (held + Multiset.ofList pages) := Posts.take held pages

theorem moves_released (held : Multiset Int) (pages : List Int) :
    Moves (held + Multiset.ofList pages) [.released pages] held := Posts.give held pages

theorem moves_released_all (pages : List Int) :
    Moves (Multiset.ofList pages) [.released pages] 0 := by
  simpa using moves_released 0 pages

/-! ## The unified phased executor leaves the pages alone -/

/-- The fields of a request that decide what is done with its pages. -/
def holding (req : InferenceRequest) : List Int × Int × Bool :=
  (req.blockTable, req.sequenceId, req.embeddingRequest)

theorem seedSlot_holding (tuning : UnifiedBatchTuning) (req : InferenceRequest) :
    holding (seedSlot tuning req).req = holding req := by
  have happend (piece completion : Text.Bytes) : holding (appendGeneratedPiece
      (planFairnessSlice req {} tuning.decodeBurstTokens).2.1 piece completion).2.1 = holding req := by
    obtain ⟨streamed, a, h⟩ := appendGeneratedPiece_frame _ piece completion
    rw [h]
    rfl
  simp only [seedSlot]
  split_ifs
  iterate 3 exact happend _ _
  iterate 4 rfl

theorem finalize_holding (slot : Slot) : holding slot.finalize.req = holding slot.req := by
  simp only [Slot.finalize, finalizeFairnessSlice, finishGeneratedText_eq,
    updateRemaining, accumulateOutput]
  split_ifs <;> rfl

theorem slotMove_holding {cap : Int} {slot next : Slot} {input : Option UnifiedBatchInput}
    (hmove : SlotMove cap slot input next) : holding next.req = holding slot.req := by
  cases hmove with
  | idle => rw [Slot.buildInput_req]
  | answered _ res =>
    obtain ⟨_, _, _, _, _, _, h⟩ := slot.consumeOutput_req _ res
    rw [h]
    rfl
  | failed => rfl

theorem unifiedLoop_holding {σ : Type} (env : BatchEnv σ) (req : InferenceRequest) (rounds : Nat) :
    ∃ last, (unifiedLoop env.unified env.tuning rounds
        ((env.groupBefore ++ req :: env.groupAfter).map (seedSlot env.tuning))
        env.unifiedState).1[env.groupBefore.length]? = some last ∧
      holding last.req = holding req := by
  have hseed : ((env.groupBefore ++ req :: env.groupAfter).map
      (seedSlot env.tuning))[env.groupBefore.length]? = some (seedSlot env.tuning req) := by simp
  obtain ⟨inputs, last, hlast, hrun⟩ :=
    unifiedLoop_run env.unified env.tuning rounds env.unifiedState hseed
  refine ⟨last, hlast, hrun.invariant (P := fun slot => holding slot.req = holding req)
    (fun _ _ h => h) (fun _ _ _ _ _ h hmove => ?_) (seedSlot_holding env.tuning req)⟩
  exact (slotMove_holding hmove).trans h

/-! ## The one-request executor -/

def reservedPage : Option (Except String Int) → Option Int
  | some (.ok page) => if page ≥ 0 then some page else none
  | _ => none

def takenPage (env : ExecutorEnv) (req : InferenceRequest) : Option Int :=
  if req.cancellationFlag || req.embeddingRequest then none else reservedPage env.reservePage

variable {page : Int} {reservePage : Option (Except String Int)}

theorem reserveKvPage_of_some (h : reservedPage reservePage = some page) (req : InferenceRequest) :
    0 ≤ page ∧
      req.reserveKvPage reservePage = (page, { req with blockTable := [page] }, [.reserved [page]]) := by
  unfold reservedPage at h
  split at h
  · split_ifs at h with hpos
    obtain rfl := some.inj h
    exact ⟨hpos, by simp [reserveKvPage, if_pos hpos]⟩
  · simp at h

theorem reserveKvPage_of_none (h : reservedPage reservePage = none) (req : InferenceRequest) :
    ∃ kvPage < 0, req.reserveKvPage reservePage = (kvPage, req, []) := by
  match reservePage with
  | none => exact ⟨-1, by omega, rfl⟩
  | some (.error _) => exact ⟨-1, by omega, rfl⟩
  | some (.ok page) =>
    simp only [reservedPage] at h
    split_ifs at h with hpos
    exact ⟨page, by omega, by simp [reserveKvPage, if_neg hpos]⟩

theorem preparePass_pages (req : InferenceRequest) (env : ExecutorEnv)
    (backend : Option TextBackend) (hcancel : req.cancellationFlag = false)
    (hembed : req.embeddingRequest = false) :
    let pass := req.preparePass env backend
    pass.2.1.sequenceId = req.sequenceId ∧ pass.2.1.embeddingRequest = req.embeddingRequest ∧
      match takenPage env req with
      | some page => 0 ≤ page ∧ pass.1 = page ∧ pass.2.1.blockTable = [page] ∧
          pass.2.2 = [.reserved [page]]
      | none => pass.1 < 0 ∧ pass.2.1.blockTable = req.blockTable ∧ pass.2.2 = [] := by
  have hcharge (r : InferenceRequest) (n : Int) : holding (r.chargePrompt n) = holding r := by
    unfold chargePrompt
    split_ifs <;> rfl
  have hprompt : holding (req.consumeTimeslice.chargePrompt (req.consumeTimeslice.countPrompt backend)) =
      holding req := hcharge _ _
  have htaken : takenPage env req = reservedPage env.reservePage := by
    simp [takenPage, hcancel, hembed]
  simp only [holding, Prod.mk.injEq] at hprompt
  obtain ⟨htable, hseq, hembedding⟩ := hprompt
  simp only [preparePass, htaken]
  generalize req.consumeTimeslice.chargePrompt (req.consumeTimeslice.countPrompt backend) = charged
    at htable hseq hembedding
  cases hpage : reservedPage env.reservePage with
  | some page =>
    obtain ⟨hpos, hreserve⟩ := reserveKvPage_of_some hpage charged
    rw [hreserve]
    exact ⟨hseq, hembedding, hpos, rfl, rfl, rfl⟩
  | none =>
    obtain ⟨kvPage, hneg, hreserve⟩ := reserveKvPage_of_none hpage charged
    rw [hreserve]
    exact ⟨hseq, hembedding, hneg, htable, rfl⟩

variable (env : ExecutorEnv)

theorem passText_holding (backend : Option TextBackend) (req : InferenceRequest) (limit : Int) :
    holding (passText env backend req limit).req = holding req := by
  have hcall (b : TextBackend) : holding (req.generateCall b limit).2 = holding req := by
    simp only [generateCall]
    split_ifs <;> rfl
  simp only [passText]
  split
  · rfl
  · split
    · split_ifs <;> exact hcall _
    · rfl

theorem finishPass_pages (backend : Option TextBackend) (limit sliceLimit kvPage : Int)
    (reserved : List PageEvent) (result : InferenceResult) (pass : PassText) :
    let outcome := finishPass env backend limit sliceLimit kvPage reserved result pass
    outcome.req.sequenceId = pass.req.sequenceId ∧
      outcome.req.embeddingRequest = pass.req.embeddingRequest ∧
      outcome.pages = reserved ++ (pass.req.releaseKvPage kvPage).2 ∧
      outcome.req.blockTable = (pass.req.releaseKvPage kvPage).1.blockTable := by
  simp only [finishPass, releaseKvPage]
  split
  · split_ifs <;> exact ⟨rfl, rfl, rfl, rfl⟩
  · simp only [accumulateOutput, updateRemaining]
    split_ifs <;> exact ⟨rfl, rfl, rfl, rfl⟩

/-- What a pass leaves behind: the page it reserves is given back, and the block table it
finds is gone. -/
def PassPages (env : ExecutorEnv) (req : InferenceRequest) (outcome : ExecutionOutcome) : Prop :=
  outcome.req.sequenceId = req.sequenceId ∧
    outcome.req.embeddingRequest = req.embeddingRequest ∧
    match takenPage env req with
    | some page => outcome.pages = [.reserved [page], .released [page]] ∧ outcome.req.blockTable = []
    | none => outcome.pages = [] ∧ outcome.req.blockTable = req.blockTable

theorem runPass_pages (backend : Option TextBackend) (req : InferenceRequest)
    (limit sliceLimit : Int) (result : InferenceResult) (hcancel : req.cancellationFlag = false)
    (hembed : req.embeddingRequest = false) : let pass := req.preparePass env backend
    PassPages env req (finishPass env backend limit sliceLimit pass.1 pass.2.2 result
      (passText env backend pass.2.1 limit)) := by
  intro pass
  obtain ⟨hseq, hemb, hpage⟩ := preparePass_pages req env backend hcancel hembed
  have htext := passText_holding env backend pass.2.1 limit
  simp only [holding, Prod.mk.injEq] at htext
  obtain ⟨hseq', hemb', hpages, htable⟩ := finishPass_pages env backend limit sliceLimit pass.1
    pass.2.2 result (passText env backend pass.2.1 limit)
  refine ⟨hseq'.trans (htext.2.1.trans hseq), hemb'.trans (htext.2.2.trans hemb), ?_⟩
  rw [hpages, htable]
  cases htaken : takenPage env req with
  | some page =>
    rw [htaken] at hpage
    obtain ⟨hpos, hkv, hbound, hreserved⟩ := hpage
    simp only [pass, releaseKvPage, hkv, hreserved, ge_iff_le, if_pos hpos]
    refine ⟨?_, trivial⟩
    rw [htext.1, hbound]
    rfl
  | none =>
    rw [htaken] at hpage
    obtain ⟨hneg, hbound, hreserved⟩ := hpage
    have hno : ¬ pass.1 ≥ 0 := Int.not_le.mpr hneg
    simp only [releaseKvPage, if_neg hno]
    exact ⟨by simp [pass, hreserved], htext.1.trans hbound⟩

theorem executeRequest_pages (backend : Option TextBackend) (req : InferenceRequest) :
    PassPages env req (executeRequest env backend req) := by
  simp only [executeRequest]
  split_ifs with hcancel hembed
  · have hnone : takenPage env req = none := by
      have : req.cancellationFlag = true := hcancel
      simp [takenPage, this]
    simp [PassPages, hnone, setPhase, clearYielded]
  · have hnone : takenPage env req = none := by
      have : req.embeddingRequest = true := hembed
      simp [takenPage, this]
    simp [PassPages, hnone, setPhase, clearYielded]
  · have hpass := runPass_pages env backend req.clearYielded
    exact hpass _ _ _ (by simpa using hcancel) (by simpa using hembed)

/-! ## Staging -/

/-- A request that holds pages has a sequence slot, is no embedding request, and there is a
cache. -/
structure Consistent (parts : Components) (req : InferenceRequest) : Prop where
  sequence : req.blockTable ≠ [] → 0 ≤ req.sequenceId
  embedding : req.embeddingRequest = true → req.blockTable = []
  cache : parts.cache = false → req.blockTable = []

variable {parts : Components} {req : InferenceRequest}

theorem Consistent.of_nil (h : req.blockTable = []) : Consistent parts req :=
  ⟨fun hne => absurd h hne, fun _ => h, fun _ => h⟩

variable {req' : InferenceRequest}

theorem Consistent.of_holding (h : Consistent parts req) (hsame : holding req' = holding req) :
    Consistent parts req' := by
  simp only [holding, Prod.mk.injEq] at hsame
  obtain ⟨htable, hseq, hembed⟩ := hsame
  refine ⟨?_, ?_, ?_⟩
  · rw [htable, hseq]
    exact h.sequence
  · rw [htable, hembed]
    exact h.embedding
  · rw [htable]
    exact h.cache

theorem reserve_moves (parts : Components) (env : AdmissionEnv) (inf : InferenceRequest) :
    Moves 0 (reserve parts env inf).pages (Multiset.ofList (reserve parts env inf).newBlocks) := by
  simp only [reserve]
  split_ifs
  all_goals
    first
    | exact moves_reserved _
    | exact (moves_reserved _).append ((moves_released_all _).append (moves_reserved _))

theorem reserve_without_cache (h : parts.cache = false) (env : AdmissionEnv)
    (inf : InferenceRequest) : (reserve parts env inf).newBlocks = [] := by
  simp only [reserve, h, Bool.false_and, Bool.false_eq_true, if_false]
  split_ifs <;> rfl

variable {inf : InferenceRequest}

theorem releaseSequence_moves (h : parts.cache = false → inf.blockTable = []) :
    Moves (Multiset.ofList inf.blockTable) (releaseSequence parts inf).2 0 := by
  simp only [releaseSequence]
  cases hcache : parts.cache with
  | true => exact moves_released_all _
  | false =>
    rw [h hcache]
    exact moves_nil 0

theorem startPrefill_moves {env : AdmissionEnv} {r : Reservation} (hseq : 0 ≤ env.seqId)
    (hembed : inf.embeddingRequest = false) (hcache : parts.cache = false → inf.blockTable = []) :
    Moves (Multiset.ofList inf.blockTable) (startPrefill parts env r inf).2
        (Multiset.ofList (startPrefill parts env r inf).1.blockTable) ∧
      Consistent parts (startPrefill parts env r inf).1 := by
  have hkeeps {req : InferenceRequest} (htable : req.blockTable = inf.blockTable)
      (hid : req.sequenceId = env.seqId) (hemb : req.embeddingRequest = inf.embeddingRequest) :
      Moves (ofList inf.blockTable) [] (ofList req.blockTable) ∧ Consistent parts req := by
    refine ⟨htable ▸ moves_nil _, fun _ => hid ▸ hseq, fun h => ?_, htable ▸ hcache⟩
    rw [hemb, hembed] at h
    cases h
  simp only [startPrefill]
  split_ifs
  · exact hkeeps rfl rfl rfl
  · exact hkeeps rfl rfl rfl
  · exact ⟨releaseSequence_moves hcache, .of_nil rfl⟩

theorem admitPhased_moves (parts : Components) (env : AdmissionEnv) (inf : InferenceRequest)
    (htable : inf.blockTable = []) (hembed : inf.embeddingRequest = false) :
    Moves 0 (admitPhased parts env inf).2
        (Multiset.ofList (admitPhased parts env inf).1.blockTable) ∧
      Consistent parts (admitPhased parts env inf).1 := by
  have hreserve := reserve_moves parts env inf
  have hnone (h : parts.cache = false) := reserve_without_cache h env inf
  simp only [admitPhased]
  generalize reserve parts env inf = r at hreserve hnone
  split_ifs with hadmit hcache
  · have hseq : 0 ≤ env.seqId := by
      simp only [canAdmit, Bool.and_eq_true, decide_eq_true_eq] at hadmit
      exact hadmit.1
    have hbind : Moves (ofList r.newBlocks) (bindBlocks parts r inf).2
          (ofList (bindBlocks parts r inf).1.blockTable) ∧
        (bindBlocks parts r inf).1.embeddingRequest = inf.embeddingRequest ∧
        (parts.cache = false → (bindBlocks parts r inf).1.blockTable = []) := by
      simp only [bindBlocks]
      split_ifs with hcache
      · refine ⟨?_, rfl, fun h => absurd hcache (by simp [h])⟩
        have := moves_acquired (ofList r.newBlocks) r.lookup.blockTable
        rwa [add_comm, coe_add] at this
      · rw [hnone (by simpa using hcache), htable]
        exact ⟨moves_nil _, rfl, fun _ => rfl⟩
    obtain ⟨hbound, hemb, hcache⟩ := hbind
    obtain ⟨hstart, hconsistent⟩ := startPrefill_moves (r := r) hseq (hemb.trans hembed) hcache
    exact ⟨(hreserve.append hbound).append hstart, hconsistent⟩
  · refine ⟨?_, .of_nil htable⟩
    rw [htable]
    exact hreserve.append (moves_released_all _)
  · refine ⟨?_, .of_nil htable⟩
    rw [hnone (by simpa using hcache)] at hreserve
    rw [htable]
    exact hreserve.append (moves_nil _)

variable {pages : List PageEvent}

theorem stagePrefill_moves {env : AdmissionEnv} (htable : inf.blockTable = [])
    (hembed : inf.embeddingRequest = false) (h : stagePrefill parts env inf = .ok (req, pages)) :
    Moves 0 pages (Multiset.ofList req.blockTable) ∧ Consistent parts req := by
  have hkeeps {r : InferenceRequest} (hr : r.blockTable = []) :
      Moves 0 [] (ofList r.blockTable) ∧ Consistent parts r := by
    refine ⟨?_, .of_nil hr⟩
    rw [hr]
    exact moves_nil _
  simp only [stagePrefill] at h
  split_ifs at h
  · cases h
    exact hkeeps htable
  · cases h
    exact hkeeps htable
  · have hadmit := admitPhased_moves parts env (resetReuse (tokenizePrompt env inf)) htable hembed
    rw [Except.ok.inj h] at hadmit
    exact hadmit
  · cases h
    exact hkeeps htable

/-- The references that a request holds, until its promise is set. -/
def PendingRequest.held (pending : PendingRequest) : Multiset Int :=
  if pending.promise.isSome then 0 else Multiset.ofList pending.inference.blockTable

/-- Requests of the prefill queue hold no pages, and requests of the decode queue are not
admitted again. -/
structure Inv (parts : Components) (pending : PendingRequest) : Prop where
  consistent : Consistent parts pending.inference
  prefillQueue : pending.place = .prefillQueue → pending.inference.blockTable = []
  decodeQueue : pending.place = .decodeQueue → pending.inference.phase = .decode

theorem inv_batch (h : Consistent parts req) : Inv parts { inference := req, place := .batch } :=
  ⟨h, fun hplace => Place.noConfusion hplace, fun hplace => Place.noConfusion hplace⟩

variable {pending : PendingRequest}

theorem stage_moves (selection : Selection) (env : AdmissionEnv) (h : Inv parts pending)
    (hplace : pending.place ≠ .batch) : let next := stage parts selection env pending
    Moves (Multiset.ofList pending.inference.blockTable) next.2 next.1.held ∧
      (next.1.promise = none → Inv parts next.1) := by
  have henter : holding (selection.enter pending) = holding pending.inference := rfl
  have hsame : Moves (ofList pending.inference.blockTable) []
        (held { inference := selection.enter pending, place := .batch }) ∧
      Inv parts { inference := selection.enter pending, place := .batch } :=
    ⟨moves_nil _, inv_batch (h.consistent.of_holding henter)⟩
  simp only [stage]
  split_ifs with hembed hphase
  · exact ⟨hsame.1, fun _ => hsame.2⟩
  · -- Only requests of the prefill queue are in the prefill phase.
    have hqueue : pending.place = .prefillQueue := by
      cases hp : pending.place with
      | prefillQueue => rfl
      | batch => exact absurd hp hplace
      | decodeQueue =>
        have hdecode := h.decodeQueue hp
        simp [Selection.enter, setTimeslice, setPhase, hp, hdecode, Place.phase] at hphase
    have htable := h.prefillQueue hqueue
    rw [htable]
    split
    · rename_i req pages hstage
      obtain ⟨hmoves, hconsistent⟩ :=
        stagePrefill_moves (show (selection.enter pending).blockTable = [] from htable)
          (Bool.eq_false_iff.mpr hembed) hstage
      have hdecode : holding (req.setPhase .decode) = holding req := rfl
      exact ⟨hmoves, fun _ => inv_batch (hconsistent.of_holding hdecode)⟩
    · exact ⟨moves_nil _, fun hnone => absurd hnone (some_ne_none _)⟩
  · exact ⟨hsame.1, fun _ => hsame.2⟩

/-! ## Execution -/

variable {σ : Type}

def BatchEnv.interrupted (env : BatchEnv σ) : Bool :=
  match env.fault with
  | some (.during _) => true
  | _ => false

def batchPage (parts : Components) (env : BatchEnv σ) (req : InferenceRequest) : Option Int :=
  if phasedEligible env req || env.fault = some .before then none
  else takenPage (env.executorEnv parts) req

variable {env : BatchEnv σ}

theorem executeInBatch_phased (parts : Components) (h : phasedEligible env req = true) :
    holding (executeInBatch parts env req).req = holding req ∧
      (executeInBatch parts env req).pages = [] := by
  obtain ⟨last, hlast, hholding⟩ := unifiedLoop_holding env req kDeadlockGuard
  simp [executeInBatch, h, BatchEnv.slot, executeUnifiedBatchPhased, -List.map_append, hlast,
    finalize_holding, hholding]

theorem interruptRequest_phased (parts : Components) (h : phasedEligible env req = true)
    (rounds : Nat) :
    holding (interruptRequest parts env rounds req).1 = holding req ∧
      (interruptRequest parts env rounds req).2 = [] := by
  obtain ⟨last, hlast, hholding⟩ := unifiedLoop_holding env req rounds
  simp [interruptRequest, h, BatchEnv.slot, -List.map_append, hlast, hholding]

/-- What executing a request in a batch does to its pages. -/
structure BatchPages (parts : Components) (env : BatchEnv σ) (req : InferenceRequest)
    (next : InferenceRequest) (pages : List PageEvent) : Prop where
  sequenceId : next.sequenceId = req.sequenceId
  embeddingRequest : next.embeddingRequest = req.embeddingRequest
  untouched : batchPage parts env req = none → pages = [] ∧ next.blockTable = req.blockTable
  overwritten {page : Int} : batchPage parts env req = some page → env.interrupted = false →
    pages = [.reserved [page], .released [page]] ∧ next.blockTable = []
  interrupted {page : Int} : batchPage parts env req = some page → env.interrupted = true →
    pages = [.reserved [page]] ∧ next.blockTable = [page]

theorem BatchPages.of_holding {next : InferenceRequest} (hpage : batchPage parts env req = none)
    (h : holding next = holding req) (hpages : pages = []) :
    BatchPages parts env req next pages := by
  simp only [holding, Prod.mk.injEq] at h
  refine ⟨h.2.1, h.2.2, fun _ => ⟨hpages, h.1⟩, fun hsome => ?_, fun hsome => ?_⟩ <;>
    simp [hpage] at hsome

theorem executeInBatch_pages (parts : Components) (env : BatchEnv σ) (req : InferenceRequest)
    (hfault : env.fault ≠ some .before) (hint : env.interrupted = false) :
    BatchPages parts env req (executeInBatch parts env req).req
      (executeInBatch parts env req).pages := by
  cases hphased : phasedEligible env req with
  | true =>
    obtain ⟨hsame, hpages⟩ := executeInBatch_phased parts hphased
    exact .of_holding (by simp [batchPage, hphased]) hsame hpages
  | false =>
    have hpage : batchPage parts env req = takenPage (env.executorEnv parts) req := by
      simp [batchPage, hphased, hfault]
    obtain ⟨hseq, hembed, hpass⟩ := executeRequest_pages (env.executorEnv parts) env.backend req
    simp only [executeInBatch, hphased, Bool.false_eq_true, if_false]
    refine ⟨hseq, hembed, fun hnone => ?_, fun hsome _ => ?_, fun _ h => absurd h (by simp [hint])⟩
    · rw [← hpage, hnone] at hpass
      exact hpass
    · rw [← hpage, hsome] at hpass
      exact hpass

theorem interruptRequest_pages (parts : Components) (env : BatchEnv σ) (rounds : Nat)
    (req : InferenceRequest) (hfault : env.fault = some (.during rounds)) :
    BatchPages parts env req (interruptRequest parts env rounds req).1
      (interruptRequest parts env rounds req).2 := by
  have hint : env.interrupted = true := by simp [BatchEnv.interrupted, hfault]
  cases hphased : phasedEligible env req with
  | true =>
    obtain ⟨hsame, hpages⟩ := interruptRequest_phased parts hphased rounds
    exact .of_holding (by simp [batchPage, hphased]) hsame hpages
  | false =>
    have hpage : batchPage parts env req = takenPage (env.executorEnv parts) req := by
      simp [batchPage, hphased, hfault]
    simp only [interruptRequest, hphased, Bool.false_eq_true, if_false]
    split_ifs with hcall
    · have hnone : takenPage (env.executorEnv parts) req = none := by simp [takenPage, hcall]
      obtain ⟨hseq, hembed, hpass⟩ := executeRequest_pages (env.executorEnv parts) env.backend req
      rw [hnone] at hpass
      simp only [executeInBatch, hphased, Bool.false_eq_true, if_false]
      exact .of_holding (hpage.trans hnone) (by simp [holding, hpass.2, hseq, hembed]) rfl
    · simp only [Bool.or_eq_true, not_or, Bool.not_eq_true] at hcall
      obtain ⟨hseq, hembed, hpass⟩ := preparePass_pages req.clearYielded (env.executorEnv parts)
        env.backend hcall.1 hcall.2
      have hclear : takenPage (env.executorEnv parts) req.clearYielded =
        takenPage (env.executorEnv parts) req := rfl
      rw [hclear, ← hpage] at hpass
      refine ⟨hseq, hembed, fun hnone => ?_, fun _ h => absurd hint (by simp [h]), fun hsome _ => ?_⟩
      · rw [hnone] at hpass
        exact ⟨hpass.2.2, hpass.2.1⟩
      · rw [hsome] at hpass
        exact ⟨hpass.2.2.2, hpass.2.2.1⟩

theorem executeBatch_pages (parts : Components) (env : BatchEnv σ) (req : InferenceRequest) :
    BatchPages parts env req (executeBatch parts env req).req (executeBatch parts env req).pages := by
  have hfail {next : InferenceRequest} {pages : List PageEvent}
      (h : BatchPages parts env req next pages) :
      BatchPages parts env req (failRequest next) pages :=
    ⟨h.sequenceId, h.embeddingRequest, h.untouched, h.overwritten, h.interrupted⟩
  simp only [executeBatch]
  match hfault : env.fault with
  | none => exact executeInBatch_pages parts env req (by simp [hfault]) (by simp [BatchEnv.interrupted, hfault])
  | some .before => exact hfail (.of_holding (by simp [batchPage, hfault]) rfl rfl)
  | some (.during rounds) => exact hfail (interruptRequest_pages parts env rounds req hfault)
  | some .after =>
    exact hfail (executeInBatch_pages parts env req (by simp [hfault])
      (by simp [BatchEnv.interrupted, hfault]))

/-! ## Publication -/

theorem donatePrefix_moves (parts : Components) (donated : Bool) (req : InferenceRequest) :
    Moves (Multiset.ofList req.blockTable) (donatePrefix parts donated req)
      (Multiset.ofList req.blockTable) := by
  have htake := moves_acquired (ofList req.blockTable) req.blockTable
  simp only [donatePrefix]
  split_ifs
  · exact htake.append (Posts.give _ _)
  · exact htake.append (moves_released _ _)
  · exact moves_nil _

/-- Pages stay behind if the request has no sequence slot. -/
theorem releasePendingRequestResources_moves (hcache : parts.cache = false → req.blockTable = []) :
    ∃ lost : Multiset Int,
      Moves (Multiset.ofList req.blockTable) (releasePendingRequestResources parts req).2 lost ∧
        (lost = 0 ↔ (req.blockTable ≠ [] → 0 ≤ req.sequenceId)) := by
  simp only [releasePendingRequestResources]
  split_ifs with hseq
  · exact ⟨0, releaseSequence_moves hcache, iff_of_true rfl fun _ => hseq⟩
  · refine ⟨_, moves_nil _, ?_⟩
    simp only [coe_eq_zero]
    constructor
    · intro hnil hne
      exact absurd hnil hne
    · intro h
      by_contra hne
      exact hseq (h hne)

theorem publish_moves (env : BatchEnv σ) {outcome : ExecutionOutcome}
    (hcache : parts.cache = false → outcome.req.blockTable = [])
    (hembed : outcome.req.embeddingRequest = true → outcome.req.blockTable = [])
    (hyield : outcome.req.fairness.yielded = true → Consistent parts outcome.req) :
    let next := publish parts env outcome
    (∃ lost, Moves (Multiset.ofList outcome.req.blockTable) next.2 (next.1.held + lost) ∧
        (lost = 0 ↔ (outcome.req.blockTable ≠ [] → 0 ≤ outcome.req.sequenceId))) ∧
      (next.1.promise = none → Inv parts next.1) := by
  simp only [publish]
  split_ifs with hemb hyielded
  · have htable := hembed hemb
    have hheld : (publishEmbedding env outcome).held = 0 := by
      simp only [publishEmbedding, held]
      split_ifs <;> simp [setPhase, htable]
    have hplace : (publishEmbedding env outcome).place = .prefillQueue ∧
        (publishEmbedding env outcome).inference.blockTable = [] := by
      simp only [publishEmbedding]
      split_ifs <;> exact ⟨rfl, htable⟩
    refine ⟨⟨0, ?_, iff_of_true rfl fun hne => absurd htable hne⟩, fun _ => ?_⟩
    · simp only [htable, hheld]
      exact moves_nil _
    · exact ⟨.of_nil hplace.2, fun _ => hplace.2, fun h => absurd (hplace.1.symm.trans h) (by simp)⟩
  · have hconsistent := hyield hyielded
    refine ⟨⟨0, ?_, iff_of_true rfl hconsistent.sequence⟩, fun _ => ?_⟩
    · rw [add_zero]
      exact moves_nil _
    · refine ⟨hconsistent.of_holding rfl, fun h => Place.noConfusion h, fun _ => rfl⟩
  · obtain ⟨lost, hmoves, hlost⟩ := releasePendingRequestResources_moves hcache
    refine ⟨⟨lost, ?_, hlost⟩, fun h => nomatch h⟩
    have hdonate := donatePrefix_moves parts env.donated outcome.req
    simpa [held] using hdonate.append hmoves

/-! ## Whole lives -/

def formatAccepted (env : BatchEnv σ) (req : InferenceRequest) : Bool :=
  env.formatSupported && (!req.responseFormat.hasFormat || env.buildConstraint.toBool)

/-- `ExecuteRequest` reserves a page for the staged request: the unified phased executor does
not take it, it is neither cancelled nor an embedding request, and `ReservePage` succeeds. -/
def takesPage (parts : Components) (env : BatchEnv σ) (req : InferenceRequest) : Bool :=
  formatAccepted env req && env.fault ≠ some .before &&
    !(hasValidUnifiedPhasedState req && !req.responseFormat.hasFormat &&
      env.backend.any TextBackend.isReady) &&
    (takenPage (env.executorEnv parts) (cancelIf req env.cancelled)).isSome

/-- `ExecuteRequest` reserves a page only for a request that holds none, and no backend call
throws then unless the request has a sequence slot. -/
def Keeps (parts : Components) (pending : PendingRequest) : Op σ → Prop
  | .executed env => takesPage parts env pending.inference = true →
      pending.inference.blockTable = [] ∧
        (env.interrupted = true → 0 ≤ pending.inference.sequenceId)
  | _ => True

theorem checkFormat_ok (h : checkFormat env req = .ok req') :
    formatAccepted env req = true ∧
      holding (cancelIf req' env.cancelled) = holding req ∧
      (cancelIf req' env.cancelled).cancellationFlag = (cancelIf req env.cancelled).cancellationFlag ∧
      phasedEligible env (cancelIf req' env.cancelled) =
        (!req.embeddingRequest && (hasValidUnifiedPhasedState req && !req.responseFormat.hasFormat &&
          env.backend.any TextBackend.isReady)) := by
  simp only [checkFormat] at h
  split_ifs at h with hsupported hformat
  · split at h
    · simp at h
    · rename_i hbuild
      obtain rfl := Except.ok.inj h
      refine ⟨?_, rfl, rfl, ?_⟩
      · simp only [Bool.not_eq_true, Bool.not_eq_false'] at hsupported
        simp [formatAccepted, hbuild, Except.toBool, hsupported]
      · simp [phasedEligible, cancelIf, hformat]
  · obtain rfl := Except.ok.inj h
    refine ⟨?_, rfl, rfl, ?_⟩
    · simp only [Bool.not_eq_true, Bool.not_eq_false'] at hsupported
      simp [formatAccepted, hformat, hsupported]
    · simp [phasedEligible, cancelIf, hasValidUnifiedPhasedState, hformat, Bool.and_assoc]

theorem checkFormat_error {message : Text.Bytes} (h : checkFormat env req = .error message) :
    formatAccepted env req = false := by
  simp only [checkFormat] at h
  split_ifs at h with hsupported hmessage hformat
  · simp only [Bool.not_eq_true'] at hsupported
    simp [formatAccepted, hsupported]
  · simp only [Bool.not_eq_true'] at hsupported
    simp [formatAccepted, hsupported]
  · split at h
    · rename_i hbuild
      simp [formatAccepted, hformat, hbuild, Except.toBool]
    · simp at h

theorem takesPage_iff (h : checkFormat env req = .ok req') :
    takesPage parts env req = (batchPage parts env (cancelIf req' env.cancelled)).isSome := by
  obtain ⟨haccepted, hsame, hcancel, heligible⟩ := checkFormat_ok h
  have hembed : (cancelIf req' env.cancelled).embeddingRequest = req.embeddingRequest :=
    congrArg (fun x => x.2.2) hsame
  have htaken : takenPage (env.executorEnv parts) (cancelIf req' env.cancelled) =
      takenPage (env.executorEnv parts) (cancelIf req env.cancelled) := by
    simp only [takenPage, hembed, hcancel]
    rfl
  simp only [takesPage, batchPage, haccepted, heligible, htaken]
  cases hemb : req.embeddingRequest with
  | true =>
    have hnone : takenPage (env.executorEnv parts) (cancelIf req env.cancelled) = none := by
      simp [takenPage, cancelIf, hemb]
    simp [hnone]
  | false =>
    by_cases hfault : env.fault = some .before <;>
      cases hready : (hasValidUnifiedPhasedState req && !req.responseFormat.hasFormat &&
        env.backend.any TextBackend.isReady) <;> simp [hfault]

theorem batchPage_some (h : batchPage parts env req = some page) :
    parts.cache = true ∧ req.embeddingRequest = false := by
  simp only [batchPage, takenPage] at h
  split_ifs at h with hphased hcall
  simp only [Bool.or_eq_true, not_or, Bool.not_eq_true] at hcall
  refine ⟨?_, hcall.2⟩
  by_contra hcache
  simp [BatchEnv.executorEnv, hcache, reservedPage] at h

theorem executeBatch_yielded (hint : env.interrupted = true) :
    (executeBatch parts env req).req.fairness.yielded = false := by
  unfold BatchEnv.interrupted at hint
  split at hint
  · rename_i rounds hfault
    simp only [executeBatch, hfault]
    rfl
  · simp at hint

/-- What one execution loses: nothing if it keeps to the condition. -/
theorem runStaged_moves (env : BatchEnv σ) (h : Consistent parts req) :
    let next := runStaged parts env req
    (∃ lost, Moves (Multiset.ofList req.blockTable) next.2 (next.1.held + lost) ∧
        (lost = 0 ↔ (takesPage parts env req = true →
          req.blockTable = [] ∧ (env.interrupted = true → 0 ≤ req.sequenceId)))) ∧
      (next.1.promise = none → Inv parts next.1) := by
  simp only [runStaged]
  split
  · rename_i message hformat
    obtain ⟨lost, hmoves, hlost⟩ := releasePendingRequestResources_moves h.cache
    have hno : takesPage parts env req = false := by simp [takesPage, checkFormat_error hformat]
    refine ⟨⟨lost, by simpa [held] using hmoves, ?_⟩, fun h => nomatch h⟩
    exact iff_of_true (hlost.mpr h.sequence) fun htakes => absurd htakes (by simp [hno])
  · rename_i req' hformat
    obtain ⟨-, hsame, -, -⟩ := checkFormat_ok hformat
    have hpages := executeBatch_pages parts env (cancelIf req' env.cancelled)
    have hconsistent := h.of_holding hsame
    rw [takesPage_iff hformat]
    simp only [holding, Prod.mk.injEq] at hsame
    rw [← hsame.1, ← hsame.2.1]
    generalize cancelIf req' env.cancelled = staged at hpages hconsistent
    generalize houtcome : executeBatch parts env staged = outcome at hpages
    cases hpage : batchPage parts env staged with
    | none =>
      obtain ⟨hevents, htable⟩ := hpages.untouched hpage
      have hsame : holding outcome.req = holding staged := by
        simp [holding, htable, hpages.sequenceId, hpages.embeddingRequest]
      have hnext := hconsistent.of_holding hsame
      obtain ⟨⟨lost, hmoves, hlost⟩, hinv⟩ :=
        publish_moves env hnext.cache hnext.embedding fun _ => hnext
      refine ⟨⟨lost, ?_, iff_of_true (hlost.mpr hnext.sequence) (by simp)⟩, hinv⟩
      rw [hevents, ← htable]
      exact hmoves
    | some page =>
      obtain ⟨hcache, hembed⟩ := batchPage_some hpage
      have hcached {next : InferenceRequest} (hno : parts.cache = false) : next.blockTable = [] :=
        absurd hcache (by simp [hno])
      cases hint : env.interrupted with
      | false =>
        obtain ⟨hevents, htable⟩ := hpages.overwritten hpage hint
        obtain ⟨⟨lost, hmoves, hlost⟩, hinv⟩ :=
          publish_moves env hcached (fun _ => htable) fun _ => Consistent.of_nil htable
        obtain rfl := hlost.mpr fun hne => absurd htable hne
        refine ⟨⟨ofList staged.blockTable, ?_, by simp⟩, hinv⟩
        have hpass : Moves 0 outcome.pages (ofList outcome.req.blockTable) := by
          rw [hevents, htable]
          exact (moves_reserved [page]).append (moves_released_all [page])
        simpa using (hpass.append hmoves).frame (ofList staged.blockTable)
      | true =>
        obtain ⟨hevents, htable⟩ := hpages.interrupted hpage hint
        have hyielded : outcome.req.fairness.yielded = false := by
          rw [← houtcome]
          exact executeBatch_yielded hint
        obtain ⟨⟨lost, hmoves, hlost⟩, hinv⟩ := publish_moves env hcached
          (fun h => absurd (hpages.embeddingRequest.symm.trans h) (by simp [hembed]))
          fun h => absurd h (by simp [hyielded])
        refine ⟨⟨lost + ofList staged.blockTable, ?_, ?_⟩, hinv⟩
        · have hpass : Moves 0 outcome.pages (ofList outcome.req.blockTable) := by
            rw [hevents, htable]
            exact moves_reserved [page]
          simpa [add_assoc] using (hpass.append hmoves).frame (ofList staged.blockTable)
        · have hzero : lost = 0 ↔ 0 ≤ staged.sequenceId := by
            simpa [htable, hpages.sequenceId] using hlost
          rw [add_eq_zero, hzero, coe_eq_zero]
          simp [and_comm]

theorem step_moves {next : PendingRequest} {op : Op σ} (h : Inv parts pending)
    (hstep : step parts pending op = some (next, events)) :
    (∃ lost, Moves pending.held events (next.held + lost) ∧ (lost = 0 ↔ Keeps parts pending op)) ∧
      (next.promise = none → Inv parts next) := by
  cases op with
  | displaced =>
    simp only [step] at hstep
    split_ifs at hstep with hguard
    cases hstep
    refine ⟨⟨0, ?_, iff_of_true rfl trivial⟩, fun _ => ⟨h.consistent.of_holding rfl, h.prefillQueue,
      fun hplace => ?_⟩⟩
    · rw [add_zero]
      exact moves_nil _
    · have : pending.place = .decodeQueue := hplace
      simp [setPhase, this, Place.phase]
  | staged selection env =>
    simp only [step] at hstep
    split_ifs at hstep with hguard
    simp only [Bool.or_eq_true, not_or, Bool.not_eq_true, isSome_eq_false_iff,
      isNone_iff_eq_none, decide_eq_true_eq] at hguard
    obtain ⟨hmoves, hinv⟩ := stage_moves selection env h hguard.2
    rw [some.inj hstep] at hmoves hinv
    refine ⟨⟨0, ?_, iff_of_true rfl trivial⟩, hinv⟩
    simpa [held, hguard.1] using hmoves
  | executed env =>
    simp only [step] at hstep
    split_ifs at hstep with hguard
    simp only [Bool.or_eq_true, not_or, Bool.not_eq_true, isSome_eq_false_iff,
      isNone_iff_eq_none] at hguard
    obtain ⟨⟨lost, hmoves, hlost⟩, hinv⟩ := runStaged_moves env h.consistent
    rw [some.inj hstep] at hmoves hinv
    refine ⟨⟨lost, ?_, hlost⟩, hinv⟩
    simpa [held, hguard.1] using hmoves

theorem step_of_promise (h : pending.promise ≠ none) (op : Op σ) :
    step parts pending op = none := by
  have hsome : pending.promise.isSome = true := isSome_iff_ne_none.mpr h
  cases op <;> simp [step, hsome]

/-- What a run loses: nothing if all its steps keep to the condition. -/
theorem run_moves {last : PendingRequest} {ops : List (Op σ)} {log : List PageEvent}
    (h : pending.promise = none → Inv parts pending)
    (hrun : run (step parts) pending ops = some (last, log)) :
    ∃ lost, Moves pending.held log (last.held + lost) ∧
      (lost = 0 ↔ Along (step parts) (Keeps parts) pending ops) := by
  induction ops generalizing pending log with
  | nil =>
    cases hrun
    refine ⟨0, ?_, iff_of_true rfl trivial⟩
    rw [add_zero]
    exact moves_nil _
  | cons op ops ih =>
    obtain ⟨next, events, rest, hstep, hrest, rfl⟩ := run_cons_eq_some.mp hrun
    have hopen : pending.promise = none := by
      by_contra hset
      simp [step_of_promise hset] at hstep
    obtain ⟨⟨lost, hmoves, hlost⟩, hinv⟩ := step_moves (h hopen) hstep
    obtain ⟨lost', hmoves', hlost'⟩ := ih hinv hrest
    refine ⟨lost' + lost, ?_, ?_⟩
    · rw [← add_assoc]
      exact hmoves.append (hmoves'.frame lost)
    · rw [add_eq_zero, hlost', hlost]
      constructor
      · rintro ⟨hrest, hop⟩
        exact Along.cons hop hstep hrest
      · rintro ⟨hop, hall⟩
        exact ⟨hall next events hstep, hop⟩

/-- From a new request to its promise: each page reference taken is given up exactly once, to
the cache or to the prefix cache, if and only if every step keeps to the condition. -/
theorem pages_settled_iff (parts : Components) (inf : InferenceRequest) (hnew : inf.blockTable = [])
    (ops : List (Op σ)) {last : PendingRequest} {log : List PageEvent}
    (hrun : LoggedRun.run (step parts) { inference := inf } ops = some (last, log))
    (hset : last.promise.isSome = true) :
    Settled (log.map entry) ↔
      LoggedRun.Along (step parts) (Keeps parts) { inference := inf } ops := by
  have hinv : Inv parts { inference := inf } :=
    ⟨.of_nil hnew, fun _ => hnew, fun h => Place.noConfusion h⟩
  obtain ⟨lost, hmoves, hlost⟩ := run_moves (fun _ => hinv) hrun
  simp only [PendingRequest.held, hset, if_true, hnew] at hmoves
  rw [← hlost]
  simpa using hmoves.settled_iff

def plainBatch : BatchEnv Unit where
  backend := some { tokenCount := fun _ => 1, generate := fun _ => ⟨Text.bytes "a", 1, .terminal⟩ }
  executor :=
    { encode := fun _ => 1
      reservePage := some (.ok 9)
      jsonParse := fun _ => none
      jsonWrap := id }
  unified := { unifiedBatchTokenCapacity := 64, executeUnifiedBatch := fun _ _ => ([], ()) }
  unifiedState := ()
  donated := true

/-- Admission of a prompt that shares one warm block with a donor; the prefill samples `token`. -/
def warmAdmission (token : Int) : AdmissionEnv where
  tokenizeForCache := List.replicate 32 7
  lookup := { hit := true, blockTable := [4], sequenceId := 3, matchedTokens := 16 }
  reserveBlocks := fun n => some ((List.range n).map fun i => (i : Int))
  seqId := 0
  copySequencePrefix := true
  phasedPrefillStep := some (token, Text.bytes "a")

theorem pages_settled_after_donation :
    LoggedRun.Along (step {}) (Keeps {}) { inference := {} }
      [.staged {} (warmAdmission 5), .executed plainBatch] := by
  have hresult : (LoggedRun.run (step {}) { inference := {} }
      [.staged {} (warmAdmission 5), .executed plainBatch]).map
        (fun r => (r.1.promise.isSome, r.2)) =
      some (true, [.reserved [0, 1], .acquired [4], .acquired [4, 0, 1], .transferred [4, 0, 1],
        .released [4, 0, 1]]) := by decide
  obtain ⟨⟨last, log⟩, hrun, hlast⟩ := map_eq_some_iff.mp hresult
  obtain ⟨hset, rfl⟩ := Prod.mk.inj hlast
  exact (pages_settled_iff {} {} rfl _ hrun hset).mp (by decide)

/-- The prefill samples no token, so the request goes to `ExecuteRequest`, which overwrites its
block table: the blocks 4, 0 and 1 are still referenced when the promise is set. -/
theorem overwritten_pages_leak :
    (LoggedRun.run (step {}) { inference := {} }
      [.staged {} (warmAdmission (-1)), .executed plainBatch]).map
        (fun r => (r.1.promise.isSome, postAll 0 (r.2.map entry))) =
      some (true, some {4, 0, 1}) := by decide

end InferFlux.Scheduler
