import InferFlux.Http.RequestReader

/-!
# Framing of requests on a connection

A client sends a sequence of requests back to back, and the transport cuts the stream into
chunks. `HandleClient` keeps no bytes between its calls, and makes everything it has received
after a header block the body of that request. So the requests that are processed are those
that were sent exactly if no chunk reaches over the end of a request from within its header
block (`NoOverrun`), apart from the limits for bodies and for requests on a connection.
-/

namespace InferFlux.Http

open InferFlux.Text List Option

structure HttpRequest where
  headers : Bytes
  body : Bytes
  deriving DecidableEq, Repr

namespace HttpRequest

def render (r : HttpRequest) : Bytes := r.headers ++ kHeaderEnd ++ r.body

def headLength (r : HttpRequest) : Nat := r.headers.length + 4

/-- A keep-alive request whose header block ends where it should and whose body has the
length the headers give. -/
structure WellFormed (r : HttpRequest) : Prop where
  terminated : Occurrence.first [kHeaderEnd] (r.headers ++ kHeaderEnd) = some r.headers.length
  framed : contentLength r.headers = r.body.length
  keepAlive : wantsClose r.headers = false

instance (r : HttpRequest) : Decidable r.WellFormed :=
  decidable_of_iff (Occurrence.first [kHeaderEnd] (r.headers ++ kHeaderEnd) =
      some r.headers.length ∧ contentLength r.headers = r.body.length ∧
      wantsClose r.headers = false)
    ⟨fun ⟨h1, h2, h3⟩ => ⟨h1, h2, h3⟩, fun ⟨h1, h2, h3⟩ => ⟨h1, h2, h3⟩⟩

theorem length_render (r : HttpRequest) : r.render.length = r.headLength + r.body.length := by
  simp only [render, headLength, kHeaderEnd, length_append, length_cons, length_nil]

/-- The end of the header block is found where it is, whatever follows the request. -/
theorem WellFormed.first_headerEnd {r : HttpRequest} (h : r.WellFormed) (more : Bytes) :
    Occurrence.first [kHeaderEnd] (r.render ++ more) = some r.headers.length := by
  have hp : r.headers ++ kHeaderEnd <+: r.render ++ more := ⟨r.body ++ more, by simp [render]⟩
  exact ((first_headerEnd_isPrefix_iff hp).mp h.terminated).1

end HttpRequest

def wire (reqs : List HttpRequest) : Bytes := (reqs.map HttpRequest.render).flatten

/-- The number of bytes that the first `k` receive calls return. -/
def receivedBy (chunks : List Bytes) (k : Nat) : Nat := (chunks.take k).flatten.length

/-- Some receive call ends within each request, after its header block: no call returns bytes
of both a header block and the next request. -/
def NoOverrun (reqs : List HttpRequest) (chunks : List Bytes) : Prop :=
  ∀ sent r after, reqs = sent ++ r :: after →
    ∃ k, (wire sent).length + r.headLength ≤ receivedBy chunks k ∧
      receivedBy chunks k ≤ (wire sent).length + r.render.length

section

variable {reqs : List HttpRequest} {r : HttpRequest} {chunks consumed rest : List Bytes}

theorem wire_cons : wire (r :: reqs) = r.render ++ wire reqs := rfl

theorem receivedBy_mono (chunks : List Bytes) {j k : Nat} (h : j ≤ k) :
    receivedBy chunks j ≤ receivedBy chunks k := by
  obtain ⟨more, hmore⟩ : chunks.take j <+: chunks.take k := take_prefix_take_left h
  simp [receivedBy, ← hmore]

theorem receivedBy_append (consumed rest : List Bytes) (k : Nat) :
    receivedBy (consumed ++ rest) (consumed.length + k) =
      consumed.flatten.length + receivedBy rest k := by
  simp [receivedBy, take_length_add_append]

/-- Once the first request has been read to its end, the condition is that for the rest. -/
theorem noOverrun_cons_iff (hconsumed : consumed.flatten = r.render) :
    NoOverrun (r :: reqs) (consumed ++ rest) ↔
      (∃ k, r.headLength ≤ receivedBy (consumed ++ rest) k ∧
        receivedBy (consumed ++ rest) k ≤ r.render.length) ∧ NoOverrun reqs rest := by
  constructor
  · intro h
    refine ⟨by simpa [wire] using h [] r reqs rfl, ?_⟩
    intro sent r' after hreqs
    obtain ⟨k, hlow, hhigh⟩ := h (r :: sent) r' after (by rw [hreqs]; rfl)
    rw [wire_cons, length_append] at hlow hhigh
    have hk : consumed.length ≤ k := by
      by_contra hlt
      have hle := receivedBy_mono (consumed ++ rest) (Nat.le_of_not_le hlt)
      have hall : receivedBy (consumed ++ rest) consumed.length = consumed.flatten.length :=
        receivedBy_append consumed rest 0
      have hhead : r'.headLength = r'.headers.length + 4 := rfl
      rw [hconsumed] at hall
      omega
    obtain ⟨j, rfl⟩ := Nat.exists_eq_add_of_le hk
    rw [receivedBy_append, hconsumed] at hlow hhigh
    exact ⟨j, by omega, by omega⟩
  · rintro ⟨hfirst, hrest⟩ sent r' after hreqs
    cases sent with
    | nil =>
      obtain ⟨rfl, -⟩ : r = r' ∧ reqs = after := by simpa using hreqs
      simpa [wire] using hfirst
    | cons r₀ sent =>
      obtain ⟨rfl, hafter⟩ : r = r₀ ∧ reqs = sent ++ r' :: after := by simpa using hreqs
      obtain ⟨k, hlow, hhigh⟩ := hrest sent r' after hafter
      refine ⟨consumed.length + k, ?_⟩
      rw [receivedBy_append, hconsumed, wire_cons, length_append]
      omega

end

/-- What a call makes of a stream that starts with a well-formed request: it refuses the body,
it reads exactly this request, or it takes bytes beyond it into the body. -/
inductive ReadOf (r : HttpRequest) (chunks : List Bytes) (reading : Reading) : Prop where
  | refused (hbody : kMaxRequest < r.body.length) (hout : reading.outcome = .tooLarge)
  | exact (hbody : r.body.length ≤ kMaxRequest) (consumed : List Bytes)
      (hchunks : chunks = consumed ++ reading.rest) (hconsumed : consumed.flatten = r.render)
      (hout : reading.outcome = .request r.headers r.body)
      (hcut : ∃ k, r.headLength ≤ receivedBy chunks k ∧ receivedBy chunks k ≤ r.render.length)
  | overrun (body : Bytes) (hbody : body ≠ r.body) (hout : reading.outcome = .request r.headers body)
      (hcut : ∀ k, r.headLength ≤ receivedBy chunks k → r.render.length < receivedBy chunks k)

variable {chunks : List Bytes}

theorem readOf {r : HttpRequest} {reading : Reading} {more : Bytes} (hwf : r.WellFormed)
    (hstream : chunks.flatten = r.render ++ more) (h : readRequest chunks = some reading) :
    ReadOf r chunks reading := by
  have hfirst := hwf.first_headerEnd more
  obtain ⟨hnone, -⟩ | ⟨before, last, rest, pos, rfl, hbefore, hpos, -, hfin⟩ := readRequest_cases h
  · rw [hstream, hfirst] at hnone
    cases hnone
  have hrecv : before.flatten ++ last ++ rest.flatten = r.render ++ more := by
    simpa [append_assoc] using hstream
  have hprefix : before.flatten ++ last <+: r.render ++ more := ⟨_, hrecv⟩
  obtain ⟨hpos', hhead⟩ := (first_headerEnd_isPrefix_iff hprefix).mp hpos
  obtain rfl : pos = r.headers.length := by
    rw [hfirst] at hpos'
    exact (some.inj hpos').symm
  have htake : (before.flatten ++ last).take r.headers.length = r.headers := by
    have hp : r.headers <+: r.render ++ more :=
      ⟨kHeaderEnd ++ r.body ++ more, by simp [HttpRequest.render]⟩
    exact (prefix_iff_eq_take.mp (prefix_of_prefix_length_le hp hprefix (by omega))).symm
  have hlen := r.length_render
  have hlenHead : r.headLength = r.headers.length + 4 := rfl
  simp only [finishRequest, htake, hwf.framed] at hfin
  by_cases hbody : r.body.length > kMaxRequest
  · rw [if_pos hbody, some.injEq] at hfin
    exact .refused hbody (by rw [← hfin])
  rw [if_neg hbody] at hfin
  have hneeded : r.headers.length + 4 + r.body.length = r.render.length := by omega
  rw [hneeded] at hfin
  have hby : receivedBy (before ++ last :: rest) (before.length + 1) =
      (before.flatten ++ last).length := by
    rw [receivedBy_append]
    simp [receivedBy]
  by_cases hover : (before.flatten ++ last).length ≤ r.render.length
  · -- The second loop stops at the end of the request.
    obtain ⟨out, hread, hreading⟩ := map_eq_some_iff.mp hfin
    obtain ⟨hshort, -⟩ | ⟨consumed, rest', rfl, hconsumed, rfl⟩ := readBody_cases hover hread
    · rw [hrecv, length_append] at hshort
      omega
    have htotal : before.flatten ++ last ++ consumed.flatten = r.render := by
      have hp : before.flatten ++ last ++ consumed.flatten <+: r.render ++ more :=
        ⟨rest'.flatten, by simpa [append_assoc] using hrecv⟩
      have hsub := prefix_of_prefix_length_le hp (prefix_append ..) (Nat.le_of_eq hconsumed)
      exact hsub.eq_of_length hconsumed
    refine .exact (by omega) (before ++ last :: consumed) ?_ ?_ ?_ ?_
    · simp [← hreading]
    · simpa [append_assoc] using htotal
    · rw [← hreading]
      simp only [htotal]
      simp [HttpRequest.render, kHeaderEnd]
    · exact ⟨before.length + 1, by omega, by omega⟩
  · -- The chunk that completes the header block reaches beyond the request.
    rw [readBody_of_le (by omega), map_some, some.injEq] at hfin
    refine .overrun ((before.flatten ++ last).drop (r.headers.length + 4)) ?_ ?_ ?_
    · intro heq
      have := congrArg length heq
      rw [length_drop] at this
      omega
    · simp [← hfin, htake]
    · intro k hk
      by_cases hle : k ≤ before.length
      · have hmono := receivedBy_mono (before ++ last :: rest) hle
        have hall : receivedBy (before ++ last :: rest) before.length = before.flatten.length :=
          receivedBy_append before (last :: rest) 0
        have hp : before.flatten <+: r.render ++ more :=
          (prefix_append before.flatten last).trans hprefix
        have hsome := (first_headerEnd_isPrefix_iff hp).mpr ⟨hfirst, by omega⟩
        rw [hbefore] at hsome
        cases hsome
      · have hmono := receivedBy_mono (before ++ last :: rest) (show before.length + 1 ≤ k by omega)
        omega

variable {keeps : Bytes → Bytes → Bool} {log : List (Bytes × Bytes)}

theorem serveConnection_nil {calls : Nat} (hstream : chunks.flatten = [])
    (h : serveConnection keeps calls chunks = some log) : log = [] := by
  cases calls with
  | zero => simpa [serveConnection] using h.symm
  | succ calls =>
    simp only [serveConnection] at h
    cases hread : readRequest chunks with
    | none => simp [hread] at h
    | some reading =>
      obtain ⟨-, rfl⟩ | ⟨before, last, rest, pos, rfl, -, hpos, -, -⟩ := readRequest_cases hread
      · simpa [hread] using h.symm
      · have hnil : before.flatten ++ last = [] := by
          simp only [flatten_append, flatten_cons, append_eq_nil_iff] at hstream
          simp [hstream]
        rw [hnil, first_headerEnd_nil] at hpos
        cases hpos

/-- The handlers leave the connection open for the requests that follow. -/
def KeptOpen (keeps : Bytes → Bytes → Bool) (reqs : List HttpRequest) : Prop :=
  ∀ r ∈ reqs.dropLast, keeps r.headers r.body = true

variable {reqs : List HttpRequest}

theorem keptOpen_cons_iff {r : HttpRequest} :
    KeptOpen keeps (r :: reqs) ↔
      (reqs ≠ [] → keeps r.headers r.body = true) ∧ KeptOpen keeps reqs := by
  cases reqs <;> simp [KeptOpen]

theorem serveConnection_eq_iff {calls : Nat} (hwf : ∀ r ∈ reqs, r.WellFormed)
    (hstream : chunks.flatten = wire reqs) (h : serveConnection keeps calls chunks = some log) :
    log = reqs.map (fun r => (r.headers, r.body)) ↔
      reqs.length ≤ calls ∧ KeptOpen keeps reqs ∧ (∀ r ∈ reqs, r.body.length ≤ kMaxRequest) ∧
        NoOverrun reqs chunks := by
  induction reqs generalizing calls chunks log with
  | nil =>
    have hlog := serveConnection_nil hstream h
    simp [hlog, NoOverrun, KeptOpen]
  | cons r reqs ih =>
    cases calls with
    | zero =>
      simp only [serveConnection, some.injEq] at h
      simp [← h]
    | succ calls =>
      simp only [serveConnection] at h
      cases hread : readRequest chunks with
      | none => simp [hread] at h
      | some reading =>
        rw [hread] at h
        obtain ⟨outcome, peak, rest⟩ := reading
        cases readOf (hwf r (by simp)) hstream hread with
        | refused hbody hout =>
          obtain rfl : outcome = .tooLarge := hout
          have hlog : log = [] := by simpa using h.symm
          subst hlog
          simp only [map_cons, reduceCtorEq, false_iff]
          rintro ⟨-, -, hall, -⟩
          exact absurd (hall r (by simp)) (by omega)
        | exact hbody consumed hchunks hconsumed hout hcut =>
          obtain rfl : outcome = .request r.headers r.body := hout
          obtain rfl : chunks = consumed ++ rest := hchunks
          have hrest : rest.flatten = wire reqs := by
            rw [flatten_append, hconsumed, wire_cons] at hstream
            exact append_cancel_left hstream
          simp only [(hwf r (by simp)).keepAlive, Bool.not_false, Bool.true_and] at h
          rw [noOverrun_cons_iff hconsumed, keptOpen_cons_iff]
          simp only [hcut, true_and, length_cons, forall_mem_cons, hbody, Nat.add_le_add_iff_right]
          by_cases hkeep : keeps r.headers r.body = true
          · rw [if_pos hkeep, map_eq_some_iff] at h
            obtain ⟨log', hserve, rfl⟩ := h
            have ih := ih (fun r' h' => hwf r' (by simp [h'])) hrest hserve
            simp [ih, hkeep]
          · -- The connection is closed after this request, so it has to be the last one.
            rw [if_neg hkeep, some.injEq] at h
            subst h
            cases reqs with
            | nil => simp [KeptOpen, NoOverrun]
            | cons r' reqs => simp [hkeep]
        | overrun body hbody hout hcut =>
          obtain rfl : outcome = .request r.headers body := hout
          have hne : log ≠ ((r :: reqs).map fun r => (r.headers, r.body)) := by
            rintro rfl
            simp only at h
            split at h <;> simp [hbody] at h
          refine iff_of_false hne ?_
          rintro ⟨-, -, -, hno⟩
          obtain ⟨k, hlow, hhigh⟩ := hno [] r reqs rfl
          simp only [wire, map_nil, flatten_nil, length_nil, Nat.zero_add] at hlow hhigh
          exact absurd (hcut k hlow) (by omega)

/-- The successive calls on a connection process exactly the requests that were sent, each
with its own headers and body, exactly if there are at most 100 of them, the handlers leave
the connection open between them, no body is over the limit, and no receive call returns bytes
of both a header block and the next request. -/
theorem processed_eq_sent_iff {keeps : Bytes → Bytes → Bool} {reqs : List HttpRequest}
    {chunks : List Bytes} {log : List (Bytes × Bytes)}
    (hwf : ∀ r ∈ reqs, r.WellFormed) (hstream : chunks.flatten = wire reqs)
    (h : serveConnection keeps kMaxKeepAliveRequests chunks = some log) :
    log = reqs.map (fun r => (r.headers, r.body)) ↔
      reqs.length ≤ kMaxKeepAliveRequests ∧ KeptOpen keeps reqs ∧
        (∀ r ∈ reqs, r.body.length ≤ kMaxRequest) ∧ NoOverrun reqs chunks :=
  serveConnection_eq_iff hwf hstream h

def completionThenModels : List HttpRequest :=
  [⟨bytes "POST /v1/completions HTTP/1.1\r\ncontent-length: 2", bytes "\x7b\x7d"⟩,
    ⟨bytes "GET /v1/models HTTP/1.1", []⟩]

/-- Sent with a cut between them, the two are processed. -/
theorem processed_when_cut_between :
    NoOverrun completionThenModels
      [bytes "POST /v1/completions HTTP/1.1\r\ncontent-length: 2\r\n\r\n", bytes "\x7b\x7d",
        bytes "GET /v1/models HTTP/1.1\r\n\r\n"] := by
  have hserve : serveConnection (fun _ _ => true) kMaxKeepAliveRequests
      [bytes "POST /v1/completions HTTP/1.1\r\ncontent-length: 2\r\n\r\n", bytes "\x7b\x7d",
        bytes "GET /v1/models HTTP/1.1\r\n\r\n"] =
      some (completionThenModels.map fun r => (r.headers, r.body)) := by decide
  exact ((processed_eq_sent_iff (by decide) (by decide) hserve).mp rfl).2.2.2

/-- Sent in one chunk, the second request becomes a part of the body of the first. -/
theorem pipelined_request_is_swallowed :
    (∀ r ∈ completionThenModels, r.WellFormed) ∧
      [wire completionThenModels].flatten = wire completionThenModels ∧
      serveConnection (fun _ _ => true) kMaxKeepAliveRequests [wire completionThenModels] =
        some [(bytes "POST /v1/completions HTTP/1.1\r\ncontent-length: 2",
          bytes "\x7b\x7dGET /v1/models HTTP/1.1\r\n\r\n")] ∧
      completionThenModels.length = 2 := by
  decide

end InferFlux.Http
