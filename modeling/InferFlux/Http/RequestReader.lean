import InferFlux.Http.HeaderBlock

/-!
# Reading requests from a connection

Embeds the reading part of `HttpServer::HandleClient` and the keep-alive loop of
`HttpServer::WorkerLoop` from `server/http/http_server.cpp`. A connection is given by what its
successive `recv` calls return: non-empty chunks, none longer than the call asked for, then
the end of the stream. Reading is undefined (`none`) on chunks that no such calls can return.

The buffer is the bytes received so far together with its size, which is what the calls are
bounded by; `peak` is the largest size it has had. What the handlers do with a request is left
out, apart from whether they keep the connection.
-/

namespace InferFlux.Http

open InferFlux.Text Occurrence Option List

def kInitialBuf : Nat := 4096

def kMaxRequest : Nat := 16 * 1024 * 1024

def kMaxKeepAliveRequests : Nat := 100

def receivable (chunk : Bytes) (length : Nat) : Bool := !chunk.isEmpty && chunk.length ≤ length

def growBuffer (total size : Nat) : Option Nat :=
  if total ≥ size then
    if size ≥ kMaxRequest then none else some (min (size * 2) kMaxRequest)
  else some size

/-- The size of the buffer after a chunk that did not complete the header block. -/
def nextSize (total : Nat) : Nat := max (total + kInitialBuf) (total * 2)

inductive HeadRead where
  | closed (peak : Nat)
  | tooLarge (peak : Nat)
  | found (received : Bytes) (headerEndPos peak : Nat) (rest : List Bytes)
  deriving DecidableEq, Repr

def readHead (received : Bytes) (size peak : Nat) : List Bytes → Option HeadRead
  | [] =>
    match growBuffer received.length size with
    | none => some (.tooLarge peak)
    | some size => some (.closed (max peak size))
  | chunk :: rest =>
    match growBuffer received.length size with
    | none => some (.tooLarge peak)
    | some size =>
      if receivable chunk (size - received.length) then
        match Occurrence.first [kHeaderEnd] (received ++ chunk) with
        | some pos => some (.found (received ++ chunk) pos (max peak size) rest)
        | none =>
          let size' := nextSize (received ++ chunk).length
          readHead (received ++ chunk) size' (max (max peak size) size') rest
      else none

/-- The second loop: read until `needed` bytes are there, unless the connection ends. -/
def readBody (needed : Nat) (received : Bytes) : List Bytes → Option (Option (Bytes × List Bytes))
  | [] => if received.length < needed then some none else some (some (received, []))
  | chunk :: rest =>
    if received.length < needed then
      if receivable chunk (needed - received.length) then readBody needed (received ++ chunk) rest
      else none
    else some (some (received, chunk :: rest))

def contentLength (headers : Bytes) : Nat :=
  let value := getHeaderValue headers (bytes "content-length")
  if value.isEmpty then 0 else (stoull value).toOption.getD 0

inductive ReadOutcome where
  | closed
  /-- The client gets a 413. -/
  | tooLarge
  | request (headers body : Bytes)
  deriving DecidableEq, Repr

structure Reading where
  outcome : ReadOutcome
  peak : Nat
  rest : List Bytes := []
  deriving DecidableEq, Repr

/-- Phase 2: the body, as far as it is not in the buffer yet. All of the buffer after the
header block is the body. -/
def finishRequest (received : Bytes) (headerEndPos peak : Nat) (rest : List Bytes) :
    Option Reading :=
  let length := contentLength (received.take headerEndPos)
  if length > kMaxRequest then some { outcome := .tooLarge, peak }
  else
    let needed := headerEndPos + 4 + length
    let peak := if needed > received.length then max peak needed else peak
    (readBody needed received rest).map fun
      | none => { outcome := .closed, peak }
      | some (total, rest) =>
        { outcome := .request (total.take headerEndPos) (total.drop (headerEndPos + 4)), peak, rest }

/-- The reading part of `HandleClient`. -/
def readRequest (chunks : List Bytes) : Option Reading :=
  match readHead [] kInitialBuf kInitialBuf chunks with
  | none => none
  | some (.closed peak) => some { outcome := .closed, peak }
  | some (.tooLarge peak) => some { outcome := .tooLarge, peak }
  | some (.found received headerEndPos peak rest) => finishRequest received headerEndPos peak rest

theorem first_headerEnd_isPrefix_iff {part text : Bytes} {pos : Nat} (hp : part <+: text) :
    first [kHeaderEnd] part = some pos ↔
      first [kHeaderEnd] text = some pos ∧ pos + 4 ≤ part.length :=
  first_isPrefix_iff (by decide) hp

theorem first_headerEnd_nil : first [kHeaderEnd] ([] : Bytes) = none := rfl

/-- After each chunk the buffer has room again, so phase 1 never answers 413. -/
theorem growBuffer_nextSize (total : Nat) :
    growBuffer total (nextSize total) = some (nextSize total) := by
  have hlt : total < nextSize total := by simp only [nextSize, kInitialBuf]; omega
  simp [growBuffer, if_neg (Nat.not_le.mpr hlt)]

theorem nextSize_mono {a b : Nat} (h : a ≤ b) : nextSize a ≤ nextSize b := by
  simp only [nextSize]
  omega

variable {received : Bytes} {chunks : List Bytes}

/-- Phase 1 ends with the stream, or with the first chunk after which the end of the header
block is there. -/
theorem readHead_cases {out : HeadRead} (hnone : first [kHeaderEnd] received = none)
    (h : readHead received (nextSize received.length) (nextSize received.length) chunks = some out)
    :
    (first [kHeaderEnd] (received ++ chunks.flatten) = none ∧
        out = .closed (nextSize (received ++ chunks.flatten).length)) ∨
      ∃ before last rest pos, chunks = before ++ last :: rest ∧
        first [kHeaderEnd] (received ++ before.flatten) = none ∧
        first [kHeaderEnd] (received ++ before.flatten ++ last) = some pos ∧
        (received ++ before.flatten ++ last).length ≤ nextSize (received ++ before.flatten).length ∧
        out = .found (received ++ before.flatten ++ last) pos
          (nextSize (received ++ before.flatten).length) rest := by
  induction chunks generalizing received with
  | nil =>
    simp only [readHead, growBuffer_nextSize, Nat.max_self, some.injEq] at h
    exact .inl (by simp [hnone, ← h])
  | cons chunk chunks ih =>
    simp only [readHead, growBuffer_nextSize, Nat.max_self] at h
    by_cases hrecv : receivable chunk (nextSize received.length - received.length)
    · rw [if_pos hrecv] at h
      cases hfirst : first [kHeaderEnd] (received ++ chunk) with
      | some pos =>
        simp only [hfirst, some.injEq] at h
        have hle : chunk.length ≤ nextSize received.length - received.length := by
          simp only [receivable, Bool.and_eq_true, decide_eq_true_eq] at hrecv
          exact hrecv.2
        have hlt : received.length < nextSize received.length := by
          simp only [nextSize, kInitialBuf]; omega
        refine .inr ⟨[], chunk, chunks, pos, rfl, ?_, ?_, ?_, ?_⟩
        · simpa using hnone
        · simpa using hfirst
        · simp only [flatten_nil, append_nil, length_append]
          omega
        · simp [← h]
      | none =>
        have hmono : nextSize received.length ≤ nextSize (received ++ chunk).length :=
          nextSize_mono (by simp)
        simp only [hfirst, Nat.max_eq_right hmono] at h
        obtain ⟨hall, rfl⟩ | ⟨before, last, rest, pos, rfl, hbefore, hpos, hle, rfl⟩ := ih hfirst h
        · exact .inl (by simpa [append_assoc] using hall)
        · refine .inr ⟨chunk :: before, last, rest, pos, rfl, ?_⟩
          simp only [flatten_cons, ← append_assoc]
          exact ⟨hbefore, hpos, hle, trivial⟩
    · rw [if_neg hrecv] at h
      cases h

/-- What one call reads: nothing, if the stream ends within the header block, or the request
that `finishRequest` makes of the first buffer with a complete header block. -/
theorem readRequest_cases {reading : Reading} (h : readRequest chunks = some reading) :
    (first [kHeaderEnd] chunks.flatten = none ∧
        reading = { outcome := .closed, peak := nextSize chunks.flatten.length }) ∨
      ∃ before last rest pos, chunks = before ++ last :: rest ∧
        first [kHeaderEnd] before.flatten = none ∧
        first [kHeaderEnd] (before.flatten ++ last) = some pos ∧
        (before.flatten ++ last).length ≤ nextSize before.flatten.length ∧
        finishRequest (before.flatten ++ last) pos (nextSize before.flatten.length) rest =
          some reading := by
  cases hhead : readHead [] kInitialBuf kInitialBuf chunks with
  | none => simp only [readRequest, hhead, reduceCtorEq] at h
  | some out =>
    obtain ⟨hall, rfl⟩ | ⟨before, last, rest, pos, hchunks, hbefore, hpos, hle, rfl⟩ :=
      readHead_cases first_headerEnd_nil hhead
    · simp only [readRequest, hhead, some.injEq] at h
      exact .inl ⟨hall, h.symm⟩
    · simp only [readRequest, hhead] at h
      exact .inr ⟨before, last, rest, pos, hchunks, hbefore, hpos, hle, h⟩

theorem readBody_of_le {needed : Nat} (h : needed ≤ received.length) (chunks : List Bytes) :
    readBody needed received chunks = some (some (received, chunks)) := by
  cases chunks <;> simp [readBody, Nat.not_lt.mpr h]

/-- The second loop stops at the byte it needs, or with the stream. -/
theorem readBody_cases {needed : Nat} {out : Option (Bytes × List Bytes)}
    (hle : received.length ≤ needed) (h : readBody needed received chunks = some out) :
    ((received ++ chunks.flatten).length < needed ∧ out = none) ∨
      ∃ consumed rest, chunks = consumed ++ rest ∧
        (received ++ consumed.flatten).length = needed ∧
        out = some (received ++ consumed.flatten, rest) := by
  induction chunks generalizing received with
  | nil =>
    by_cases hlt : received.length < needed
    · simp only [readBody, if_pos hlt, some.injEq] at h
      exact .inl ⟨by simpa using hlt, h.symm⟩
    · simp only [readBody, if_neg hlt, some.injEq] at h
      exact .inr ⟨[], [], rfl, by simp; omega, by simp [← h]⟩
  | cons chunk chunks ih =>
    by_cases hlt : received.length < needed
    · simp only [readBody, if_pos hlt] at h
      by_cases hrecv : receivable chunk (needed - received.length)
      · rw [if_pos hrecv] at h
        have hle' : (received ++ chunk).length ≤ needed := by
          simp only [receivable, Bool.and_eq_true, decide_eq_true_eq] at hrecv
          rw [length_append]
          omega
        obtain ⟨hshort, rfl⟩ | ⟨consumed, rest, rfl, hlen, rfl⟩ := ih hle' h
        · exact .inl ⟨by simpa [append_assoc] using hshort, rfl⟩
        · exact .inr ⟨chunk :: consumed, rest, rfl, by simpa [append_assoc] using hlen,
            by simp [append_assoc]⟩
      · rw [if_neg hrecv] at h
        cases h
    · simp only [readBody, if_neg hlt, some.injEq] at h
      exact .inr ⟨[], chunk :: chunks, rfl, by simp; omega, by simp [← h]⟩

def wantsClose (headers : Bytes) : Bool :=
  (Occurrence.first [bytes "close"]
    ((getHeaderValue headers (bytes "Connection")).map toLower)).isSome

/-- The keep-alive loop: the requests that are processed on a connection. `keeps` tells
whether the handler of a request leaves the connection open. -/
def serveConnection (keeps : Bytes → Bytes → Bool) :
    Nat → List Bytes → Option (List (Bytes × Bytes))
  | 0, _ => some []
  | calls + 1, chunks =>
    match readRequest chunks with
    | none => none
    | some { outcome := .request headers body, rest, .. } =>
      if !wantsClose headers && keeps headers body then
        (serveConnection keeps calls rest).map ((headers, body) :: ·)
      else some [(headers, body)]
    | some _ => some []

end InferFlux.Http
