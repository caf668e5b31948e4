import InferFlux.Http.RequestReader

/-!
# The request size limit

`HandleClient` is meant to hold at most `kMaxRequest` bytes for a request, and to answer 413
where a client sends more (`WithinLimit`). Its header loop leaves the buffer larger than what
it has received after every chunk, so that the branch with the 413 is never taken, and the
check before the body compares the body alone. So the limit holds exactly where the client
makes no use of this: at most half of the limit arrives without the end of the header block,
and the header block and the body are within the limit together unless the body is over it
alone.
-/

namespace InferFlux.Http

open InferFlux.Text Occurrence List

/-- What is received for one request stays within the limit, and a client that sends more gets
a 413: for a header block that does not end within the limit, and for a request that is over
it with its body. -/
structure WithinLimit (chunks : List Bytes) (reading : Reading) : Prop where
  buffer : reading.peak ≤ kMaxRequest
  head : kMaxRequest ≤ chunks.flatten.length →
    Occurrence.first [kHeaderEnd] (chunks.flatten.take kMaxRequest) = none →
      reading.outcome = .tooLarge
  body : ∀ pos, Occurrence.first [kHeaderEnd] (chunks.flatten.take kMaxRequest) = some pos →
    pos + 4 + contentLength (chunks.flatten.take pos) > kMaxRequest → reading.outcome = .tooLarge

variable {rest : List Bytes} {pos : Nat}

variable {chunks : List Bytes}

end InferFlux.Http
