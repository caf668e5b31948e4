import InferFlux.Library.LoggedRun
import InferFlux.Library.TokenBucket
import InferFlux.Text.IncrementalUtf8
import Mathlib.Data.Rat.Floor

/-!
# The rate limiter

Embeds `RateLimiter` from `server/auth/rate_limiter.cpp`. Times and tokens are exact rationals.
The map from keys to principals is a function, and the three buckets of a principal, which the
source indexes by the request class, are a function of the class.

A run makes calls one after the other at times that do not decrease; an event of its log is a
decision of `Admit`. Only the fields that no decision depends on are left out.
-/

namespace InferFlux.Auth

open InferFlux.Text

inductive RequestClass where
  | other
  | generation
  | embeddings
  deriving DecidableEq, Repr

structure RequestBucketPolicy where
  requestsPerMinute : Int
  burst : Int
  deriving DecidableEq, Repr

structure EndpointRateLimits where
  generation : Option RequestBucketPolicy := none
  embeddings : Option RequestBucketPolicy := none
  deriving DecidableEq, Repr

def EndpointRateLimits.enabled (limits : EndpointRateLimits) : Bool :=
  limits.generation.isSome || limits.embeddings.isSome

def RequestBucketPolicy.valid (policy : RequestBucketPolicy) : Bool :=
  0 < policy.requestsPerMinute && 0 < policy.burst && policy.burst ≤ policy.requestsPerMinute

def RequestBucketPolicy.refill (policy : RequestBucketPolicy) : ℚ := policy.requestsPerMinute / 60

def validateEndpointRateLimits (limits : EndpointRateLimits) : Bool :=
  limits.generation.all RequestBucketPolicy.valid && limits.embeddings.all RequestBucketPolicy.valid

structure RateLimitDecision where
  allowed : Bool := true
  endpointPolicy : Bool := false
  scope : RequestClass := .other
  requestsPerMinute : Int := 0
  retryAfterSeconds : Int := 0
  deriving DecidableEq, Repr

structure Entry where
  tokens : ℚ
  last : ℚ
  deriving DecidableEq, Repr

def Entry.refilled (policy : RequestBucketPolicy) (now : ℚ) (bucket : Entry) : Entry where
  tokens := TokenBucket.level policy.burst policy.refill bucket.tokens bucket.last now
  last := now

/-- The time until a bucket has a token again, in whole seconds. -/
def Entry.retryAfter (policy : RequestBucketPolicy) (bucket : Entry) : Int :=
  ⌈(1 - bucket.tokens) / policy.refill⌉

structure Principal where
  buckets : RequestClass → Entry
  last : ℚ

structure RateLimiter where
  tokensPerMinute : Int
  endpoints : EndpointRateLimits
  entries : Bytes → Option Principal := fun _ => none
  lastEviction : ℚ := 0

/-- A request of the class counts against the bucket, if there is one. -/
def countsAgainst (requestClass bucket : RequestClass) : Bool :=
  bucket = .other || bucket = requestClass

/-- One bucket of the loop of `Admit`: without a token it rejects the request. The longest
time to wait is reported. -/
def RateLimitDecision.consider (buckets : RequestClass → Entry) (decision : RateLimitDecision)
    (applied : RequestClass × RequestBucketPolicy) : RateLimitDecision :=
  let (i, policy) := applied
  if (buckets i).tokens < 1 then
    let retry := (buckets i).retryAfter policy
    if decision.allowed || retry > decision.retryAfterSeconds then
      { decision with allowed := false, scope := i,
                      requestsPerMinute := policy.requestsPerMinute, retryAfterSeconds := retry }
    else { decision with allowed := false }
  else decision

namespace RateLimiter

/-- The constructor; `none` where it throws. -/
def create (tokensPerMinute : Int) (endpoints : EndpointRateLimits) : Option RateLimiter :=
  if !validateEndpointRateLimits endpoints then none
  else if endpoints.enabled && tokensPerMinute ≤ 0 then none
  else some { tokensPerMinute, endpoints }

def kEvictInterval : ℚ := 60

def kTtl : ℚ := 120

variable (limiter : RateLimiter)

def evictStaleLocked (now : ℚ) : RateLimiter :=
  if now - limiter.lastEviction < kEvictInterval then limiter
  else
    { limiter with
      lastEviction := now
      entries := fun key => (limiter.entries key).filter fun principal =>
        !(now - principal.last > kTtl) }

def policies : RequestClass → Option RequestBucketPolicy
  | .other => some ⟨limiter.tokensPerMinute, limiter.tokensPerMinute⟩
  | .generation => limiter.endpoints.generation
  | .embeddings => limiter.endpoints.embeddings

def applies (requestClass i : RequestClass) : Option RequestBucketPolicy :=
  if countsAgainst requestClass i then limiter.policies i else none

def applied (requestClass : RequestClass) : List (RequestClass × RequestBucketPolicy) :=
  [.other, .generation, .embeddings].filterMap fun i =>
    (limiter.applies requestClass i).map fun policy => (i, policy)

def bucketsOf (key : Bytes) (now : ℚ) : RequestClass → Entry :=
  match limiter.entries key with
  | some principal => principal.buckets
  | none => fun i => ⟨((limiter.policies i).map fun policy => (policy.burst : ℚ)).getD 0, now⟩

def refilledBuckets (key : Bytes) (requestClass : RequestClass) (now : ℚ) (i : RequestClass) :
    Entry :=
  let bucket := limiter.bucketsOf key now i
  match limiter.applies requestClass i with
  | some policy => bucket.refilled policy now
  | none => bucket

def debited (requestClass : RequestClass) (buckets : RequestClass → Entry) (i : RequestClass) :
    Entry :=
  match limiter.applies requestClass i with
  | some _ => { buckets i with tokens := (buckets i).tokens - 1 }
  | none => buckets i

def decision (key : Bytes) (requestClass : RequestClass) (now : ℚ) :
    RateLimitDecision × (RequestClass → Entry) :=
  let buckets := limiter.refilledBuckets key requestClass now
  let decision := (limiter.applied requestClass).foldl (RateLimitDecision.consider buckets)
    { endpointPolicy := limiter.endpoints.enabled }
  (decision, if decision.allowed then limiter.debited requestClass buckets else buckets)

def admitKey (now : ℚ) (key : Bytes) (requestClass : RequestClass) : RateLimitDecision × RateLimiter :=
  if limiter.tokensPerMinute ≤ 0 then ({ endpointPolicy := limiter.endpoints.enabled }, limiter)
  else
    let limiter := limiter.evictStaleLocked now
    let (decision, buckets) := limiter.decision key requestClass now
    (decision,
      { limiter with entries := Function.update limiter.entries key (some { buckets, last := now }) })

def updateLimit (now : ℚ) (tokensPerMinute : Int) : Option RateLimiter :=
  if limiter.endpoints.enabled && tokensPerMinute ≤ 0 then none
  else if limiter.endpoints.enabled then
    some { limiter with
      tokensPerMinute
      entries := fun key => (limiter.entries key).map fun principal =>
        { principal with buckets := Function.update principal.buckets .other ⟨tokensPerMinute, now⟩ } }
  else some { limiter with tokensPerMinute, entries := fun _ => none }

end RateLimiter

structure LimiterState where
  limiter : RateLimiter
  clock : ℚ

inductive LimiterOp where
  | admitKey (now : ℚ) (key : Bytes) (requestClass : RequestClass)
  | updateLimit (now : ℚ) (tokensPerMinute : Int)

structure AdmitEvent where
  now : ℚ
  key : Bytes
  requestClass : RequestClass
  decision : RateLimitDecision
  deriving DecidableEq, Repr

def LimiterState.step (s : LimiterState) : LimiterOp → Option (LimiterState × List AdmitEvent)
  | .admitKey now key requestClass =>
    if now < s.clock then none
    else
      let (decision, limiter) := s.limiter.admitKey now key requestClass
      some (⟨limiter, now⟩, [⟨now, key, requestClass, decision⟩])
  | .updateLimit now tokensPerMinute =>
    if now < s.clock then none
    else some (⟨(s.limiter.updateLimit now tokensPerMinute).getD s.limiter, now⟩, [])

def LimiterState.admitStep (s : LimiterState) (call : ℚ × Bytes × RequestClass) :
    Option (LimiterState × List AdmitEvent) :=
  s.step (.admitKey call.1 call.2.1 call.2.2)

end InferFlux.Auth
