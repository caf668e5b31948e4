import InferFlux.Auth.RateLimiter

/-!
# Levels of the buckets of a rate limiter

What a key has left in a bucket at a time is its `level`. It does not depend on when the bucket
was touched, nor on whether the principal is kept or has been evicted and would be created anew
(`Valid.evictStaleLocked`): every burst refills within a minute, and only principals that have
been idle for two are evicted. So a call does to the levels what it should do: it is admitted
exactly if its buckets have a token, an admitted call takes one from each of them, and nothing
else changes (`level_admitKey`).
-/

namespace InferFlux.Auth

open InferFlux.Text RequestBucketPolicy Option Function TokenBucket

namespace RateLimiter

def level (limiter : RateLimiter) (policy : RequestBucketPolicy) (key : Bytes) (i : RequestClass)
    (t : ℚ) : ℚ :=
  match limiter.entries key with
  | some principal =>
    TokenBucket.level policy.burst policy.refill (principal.buckets i).tokens
      (principal.buckets i).last t
  | none => policy.burst

end RateLimiter

/-- A bucket that was last touched by a call of its principal, or is full. -/
structure Entry.Valid (bucket : Entry) (policy : RequestBucketPolicy) (touched clock : ℚ) :
    Prop where
  nonneg : 0 ≤ bucket.tokens
  le_burst : bucket.tokens ≤ policy.burst
  last_le : bucket.last ≤ clock
  idle : bucket.last ≤ touched ∨ bucket.tokens = policy.burst

structure RateLimiter.Valid (limiter : RateLimiter) (clock : ℚ) : Prop where
  endpoints : validateEndpointRateLimits limiter.endpoints = true
  enabled : limiter.endpoints.enabled → 0 < limiter.tokensPerMinute
  entry : ∀ key principal, limiter.entries key = some principal →
    0 < limiter.tokensPerMinute ∧ principal.last ≤ clock ∧
      ∀ i policy, limiter.policies i = some policy →
        (principal.buckets i).Valid policy principal.last clock

/-! ## Policies -/

theorem RequestBucketPolicy.valid_iff {policy : RequestBucketPolicy} :
    policy.valid = true ↔
      0 < policy.requestsPerMinute ∧ 0 < policy.burst ∧ policy.burst ≤ policy.requestsPerMinute := by
  simp [valid, and_assoc]

section

variable {policy : RequestBucketPolicy}

theorem RequestBucketPolicy.refill_pos (h : policy.valid) : 0 < policy.refill := by
  have hpos : (0 : ℚ) < policy.requestsPerMinute := by exact_mod_cast (valid_iff.mp h).1
  exact div_pos hpos (by norm_num)

theorem RequestBucketPolicy.one_le_burst (h : policy.valid) : (1 : ℚ) ≤ policy.burst := by
  exact_mod_cast (valid_iff.mp h).2.1

theorem RequestBucketPolicy.burst_le_minute (h : policy.valid) :
    (policy.burst : ℚ) ≤ 60 * policy.refill := by
  have hle : (policy.burst : ℚ) ≤ policy.requestsPerMinute := by exact_mod_cast (valid_iff.mp h).2.2
  have hrate : 60 * policy.refill = policy.requestsPerMinute := by
    unfold refill
    ring
  rw [hrate]
  exact hle

end

namespace RateLimiter

variable {limiter : RateLimiter} {clock now t : ℚ} {key : Bytes} {requestClass i : RequestClass}
  {policy : RequestBucketPolicy}

theorem Valid.mono (hvalid : limiter.Valid clock) (hnow : clock ≤ now) : limiter.Valid now where
  endpoints := hvalid.endpoints
  enabled := hvalid.enabled
  entry key principal hentry := by
    obtain ⟨htpm, hlast, hbuckets⟩ := hvalid.entry key principal hentry
    refine ⟨htpm, hlast.trans hnow, fun i policy hpolicy => ?_⟩
    obtain ⟨h1, h2, h3, h4⟩ := hbuckets i policy hpolicy
    exact ⟨h1, h2, h3.trans hnow, h4⟩

theorem Valid.policy_valid (hvalid : limiter.Valid clock) (htpm : 0 < limiter.tokensPerMinute)
    (hpolicy : limiter.policies i = some policy) : policy.valid := by
  have hendpoints := hvalid.endpoints
  simp only [validateEndpointRateLimits, Bool.and_eq_true] at hendpoints
  cases i with
  | other =>
    obtain rfl := some.inj hpolicy
    exact valid_iff.mpr ⟨htpm, htpm, le_refl _⟩
  | generation =>
    have hpolicy : limiter.endpoints.generation = some policy := hpolicy
    simpa [hpolicy] using hendpoints.1
  | embeddings =>
    have hpolicy : limiter.endpoints.embeddings = some policy := hpolicy
    simpa [hpolicy] using hendpoints.2

/-- A principal is kept, or has been idle for two minutes. -/
theorem evictStaleLocked_eq (limiter : RateLimiter) (now : ℚ) :
    ∃ lastEviction entries,
      limiter.evictStaleLocked now = { limiter with lastEviction, entries } ∧
        ∀ key, entries key = limiter.entries key ∨ entries key = none ∧
          ∃ principal, limiter.entries key = some principal ∧ kTtl < now - principal.last := by
  unfold evictStaleLocked
  split
  · exact ⟨_, _, rfl, fun _ => .inl rfl⟩
  · refine ⟨_, _, rfl, fun key => ?_⟩
    cases hentry : limiter.entries key with
    | none => exact .inl rfl
    | some principal =>
      by_cases hidle : now - principal.last > kTtl
      · exact .inr ⟨by simpa using lt_sub_iff_add_lt.mp hidle, principal, rfl, hidle⟩
      · exact .inl (by simpa using hidle)

/-- Eviction changes no level from now on. -/
theorem Valid.evictStaleLocked (hvalid : limiter.Valid now) :
    ∃ limiter', limiter.evictStaleLocked now = limiter' ∧ limiter'.Valid now ∧
      limiter'.tokensPerMinute = limiter.tokensPerMinute ∧ limiter'.policies = limiter.policies ∧
      ∀ key i policy, limiter.policies i = some policy → ∀ t, now ≤ t →
        limiter'.level policy key i t = limiter.level policy key i t := by
  obtain ⟨lastEviction, entries, heq, hentries⟩ := evictStaleLocked_eq limiter now
  refine ⟨_, heq, ⟨hvalid.endpoints, hvalid.enabled, fun key principal hentry => ?_⟩, rfl, rfl, ?_⟩
  · obtain hkept | ⟨hnone, -⟩ := hentries key
    · exact hvalid.entry key principal (hkept.symm.trans hentry)
    · exact nomatch hnone.symm.trans hentry
  · intro key i policy hpolicy t ht
    obtain hkept | ⟨hnone, principal, hentry, hidle⟩ := hentries key
    · simp [level, hkept]
    obtain ⟨htpm, -, hbuckets⟩ := hvalid.entry key principal hentry
    have hbucket := hbuckets i policy hpolicy
    have hpol := hvalid.policy_valid htpm hpolicy
    have hrate := (refill_pos hpol).le
    simp only [level, hnone, hentry]
    symm
    obtain hlast | hfull := hbucket.idle
    · refine level_eq_burst hbucket.nonneg ((burst_le_minute hpol).trans ?_)
      refine mul_le_mul_of_nonneg_right ?_ hrate
      simp only [kTtl] at hidle
      linarith
    · rw [hfull]
      exact level_full hrate (by linarith [hbucket.last_le])

end RateLimiter

/-! ## Decisions -/

section

variable {buckets : RequestClass → Entry} {applied : List (RequestClass × RequestBucketPolicy)}

def waits (buckets : RequestClass → Entry) (applied : List (RequestClass × RequestBucketPolicy)) :
    Set Int :=
  {retry | ∃ i policy, (i, policy) ∈ applied ∧ (buckets i).tokens < 1 ∧
    (buckets i).retryAfter policy = retry}

theorem waits_concat (a : RequestClass × RequestBucketPolicy) :
    waits buckets (applied ++ [a]) =
      if (buckets a.1).tokens < 1 then insert ((buckets a.1).retryAfter a.2) (waits buckets applied)
      else waits buckets applied := by
  ext retry
  split_ifs with hempty <;> grind [waits]

/-- A request is rejected if it has to wait, and then the longest time is reported. -/
def RateLimitDecision.Sound (buckets : RequestClass → Entry)
    (applied : List (RequestClass × RequestBucketPolicy)) (decision : RateLimitDecision) : Prop :=
  if decision.allowed then waits buckets applied = ∅
  else IsGreatest (waits buckets applied) decision.retryAfterSeconds

theorem RateLimitDecision.sound_foldl {decision : RateLimitDecision}
    (hallowed : decision.allowed = true) :
    (applied.foldl (consider buckets) decision).Sound buckets applied := by
  induction applied using List.reverseRecOn with
  | nil => simp [Sound, hallowed, waits]
  | append_singleton applied a ih =>
    rw [List.foldl_concat]
    generalize applied.foldl (consider buckets) decision = last at ih ⊢
    simp only [Sound, consider, waits_concat] at ih ⊢
    by_cases hempty : (buckets a.1).tokens < 1
    · rw [if_pos hempty, if_pos hempty]
      cases hlast : last.allowed with
      | true =>
        rw [hlast, if_pos rfl] at ih
        simp [ih, isGreatest_singleton]
      | false =>
        rw [hlast, if_neg Bool.false_ne_true] at ih
        have hmax := ih.insert ((buckets a.1).retryAfter a.2)
        by_cases hmore : (buckets a.1).retryAfter a.2 > last.retryAfterSeconds
        · simpa [hmore, max_eq_left hmore.le] using hmax
        · simpa [hmore, max_eq_right (not_lt.mp hmore)] using hmax
    · rwa [if_neg hempty, if_neg hempty]

end

namespace RateLimiter

def waits (limiter : RateLimiter) (key : Bytes) (requestClass : RequestClass) (now : ℚ) : Set Int :=
  {retry | ∃ i policy, limiter.applies requestClass i = some policy ∧
    limiter.level policy key i now < 1 ∧
    ⌈(1 - limiter.level policy key i now) / policy.refill⌉ = retry}

variable {limiter : RateLimiter} {now t : ℚ} {key : Bytes} {requestClass i : RequestClass}
  {policy : RequestBucketPolicy}

theorem mem_applied_iff :
    (i, policy) ∈ limiter.applied requestClass ↔ limiter.applies requestClass i = some policy := by
  simp only [applied, List.mem_filterMap, map_eq_some_iff, Prod.mk.injEq]
  constructor
  · rintro ⟨j, -, p, hp, rfl, rfl⟩
    exact hp
  · intro h
    exact ⟨i, by cases i <;> simp, policy, h, rfl, rfl⟩

theorem applies_eq_some_iff :
    limiter.applies requestClass i = some policy ↔
      countsAgainst requestClass i = true ∧ limiter.policies i = some policy := by
  simp [applies]

theorem waits_eq_empty_iff :
    limiter.waits key requestClass now = ∅ ↔
      ∀ i policy, limiter.applies requestClass i = some policy →
        1 ≤ limiter.level policy key i now := by
  simp only [waits, Set.eq_empty_iff_forall_notMem, Set.mem_ofPred_eq, ← not_lt]
  grind

theorem level_le_burst (limiter : RateLimiter) (policy : RequestBucketPolicy) (key : Bytes)
    (i : RequestClass) (t : ℚ) : limiter.level policy key i t ≤ policy.burst := by
  unfold level
  split
  · exact TokenBucket.level_le_burst
  · exact le_refl _

section

variable (hvalid : limiter.Valid now) (htpm : 0 < limiter.tokensPerMinute) (key : Bytes)

include hvalid htpm

theorem level_bucketsOf (hpolicy : limiter.policies i = some policy) (ht : now ≤ t) :
    TokenBucket.level (policy.burst : ℚ) policy.refill (limiter.bucketsOf key now i).tokens
      (limiter.bucketsOf key now i).last t = limiter.level policy key i t := by
  have hrate := (refill_pos (hvalid.policy_valid htpm hpolicy)).le
  unfold bucketsOf level
  cases limiter.entries key with
  | some principal => rfl
  | none => simp [hpolicy, level_full hrate ht]

theorem level_refilled (hpolicy : limiter.policies i = some policy) (ht : now ≤ t) :
    TokenBucket.level (policy.burst : ℚ) policy.refill (limiter.level policy key i now) now t =
      limiter.level policy key i t := by
  have hlevel (t : ℚ) (ht : now ≤ t) := level_bucketsOf hvalid htpm key hpolicy ht
  rw [← hlevel t ht, ← hlevel now le_rfl]
  exact level_level (refill_pos (hvalid.policy_valid htpm hpolicy)).le ht

theorem valid_bucketsOf (hpolicy : limiter.policies i = some policy) :
    (limiter.bucketsOf key now i).Valid policy now now := by
  unfold bucketsOf
  cases hentry : limiter.entries key with
  | some principal =>
    obtain ⟨h1, h2, h3, -⟩ := (hvalid.entry key principal hentry).2.2 i policy hpolicy
    exact ⟨h1, h2, h3, .inl h3⟩
  | none =>
    have hone := one_le_burst (hvalid.policy_valid htpm hpolicy)
    simp only [hpolicy, map_some, getD_some]
    exact ⟨by linarith, le_refl _, le_refl _, .inr rfl⟩

theorem refilledBuckets_eq (happlies : limiter.applies requestClass i = some policy) :
    limiter.refilledBuckets key requestClass now i = ⟨limiter.level policy key i now, now⟩ := by
  have hpolicy := (applies_eq_some_iff.mp happlies).2
  simp [refilledBuckets, happlies, Entry.refilled, level_bucketsOf hvalid htpm key hpolicy le_rfl]

variable (requestClass : RequestClass)

theorem decision_waits :
    if (limiter.decision key requestClass now).1.allowed then
      limiter.waits key requestClass now = ∅
    else IsGreatest (limiter.waits key requestClass now)
      (limiter.decision key requestClass now).1.retryAfterSeconds := by
  have hwaits : Auth.waits (limiter.refilledBuckets key requestClass now)
      (limiter.applied requestClass) = limiter.waits key requestClass now := by
    ext retry
    simp only [Auth.waits, waits, Set.mem_ofPred_eq, mem_applied_iff]
    refine exists_congr fun i => exists_congr fun policy => and_congr_right fun happlies => ?_
    rw [refilledBuckets_eq hvalid htpm key happlies]
    rfl
  rw [← hwaits]
  exact RateLimitDecision.sound_foldl rfl

theorem decision_bucket (hpolicy : limiter.policies i = some policy) :
    (limiter.decision key requestClass now).2 i =
      if countsAgainst requestClass i then
        ⟨limiter.level policy key i now -
          if (limiter.decision key requestClass now).1.allowed then 1 else 0, now⟩
      else limiter.bucketsOf key now i := by
  cases hcounts : countsAgainst requestClass i with
  | true =>
    have happlies := applies_eq_some_iff.mpr ⟨hcounts, hpolicy⟩
    have hbucket := refilledBuckets_eq hvalid htpm key happlies
    cases hallowed : (limiter.decision key requestClass now).1.allowed <;>
      simp only [decision] at hallowed ⊢ <;> simp [hallowed, debited, happlies, hbucket]
  | false =>
    have hnone : limiter.applies requestClass i = none := by simp [applies, hcounts]
    simp only [decision]
    split <;> simp [debited, refilledBuckets, hnone]

theorem valid_decision (hpolicy : limiter.policies i = some policy) :
    ((limiter.decision key requestClass now).2 i).Valid policy now now := by
  have hbucket := valid_bucketsOf hvalid htpm key hpolicy
  have hpol := hvalid.policy_valid htpm hpolicy
  have hone := one_le_burst hpol
  have hburst := level_le_burst limiter policy key i now
  have hnonneg : 0 ≤ limiter.level policy key i now := by
    rw [← level_bucketsOf hvalid htpm key hpolicy le_rfl]
    exact TokenBucket.level_nonneg (by linarith) (refill_pos hpol).le hbucket.nonneg hbucket.last_le
  rw [decision_bucket hvalid htpm key requestClass hpolicy]
  split_ifs with hcounts hallowed
  · have hwaits := decision_waits hvalid htpm key requestClass
    rw [if_pos hallowed, waits_eq_empty_iff] at hwaits
    have htoken := hwaits i policy (applies_eq_some_iff.mpr ⟨hcounts, hpolicy⟩)
    exact ⟨by linarith, by linarith, le_refl _, .inl (le_refl _)⟩
  · exact ⟨by linarith, by linarith, le_refl _, .inl (le_refl _)⟩
  · exact hbucket

/-! ## One call -/

/-- An enabled limiter evicts, decides, and keeps the buckets. -/
theorem admitKey_eq :
    ∃ limiter' : RateLimiter, limiter'.Valid now ∧ 0 < limiter'.tokensPerMinute ∧
      limiter'.policies = limiter.policies ∧
      (∀ key i policy, limiter.policies i = some policy → ∀ t, now ≤ t →
        limiter'.level policy key i t = limiter.level policy key i t) ∧
      limiter.admitKey now key requestClass = ((limiter'.decision key requestClass now).1,
        { limiter' with
          entries := update limiter'.entries key
            (some ⟨(limiter'.decision key requestClass now).2, now⟩) }) := by
  obtain ⟨limiter', heq, hvalid', htpm', hpolicies, hlevel⟩ := hvalid.evictStaleLocked
  refine ⟨limiter', hvalid', htpm' ▸ htpm, hpolicies, hlevel, ?_⟩
  simp [admitKey, if_neg (not_le.mpr htpm), heq]

/-- A call is admitted exactly if none of its buckets is without a token; otherwise the longest
time to wait is reported. -/
theorem admitKey_waits :
    if (limiter.admitKey now key requestClass).1.allowed then
      limiter.waits key requestClass now = ∅
    else IsGreatest (limiter.waits key requestClass now)
      (limiter.admitKey now key requestClass).1.retryAfterSeconds := by
  obtain ⟨limiter', hvalid', htpm', hpolicies, hlevel, heq⟩ :=
    admitKey_eq hvalid htpm key requestClass
  have hwaits : limiter'.waits key requestClass now = limiter.waits key requestClass now := by
    ext retry
    simp only [waits, applies, hpolicies, Set.mem_ofPred_eq]
    refine exists_congr fun i => exists_congr fun policy => and_congr_right fun happlies => ?_
    rw [hlevel key i policy (applies_eq_some_iff.mp happlies).2 now le_rfl]
  rw [heq, ← hwaits]
  exact decision_waits hvalid' htpm' key requestClass

/-- A call is admitted exactly if its buckets have a token. -/
theorem allowed_admitKey_iff :
    (limiter.admitKey now key requestClass).1.allowed = true ↔
      ∀ i policy, limiter.applies requestClass i = some policy →
        1 ≤ limiter.level policy key i now := by
  have hwaits := admitKey_waits hvalid htpm key requestClass
  rw [← waits_eq_empty_iff]
  split_ifs at hwaits with hyes
  · exact iff_of_true hyes hwaits
  · exact iff_of_false hyes hwaits.nonempty.ne_empty

/-- An admitted call takes a token from each of its buckets, and nothing else changes. -/
theorem level_admitKey (hpolicy : limiter.policies i = some policy) (key' : Bytes) (ht : now ≤ t) :
    (limiter.admitKey now key requestClass).2.level policy key' i t =
      if key' = key ∧ countsAgainst requestClass i = true ∧
          (limiter.admitKey now key requestClass).1.allowed = true then
        TokenBucket.level (policy.burst : ℚ) policy.refill (limiter.level policy key i now - 1) now t
      else limiter.level policy key' i t := by
  obtain ⟨limiter', hvalid', htpm', hpolicies, hlevel, heq⟩ :=
    admitKey_eq hvalid htpm key requestClass
  have hpolicy' : limiter'.policies i = some policy := by rwa [hpolicies]
  rw [heq, ← hlevel key' i policy hpolicy t ht, ← hlevel key i policy hpolicy now le_rfl]
  by_cases hkey : key' = key
  · subst hkey
    have hbucket := decision_bucket hvalid' htpm' key' requestClass hpolicy'
    rw [level]
    simp only [update_self, hbucket]
    cases hcounts : countsAgainst requestClass i with
    | false => simpa using level_bucketsOf hvalid' htpm' key' hpolicy' ht
    | true =>
      cases hallowed : (limiter'.decision key' requestClass now).1.allowed with
      | true => simp
      | false => simpa using level_refilled hvalid' htpm' key' hpolicy' ht
  · rw [if_neg (fun h => hkey h.1)]
    simp [level, update_of_ne hkey]

end

theorem policies_admitKey (limiter : RateLimiter) (now : ℚ) (key : Bytes)
    (requestClass : RequestClass) :
    (limiter.admitKey now key requestClass).2.policies = limiter.policies := by
  obtain ⟨lastEviction, entries, heq, -⟩ := evictStaleLocked_eq limiter now
  unfold admitKey
  split
  · rfl
  · rw [heq]
    rfl

/-! ## Valid states -/

theorem valid_create {tokensPerMinute : Int} {endpoints : EndpointRateLimits}
    (h : create tokensPerMinute endpoints = some limiter) (clock : ℚ) : limiter.Valid clock := by
  unfold create at h
  split_ifs at h with hendpoints henabled
  obtain rfl := some.inj h
  refine ⟨by simpa using hendpoints, ?_, ?_⟩
  · intro hyes
    simpa [hyes] using henabled
  · intro key principal hentry
    cases hentry

theorem valid_admitKey (hvalid : limiter.Valid now) (key : Bytes)
    (requestClass : RequestClass) : (limiter.admitKey now key requestClass).2.Valid now := by
  by_cases htpm : 0 < limiter.tokensPerMinute
  · obtain ⟨limiter', hvalid', htpm', -, -, heq⟩ := admitKey_eq hvalid htpm key requestClass
    rw [heq]
    refine ⟨hvalid'.endpoints, hvalid'.enabled, ?_⟩
    intro key' principal hentry
    by_cases hkey : key' = key
    · subst hkey
      obtain rfl : _ = principal := by simpa using hentry
      exact ⟨htpm', le_refl _, fun i policy => valid_decision hvalid' htpm' key' requestClass⟩
    · simp only [update_of_ne hkey] at hentry
      exact hvalid'.entry key' principal hentry
  · simp only [admitKey, if_pos (not_lt.mp htpm)]
    exact hvalid

theorem valid_updateLimit (hvalid : limiter.Valid now) {tokensPerMinute : Int}
    {limiter' : RateLimiter} (h : limiter.updateLimit now tokensPerMinute = some limiter') :
    limiter'.Valid now := by
  unfold updateLimit at h
  split_ifs at h with hthrow henabled
  · -- The shared bucket of every principal is full again.
    obtain rfl := some.inj h
    have htpm : 0 < tokensPerMinute := by simpa [henabled] using hthrow
    refine ⟨hvalid.endpoints, fun _ => htpm, ?_⟩
    intro key principal hentry
    obtain ⟨old, hold, rfl⟩ := map_eq_some_iff.mp hentry
    obtain ⟨-, hlast, hbuckets⟩ := hvalid.entry key old hold
    refine ⟨htpm, hlast, fun i policy hpolicy => ?_⟩
    by_cases hi : i = .other
    · subst hi
      obtain rfl := some.inj hpolicy
      have hpos : (0 : ℚ) ≤ tokensPerMinute := by exact_mod_cast htpm.le
      exact ⟨hpos, le_refl _, le_refl _, .inr rfl⟩
    · have hpolicy' : limiter.policies i = some policy := by
        cases i with
        | other => exact absurd rfl hi
        | generation => exact hpolicy
        | embeddings => exact hpolicy
      simpa only [update_of_ne hi] using hbuckets i policy hpolicy'
  · obtain rfl := some.inj h
    refine ⟨hvalid.endpoints, fun hyes => absurd hyes henabled, ?_⟩
    intro key principal hentry
    cases hentry

end RateLimiter

end InferFlux.Auth
