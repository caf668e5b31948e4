import InferFlux.Auth.BucketLevels

/-!
# The guarantee of the rate limiter

In every window of time, a key has at most as many admitted requests that count against a
bucket as the burst of the bucket and what is refilled within the window. A rejected request
takes no tokens, and the time to wait that it reports is exact to the second. This holds for
every sequence of calls by any keys, whatever is evicted in between, as long as the limits are
not changed.
-/

namespace InferFlux.Auth

open InferFlux.Text RateLimiter RequestBucketPolicy LoggedRun LimiterState TokenBucket

/-- The admitted requests of a key that count against a bucket, within a window. -/
def debits (key : Bytes) (i : RequestClass) (start width : ℚ) (log : List AdmitEvent) : Nat :=
  log.countP fun e => e.key = key ∧ countsAgainst e.requestClass i = true ∧
    e.decision.allowed = true ∧ TokenBucket.Within start width e.now

variable {s t u : LimiterState} {key : Bytes} {i : RequestClass} {policy : RequestBucketPolicy}
  {log : List AdmitEvent} {call : ℚ × Bytes × RequestClass}
  {calls : List (ℚ × Bytes × RequestClass)}

namespace LimiterState

theorem valid_step {op : LimiterOp} (hvalid : s.limiter.Valid s.clock)
    (h : s.step op = some (t, log)) : t.limiter.Valid t.clock := by
  cases op with
  | admitKey now key requestClass =>
    simp only [step] at h
    split_ifs at h with hpast
    obtain ⟨rfl, -⟩ := h
    exact valid_admitKey (hvalid.mono (not_lt.mp hpast)) key requestClass
  | updateLimit now tokensPerMinute =>
    simp only [step] at h
    split_ifs at h with hpast
    obtain ⟨rfl, -⟩ := h
    cases hupdate : s.limiter.updateLimit now tokensPerMinute with
    | none => exact hvalid.mono (not_lt.mp hpast)
    | some limiter => exact valid_updateLimit (hvalid.mono (not_lt.mp hpast)) hupdate

theorem valid_run {ops : List LimiterOp} (hvalid : s.limiter.Valid s.clock)
    (h : run step s ops = some (t, log)) : t.limiter.Valid t.clock := by
  refine run_induction (P := fun _ t _ => t.limiter.Valid t.clock) hvalid ?_ h
  intro _ _ _ _ _ _ _ hvalid hstep
  exact valid_step hvalid hstep

theorem admitStep_eq_some (h : s.admitStep call = some (t, log)) :
    s.clock ≤ call.1 ∧ t = ⟨(s.limiter.admitKey call.1 call.2.1 call.2.2).2, call.1⟩ ∧
      log = [⟨call.1, call.2.1, call.2.2, (s.limiter.admitKey call.1 call.2.1 call.2.2).1⟩] := by
  simp only [admitStep, step] at h
  split_ifs at h with hpast
  simp only [Option.some.injEq, Prod.mk.injEq] at h
  exact ⟨not_lt.mp hpast, h.1.symm, h.2.symm⟩

/-- The states that calls of `Admit` lead to have the limits of the first one. -/
structure SameLimits (s t : LimiterState) : Prop where
  valid : t.limiter.Valid t.clock
  policies : t.limiter.policies = s.limiter.policies

namespace SameLimits

theorem tokensPerMinute (h : SameLimits s t) :
    t.limiter.tokensPerMinute = s.limiter.tokensPerMinute := by
  simpa [RateLimiter.policies] using congrFun h.policies .other

theorem admitKey (h : SameLimits s t) {now : ℚ} (hnow : t.clock ≤ now) (key : Bytes)
    (requestClass : RequestClass) :
    SameLimits s ⟨(t.limiter.admitKey now key requestClass).2, now⟩ :=
  ⟨valid_admitKey (h.valid.mono hnow) .., (policies_admitKey ..).trans h.policies⟩

end SameLimits

end LimiterState

theorem debits_concat (start width : ℚ) (e : AdmitEvent) :
    debits key i start width (log ++ [e]) = debits key i start width log +
      if e.key = key ∧ countsAgainst e.requestClass i = true ∧ e.decision.allowed = true ∧
        Within start width e.now then 1 else 0 := by
  simp [debits]

/-- The level of a bucket rises with its refill rate at most. -/
theorem RateLimiter.level_le_add (limiter : RateLimiter) (key : Bytes) (i : RequestClass)
    (hrate : 0 ≤ policy.refill) {t t' : ℚ} (ht : t ≤ t') :
    limiter.level policy key i t' ≤ limiter.level policy key i t + (t' - t) * policy.refill := by
  unfold level
  split
  · exact TokenBucket.level_le_add hrate ht
  · have := mul_nonneg (sub_nonneg.mpr ht) hrate
    linarith

theorem withinWindow_run (hvalid : s.limiter.Valid s.clock) (htpm : 0 < s.limiter.tokensPerMinute)
    (hpolicy : s.limiter.policies i = some policy) {start width : ℚ} (hwidth : 0 ≤ width)
    (h : run admitStep s calls = some (t, log)) :
    SameLimits s t ∧ WithinWindow (policy.burst : ℚ) policy.refill start width
      (debits key i start width log) (t.limiter.level policy key i t.clock) t.clock := by
  have hpol := hvalid.policy_valid htpm hpolicy
  have hburst := one_le_burst hpol
  have hrate := (refill_pos hpol).le
  refine run_induction (P := fun _ t log => SameLimits s t ∧
    WithinWindow (policy.burst : ℚ) policy.refill start width
      (debits key i start width log) (t.limiter.level policy key i t.clock) t.clock) ?_ ?_ h
  · refine ⟨⟨hvalid, rfl⟩, ?_⟩
    have hlevel := level_le_burst s.limiter policy key i s.clock
    simpa [debits] using WithinWindow.init (by linarith) hrate hwidth hlevel
  · rintro calls t log call u e - ⟨hsame, hwindow⟩ hstep
    obtain ⟨hnow, rfl, rfl⟩ := admitStep_eq_some hstep
    refine ⟨hsame.admitKey hnow .., ?_⟩
    have hvalid' := hsame.valid.mono hnow
    have htpm' : 0 < t.limiter.tokensPerMinute := by rwa [hsame.tokensPerMinute]
    have hpolicy' : t.limiter.policies i = some policy := by rwa [hsame.policies]
    have hlevel := level_admitKey hvalid' htpm' call.2.1 call.2.2 hpolicy' key (le_refl call.1)
    have hadvanced := hwindow.advance hrate hnow
      (level_le_burst t.limiter policy key i call.1) (level_le_add t.limiter key i hrate hnow)
    by_cases hdebit : key = call.2.1 ∧ countsAgainst call.2.2 i = true ∧
        (t.limiter.admitKey call.1 call.2.1 call.2.2).1.allowed = true
    · rw [if_pos hdebit] at hlevel
      obtain ⟨rfl, hcounts, hallowed⟩ := hdebit
      have htoken := (allowed_admitKey_iff hvalid' htpm' ..).mp hallowed i policy
        (applies_eq_some_iff.mpr ⟨hcounts, hpolicy'⟩)
      have hlast := level_le_burst t.limiter policy call.2.1 i call.1
      rw [hlevel, level_self (by linarith), debits_concat]
      by_cases hin : Within start width call.1
      · rw [if_pos ⟨rfl, hcounts, hallowed, hin⟩, Nat.cast_add, Nat.cast_one]
        exact hadvanced.debit hrate hin htoken
      · rw [if_neg (fun h => hin h.2.2.2), Nat.add_zero]
        exact hadvanced.debit_outside (by linarith)
    · rw [hlevel, if_neg hdebit, debits_concat,
        if_neg (fun h => hdebit ⟨h.1.symm, h.2.1, h.2.2.1⟩), Nat.add_zero]
      exact hadvanced

/-- A key has in a later state what it would have had without the calls in between. -/
structure LevelsKept (key : Bytes) (s t : LimiterState) : Prop extends SameLimits s t where
  clock_le : s.clock ≤ t.clock
  level : ∀ i policy, s.limiter.policies i = some policy → ∀ τ, t.clock ≤ τ →
    t.limiter.level policy key i τ = s.limiter.level policy key i τ

section

variable (htpm : 0 < s.limiter.tokensPerMinute)
include htpm

variable {now : ℚ} {requestClass : RequestClass}

/-- A call of another key and a rejected call change no level. -/
theorem LevelsKept.admitKey {key' : Bytes} (h : LevelsKept key s t) (hnow : t.clock ≤ now)
    (hcall : key = key' → (t.limiter.admitKey now key' requestClass).1.allowed = false) :
    LevelsKept key s ⟨(t.limiter.admitKey now key' requestClass).2, now⟩ := by
  refine ⟨h.toSameLimits.admitKey hnow .., h.clock_le.trans hnow, ?_⟩
  intro i policy hpolicy τ hτ
  have htpm' : 0 < t.limiter.tokensPerMinute := by rwa [h.tokensPerMinute]
  rw [level_admitKey (h.valid.mono hnow) htpm' key' requestClass (by rwa [h.policies]) key hτ,
    if_neg fun hdebit => absurd hdebit.2.2 (by simp [hcall hdebit.1])]
  exact h.level i policy hpolicy τ (hnow.trans hτ)

theorem LevelsKept.run (h : LevelsKept key s t) (hothers : ∀ call ∈ calls, call.2.1 ≠ key)
    (hrun : run LimiterState.admitStep t calls = some (u, log)) : LevelsKept key s u := by
  refine (along_of_forall fun call hcall _ => hothers call hcall).invariant ?_ h hrun
  intro t call u e h hother hstep
  obtain ⟨hnow, rfl, -⟩ := admitStep_eq_some hstep
  exact h.admitKey htpm hnow fun heq => absurd heq.symm hother

theorem LevelsKept.allowed_iff (h : LevelsKept key s t) {τ : ℚ} (hτ : t.clock ≤ τ) :
    (t.limiter.admitKey τ key requestClass).1.allowed = true ↔
      ∀ i policy, s.limiter.applies requestClass i = some policy →
        1 ≤ s.limiter.level policy key i τ := by
  rw [allowed_admitKey_iff (h.valid.mono hτ) (h.tokensPerMinute ▸ htpm)]
  simp only [applies, h.policies]
  refine forall₂_congr fun i policy => imp_congr_right fun happlies => ?_
  rw [h.level i policy (applies_eq_some_iff.mp happlies).2 τ hτ]

/-- A bucket has a token after the time to wait for it. -/
theorem one_le_level_iff (hvalid : s.limiter.Valid now)
    (hpolicy : s.limiter.policies i = some policy) {wait : Int} (hwait : now ≤ now + wait) :
    1 ≤ s.limiter.level policy key i (now + wait) ↔
      ⌈(1 - s.limiter.level policy key i now) / policy.refill⌉ ≤ wait := by
  have hpol := hvalid.policy_valid htpm hpolicy
  rw [← level_refilled hvalid htpm key hpolicy hwait, TokenBucket.level, le_min_iff, Int.ceil_le,
    div_le_iff₀ (refill_pos hpol), add_sub_cancel_left, sub_le_iff_le_add']
  exact and_iff_right (one_le_burst hpol)

/-- The time to wait after a rejection is exact to the second. -/
theorem retry_exact (hvalid : s.limiter.Valid s.clock)
    (hno : (s.limiter.admitKey s.clock key requestClass).1.allowed = false)
    (hkept : LevelsKept key s t) :
    let retry := (s.limiter.admitKey s.clock key requestClass).1.retryAfterSeconds
    (t.clock ≤ s.clock + retry →
      (t.limiter.admitKey (s.clock + retry) key requestClass).1.allowed = true) ∧
    (t.clock ≤ s.clock + retry - 1 →
      (t.limiter.admitKey (s.clock + retry - 1) key requestClass).1.allowed = false) := by
  intro retry
  have hwaits := admitKey_waits hvalid htpm key requestClass
  rw [hno, if_neg Bool.false_ne_true] at hwaits
  have hallowed (wait : Int) (hwait : t.clock ≤ s.clock + wait) :
      (t.limiter.admitKey (s.clock + wait) key requestClass).1.allowed = true ↔
        ∀ i policy, s.limiter.applies requestClass i = some policy →
          ⌈(1 - s.limiter.level policy key i s.clock) / policy.refill⌉ ≤ wait := by
    rw [hkept.allowed_iff htpm hwait]
    refine forall₂_congr fun i policy => imp_congr_right fun happlies => ?_
    exact one_le_level_iff htpm hvalid (applies_eq_some_iff.mp happlies).2
      (hkept.clock_le.trans hwait)
  constructor
  · intro hτ
    rw [hallowed retry hτ]
    intro i policy happlies
    by_cases hlt : s.limiter.level policy key i s.clock < 1
    · exact hwaits.2 ⟨i, policy, happlies, hlt, rfl⟩
    · have hrate := refill_pos (hvalid.policy_valid htpm (applies_eq_some_iff.mp happlies).2)
      have hnone := div_nonpos_of_nonpos_of_nonneg (sub_nonpos.mpr (not_lt.mp hlt)) hrate.le
      exact Int.ceil_le.mpr (hnone.trans (by linarith [hkept.clock_le]))
  · intro hτ
    have hsub : s.clock + (retry : ℚ) - 1 = s.clock + ((retry - 1 : Int) : ℚ) := by
      push_cast
      ring
    rw [hsub] at hτ ⊢
    obtain ⟨i, policy, happlies, -, hceil⟩ := hwaits.1
    rw [Bool.eq_false_iff, Ne, hallowed _ hτ]
    intro hall
    have := hall i policy happlies
    omega

end

/-- The guarantee of the limiter, in every state that a run of requests and changes of the
limits leads to, for as long as the limits stay as they are there. The requests of a key that
are admitted within a window and count against a bucket are at most the burst and what is
refilled within the window. A rejected request changes no level. After a rejection, the same
request is admitted when the reported time has passed, and not a second earlier, whatever other
keys do in between. -/
theorem rate_guarantee {tokensPerMinute : Int} {endpoints : EndpointRateLimits}
    {limiter : RateLimiter} (hcreate : RateLimiter.create tokensPerMinute endpoints = some limiter)
    {begin : ℚ} {ops : List LimiterOp} {s : LimiterState} {past : List AdmitEvent}
    (hreach : LoggedRun.run LimiterState.step ⟨limiter, begin⟩ ops = some (s, past))
    (htpm : 0 < s.limiter.tokensPerMinute) :
    (∀ calls t log, LoggedRun.run LimiterState.admitStep s calls = some (t, log) →
      ∀ key i policy, s.limiter.policies i = some policy → ∀ start width, 0 ≤ width →
        (debits key i start width log : ℚ) ≤
          policy.burst + width * (policy.requestsPerMinute / 60)) ∧
    (∀ now key requestClass, s.clock ≤ now →
      (s.limiter.admitKey now key requestClass).1.allowed = false →
        (∀ key' i policy, s.limiter.policies i = some policy → ∀ τ, now ≤ τ →
          (s.limiter.admitKey now key requestClass).2.level policy key' i τ =
            s.limiter.level policy key' i τ) ∧
        ∀ others t log, (∀ call ∈ others, call.2.1 ≠ key) →
          LoggedRun.run LimiterState.admitStep
            ⟨(s.limiter.admitKey now key requestClass).2, now⟩ others = some (t, log) →
          let retry := (s.limiter.admitKey now key requestClass).1.retryAfterSeconds
          (t.clock ≤ now + retry →
            (t.limiter.admitKey (now + retry) key requestClass).1.allowed = true) ∧
          (t.clock ≤ now + retry - 1 →
            (t.limiter.admitKey (now + retry - 1) key requestClass).1.allowed = false)) := by
  have hvalid := LimiterState.valid_run (RateLimiter.valid_create hcreate begin) hreach
  refine ⟨?_, ?_⟩
  · intro calls t log hrun key i policy hpolicy start width hwidth
    exact (withinWindow_run hvalid htpm hpolicy hwidth hrun).2.total
  · intro now key requestClass hnow hno
    have hvalid' := hvalid.mono hnow
    have hstart (key' : Bytes) : LevelsKept key' ⟨s.limiter, now⟩ ⟨s.limiter, now⟩ :=
      ⟨⟨hvalid', rfl⟩, le_refl _, fun _ _ _ _ _ => rfl⟩
    have hafter (key' : Bytes) :=
      LevelsKept.admitKey (s := ⟨s.limiter, now⟩) htpm (hstart key') (le_refl now) fun _ => hno
    refine ⟨fun key' => (hafter key').level, ?_⟩
    intro others t log hothers hrun
    exact retry_exact (s := ⟨s.limiter, now⟩) htpm hvalid' hno ((hafter key).run htpm hothers hrun)

def onePerMinute : RateLimiter := { tokensPerMinute := 1, endpoints := {} }

/-- The second request within a minute is rejected, and admitted 60 seconds later. -/
theorem onePerMinute_retry :
    let limiter := ((onePerMinute.admitKey 0 [] .other).2.admitKey 0 [] .other).2
    (limiter.admitKey 60 [] .other).1.allowed = true ∧
      (limiter.admitKey 59 [] .other).1.allowed = false := by
  have hcreate : RateLimiter.create 1 {} = some onePerMinute := rfl
  have hreach : LoggedRun.run LimiterState.step ⟨onePerMinute, 0⟩ [.admitKey 0 [] .other] =
      some (⟨(onePerMinute.admitKey 0 [] .other).2, 0⟩,
        [⟨0, [], .other, (onePerMinute.admitKey 0 [] .other).1⟩]) := rfl
  have hno : ((onePerMinute.admitKey 0 [] .other).2.admitKey 0 [] .other).1.allowed = false := by
    decide +kernel
  have hretry : ((onePerMinute.admitKey 0 [] .other).2.admitKey 0 [] .other).1.retryAfterSeconds =
      60 := by decide +kernel
  have h := ((rate_guarantee hcreate hreach (by decide +kernel)).2 0 [] .other (le_refl _) hno).2 []
    _ _ (by simp) rfl
  simp only [hretry] at h
  norm_num at h
  exact h

/-! ## Independence of the keys -/

section

variable {now : ℚ} {requestClass : RequestClass} (htpm : 0 < s.limiter.tokensPerMinute)
  (hvalid : s.limiter.Valid s.clock) (h : LevelsKept key s t)
include htpm hvalid h

/-- A decision depends on the limits and on the levels of its key only. -/
theorem LevelsKept.decision_eq (hnow : t.clock ≤ now) :
    (t.limiter.admitKey now key requestClass).1 = (s.limiter.admitKey now key requestClass).1 := by
  obtain ⟨a, ha, htpm₁, hpol₁, hlevel₁, heq₁⟩ :=
    admitKey_eq (h.valid.mono hnow) (h.tokensPerMinute ▸ htpm) key requestClass
  obtain ⟨b, hb, htpm₂, hpol₂, hlevel₂, heq₂⟩ :=
    admitKey_eq (hvalid.mono (h.clock_le.trans hnow)) htpm key requestClass
  have hpol : a.policies = b.policies := hpol₁.trans (h.policies.trans hpol₂.symm)
  have henabled : a.endpoints.enabled = b.endpoints.enabled := by
    exact congrArg (fun p => (p .generation).isSome || (p .embeddings).isSome) hpol
  rw [heq₁, heq₂]
  simp only [decision, applied, applies, hpol, henabled]
  refine List.foldl_ext _ _ _ fun _ p hp => ?_
  have happlies := mem_applied_iff.mp hp
  have hpolicy := hpol₂ ▸ (applies_eq_some_iff.mp happlies).2
  simp [RateLimitDecision.consider, refilledBuckets_eq hb htpm₂ key happlies,
    refilledBuckets_eq ha htpm₁ key (by rwa [applies, hpol]), hlevel₂ key _ _ hpolicy now le_rfl,
    hlevel₁ key _ _ (h.policies ▸ hpolicy) now le_rfl, h.level _ _ hpolicy now hnow]

theorem LevelsKept.admitKey_both (hnow : t.clock ≤ now) :
    LevelsKept key ⟨(s.limiter.admitKey now key requestClass).2, now⟩
      ⟨(t.limiter.admitKey now key requestClass).2, now⟩ := by
  refine ⟨⟨valid_admitKey (h.valid.mono hnow) .., ?_⟩, le_refl _, ?_⟩
  · simp [policies_admitKey, h.policies]
  · intro i policy hpolicy τ hτ
    rw [policies_admitKey] at hpolicy
    rw [level_admitKey (h.valid.mono hnow) (h.tokensPerMinute ▸ htpm) _ _
        (h.policies ▸ hpolicy) _ hτ,
      level_admitKey (hvalid.mono (h.clock_le.trans hnow)) htpm _ _ hpolicy _ hτ,
      h.decision_eq htpm hvalid hnow, h.level _ _ hpolicy now hnow,
      h.level _ _ hpolicy τ (hnow.trans hτ)]

theorem run_filter_key (hrun : run admitStep t calls = some (u, log)) :
    ∃ u', run admitStep s (calls.filter (·.2.1 = key)) = some (u', log.filter (·.key = key)) := by
  induction calls generalizing s t log with
  | nil =>
    cases hrun
    exact ⟨s, rfl⟩
  | cons call calls ih =>
    obtain ⟨t', e, es, hstep, hrest, rfl⟩ := run_cons_eq_some.mp hrun
    obtain ⟨hnow, rfl, rfl⟩ := admitStep_eq_some hstep
    by_cases hkey : call.2.1 = key
    · subst hkey
      have hclock := h.clock_le.trans hnow
      have hsame := SameLimits.admitKey (s := s) ⟨hvalid, rfl⟩ hclock call.2.1 call.2.2
      obtain ⟨u', hu'⟩ := ih (hsame.tokensPerMinute ▸ htpm) hsame.valid
        (h.admitKey_both htpm hvalid hnow) hrest
      refine ⟨u', ?_⟩
      simp only [List.filter_cons, decide_true, if_true, List.singleton_append]
      refine run_cons_eq_some.mpr ⟨_, [_], _, ?_, hu', rfl⟩
      simp [admitStep, step, if_neg (not_lt.mpr hclock), h.decision_eq htpm hvalid hnow]
    · -- The call of another key, and what it evicts, changes no level of this one.
      simpa [hkey] using ih htpm hvalid (h.admitKey htpm hnow fun heq => absurd heq.symm hkey) hrest

end

/-- As long as the limits are not changed, each decision for a key is what it would be without
the calls of the other keys, and without the evictions they start. -/
theorem decisions_independent {tokensPerMinute : Int} {endpoints : EndpointRateLimits}
    {limiter : RateLimiter} (hcreate : create tokensPerMinute endpoints = some limiter)
    {begin : ℚ} {ops : List LimiterOp} {past : List AdmitEvent}
    (hreach : run step ⟨limiter, begin⟩ ops = some (s, past))
    (htpm : 0 < s.limiter.tokensPerMinute) (hrun : run admitStep s calls = some (t, log))
    (key : Bytes) :
    ∃ t', run admitStep s (calls.filter (·.2.1 = key)) = some (t', log.filter (·.key = key)) := by
  have hvalid := valid_run (valid_create hcreate begin) hreach
  exact run_filter_key htpm hvalid ⟨⟨hvalid, rfl⟩, le_refl _, fun _ _ _ _ _ => rfl⟩ hrun

theorem onePerMinute_independent :
    let calls := [(0, [1], .other), (0, [], .other)]
    ∃ t log, run admitStep ⟨onePerMinute, 0⟩ calls = some (t, log) ∧
      ∃ t', run admitStep ⟨onePerMinute, 0⟩ [(0, [], .other)] =
        some (t', log.filter (·.key = [])) := by
  intro calls
  have hcreate : create 1 {} = some onePerMinute := rfl
  have hreach : run step ⟨onePerMinute, 0⟩ [] = some (_, []) := rfl
  have hrun : run admitStep ⟨onePerMinute, 0⟩ calls = some (_, _) := rfl
  exact ⟨_, _, hrun, decisions_independent hcreate hreach (by decide) hrun []⟩

end InferFlux.Auth
