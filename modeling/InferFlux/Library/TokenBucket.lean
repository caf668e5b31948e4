import Mathlib.Algebra.Order.Field.Basic
import Mathlib.Tactic.Linarith
import Mathlib.Tactic.Ring

/-!
# Token buckets

A bucket holds tokens up to its burst and is refilled at a constant rate. It is refilled
lazily: what it holds at a time is computed from the tokens it had when it was last touched
(`level`).
-/

namespace TokenBucket

variable {K : Type*} [Field K] [LinearOrder K]

def level (burst rate tokens last t : K) : K := min burst (tokens + (t - last) * rate)

section

variable {burst rate tokens last t t' : K}

theorem level_le_burst : level burst rate tokens last t ≤ burst := min_le_left ..

theorem level_self (h : tokens ≤ burst) : level burst rate tokens last last = tokens := by
  simp [level, h]

variable [IsStrictOrderedRing K]

theorem level_nonneg (hburst : 0 ≤ burst) (hrate : 0 ≤ rate) (htokens : 0 ≤ tokens)
    (ht : last ≤ t) : 0 ≤ level burst rate tokens last t := by
  have hrefill := mul_nonneg (sub_nonneg.mpr ht) hrate
  exact le_min hburst (by linarith)

theorem level_full (hrate : 0 ≤ rate) (ht : last ≤ t) : level burst rate burst last t = burst := by
  have hrefill := mul_nonneg (sub_nonneg.mpr ht) hrate
  exact min_eq_left (by linarith)

/-- A bucket is full after the time it takes to refill its burst. -/
theorem level_eq_burst (htokens : 0 ≤ tokens) (hidle : burst ≤ (t - last) * rate) :
    level burst rate tokens last t = burst :=
  min_eq_left (by linarith)

/-- Refilling a bucket earlier makes no difference later. -/
theorem level_level (hrate : 0 ≤ rate) (ht : t ≤ t') :
    level burst rate (level burst rate tokens last t) t t' = level burst rate tokens last t' := by
  have hrefill := mul_nonneg (sub_nonneg.mpr ht) hrate
  have hsplit : tokens + (t - last) * rate + (t' - t) * rate = tokens + (t' - last) * rate := by
    ring
  simp only [level]
  rw [← min_add_add_right, ← min_assoc, hsplit, min_eq_left (by linarith : burst ≤ burst + _)]

theorem level_le_add (hrate : 0 ≤ rate) (ht : t ≤ t') :
    level burst rate tokens last t' ≤ level burst rate tokens last t + (t' - t) * rate := by
  rw [← level_level hrate ht]
  exact min_le_right ..

end

def Within (start width t : K) : Prop := start ≤ t ∧ t ≤ start + width

instance (start width t : K) : Decidable (Within start width t) :=
  inferInstanceAs (Decidable (start ≤ t ∧ t ≤ start + width))

/-- `count` debits have been made within the window up to time `t`, and `now` tokens are
left. -/
structure WithinWindow (burst rate start width count now t : K) : Prop where
  before : t < start → count = 0
  during : t ≤ start + width → count + now ≤ burst + max 0 (t - start) * rate
  total : count ≤ burst + width * rate

namespace WithinWindow

variable [IsStrictOrderedRing K]
variable {burst rate start width count now now' t t' : K}

theorem init (hburst : 0 ≤ burst) (hrate : 0 ≤ rate) (hwidth : 0 ≤ width) (hnow : now ≤ burst) :
    WithinWindow burst rate start width 0 now t where
  before _ := rfl
  during _ := by
    have := mul_nonneg (le_max_left 0 (t - start)) hrate
    linarith
  total := by
    have := mul_nonneg hwidth hrate
    linarith

section

variable (h : WithinWindow burst rate start width count now t)
include h

theorem advance (hrate : 0 ≤ rate) (ht : t ≤ t') (hburst : now' ≤ burst)
    (hnow : now' ≤ now + (t' - t) * rate) :
    WithinWindow burst rate start width count now' t' where
  before hlt := h.before (ht.trans_lt hlt)
  during hle := by
    by_cases hstart : t < start
    · have := mul_nonneg (le_max_left 0 (t' - start)) hrate
      have := h.before hstart
      linarith
    · have hduring := h.during (ht.trans hle)
      have hmax : max 0 (t - start) = t - start := max_eq_right (by linarith)
      have hmax' : max 0 (t' - start) = t' - start := max_eq_right (by linarith)
      rw [hmax] at hduring
      rw [hmax']
      linarith
  total := h.total

theorem debit (hrate : 0 ≤ rate) (ht : Within start width t) (hnow : 1 ≤ now) :
    WithinWindow burst rate start width (count + 1) (now - 1) t where
  before hlt := absurd ht.1 (not_le.mpr hlt)
  during hle := by linarith [h.during hle]
  total := by
    have hduring := h.during ht.2
    have hmax : max 0 (t - start) = t - start := max_eq_right (by linarith [ht.1])
    have hmul : (t - start) * rate ≤ width * rate :=
      mul_le_mul_of_nonneg_right (by linarith [ht.2]) hrate
    rw [hmax] at hduring
    linarith

theorem debit_outside (hnow : now' ≤ now) : WithinWindow burst rate start width count now' t where
  before := h.before
  during hle := by linarith [h.during hle]
  total := h.total

end

end WithinWindow

end TokenBucket
