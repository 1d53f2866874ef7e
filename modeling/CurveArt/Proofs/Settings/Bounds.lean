import CurveArt.Proofs.Binary64.Operations
import CurveArt.Settings.Basic

/-!
# Settings that pass the check

The check stops at the first setting that is out of its range. So the settings that pass are those
with all of them in their ranges, and these are ranges of numbers.

Main results:

* `Settings.validate_eq_ok`: what passes.
* `within_iff_value`, `Settings.validDomain_iff` and `Settings.validMeasure_iff`: the ranges.
-/

namespace CurveArt

open Binary64

variable {lo hi x : Float}

/-- Nothing but finite doubles lies in a range with finite ends. -/
theorem within_iff_value (hlo : lo.isFinite = true) (hhi : hi.isFinite = true) :
    within lo hi x = true ↔ x.isFinite = true ∧ value lo ≤ value x ∧ value x ≤ value hi := by
  rw [within, Bool.and_eq_true, decide_eq_true_iff, decide_eq_true_iff]
  constructor
  · rintro ⟨hlow, hhigh⟩
    have hx := isFinite_of_between hlo hhi hlow hhigh
    exact ⟨hx, (le_iff_value hlo hx).1 hlow, (le_iff_value hx hhi).1 hhigh⟩
  · rintro ⟨hx, hlow, hhigh⟩
    exact ⟨(le_iff_value hlo hx).2 hlow, (le_iff_value hx hhi).2 hhigh⟩

namespace Settings

variable {s : Settings}

theorem validDomain_iff {domain : Float × Float} : validDomain domain = true ↔
    domain.1.isFinite = true ∧ domain.2.isFinite = true ∧ value domain.1 < value domain.2 := by
  simp only [validDomain, Bool.and_eq_true, and_assoc, Bool.not_eq_true', decide_eq_false_iff_not]
  refine and_congr_right fun hlo => and_congr_right fun hhi => ?_
  rw [le_iff_value hhi hlo, not_le]

theorem validMeasure_iff : validMeasure x = true ↔ x.isFinite = true ∧ 0 < value x := by
  simp only [validMeasure, Bool.and_eq_true, Bool.not_eq_true', decide_eq_false_iff_not]
  refine and_congr_right fun hx => ?_
  rw [le_iff_value hx rfl, value_zero, not_le]

/-- Every number of the settings is in its range. The polar style has no domain. -/
structure InBounds (s : Settings) : Prop where
  least_le : minSampleCount ≤ s.sampleCount
  le_greatest : s.sampleCount ≤ maxSampleCount
  domain : s.style ≠ .polar → validDomain s.domain = true
  alpha : within 0.0 1.0 s.alpha = true
  jitter_isFinite : s.jitter.isFinite = true
  jitter_nonneg : ¬s.jitter < 0.0
  rotation : within 0.0 360.0 s.rotationDegrees = true
  measures : ∀ measure ∈ s.measures, validMeasure measure.2 = true

/-- **The settings that pass** are those with all numbers in their ranges. -/
theorem validate_eq_ok : s.validate = .ok () ↔ s.InBounds := by
  have hmeasures : (s.measures.find? fun m => !validMeasure m.2) = none ↔
      ∀ measure ∈ s.measures, validMeasure measure.2 = true := by
    simp only [List.find?_eq_none, Bool.not_eq_true', Bool.not_eq_false]
  constructor
  · intro h
    rw [validate] at h
    -- the checks come one after the other, and what passes has passed all of them
    split at h
    · cases h
    next hcount =>
    split at h
    · cases h
    next hdomain =>
    split at h
    · cases h
    next halpha =>
    split at h
    · cases h
    next hjitter =>
    split at h
    · cases h
    next hrotation =>
    split at h
    · cases h
    next hnone =>
    obtain ⟨hleast, hgreatest⟩ := not_or.1 hcount
    obtain ⟨hfinite, hnonneg⟩ : s.jitter.isFinite = true ∧ ¬s.jitter < 0.0 := by
      simpa using hjitter
    exact ⟨not_lt.1 hleast, not_lt.1 hgreatest, fun hstyle => by simpa [hstyle] using hdomain,
      by simpa using halpha, hfinite, hnonneg, by simpa using hrotation, hmeasures.1 hnone⟩
  · intro h
    have hcount : ¬(s.sampleCount < minSampleCount ∨ maxSampleCount < s.sampleCount) :=
      not_or.2 ⟨not_lt.2 h.least_le, not_lt.2 h.le_greatest⟩
    have hdomain : ¬(s.style ≠ .polar ∧ (!validDomain s.domain) = true) := by
      rintro ⟨hstyle, hinvalid⟩
      rw [h.domain hstyle] at hinvalid
      cases hinvalid
    rw [validate, if_neg hcount, if_neg hdomain, h.alpha, h.rotation, h.jitter_isFinite,
      hmeasures.2 h.measures, decide_eq_false h.jitter_nonneg]
    rfl

theorem sampleCount_le_of_validate (h : s.validate = .ok ()) : s.sampleCount ≤ maxSampleCount :=
  (validate_eq_ok.1 h).le_greatest

/-- What is known of settings that pass, as far as sampling and noise ask for it. -/
theorem bounds_of_validate (h : s.validate = .ok ()) :
    minSampleCount ≤ s.sampleCount ∧ (s.style ≠ .polar → validDomain s.domain = true) ∧
      s.jitter.isFinite = true := by
  have hbounds := validate_eq_ok.1 h
  exact ⟨hbounds.least_le, hbounds.domain, hbounds.jitter_isFinite⟩

end Settings

end CurveArt
