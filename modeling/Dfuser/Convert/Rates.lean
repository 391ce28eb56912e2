import Dfuser.Convert.Decode

/-!
# How long a block is

`process_blocks` computes from the two sample rates how many samples to read for a
block, so that the resampled block fills whole words.  The rates are exact positive
rationals here.

The count of samples to read is rounded down last.  What the samples that are read
fall short of the planned output is less than one input sample; that is nothing
once the output is rounded up, unless the target rate is the higher one.

## Main definitions

* `calculateBasebandLength`, `samplesToRead`, `resampledLength` — the lengths.
* `plannedLength`, `shortfall` — the output a block is planned for, and what the
  samples read for it leave uncovered.
* `DropsNothing` — every sample of a resampled block is written.

## Main results

* `resampledLength_eq` — the resampled block is short by the whole samples uncovered.
* `dropsNothing_iff` — **when no sample is dropped.**
-/

namespace Dfuser
namespace Convert

/-- `T`, in seconds. -/
def T : ℚ := 1 / 1000

/-! ### The lengths -/

/-- `calculate_baseband_length`. -/
def calculateBasebandLength (origSr targetSr : ℚ) (desiredLength : ℤ) : ℤ :=
  let ratio := origSr / targetSr
  let basebandLength : ℚ := ⌈(desiredLength / ratio) / samplesPer64bitWord⌉ * samplesPer64bitWord
  pyInt basebandLength

/-- The first lines of `process_blocks`: how many samples of each channel a block
takes. -/
def samplesToRead (origSr targetSr : ℚ) : ℤ :=
  let desiredLength := pyInt ((targetSr * T) / samplesPer64bitWord)
  let samplesToRead := calculateBasebandLength origSr targetSr desiredLength
  let outputLen := pyInt (samplesToRead * targetSr / origSr)
  let outputLenUpdate : ℚ := ⌈(outputLen : ℚ) / samplesPer64bitWord⌉ * samplesPer64bitWord
  pyInt (outputLenUpdate * origSr / targetSr)

/-- The length `process_blocks` resamples `n` samples to. -/
def resampledLength (origSr targetSr : ℚ) (n : ℤ) : ℤ := pyInt ⌈n * targetSr / origSr⌉

/-! ### The planned output -/

/-- The least length of whole words that is at least `x`. -/
def wholeWords (x : ℚ) : ℤ := 10 * ⌈x / 10⌉

/-- The output a block is planned for: with `ρ` the ratio of the target rate to the
original one, `⌊target / 10000⌋` samples, times `ρ`, in whole words, times `ρ` again,
in whole words again. -/
def plannedLength (origSr targetSr : ℚ) : ℤ :=
  let ratio := targetSr / origSr
  wholeWords ⌊wholeWords (⌊targetSr / 10000⌋ * ratio) * ratio⌋

/-- What is left of the planned output after as many whole input samples as fit. -/
def shortfall (origSr targetSr : ℚ) : ℚ :=
  let ratio := targetSr / origSr
  plannedLength origSr targetSr - ratio * ⌊plannedLength origSr targetSr / ratio⌋

theorem wholeWords_nonneg {x : ℚ} (h : 0 ≤ x) : (0 : ℚ) ≤ wholeWords x := by
  have hceil : 0 ≤ ⌈x / 10⌉ := Int.ceil_nonneg (by positivity)
  unfold wholeWords
  exact_mod_cast Int.mul_nonneg (by decide) hceil

/-- Rounding up to whole words, as the source does it. -/
theorem wholeWords_cast (x : ℚ) : (wholeWords x : ℚ) = ⌈x / 10⌉ * 10 := by
  unfold wholeWords
  push_cast
  ring

theorem wholeWords_nonpos {x : ℚ} (h : x ≤ 0) : wholeWords x ≤ 0 := by
  have hceil : ⌈x / 10⌉ ≤ 0 := Int.ceil_le.mpr (by push_cast; linarith)
  unfold wholeWords
  omega

theorem le_wholeWords (x : ℚ) : x ≤ wholeWords x := by
  have hceil := Int.le_ceil (x / 10)
  rw [wholeWords_cast]
  linarith

theorem shortfall_nonneg {origSr targetSr : ℚ} (ho : 0 < origSr) (ht : 0 < targetSr) :
    0 ≤ shortfall origSr targetSr := by
  have hratio : 0 < targetSr / origSr := div_pos ht ho
  have hfloor := Int.floor_le (plannedLength origSr targetSr / (targetSr / origSr))
  rw [le_div_iff₀ hratio] at hfloor
  simp only [shortfall]
  linarith

/-- Less than one input sample is left uncovered. -/
theorem shortfall_lt {origSr targetSr : ℚ} (ho : 0 < origSr) (ht : 0 < targetSr) :
    shortfall origSr targetSr < targetSr / origSr := by
  have hratio : 0 < targetSr / origSr := div_pos ht ho
  have hfloor := Int.lt_floor_add_one (plannedLength origSr targetSr / (targetSr / origSr))
  rw [div_lt_iff₀ hratio] at hfloor
  simp only [shortfall]
  linarith

/-- The samples read for a block are those that fit into the planned output. -/
theorem samplesToRead_eq {origSr targetSr : ℚ} (ho : 0 < origSr) (ht : 0 < targetSr) :
    samplesToRead origSr targetSr = ⌊plannedLength origSr targetSr / (targetSr / origSr)⌋ := by
  have hratio : 0 < targetSr / origSr := div_pos ht ho
  have hdesired : pyInt (targetSr * T / (10 : ℚ)) = ⌊targetSr / 10000⌋ := by
    have hunits : targetSr * T / 10 = targetSr / 10000 := by
      unfold T
      ring
    rw [hunits, pyInt_of_nonneg (by positivity)]
  have hfirst : calculateBasebandLength origSr targetSr ⌊targetSr / 10000⌋ =
      wholeWords (⌊targetSr / 10000⌋ * (targetSr / origSr)) := by
    have harg : (⌊targetSr / 10000⌋ / (origSr / targetSr) : ℚ) =
        ⌊targetSr / 10000⌋ * (targetSr / origSr) := by
      rw [div_div_eq_mul_div, mul_div_assoc]
    simp only [calculateBasebandLength, samplesPer64bitWord, Nat.cast_ofNat]
    rw [harg, ← wholeWords_cast, pyInt_intCast]
  have hnonneg : (0 : ℚ) ≤ wholeWords (⌊targetSr / 10000⌋ * (targetSr / origSr)) := by
    have hfloor : (0 : ℚ) ≤ ⌊targetSr / 10000⌋ := by
      exact_mod_cast Int.floor_nonneg.mpr (by positivity)
    exact wholeWords_nonneg (by positivity)
  have houtput : pyInt (wholeWords (⌊targetSr / 10000⌋ * (targetSr / origSr)) * targetSr / origSr) =
      ⌊wholeWords (⌊targetSr / 10000⌋ * (targetSr / origSr)) * (targetSr / origSr)⌋ := by
    rw [mul_div_assoc]
    exact pyInt_of_nonneg (by positivity)
  have hplanned : (0 : ℚ) ≤ plannedLength origSr targetSr := by
    have hfloor : (0 : ℚ) ≤
        ⌊wholeWords (⌊targetSr / 10000⌋ * (targetSr / origSr)) * (targetSr / origSr)⌋ := by
      exact_mod_cast Int.floor_nonneg.mpr (by positivity)
    exact wholeWords_nonneg hfloor
  have hlast : (⌈(⌊wholeWords (⌊targetSr / 10000⌋ * (targetSr / origSr)) *
      (targetSr / origSr)⌋ : ℚ) / 10⌉ * 10 * origSr / targetSr : ℚ) =
      plannedLength origSr targetSr / (targetSr / origSr) := by
    rw [← wholeWords_cast, div_div_eq_mul_div]
    rfl
  simp only [samplesToRead, samplesPer64bitWord, Nat.cast_ofNat]
  rw [hdesired, hfirst, houtput, hlast]
  exact pyInt_of_nonneg (by positivity)

/-- **The resampled block is short by the whole samples uncovered.** -/
theorem resampledLength_eq {origSr targetSr : ℚ} (ho : 0 < origSr) (ht : 0 < targetSr) :
    resampledLength origSr targetSr (samplesToRead origSr targetSr) =
      plannedLength origSr targetSr - ⌊shortfall origSr targetSr⌋ := by
  have hcover : (samplesToRead origSr targetSr * targetSr / origSr : ℚ) =
      plannedLength origSr targetSr - shortfall origSr targetSr := by
    rw [samplesToRead_eq ho ht]
    simp only [shortfall]
    ring
  rw [resampledLength, pyInt_intCast, hcover, sub_eq_add_neg, Int.ceil_intCast_add, Int.ceil_neg]
  ring

/-- Planning with nothing comes to nothing. -/
theorem ten_le_of_planned {first : ℤ} {ratio : ℚ} (hratio : 0 ≤ ratio) (hwords : (10 : ℤ) ∣ first)
    (hplan : 0 < wholeWords ⌊first * ratio⌋) : 10 ≤ first := by
  by_contra hlt
  have hnone : (first : ℚ) * ratio ≤ 0 := by
    have hfirst : (first : ℚ) ≤ 0 := by exact_mod_cast (by omega : first ≤ 0)
    exact mul_nonpos_of_nonpos_of_nonneg hfirst hratio
  have hfloor : ⌊(first : ℚ) * ratio⌋ ≤ 0 := by
    exact_mod_cast (Int.floor_le _).trans hnone
  have hzero := wholeWords_nonpos (x := ⌊(first : ℚ) * ratio⌋) (by exact_mod_cast hfloor)
  omega

/-- A block that is read at all fills a word: upsampling needs at least nine samples
of the ten it is planned for. -/
theorem ten_le_resampledLength {origSr targetSr : ℚ} (ho : 0 < origSr) (ht : 0 < targetSr)
    (h : 1 ≤ samplesToRead origSr targetSr) :
    10 ≤ resampledLength origSr targetSr (samplesToRead origSr targetSr) := by
  have hratio : 0 < targetSr / origSr := div_pos ht ho
  rw [samplesToRead_eq ho ht, Int.le_floor, le_div_iff₀ hratio] at h
  have hplanned : 0 < plannedLength origSr targetSr := by
    have : (0 : ℚ) < plannedLength origSr targetSr := by push_cast at h; linarith
    exact_mod_cast this
  by_cases hle : targetSr / origSr ≤ 1
  · have hzero : ⌊shortfall origSr targetSr⌋ = 0 := Int.floor_eq_zero_iff.mpr
      ⟨shortfall_nonneg ho ht, (shortfall_lt ho ht).trans_le hle⟩
    have hwords : (10 : ℤ) ∣ plannedLength origSr targetSr := Dvd.intro _ rfl
    rw [resampledLength_eq ho ht, hzero]
    omega
  · rw [not_le] at hle
    have hwords : (10 : ℤ) ∣ wholeWords (⌊targetSr / 10000⌋ * (targetSr / origSr)) :=
      Dvd.intro _ rfl
    have hplan :
        ((⌊wholeWords (⌊targetSr / 10000⌋ * (targetSr / origSr)) * (targetSr / origSr)⌋ : ℤ) :
        ℚ) ≤ plannedLength origSr targetSr := le_wholeWords _
    have hfloor := Int.lt_floor_add_one
      (wholeWords (⌊targetSr / 10000⌋ * (targetSr / origSr)) * (targetSr / origSr))
    have hdef : plannedLength origSr targetSr = wholeWords
      ⌊wholeWords (⌊targetSr / 10000⌋ * (targetSr / origSr)) * (targetSr / origSr)⌋ := rfl
    generalize wholeWords (⌊targetSr / 10000⌋ * (targetSr / origSr)) = first at *
    have hfirst : 10 ≤ first := ten_le_of_planned hratio.le hwords (hdef ▸ hplanned)
    have hnine : 9 ≤ samplesToRead origSr targetSr := by
      rw [samplesToRead_eq ho ht, Int.le_floor, le_div_iff₀ hratio]
      have : (10 : ℚ) ≤ first := by exact_mod_cast hfirst
      push_cast
      nlinarith
    rw [resampledLength, pyInt_intCast]
    have hcover : (9 : ℚ) < samplesToRead origSr targetSr * targetSr / origSr := by
      have : (9 : ℚ) ≤ samplesToRead origSr targetSr := by exact_mod_cast hnine
      rw [mul_div_assoc]
      nlinarith
    exact Int.add_one_le_iff.mpr (Int.lt_ceil.mpr (by exact_mod_cast hcover))

/-! ### Dropped samples -/

/-- The resampled blocks fill whole words, so that all their samples are written. -/
def DropsNothing (origSr targetSr : ℚ) : Prop :=
  (10 : ℤ) ∣ resampledLength origSr targetSr (samplesToRead origSr targetSr) ∧
  ∀ block : List Sample,
    (block.length : ℤ) = resampledLength origSr targetSr (samplesToRead origSr targetSr) →
    ∃ written, writeBlockToFile [] block = .ok written ∧ codesOfFile written = block.map codes

/-- A block of whole words is written completely. -/
theorem codesOfFile_of_dvd {block : List Sample} (h : 10 ∣ block.length) :
    ∃ written, writeBlockToFile [] block = .ok written ∧ codesOfFile written = block.map codes := by
  refine ⟨_, writeBlockToFile_eq [] block, ?_⟩
  rw [List.nil_append, codesOfFile_words]
  rw [samplesPer64bitWord, Nat.mul_div_cancel' h, List.take_length]

/-- **When no sample is dropped.**  Exactly when the whole samples that the input
leaves uncovered make whole words, in particular when there are none. -/
theorem dropsNothing_iff {origSr targetSr : ℚ} (ho : 0 < origSr) (ht : 0 < targetSr) :
    DropsNothing origSr targetSr ↔ (10 : ℤ) ∣ ⌊shortfall origSr targetSr⌋ := by
  have hplanned : (10 : ℤ) ∣ plannedLength origSr targetSr := Dvd.intro _ rfl
  have hlength := resampledLength_eq ho ht
  have hdvd : (10 : ℤ) ∣ resampledLength origSr targetSr (samplesToRead origSr targetSr) ↔
      (10 : ℤ) ∣ ⌊shortfall origSr targetSr⌋ := by
    rw [hlength]
    exact dvd_sub_right hplanned
  constructor
  · intro h
    exact hdvd.mp h.1
  · intro h
    refine ⟨hdvd.mpr h, fun block hblock => codesOfFile_of_dvd ?_⟩
    have := hdvd.mpr h
    rw [← hblock] at this
    exact_mod_cast this

/-- At the rates of the script, the shortfall is less than one sample. -/
theorem dropsNothing_iff_script : DropsNothing 56320000 58000000 := by
  refine (dropsNothing_iff (by norm_num) (by norm_num)).mpr ?_
  decide +kernel

/-- From 16.368 MHz to 58 MHz, the last eight samples of a block are dropped. -/
theorem not_dropsNothing_upsampling :
    1 ≤ samplesToRead 16368000 58000000 ∧ ¬ DropsNothing 16368000 58000000 := by
  refine ⟨by decide +kernel, fun h => ?_⟩
  have hlength := h.1
  revert hlength
  decide +kernel

/-- Nothing is dropped when the target rate is not the higher one. -/
theorem dropsNothing_of_le {origSr targetSr : ℚ} (ho : 0 < origSr) (ht : 0 < targetSr)
    (h : targetSr ≤ origSr) : DropsNothing origSr targetSr := by
  have hratio : targetSr / origSr ≤ 1 := (div_le_one ho).mpr h
  have hzero : ⌊shortfall origSr targetSr⌋ = 0 :=
    Int.floor_eq_zero_iff.mpr ⟨shortfall_nonneg ho ht, (shortfall_lt ho ht).trans_le hratio⟩
  rw [dropsNothing_iff ho ht, hzero]
  exact dvd_zero 10

end Convert
end Dfuser
