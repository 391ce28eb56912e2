import Mathlib.Tactic.Linarith
import Mathlib.Tactic.NormNum
import Dfuser.Lib.Python

/-!
# Baseband samples as 64-bit words

`scripts/convert.py` writes baseband samples as big-endian 64-bit words: each part
of a complex sample becomes a code of three bits, ten samples fill a word, and four
bits are spare.  Samples are exact rationals here.

The scale of `encode_sample_to_3bit` is off: its comment maps the range from `-1` to
`1` linearly to the codes `0` to `7`, and its formula sends that whole range to code
`0`.  The words stay well formed, so a block of normalised samples is written as zero
words, whatever the samples are.

## Main definitions

* `encodeSampleTo3bit`, `build64bitValue`, `writeBlockToFile` — from a sample to its
  code, from samples to a word, from a block to bytes.
* `Normalised` — the blocks `process_blocks` writes.

## Main results

* `le_encodeSampleTo3bit_iff` — which samples reach a code.
* `writeBlockToFile_of_normalised` — a normalised block is written as zeros.
* `encodeSampleTo3bit_collapses` — **the encoder tells no two normalised samples
  apart.**
-/

namespace Dfuser
namespace Convert

/-! ### Codes -/

/-- `encode_sample_to_3bit`.  The clamped value is never negative. -/
def encodeSampleTo3bit (sample : ℚ) : ℕ :=
  let encoded := pyInt ((sample - 1) / 2)
  (max (min encoded 7) 0).toNat

/-- A code is reached from where the scaled sample reaches it; code `7` takes a
sample of `15`. -/
theorem le_encodeSampleTo3bit_iff {k : ℕ} (hpos : 1 ≤ k) (hk : k ≤ 7) (x : ℚ) :
    k ≤ encodeSampleTo3bit x ↔ 2 * (k : ℚ) + 1 ≤ x := by
  have hint : (k : ℤ) ≤ pyInt ((x - 1) / 2) ↔ 2 * (k : ℚ) + 1 ≤ x := by
    unfold pyInt
    split
    · rw [Int.le_floor, le_div_iff₀ two_pos, Int.cast_natCast]
      constructor <;> intro h <;> linarith
    · next hneg =>
      -- below zero both sides fail
      have hceil : ⌈(x - 1) / 2⌉ ≤ 0 := Int.ceil_le.mpr (by push_cast; linarith)
      have hx : x < 1 := by linarith
      have hk' : (1 : ℚ) ≤ k := by exact_mod_cast hpos
      constructor
      · intro h; omega
      · intro h; linarith
  rw [← hint]
  simp only [encodeSampleTo3bit]
  omega

theorem encodeSampleTo3bit_le (x : ℚ) : encodeSampleTo3bit x ≤ 7 := by
  simp only [encodeSampleTo3bit]
  omega

theorem encodeSampleTo3bit_mono {x y : ℚ} (h : x ≤ y) :
    encodeSampleTo3bit x ≤ encodeSampleTo3bit y := by
  have hhalf : (x - 1) / 2 ≤ (y - 1) / 2 := by linarith
  have hint := pyInt_le_pyInt hhalf
  simp only [encodeSampleTo3bit]
  omega

/-- Every sample up to `1`, so every normalised one, has code `0`. -/
theorem encodeSampleTo3bit_eq_zero {x : ℚ} (h : x ≤ 1) : encodeSampleTo3bit x = 0 := by
  by_contra hne
  have h3 := (le_encodeSampleTo3bit_iff (k := 1) le_rfl (by decide) x).mp (by omega)
  push_cast at h3
  linarith

/-! ### Words -/

/-- A complex sample. -/
structure Sample where
  real : ℚ
  imag : ℚ
  deriving DecidableEq

/-- The body of the loops of `build_64bit_value`: the codes of one more sample. -/
def pushSample (value : ℕ) (sample : Sample) : ℕ :=
  let iPart := encodeSampleTo3bit sample.real
  let qPart := encodeSampleTo3bit sample.imag
  (value <<< 6) ||| ((iPart <<< 3) ||| qPart)

/-- `build_64bit_value` with `num_channels=1`, on the samples of one channel. -/
def build64bitValue (samples : List Sample) (spareBits : ℕ) : ℕ :=
  samples.foldl pushSample 0 <<< spareBits

/-- `build_64bit_value` with `num_channels=3`, on a list of channels. -/
def build64bitValueOfChannels (samples : List (List Sample)) (spareBits : ℕ) : ℕ :=
  samples.foldl (fun value channel => channel.foldl pushSample value) 0 <<< spareBits

/-- `struct.error`: the value does not fit the format. -/
inductive StructError
  | outOfRange
  deriving DecidableEq, Repr

/-- `struct.pack('>Q', value)`: eight bytes, the highest first. -/
def packQ (value : ℕ) : Except StructError (List UInt8) :=
  if value < 2 ^ 64 then
    .ok ([56, 48, 40, 32, 24, 16, 8, 0].map fun shift => UInt8.ofNat (value >>> shift))
  else .error .outOfRange

/-- `samples_per_64bit_word`. -/
def samplesPer64bitWord : ℕ := 10

/-- `write_block_to_file`: the bytes of the output file, with those of the block
added.  Samples that do not fill a word are left out. -/
def writeBlockToFile (outfile : List UInt8) (samples : List Sample) :
    Except StructError (List UInt8) :=
  (List.range (samples.length / samplesPer64bitWord)).foldlM (fun outfile idx => do
    let sampleSlice := (samples.drop (idx * samplesPer64bitWord)).take samplesPer64bitWord
    let bytes ← packQ (build64bitValue sampleSlice 4)
    return outfile ++ bytes) outfile

/-! ### Normalised blocks -/

/-- The parts of every sample lie between `-1` and `1`, as after the division by the
peak in `process_blocks`. -/
def Normalised (samples : List Sample) : Prop :=
  ∀ s ∈ samples, (-1 ≤ s.real ∧ s.real ≤ 1) ∧ -1 ≤ s.imag ∧ s.imag ≤ 1

theorem foldl_pushSample_of_normalised {samples : List Sample} (h : Normalised samples) :
    samples.foldl pushSample 0 = 0 := by
  induction samples with
  | nil => rfl
  | cons s samples ih =>
    obtain ⟨⟨-, hreal⟩, -, himag⟩ := h s List.mem_cons_self
    have hpush : pushSample 0 s = 0 := by
      simp [pushSample, encodeSampleTo3bit_eq_zero hreal, encodeSampleTo3bit_eq_zero himag]
    rw [List.foldl_cons, hpush]
    exact ih fun t ht => h t (List.mem_cons_of_mem s ht)

theorem build64bitValue_of_normalised {samples : List Sample} (h : Normalised samples)
    (spareBits : ℕ) : build64bitValue samples spareBits = 0 := by
  rw [build64bitValue, foldl_pushSample_of_normalised h, Nat.zero_shiftLeft]

/-- **A normalised block is written as zeros**, eight of them for each whole word. -/
theorem writeBlockToFile_of_normalised (outfile : List UInt8) {samples : List Sample}
    (h : Normalised samples) :
    writeBlockToFile outfile samples =
      .ok (outfile ++ List.replicate (8 * (samples.length / samplesPer64bitWord)) 0) := by
  unfold writeBlockToFile
  induction samples.length / samplesPer64bitWord with
  | zero => simp [pure, Except.pure]
  | succ n ih =>
    have hslice : Normalised ((samples.drop (n * samplesPer64bitWord)).take samplesPer64bitWord) :=
      fun s hs => h s (List.mem_of_mem_drop (List.mem_of_mem_take hs))
    have hpack : packQ 0 = .ok (List.replicate 8 0) := rfl
    rw [List.range_succ, List.foldlM_append, ih]
    simp only [List.foldlM_cons, List.foldlM_nil, bind, Except.bind, pure, Except.pure,
      build64bitValue_of_normalised hslice, hpack, List.append_assoc,
        List.replicate_append_replicate]
    rw [Nat.mul_succ]

/-- **The encoder tells no two normalised samples apart.**  It is monotone and sends
`-1` to `0`, but it sends `1` to `0` as well and attains no other code, however far
apart the samples are; and two normalised blocks are written differently only when
they have different numbers of whole words. -/
theorem encodeSampleTo3bit_collapses {x y : ℚ} (hx : -1 ≤ x ∧ x ≤ 1) (hy : -1 ≤ y ∧ y ≤ 1)
    (outfile : List UInt8) {b₁ b₂ : List Sample} (h₁ : Normalised b₁) (h₂ : Normalised b₂) :
    (x ≤ y → encodeSampleTo3bit x ≤ encodeSampleTo3bit y) ∧
    encodeSampleTo3bit (-1) = 0 ∧
    encodeSampleTo3bit 1 ≠ 7 ∧
    (∀ code : ℕ, code ≠ 0 → encodeSampleTo3bit x ≠ code) ∧
    encodeSampleTo3bit x = encodeSampleTo3bit y ∧
    (writeBlockToFile outfile b₁ ≠ writeBlockToFile outfile b₂ ↔
      b₁.length / samplesPer64bitWord ≠ b₂.length / samplesPer64bitWord) := by
  have hzero : encodeSampleTo3bit x = 0 := encodeSampleTo3bit_eq_zero hx.2
  refine ⟨encodeSampleTo3bit_mono, encodeSampleTo3bit_eq_zero (by norm_num), ?_, ?_, ?_, ?_⟩
  · rw [encodeSampleTo3bit_eq_zero le_rfl]
    decide
  · intro code hne hcode
    exact hne (hcode.symm.trans hzero)
  · exact hzero.trans (encodeSampleTo3bit_eq_zero hy.2).symm
  · rw [writeBlockToFile_of_normalised outfile h₁, writeBlockToFile_of_normalised outfile h₂]
    refine not_congr ?_
    rw [Except.ok.injEq, List.append_cancel_left_eq, List.replicate_inj]
    simp only [or_true, and_true]
    omega

theorem encodeSampleTo3bit_collapses_ends :
    encodeSampleTo3bit 1 = encodeSampleTo3bit (-1) ∧
      ¬ writeBlockToFile [] (List.replicate 10 ⟨1, 1⟩) ≠
        writeBlockToFile [] (List.replicate 10 ⟨-1, -1⟩) := by
  have hone : Normalised (List.replicate 10 ⟨1, 1⟩) := by
    intro s hs
    rw [List.eq_of_mem_replicate hs]
    norm_num
  have hneg : Normalised (List.replicate 10 ⟨-1, -1⟩) := by
    intro s hs
    rw [List.eq_of_mem_replicate hs]
    norm_num
  obtain ⟨-, -, -, -, hsame, hwords⟩ := encodeSampleTo3bit_collapses (x := 1) (y := -1)
    (by norm_num) (by norm_num) [] hone hneg
  exact ⟨hsame, fun hne => hwords.mp hne (by simp)⟩

/-- The two ends of the range, ten times each, are written as the same word. -/
theorem writeBlockToFile_ends :
    encodeSampleTo3bit 1 ≠ 7 ∧ 2 / 7 < |(1 : ℚ) - -1| ∧
    encodeSampleTo3bit 1 = encodeSampleTo3bit (-1) ∧
    writeBlockToFile [] (List.replicate 10 ⟨1, 1⟩) =
      writeBlockToFile [] (List.replicate 10 ⟨-1, -1⟩) := by
  decide +kernel

end Convert
end Dfuser
