import Dfuser.Lib.Bits
import Dfuser.Lib.Run
import Dfuser.Convert.Words

/-!
# What a word holds

`build_64bit_value` shifts the codes of one sample after the other into a number,
`write_block_to_file` packs ten samples and four spare bits into each eight bytes of
the file.  Nothing overlaps and nothing is cut off: read from the top, a word gives
its codes back, and the file gives back the codes of every sample that fills a word.

## Main definitions

* `codes` — the codes of a sample.
* `splitGroup`, `codesOfWord`, `unpackQ`, `codesOfFile` — reading a group of six bits,
  a word, the words of a file, all the codes of a file.

## Main results

* `build64bitValue_eq` — a word is the groups of its samples, above the spare bits.
* `writeBlockToFile_eq` — the words of a block.
* `codesOfFile_writeBlockToFile` — **the file holds the codes of the block.**
-/

namespace Dfuser
namespace Convert

/-! ### Groups of six bits -/

/-- The codes of the two parts of a sample. -/
def codes (sample : Sample) : ℕ × ℕ :=
  (encodeSampleTo3bit sample.real, encodeSampleTo3bit sample.imag)

/-- The six bits of a sample: the code of the real part, then that of the imaginary. -/
def sampleGroup (sample : Sample) : ℕ := ((codes sample).1 <<< 3) ||| (codes sample).2

/-- The two codes in six bits. -/
def splitGroup (g : ℕ) : ℕ × ℕ := (g >>> 3, g % 2 ^ 3)

theorem sampleGroup_eq (sample : Sample) :
    sampleGroup sample = (codes sample).1 * 2 ^ 3 + (codes sample).2 :=
  shiftLeft_or_eq (Nat.lt_succ_of_le (encodeSampleTo3bit_le _)) _

theorem sampleGroup_lt (sample : Sample) : sampleGroup sample < 2 ^ 6 := by
  have hreal : (codes sample).1 ≤ 7 := encodeSampleTo3bit_le _
  have himag : (codes sample).2 ≤ 7 := encodeSampleTo3bit_le _
  rw [sampleGroup_eq]
  omega

theorem splitGroup_sampleGroup (sample : Sample) :
    splitGroup (sampleGroup sample) = codes sample := by
  have himag : (codes sample).2 ≤ 7 := encodeSampleTo3bit_le _
  rw [splitGroup, sampleGroup_eq, Nat.shiftRight_eq_div_pow]
  ext
  · show ((codes sample).1 * 2 ^ 3 + (codes sample).2) / 2 ^ 3 = (codes sample).1
    omega
  · show ((codes sample).1 * 2 ^ 3 + (codes sample).2) % 2 ^ 3 = (codes sample).2
    omega

/-! ### Words -/

theorem foldl_pushSample (samples : List Sample) :
    samples.foldl pushSample 0 = joinGroups 6 (samples.map sampleGroup) := by
  rw [joinGroups, List.foldl_map]
  rfl

/-- A word is the groups of its samples, above the spare bits. -/
theorem build64bitValue_eq (samples : List Sample) (spareBits : ℕ) :
    build64bitValue samples spareBits =
      joinGroups 6 (samples.map sampleGroup) <<< spareBits := by
  rw [build64bitValue, foldl_pushSample]

/-- The loops over the channels are one loop over all their samples. -/
theorem build64bitValueOfChannels_eq (channels : List (List Sample)) (spareBits : ℕ) :
    build64bitValueOfChannels channels spareBits =
      build64bitValue channels.flatten spareBits := by
  rw [build64bitValueOfChannels, build64bitValue, List.foldl_flatten]

theorem groups_lt (samples : List Sample) : ∀ g ∈ samples.map sampleGroup, g < 2 ^ 6 := by
  intro g hg
  obtain ⟨sample, -, rfl⟩ := List.mem_map.mp hg
  exact sampleGroup_lt sample

/-- Six bits for each sample, and the spare ones. -/
theorem build64bitValue_lt (samples : List Sample) (spareBits : ℕ) :
    build64bitValue samples spareBits < 2 ^ (6 * samples.length + spareBits) := by
  have hlt := joinGroups_lt (groups_lt samples)
  rw [List.length_map] at hlt
  rw [build64bitValue_eq, Nat.shiftLeft_eq, Nat.pow_add]
  exact Nat.mul_lt_mul_of_pos_right hlt (Nat.two_pow_pos spareBits)

/-- The codes of the `n` samples of a word, below which `spareBits` bits are spare. -/
def codesOfWord (n spareBits value : ℕ) : List (ℕ × ℕ) :=
  (groups 6 n (value >>> spareBits)).map splitGroup

/-- **A word gives its codes back.** -/
theorem codesOfWord_build64bitValue (samples : List Sample) (spareBits : ℕ) :
    codesOfWord samples.length spareBits (build64bitValue samples spareBits) =
      samples.map codes := by
  have hcut := groups_joinGroups (groups_lt samples)
  rw [List.length_map] at hcut
  rw [codesOfWord, build64bitValue_eq, Nat.shiftLeft_shiftRight, hcut, List.map_map]
  exact List.map_congr_left fun sample _ => splitGroup_sampleGroup sample

/-! ### The bytes of a word -/

/-- The bytes of a word that fits. -/
def bytesOfWord (value : ℕ) : List UInt8 :=
  [56, 48, 40, 32, 24, 16, 8, 0].map fun shift => UInt8.ofNat (value >>> shift)

theorem packQ_of_lt {value : ℕ} (h : value < 2 ^ 64) : packQ value = .ok (bytesOfWord value) :=
  if_pos h

/-- `struct.unpack('>Q', …)`, eight bytes at a time. -/
def unpackQ : List UInt8 → List ℕ
  | a :: b :: c :: d :: e :: f :: g :: h :: bytes =>
    joinGroups 8 ([a, b, c, d, e, f, g, h].map UInt8.toNat) :: unpackQ bytes
  | _ => []

/-- The bytes of a word are its groups of eight bits. -/
theorem toNat_bytesOfWord (value : ℕ) : (bytesOfWord value).map UInt8.toNat = groups 8 8 value := by
  simp [bytesOfWord, groups, ← Nat.shiftRight_add]

/-- Unpacking undoes packing. -/
theorem unpackQ_bytesOfWord {value : ℕ} (h : value < 2 ^ 64) (bytes : List UInt8) :
    unpackQ (bytesOfWord value ++ bytes) = value :: unpackQ bytes := by
  have hjoin := joinGroups_groups (w := 8) (n := 8) h
  rw [← toNat_bytesOfWord] at hjoin
  exact congrArg (· :: unpackQ bytes) hjoin

theorem unpackQ_flatMap {values : List ℕ} (h : ∀ value ∈ values, value < 2 ^ 64) :
    unpackQ (values.flatMap bytesOfWord) = values := by
  induction values with
  | nil => rfl
  | cons value values ih =>
    rw [List.flatMap_cons, unpackQ_bytesOfWord (h value List.mem_cons_self),
      ih fun v hv => h v (List.mem_cons_of_mem value hv)]

/-! ### Blocks -/

/-- The slices of a block that fill a word. -/
def slices (samples : List Sample) : List (List Sample) :=
  (List.range (samples.length / samplesPer64bitWord)).map fun idx =>
    (samples.drop (idx * samplesPer64bitWord)).take samplesPer64bitWord

theorem length_of_mem_slices {samples slice : List Sample} (h : slice ∈ slices samples) :
    slice.length = samplesPer64bitWord := by
  obtain ⟨idx, hidx, rfl⟩ := List.mem_map.mp h
  rw [List.mem_range] at hidx
  have hmul : (idx + 1) * samplesPer64bitWord ≤ samples.length :=
    (Nat.mul_le_mul_right _ hidx).trans (Nat.div_mul_le_self _ _)
  rw [Nat.succ_mul] at hmul
  rw [List.length_take, List.length_drop]
  omega

/-- The slices follow one another without gap or overlap. -/
theorem flatten_slices (samples : List Sample) :
    (slices samples).flatten =
      samples.take (samplesPer64bitWord * (samples.length / samplesPer64bitWord)) := by
  unfold slices
  induction samples.length / samplesPer64bitWord with
  | zero => simp
  | succ n ih =>
    rw [List.range_succ, List.map_append, List.flatten_append, ih, Nat.mul_succ, List.take_add]
    simp [Nat.mul_comm]

/-- The words of a block. -/
def wordsOfBlock (samples : List Sample) : List ℕ :=
  (slices samples).map fun slice => build64bitValue slice 4

theorem wordsOfBlock_lt (samples : List Sample) :
    ∀ value ∈ wordsOfBlock samples, value < 2 ^ 64 := by
  intro value hvalue
  obtain ⟨slice, hslice, rfl⟩ := List.mem_map.mp hvalue
  have hlt := build64bitValue_lt slice 4
  rwa [length_of_mem_slices hslice] at hlt

/-- A loop over the slices that adds the bytes of one word in each step. -/
theorem foldlM_words {ε : Type} {step : List UInt8 → ℕ → Except ε (List UInt8)}
    {samples : List Sample}
    (h : ∀ idx outfile,
      packQ (build64bitValue
        ((samples.drop (idx * samplesPer64bitWord)).take samplesPer64bitWord) 4) =
          .ok (bytesOfWord (build64bitValue
            ((samples.drop (idx * samplesPer64bitWord)).take samplesPer64bitWord) 4)) →
      step outfile idx = .ok (outfile ++ bytesOfWord (build64bitValue
        ((samples.drop (idx * samplesPer64bitWord)).take samplesPer64bitWord) 4)))
    (outfile : List UInt8) :
    (List.range (samples.length / samplesPer64bitWord)).foldlM step outfile =
      .ok (outfile ++ (wordsOfBlock samples).flatMap bytesOfWord) := by
  have hfit : ∀ idx ∈ List.range (samples.length / samplesPer64bitWord),
      build64bitValue ((samples.drop (idx * samplesPer64bitWord)).take samplesPer64bitWord) 4 <
        2 ^ 64 := fun idx hidx =>
    wordsOfBlock_lt samples _ (List.mem_map_of_mem (List.mem_map_of_mem hidx))
  rw [foldlM_ok fun idx hidx outfile => h idx outfile (packQ_of_lt (hfit idx hidx)),
    List.foldl_append_eq_append, wordsOfBlock, slices, List.map_map, List.flatMap_map,
    List.flatMap_def]
  rfl

/-- **The words of a block**, one after the other; every one of them fits. -/
theorem writeBlockToFile_eq (outfile : List UInt8) (samples : List Sample) :
    writeBlockToFile outfile samples =
      .ok (outfile ++ (wordsOfBlock samples).flatMap bytesOfWord) := by
  refine foldlM_words (fun idx outfile hpack => ?_) outfile
  simp only [hpack, bind, Except.bind, pure, Except.pure]

/-- All the codes in a file of words. -/
def codesOfFile (bytes : List UInt8) : List (ℕ × ℕ) :=
  (unpackQ bytes).flatMap (codesOfWord samplesPer64bitWord 4)

theorem codesOfFile_words (block : List Sample) :
    codesOfFile ((wordsOfBlock block).flatMap bytesOfWord) =
      (block.take (samplesPer64bitWord * (block.length / samplesPer64bitWord))).map codes := by
  rw [codesOfFile, unpackQ_flatMap (wordsOfBlock_lt block), wordsOfBlock, List.flatMap_map,
    ← flatten_slices block, List.map_flatten, ← List.flatMap_def]
  refine List.flatMap_congr fun slice hslice => ?_
  rw [← length_of_mem_slices hslice]
  exact codesOfWord_build64bitValue slice 4

/-- **The file holds the codes of the block.**  The words of a list of samples are
below the bound of their bits, leave the spare bits zero and give the codes back from
the top; three channels make the word of all their samples; and the words of a block
all fit, and hold the codes of every sample that fills a word. -/
theorem codesOfFile_writeBlockToFile (samples c₀ c₁ c₂ block : List Sample) (spareBits : ℕ)
    (outfile : List UInt8) :
    (build64bitValue samples spareBits < 2 ^ (6 * samples.length + spareBits) ∧
      build64bitValue samples spareBits % 2 ^ spareBits = 0 ∧
      (groups 6 samples.length (build64bitValue samples spareBits >>> spareBits)).map splitGroup =
        samples.map fun s => (encodeSampleTo3bit s.real, encodeSampleTo3bit s.imag)) ∧
    build64bitValueOfChannels [c₀, c₁, c₂] spareBits =
      build64bitValue (c₀ ++ c₁ ++ c₂) spareBits ∧
    ∃ written, writeBlockToFile outfile block = .ok (outfile ++ written) ∧
      written.length = 8 * (block.length / 10) ∧
      codesOfFile written = (block.take (10 * (block.length / 10))).map codes := by
  refine ⟨⟨build64bitValue_lt samples spareBits, ?_, codesOfWord_build64bitValue samples spareBits⟩,
    ?_, _, writeBlockToFile_eq outfile block, ?_, ?_⟩
  · rw [build64bitValue_eq, Nat.shiftLeft_eq, Nat.mul_mod_left]
  · rw [build64bitValueOfChannels_eq]
    simp
  · have hword : ∀ value, (bytesOfWord value).length = 8 := fun _ => rfl
    have hcount : (wordsOfBlock block).length = block.length / 10 := by
      simp [wordsOfBlock, slices, samplesPer64bitWord]
    simp only [List.length_flatMap, hword, List.map_const', List.sum_replicate_nat, hcount]
    exact Nat.mul_comm _ _
  · exact codesOfFile_words block

end Convert
end Dfuser
