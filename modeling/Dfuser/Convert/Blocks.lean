import Dfuser.Convert.Rates

/-!
# The blocks of a file

`process_blocks` reads a file of interleaved channels block by block: the samples of
channel 0 are brought to baseband, resampled, divided by their peak and written.  The
filter, the resampling and the magnitude of a complex number are `scipy`'s and
`numpy`'s; of these only the lengths they return and the zero of the magnitude are
used.

Two things are divided by without a look at them.  The progress report divides by the
number of blocks, before anything is read; a file shorter than one block has none.  And
a silent block has no peak: dividing it by zero makes all its samples NaN, which the
encoder cannot turn into an integer.

## Main definitions

* `SignalProcessor`, `SignalProcessor.Documented` — the rates and the numerics, and
  what is used of them.
* `processChunk`, `blockLoop`, `processBlocks` — one chunk, the loop, the method.
* `channelSlice` — the samples of channel 0 in a block, in the file.
* `WritesEveryBlock` — the method returns, having written every block.

## Main results

* `blockLoop_eq` — the loop is a pass over the slices of whole blocks.
* `writesEveryBlock_iff` — **when every block is written.**
-/

namespace Dfuser
namespace Convert

/-- Why `process_blocks` raises an exception. -/
inductive BlockError
  | zeroDivisionError
  | valueError
  | structError
  deriving DecidableEq, Repr

/-- The rates of a `SignalProcessor`, and the numerics it calls. -/
structure SignalProcessor where
  origSr : ℚ
  targetSr : ℚ
  /-- `downconvert_to_baseband`. -/
  downconvertToBaseband : List ℤ → List Sample
  /-- `scipy.signal.resample`, to a number of samples. -/
  resample : List Sample → ℤ → List Sample
  /-- `np.abs`. -/
  magnitude : Sample → ℚ

/-- `num_channels`. -/
def numChannels : ℕ := 4

/-- The output file: its bytes, and the blocks `write_block_to_file` was called with.
A sample that is not a number is `none`. -/
structure Outfile where
  bytes : List UInt8
  blocks : List (List (Option Sample))

/-! ### Writing a block -/

/-- A `struct.error` ends `process_blocks`. -/
def liftStruct {α : Type} : Except StructError α → Except BlockError α
  | .ok a => .ok a
  | .error .outOfRange => .error .structError

/-- `encode_sample_to_3bit` raises an exception for NaN: it has no integer part. -/
def numbers (samples : List (Option Sample)) : Except BlockError (List Sample) :=
  samples.mapM fun s =>
    match s with
    | some s => .ok s
    | none => .error .valueError

/-- `write_block_to_file`, of samples that may be NaN. -/
def writeNumbers (outfile : List UInt8) (samples : List (Option Sample)) :
    Except BlockError (List UInt8) :=
  (List.range (samples.length / samplesPer64bitWord)).foldlM (fun outfile idx => do
    let sampleSlice ← numbers ((samples.drop (idx * samplesPer64bitWord)).take samplesPer64bitWord)
    let bytes ← liftStruct (packQ (build64bitValue sampleSlice 4))
    return outfile ++ bytes) outfile

theorem numbers_some (samples : List Sample) : numbers (samples.map some) = .ok samples := by
  induction samples with
  | nil => rfl
  | cons s samples ih =>
    rw [numbers] at ih
    rw [numbers, List.map_cons, List.mapM_cons, ih]
    rfl

/-- On numbers it is the writing of words. -/
theorem writeNumbers_some (outfile : List UInt8) (samples : List Sample) :
    writeNumbers outfile (samples.map some) =
      .ok (outfile ++ (wordsOfBlock samples).flatMap bytesOfWord) := by
  rw [writeNumbers, List.length_map]
  refine foldlM_words (fun idx outfile hpack => ?_) outfile
  rw [← List.map_drop, ← List.map_take, numbers_some]
  simp only [hpack, liftStruct, bind, Except.bind, pure, Except.pure]

/-- A block of NaN that fills a word cannot be written. -/
theorem writeNumbers_nan (outfile : List UInt8) {n : ℕ} (h : samplesPer64bitWord ≤ n) :
    writeNumbers outfile (List.replicate n none) = .error .valueError := by
  obtain ⟨m, hm⟩ : ∃ m, n / samplesPer64bitWord = m + 1 :=
    Nat.exists_eq_succ_of_ne_zero (Nat.div_pos h (by decide)).ne'
  have hslice : (List.replicate n (none : Option Sample)).take samplesPer64bitWord =
      none :: List.replicate 9 none := by
    rw [List.take_replicate, Nat.min_eq_left h]
    rfl
  -- the first slice is not made of numbers
  rw [writeNumbers, List.length_replicate, hm, List.range_succ_eq_map, List.foldlM_cons,
    Nat.zero_mul, List.drop_zero, hslice]
  rfl

/-! ### Processing a chunk -/

/-- `reshape((rows, cols))` of a flat array. -/
def reshape {α : Type} (rows cols : ℕ) (xs : List α) : Except BlockError (List (List α)) :=
  if xs.length = rows * cols then
    .ok ((List.range rows).map fun i => (xs.drop (i * cols)).take cols)
  else .error .valueError

/-- Row `j` of the transposed array. -/
def column {α : Type} (j : ℕ) (rows : List (List α)) : List α := rows.filterMap (·[j]?)

namespace SignalProcessor

variable (p : SignalProcessor)

/-- The resampled baseband signal of a block. -/
def upsampledBlock (channelData : List ℤ) : List Sample :=
  let basebandData := p.downconvertToBaseband channelData
  p.resample basebandData (resampledLength p.origSr p.targetSr basebandData.length)

/-- The block divided by its peak, `np.max(np.abs(…))`.  Without a peak every sample is
zero divided by zero. -/
def rescale (block : List Sample) : Except BlockError (List (Option Sample)) :=
  match (block.map p.magnitude).max? with
  | none => .error .valueError
  | some peak =>
    .ok (block.map fun s => if peak = 0 then none else some ⟨s.real / peak, s.imag / peak⟩)

/-- The body of the loop of `process_blocks`, on a chunk of the file. -/
def processChunk (n : ℕ) (outfile : Outfile) (chunk : List UInt8) : Except BlockError Outfile := do
  let reshapedData ← reshape n numChannels (chunk.map fun b => b.toInt8.toInt)
  let block ← p.rescale (p.upsampledBlock (column 0 reshapedData))
  let bytes ← writeNumbers outfile.bytes block
  return ⟨bytes, outfile.blocks ++ [block]⟩

/-- The loop of `process_blocks`, from the part of the file that is left. -/
def blockLoop (n blockNumMax blockNum : ℕ) (infile : List UInt8) (outfile : Outfile) :
    Except BlockError Outfile :=
  -- the progress report, every thousand blocks
  if blockNum % 1000 = 0 ∧ blockNumMax = 0 then .error .zeroDivisionError
  else if _h : infile.take (numChannels * n) = [] then .ok outfile
  else
    (p.processChunk n outfile (infile.take (numChannels * n))).bind fun outfile =>
      if blockNum + 1 = blockNumMax then .ok outfile
      else blockLoop n blockNumMax (blockNum + 1) (infile.drop (numChannels * n)) outfile
termination_by infile.length
decreasing_by
  rw [List.take_eq_nil_iff, not_or] at _h
  have hpos : 0 < infile.length := List.length_pos_iff.mpr _h.2
  rw [List.length_drop]
  omega

/-- `process_blocks`, on the bytes of the file. -/
def processBlocks (infile : List UInt8) : Except BlockError Outfile :=
  let samplesToRead := samplesToRead p.origSr p.targetSr
  if samplesToRead = 0 then .error .zeroDivisionError
  else
    let blockNumMax := pyInt (infile.length / (numChannels * samplesToRead))
    p.blockLoop samplesToRead.toNat blockNumMax.toNat 0 infile ⟨[], []⟩

/-- What is used of the numerics: the filter keeps the length, `resample` returns the
length it is asked for, and only zero has magnitude zero. -/
structure Documented : Prop where
  length_downconvert : ∀ xs, (p.downconvertToBaseband xs).length = xs.length
  length_resample : ∀ xs n, 0 < n → ((p.resample xs n).length : ℤ) = n
  magnitude_nonneg : ∀ s, 0 ≤ p.magnitude s
  magnitude_eq_zero : ∀ s, p.magnitude s = 0 ↔ s = ⟨0, 0⟩

/-! ### The slices of a file -/

/-- The samples of channel 0 in block `k` of the file, `n` frames to a block. -/
def channelSlice (n : ℕ) (infile : List UInt8) (k : ℕ) : List ℤ :=
  (List.range n).map fun i => ((infile[(k * n + i) * numChannels]?).getD 0).toInt8.toInt

/-- The peak of a block. -/
def peak (block : List Sample) : ℚ := ((block.map p.magnitude).max?).getD 0

/-- The block divided by its peak. -/
def normalised (block : List Sample) : List Sample :=
  block.map fun s => ⟨s.real / p.peak block, s.imag / p.peak block⟩

/-- A block without a sample other than zero. -/
def Silent (block : List Sample) : Prop := ∀ s ∈ block, s = ⟨0, 0⟩

instance (block : List Sample) : Decidable (Silent block) :=
  inferInstanceAs (Decidable (∀ s ∈ block, s = ⟨0, 0⟩))

/-- The block `process_blocks` makes of slice `k`. -/
def blockAt (n : ℕ) (infile : List UInt8) (k : ℕ) : List Sample :=
  p.upsampledBlock (channelSlice n infile k)

/-- What is written for slice `k`. -/
def writeSlice (n : ℕ) (infile : List UInt8) (outfile : Outfile) (k : ℕ) :
    Except BlockError Outfile :=
  (p.rescale (p.blockAt n infile k)).bind fun block =>
    (writeNumbers outfile.bytes block).bind fun bytes => .ok ⟨bytes, outfile.blocks ++ [block]⟩

/-- Channel 0 of the chunk of block `k`. -/
theorem column_reshape {n k : ℕ} {infile : List UInt8}
    (hk : (k + 1) * (numChannels * n) ≤ infile.length) :
    ∃ rows, reshape n numChannels
        (((infile.drop (k * (numChannels * n))).take (numChannels * n)).map fun b =>
          b.toInt8.toInt) = .ok rows ∧
      column 0 rows = channelSlice n infile k := by
  have hlength : ((infile.drop (k * (numChannels * n))).take (numChannels * n)).length =
      n * numChannels := by
    rw [Nat.succ_mul] at hk
    rw [List.length_take, List.length_drop, Nat.mul_comm n]
    omega
  refine ⟨_, if_pos (by rw [List.length_map, hlength]), ?_⟩
  have hframe : ∀ i ∈ List.range n,
      ((((((infile.drop (k * (numChannels * n))).take (numChannels * n)).map
        fun b => b.toInt8.toInt).drop (i * numChannels)).take numChannels)[0]?) =
      some ((infile[(k * n + i) * numChannels]?).getD 0).toInt8.toInt := by
    intro i hi
    rw [List.mem_range] at hi
    have hinside : i * numChannels < numChannels * n := by
      rw [Nat.mul_comm]
      exact Nat.mul_lt_mul_of_pos_left hi (by decide)
    have hindex : k * (numChannels * n) + i * numChannels = (k * n + i) * numChannels := by ring
    have hbound : (k * n + i) * numChannels < infile.length := by
      rw [← hindex]
      rw [Nat.succ_mul] at hk
      omega
    rw [List.getElem?_take_of_lt (by decide), List.getElem?_drop, List.getElem?_map,
      List.getElem?_take_of_lt (by omega), List.getElem?_drop, Nat.add_zero, hindex,
      List.getElem?_eq_getElem hbound]
    rfl
  rw [column, List.filterMap_map, channelSlice]
  exact (List.filterMap_congr hframe).trans (congrFun List.filterMap_eq_map' _)

/-- A chunk that is a whole block is processed as its slice. -/
theorem processChunk_eq {n k : ℕ} {infile : List UInt8}
    (hk : (k + 1) * (numChannels * n) ≤ infile.length) (outfile : Outfile) :
    p.processChunk n outfile ((infile.drop (k * (numChannels * n))).take (numChannels * n)) =
      p.writeSlice n infile outfile k := by
  obtain ⟨rows, hrows, hcolumn⟩ := column_reshape (n := n) hk
  unfold processChunk
  rw [hrows]
  simp only [bind, Except.bind, pure, Except.pure, hcolumn, writeSlice, blockAt]

/-- One round of the loop, on a whole block. -/
theorem blockLoop_step {n m k : ℕ} (hn : 0 < n) (hk : k < m) {infile : List UInt8}
    (hm : m * (numChannels * n) ≤ infile.length) (outfile : Outfile) :
    p.blockLoop n m k (infile.drop (k * (numChannels * n))) outfile =
      (p.writeSlice n infile outfile k).bind fun outfile =>
        if k + 1 = m then .ok outfile
        else p.blockLoop n m (k + 1) (infile.drop ((k + 1) * (numChannels * n))) outfile := by
  have hwhole : (k + 1) * (numChannels * n) ≤ infile.length :=
    (Nat.mul_le_mul_right _ hk).trans hm
  have hchunk : (infile.drop (k * (numChannels * n))).take (numChannels * n) ≠ [] := by
    have hpos : 0 < numChannels * n := Nat.mul_pos (by decide) hn
    rw [Nat.succ_mul] at hwhole
    rw [← List.length_pos_iff, List.length_take, List.length_drop]
    omega
  rw [blockLoop, if_neg (by omega), dif_neg hchunk, p.processChunk_eq hwhole, List.drop_drop,
    Nat.succ_mul]

/-- **The loop is a pass over the slices of whole blocks.**  The induction is on the
blocks left after the next one. -/
theorem blockLoop_eq {n m : ℕ} (hn : 0 < n) {infile : List UInt8}
    (hm : m * (numChannels * n) ≤ infile.length) {d k : ℕ} (hk : k + (d + 1) = m)
    (outfile : Outfile) :
    p.blockLoop n m k (infile.drop (k * (numChannels * n))) outfile =
      (List.range' k (d + 1)).foldlM (p.writeSlice n infile) outfile := by
  induction d generalizing k outfile with
  | zero =>
    rw [p.blockLoop_step hn (by omega) hm, List.range'_succ, List.foldlM_cons]
    simp only [if_pos hk]
    rfl
  | succ d ih =>
    have hmore : k + 1 ≠ m := by omega
    rw [p.blockLoop_step hn (by omega) hm, List.range'_succ, List.foldlM_cons]
    simp only [if_neg hmore]
    exact congrArg _ (funext fun outfile => ih (by omega) outfile)

/-! ### Silent blocks -/

variable {p}

theorem length_blockAt (h : p.Documented) {n : ℕ} (hn : 0 < resampledLength p.origSr p.targetSr n)
    (infile : List UInt8) (k : ℕ) :
    ((p.blockAt n infile k).length : ℤ) = resampledLength p.origSr p.targetSr n := by
  have hslice : (p.downconvertToBaseband (channelSlice n infile k)).length = n := by
    rw [h.length_downconvert, channelSlice, List.length_map, List.length_range]
  rw [blockAt, upsampledBlock, hslice]
  exact h.length_resample _ _ hn

/-- A block has a peak as soon as it has a sample, and the peak is zero only when the
block is silent. -/
theorem peak_spec (h : p.Documented) {block : List Sample} (hne : block ≠ []) :
    (block.map p.magnitude).max? = some (p.peak block) ∧ (p.peak block = 0 ↔ Silent block) := by
  obtain ⟨top, htop⟩ : ∃ top, (block.map p.magnitude).max? = some top :=
    Option.isSome_iff_exists.mp (by simpa [List.isSome_max?_iff] using hne)
  have hpeak : p.peak block = top := by rw [peak, htop, Option.getD_some]
  obtain ⟨hmem, hle⟩ := List.max?_eq_some_iff.mp htop
  rw [hpeak]
  refine ⟨htop, ?_⟩
  constructor
  · intro hzero s hs
    have hs0 : p.magnitude s ≤ 0 := hzero ▸ hle _ (List.mem_map_of_mem hs)
    exact (h.magnitude_eq_zero s).mp (le_antisymm hs0 (h.magnitude_nonneg s))
  · intro hsilent
    obtain ⟨s, hs, rfl⟩ := List.mem_map.mp hmem
    exact (h.magnitude_eq_zero s).mpr (hsilent s hs)

/-- A slice that is not silent is written. -/
theorem writeSlice_of_not_silent (h : p.Documented) {n k : ℕ} {infile : List UInt8}
    (hs : ¬ Silent (p.blockAt n infile k)) (outfile : Outfile) :
    p.writeSlice n infile outfile k =
      .ok ⟨outfile.bytes ++
          (wordsOfBlock (p.normalised (p.blockAt n infile k))).flatMap bytesOfWord,
        outfile.blocks ++ [(p.normalised (p.blockAt n infile k)).map some]⟩ := by
  have hne : p.blockAt n infile k ≠ [] := by
    intro hnil
    apply hs
    rw [hnil]
    intro s hs
    cases hs
  obtain ⟨hmax, hzero⟩ := peak_spec h hne
  have hpeak : p.peak (p.blockAt n infile k) ≠ 0 := fun h0 => hs (hzero.mp h0)
  have hrescale : p.rescale (p.blockAt n infile k) =
      .ok ((p.normalised (p.blockAt n infile k)).map some) := by
    rw [rescale, hmax]
    simp only [if_neg hpeak, normalised, List.map_map]
    rfl
  simp only [writeSlice, hrescale, Except.bind, writeNumbers_some]

/-- A silent slice that fills a word ends the run. -/
theorem writeSlice_of_silent (h : p.Documented) {n k : ℕ} {infile : List UInt8}
    (hlength : samplesPer64bitWord ≤ (p.blockAt n infile k).length)
    (hs : Silent (p.blockAt n infile k)) (outfile : Outfile) :
    p.writeSlice n infile outfile k = .error .valueError := by
  have hne : p.blockAt n infile k ≠ [] := by
    intro hnil
    rw [hnil] at hlength
    exact absurd hlength (by decide)
  obtain ⟨hmax, hzero⟩ := peak_spec h hne
  have hrescale : p.rescale (p.blockAt n infile k) =
      .ok (List.replicate (p.blockAt n infile k).length none) := by
    rw [rescale, hmax]
    simp only [if_pos (hzero.mpr hs), List.map_const']
  simp only [writeSlice, hrescale, Except.bind, writeNumbers_nan outfile.bytes hlength]

/-! ### All the blocks -/

/-- `process_blocks` returns, and has written one block for each whole block of the
file: the rescaled signal of its slice of channel 0. -/
def WritesEveryBlock (p : SignalProcessor) (infile : List UInt8) : Prop :=
  let n := (samplesToRead p.origSr p.targetSr).toNat
  let slices := List.range (infile.length / (numChannels * n))
  ∃ outfile, p.processBlocks infile = .ok outfile ∧
    outfile.blocks = slices.map (fun k => (p.normalised (p.blockAt n infile k)).map some) ∧
    outfile.bytes =
      slices.flatMap fun k =>
        (wordsOfBlock (p.normalised (p.blockAt n infile k))).flatMap bytesOfWord

/-- A file with a whole block is processed slice by slice, a file without one not at
all. -/
theorem processBlocks_eq (p : SignalProcessor) {n : ℕ}
    (hn : samplesToRead p.origSr p.targetSr = n) (hpos : 0 < n) (infile : List UInt8) :
    p.processBlocks infile =
      if infile.length / (numChannels * n) = 0 then .error .zeroDivisionError
      else (List.range (infile.length / (numChannels * n))).foldlM (p.writeSlice n infile)
    ⟨[], []⟩ := by
  have hcount : (pyInt (infile.length / (numChannels * (n : ℤ)))).toNat =
      infile.length / (numChannels * n) := by
    rw [pyInt_of_nonneg (by positivity)]
    have hfloor := Rat.floor_natCast_div_natCast infile.length (numChannels * n)
    push_cast at hfloor ⊢
    rw [hfloor]
    exact_mod_cast Int.toNat_natCast _
  have hne : (n : ℤ) ≠ 0 := by exact_mod_cast hpos.ne'
  simp only [processBlocks, hn, if_neg hne, hcount, Int.toNat_natCast]
  split
  · next hzero =>
    rw [blockLoop, if_pos ⟨rfl, hzero⟩]
  · next hblocks =>
    obtain ⟨d, hd⟩ := Nat.exists_eq_succ_of_ne_zero hblocks
    have hloop := p.blockLoop_eq hpos (Nat.div_mul_le_self _ _) (k := 0) (d := d)
      (by rw [hd]; omega) ⟨[], []⟩
    rw [Nat.zero_mul, List.drop_zero] at hloop
    rw [hloop, hd, List.range_eq_range']

/-- Writing slices without an error adds their blocks and their words. -/
theorem foldlM_writeSlice (h : p.Documented) {n : ℕ} {infile : List UInt8} {slices : List ℕ}
    (hs : ∀ k ∈ slices, ¬ Silent (p.blockAt n infile k)) (outfile : Outfile) :
    slices.foldlM (p.writeSlice n infile) outfile =
      .ok ⟨outfile.bytes ++ slices.flatMap fun k =>
          (wordsOfBlock (p.normalised (p.blockAt n infile k))).flatMap bytesOfWord,
        outfile.blocks ++ slices.map fun k => (p.normalised (p.blockAt n infile k)).map some⟩ := by
  induction slices generalizing outfile with
  | nil => simp [pure, Except.pure]
  | cons k slices ih =>
    rw [List.foldlM_cons, writeSlice_of_not_silent h (hs k List.mem_cons_self)]
    have hrest := ih (fun j hj => hs j (List.mem_cons_of_mem k hj))
      ⟨outfile.bytes ++ (wordsOfBlock (p.normalised (p.blockAt n infile k))).flatMap bytesOfWord,
        outfile.blocks ++ [(p.normalised (p.blockAt n infile k)).map some]⟩
    refine hrest.trans ?_
    simp [List.append_assoc]

/-- **When every block is written.**  Exactly when the file has at least one block, and
none of its blocks has come out silent. -/
theorem writesEveryBlock_iff (h : p.Documented) (ho : 0 < p.origSr) (ht : 0 < p.targetSr)
    (hn : 1 ≤ samplesToRead p.origSr p.targetSr) (infile : List UInt8) :
    WritesEveryBlock p infile ↔
      4 * samplesToRead p.origSr p.targetSr ≤ infile.length ∧
      ∀ k < infile.length / (4 * (samplesToRead p.origSr p.targetSr).toNat),
        ¬ Silent (p.blockAt (samplesToRead p.origSr p.targetSr).toNat infile k) := by
  have hten := ten_le_resampledLength ho ht hn
  obtain ⟨n, hread⟩ := Int.eq_ofNat_of_zero_le (by omega : 0 ≤ samplesToRead p.origSr p.targetSr)
  have hpos : 0 < n := by omega
  have hrun := p.processBlocks_eq hread hpos infile
  rw [hread] at hten
  have hlength : ∀ k, samplesPer64bitWord ≤ (p.blockAt n infile k).length := by
    intro k
    have := length_blockAt h (n := n) (by omega) infile k
    rw [samplesPer64bitWord]
    omega
  have hblocks : 4 * (n : ℤ) ≤ infile.length ↔ infile.length / (numChannels * n) ≠ 0 := by
    rw [Nat.div_ne_zero_iff, numChannels]
    omega
  simp only [WritesEveryBlock, hread, Int.toNat_natCast, hrun, hblocks]
  rw [show (4 * n : ℕ) = numChannels * n from rfl]
  by_cases hzero : infile.length / (numChannels * n) = 0
  · simp [hzero]
  · simp only [ne_eq, hzero, not_false_eq_true, true_and, if_false]
    constructor
    · rintro ⟨outfile, hok, -⟩ k hk hsilent
      -- the first silent slice would have ended the run
      have hstep : ∀ j ∈ List.range (infile.length / (numChannels * n)),
          ¬ Silent (p.blockAt n infile j) → ∀ outfile, ∃ outfile',
            p.writeSlice n infile outfile j = .ok outfile' :=
        fun j _ hj outfile => ⟨_, writeSlice_of_not_silent h hj outfile⟩
      have hstop : ∀ j ∈ List.range (infile.length / (numChannels * n)),
          Silent (p.blockAt n infile j) → ∀ outfile,
            p.writeSlice n infile outfile j = .error .valueError :=
        fun j _ hj outfile => writeSlice_of_silent h (hlength j) hj outfile
      have herror := foldlM_error hstep hstop ⟨k, List.mem_range.mpr hk, hsilent⟩ ⟨[], []⟩
      rw [herror] at hok
      cases hok
    · intro hall
      have hok := foldlM_writeSlice h (fun k hk => hall k (List.mem_range.mp hk)) ⟨[], []⟩
      exact ⟨_, hok, rfl, rfl⟩

/-- Numerics that leave a block as it is, up to its length. -/
def passThrough : SignalProcessor where
  origSr := 10000
  targetSr := 10000
  downconvertToBaseband xs := xs.map fun x => ⟨x, 0⟩
  resample xs n := (List.range n.toNat).map fun i => xs.getD i ⟨0, 0⟩
  magnitude s := max |s.real| |s.imag|

theorem documented_passThrough : passThrough.Documented := by
  refine ⟨fun xs => ?_, fun xs n hn => ?_, fun s => ?_, fun s => ?_⟩
  · simp [passThrough]
  · simp [passThrough, hn.le]
  · exact le_max_of_le_left (abs_nonneg _)
  · obtain ⟨re, im⟩ := s
    have hmax : max |re| |im| = 0 ↔ re = 0 ∧ im = 0 := by
      constructor
      · intro h
        exact ⟨abs_nonpos_iff.mp (h ▸ le_max_left _ _), abs_nonpos_iff.mp (h ▸ le_max_right _ _)⟩
      · intro ⟨hre, him⟩
        rw [hre, him]
        simp
    simpa [passThrough] using hmax

/-- A block of zeros is not written. -/
theorem writesEveryBlock_iff_zeros : ¬ WritesEveryBlock passThrough (List.replicate 40 0) := by
  intro h
  have hblocks := (writesEveryBlock_iff documented_passThrough (by decide +kernel)
    (by decide +kernel) (by decide +kernel) (List.replicate 40 0)).mp h
  exact hblocks.2 0 (by decide +kernel) (by decide +kernel)

/-- Of an empty file not even the number of blocks can be reported. -/
theorem not_writesEveryBlock_empty : ¬ WritesEveryBlock passThrough [] := by
  intro ⟨outfile, hok, _⟩
  have herror : passThrough.processBlocks [] = .error .zeroDivisionError := by
    rw [passThrough.processBlocks_eq (n := 10) (by decide +kernel) (by decide)]
    rfl
  rw [herror] at hok
  cases hok

/-- Where silence stays silence, a block whose channel 0 is zero is not written. -/
theorem not_writesEveryBlock_of_zero (h : p.Documented) (ho : 0 < p.origSr) (ht : 0 < p.targetSr)
    (hn : 1 ≤ samplesToRead p.origSr p.targetSr)
    (hdown : ∀ xs, (∀ x ∈ xs, x = 0) → Silent (p.downconvertToBaseband xs))
    (hresample : ∀ xs n, Silent xs → Silent (p.resample xs n)) {infile : List UInt8} {k : ℕ}
    (hk : k < infile.length / (4 * (samplesToRead p.origSr p.targetSr).toNat))
    (hzero : ∀ x ∈ channelSlice (samplesToRead p.origSr p.targetSr).toNat infile k, x = 0) :
    ¬ WritesEveryBlock p infile := by
  intro hall
  exact ((writesEveryBlock_iff h ho ht hn infile).mp hall).2 k hk
    (hresample _ _ (hdown _ hzero))

end SignalProcessor

end Convert
end Dfuser
