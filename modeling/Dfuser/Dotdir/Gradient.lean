import Mathlib.Tactic.FieldSimp
import Mathlib.Tactic.GCongr
import Mathlib.Tactic.IntervalCases
import Mathlib.Tactic.Linarith
import Mathlib.Tactic.Ring
import Dfuser.Dotdir.Styles

/-!
# Gradients

`linear_gradient` of `scripts/bash/dotdir` is meant for two colours given as six
digits after a number sign.  Its colours are then the truncated values of a straight
line through the two given colours, at `n` evenly spaced steps that begin at one and
end at the other, and the text of each is again a number sign and six digits.

## Main definitions

* `HexColour` — the texts `linear_gradient` is meant for.
* `Runs` — a channel that runs from one value to another.

## Main results

* `hexToRGB_RGBToHex`, `RGBToHex_of_hexColour` — the text of a colour, both ways.
* `interpolate_runs` — one channel.
* `linearGradient_runs` — **the gradient of any two colours.**
-/

namespace Dfuser
namespace Dotdir

/-! ### Colours as text -/

/-- A number sign and six hexadecimal digits. -/
def HexColour (text : Str) : Prop :=
  ∃ digits : Str, text = '#' :: digits ∧ digits.length = 6 ∧
    ∀ c ∈ digits, (hexDigit c).isSome = true

/-- A value that fits in two digits. -/
def TwoDigits (v : ℤ) : Prop := 0 ≤ v ∧ v < 256

/-- All three channels fit in two digits. -/
structure RGB.InRange (c : RGB) : Prop where
  r : TwoDigits c.r
  g : TwoDigits c.g
  b : TwoDigits c.b

theorem hexDigit_digitChar {d : ℕ} (h : d < 16) : hexDigit (Nat.digitChar d) = some (d : ℤ) := by
  interval_cases d <;> rfl

theorem channelToHex_natCast {v : ℕ} (h : v < 256) :
    channelToHex v = [Nat.digitChar (v / 16), Nat.digitChar (v % 16)] := by
  have hformat : formatHex v = Nat.toDigits 16 v := by simp [formatHex]
  unfold channelToHex
  split
  · next hv =>
    have hv' : v < 16 := by exact_mod_cast hv
    rw [hformat, Nat.toDigits_of_lt_base hv', Nat.div_eq_of_lt hv', Nat.mod_eq_of_lt hv']
    rfl
  · next hv =>
    have hv' : 16 ≤ v := by
      rw [not_lt] at hv
      exact_mod_cast hv
    rw [hformat, Nat.toDigits_of_base_le (by decide) hv', Nat.toDigits_of_lt_base (by omega)]
    rfl

theorem intOfHex_pair {c d : Char} {x y : ℤ} (hc : hexDigit c = some x) (hd : hexDigit d = some y) :
    intOfHex [c, d] = some (16 * x + y) := by
  simp [intOfHex, hc, hd]

/-- A channel is two digits, which read as its value. -/
theorem exists_channelToHex {v : ℤ} (h : TwoDigits v) :
    ∃ c d, channelToHex v = [c, d] ∧ intOfHex [c, d] = some v := by
  obtain ⟨n, rfl⟩ := Int.eq_ofNat_of_zero_le h.1
  have hn : n < 256 := by exact_mod_cast h.2
  refine ⟨_, _, channelToHex_natCast hn, ?_⟩
  rw [intOfHex_pair (hexDigit_digitChar (by omega)) (hexDigit_digitChar (by omega))]
  congr 1
  omega

theorem hexToRGB_eq {c₁ c₂ c₃ c₄ c₅ c₆ : Char} {r g b : ℤ} (hr : intOfHex [c₁, c₂] = some r)
    (hg : intOfHex [c₃, c₄] = some g) (hb : intOfHex [c₅, c₆] = some b) :
    hexToRGB ['#', c₁, c₂, c₃, c₄, c₅, c₆] = some ⟨r, g, b⟩ := by
  simp [hexToRGB, hr, hg, hb]

theorem length_RGBToHex {c : RGB} (h : c.InRange) : (RGBToHex c).length = 7 := by
  obtain ⟨_, _, hr, _⟩ := exists_channelToHex h.r
  obtain ⟨_, _, hg, _⟩ := exists_channelToHex h.g
  obtain ⟨_, _, hb, _⟩ := exists_channelToHex h.b
  rw [RGBToHex, hr, hg, hb]
  rfl

/-- The text of a colour reads as the colour. -/
theorem hexToRGB_RGBToHex {c : RGB} (h : c.InRange) : hexToRGB (RGBToHex c) = some c := by
  obtain ⟨_, _, hr, hr'⟩ := exists_channelToHex h.r
  obtain ⟨_, _, hg, hg'⟩ := exists_channelToHex h.g
  obtain ⟨_, _, hb, hb'⟩ := exists_channelToHex h.b
  rw [RGBToHex, hr, hg, hb]
  exact hexToRGB_eq hr' hg' hb'

/-- The digits are among the first 128 characters. -/
theorem toNat_lt_of_hexDigit {c : Char} {x : ℤ} (h : hexDigit c = some x) : c.toNat < 128 := by
  have hrange : ∀ {hi : Char}, c ≤ hi → hi.toNat < 128 → c.toNat < 128 :=
    fun hhi hlt => lt_of_le_of_lt hhi hlt
  unfold hexDigit at h
  split at h
  · next hc => exact hrange hc.2 (by decide)
  · split at h
    · next hc => exact hrange hc.2 (by decide)
    · split at h
      · next hc => exact hrange hc.2 (by decide)
      · cases h

/-- A digit is written back in lower case. -/
theorem exists_of_hexDigit {c : Char} {x : ℤ} (h : hexDigit c = some x) :
    ∃ d : ℕ, d < 16 ∧ x = d ∧ Nat.digitChar d = c.toLower := by
  have hall : ∀ n < 128, (hexDigit (Char.ofNat n)).all (fun x =>
      0 ≤ x && x < 16 && Nat.digitChar x.toNat == (Char.ofNat n).toLower) = true := by
    decide
  have hc := hall c.toNat (toNat_lt_of_hexDigit h)
  rw [Char.ofNat_toNat, h] at hc
  simp only [Option.all_some, Bool.and_eq_true, decide_eq_true_eq, beq_iff_eq] at hc
  obtain ⟨⟨hnonneg, hlt⟩, hlower⟩ := hc
  exact ⟨x.toNat, by omega, by omega, hlower⟩

/-- Two digits read as a channel, which is written back in lower case. -/
theorem exists_intOfHex_pair {c d : Char} (hc : (hexDigit c).isSome = true)
    (hd : (hexDigit d).isSome = true) :
    ∃ v, intOfHex [c, d] = some v ∧ TwoDigits v ∧ channelToHex v = [c.toLower, d.toLower] := by
  obtain ⟨x, hx⟩ := Option.isSome_iff_exists.mp hc
  obtain ⟨y, hy⟩ := Option.isSome_iff_exists.mp hd
  obtain ⟨m, hm, rfl, hm'⟩ := exists_of_hexDigit hx
  obtain ⟨n, hn, rfl, hn'⟩ := exists_of_hexDigit hy
  refine ⟨_, intOfHex_pair hx hy, ⟨by omega, by omega⟩, ?_⟩
  have hvalue : (16 * m + n : ℤ) = ((16 * m + n : ℕ) : ℤ) := by push_cast; rfl
  have hhigh : (16 * m + n) / 16 = m := by omega
  have hlow : (16 * m + n) % 16 = n := by omega
  rw [hvalue, channelToHex_natCast (by omega), hhigh, hlow, hm', hn']

/-- A text of six digits reads as a colour whose text it is, up to case. -/
theorem exists_of_hexColour {text : Str} (h : HexColour text) :
    ∃ c : RGB, hexToRGB text = some c ∧ c.InRange ∧ RGBToHex c = text.map Char.toLower := by
  obtain ⟨digits, rfl, hlen, hdigits⟩ := h
  obtain ⟨c₁, c₂, c₃, c₄, c₅, c₆, rfl⟩ : ∃ c₁ c₂ c₃ c₄ c₅ c₆,
    digits = [c₁, c₂, c₃, c₄, c₅, c₆] := by
    match digits, hlen with
    | [c₁, c₂, c₃, c₄, c₅, c₆], _ => exact ⟨c₁, c₂, c₃, c₄, c₅, c₆, rfl⟩
  simp only [List.forall_mem_cons] at hdigits
  obtain ⟨h₁, h₂, h₃, h₄, h₅, h₆, _⟩ := hdigits
  obtain ⟨r, hr, hrange, hr'⟩ := exists_intOfHex_pair h₁ h₂
  obtain ⟨g, hg, hgrange, hg'⟩ := exists_intOfHex_pair h₃ h₄
  obtain ⟨b, hb, hbrange, hb'⟩ := exists_intOfHex_pair h₅ h₆
  refine ⟨⟨r, g, b⟩, hexToRGB_eq hr hg hb, ⟨hrange, hgrange, hbrange⟩, ?_⟩
  rw [RGBToHex, hr', hg', hb']
  rfl

/-! ### One channel -/

/-- The `n` values of a channel from `s` to `f`: they begin with `s`, end with `f`
where there is more than one, and never turn back. -/
structure Runs (n : ℕ) (s f : ℤ) (values : List ℤ) : Prop where
  length_eq : values.length = n
  head : values.head? = some s
  last : 2 ≤ n → values.getLast? = some f
  mono : s ≤ f → values.Pairwise (· ≤ ·)
  anti : f ≤ s → values.Pairwise (· ≥ ·)
  between : ∀ v ∈ values, v ∈ Set.uIcc s f

@[simp] theorem interpolate_zero (s f : ℤ) (n : ℕ) : interpolate s f 0 n = s := by
  simp [interpolate]

theorem interpolate_last (s f : ℤ) {n : ℕ} (h : 2 ≤ n) : interpolate s f (n - 1) n = f := by
  have hn : ((n - 1 : ℕ) : ℚ) = n - 1 := by
    rw [Nat.cast_sub (by omega), Nat.cast_one]
  have hpos : (n : ℚ) - 1 ≠ 0 := by
    rw [← hn]
    exact_mod_cast (by omega : n - 1 ≠ 0)
  have hvalue : (s : ℚ) + (((n - 1 : ℕ) : ℚ) / (n - 1)) * (f - s) = f := by
    rw [hn, div_self hpos]
    ring
  rw [interpolate, hvalue, pyInt_intCast]

section

variable {s f : ℤ} {t u n : ℕ}

/-- How far along step `t` is. -/
theorem fraction_le_fraction (hn : 1 ≤ n) (htu : t ≤ u) : (t / (n - 1 : ℚ)) ≤ u / (n - 1 : ℚ) := by
  have hn' : (0 : ℚ) ≤ n - 1 := by
    rw [sub_nonneg]
    exact_mod_cast hn
  gcongr

theorem interpolate_mono (hn : 1 ≤ n) (h : s ≤ f) (htu : t ≤ u) :
    interpolate s f t n ≤ interpolate s f u n := by
  have hrise : (0 : ℚ) ≤ f - s := by
    rw [sub_nonneg]
    exact_mod_cast h
  have hmul := mul_le_mul_of_nonneg_right (fraction_le_fraction hn htu) hrise
  apply pyInt_le_pyInt
  linarith

theorem interpolate_anti (hn : 1 ≤ n) (h : f ≤ s) (htu : t ≤ u) :
    interpolate s f u n ≤ interpolate s f t n := by
  have hfall : (f : ℚ) - s ≤ 0 := by
    rw [sub_nonpos]
    exact_mod_cast h
  have hmul := mul_le_mul_of_nonpos_right (fraction_le_fraction hn htu) hfall
  apply pyInt_le_pyInt
  linarith

/-- Every step lies between the first and the last. -/
theorem interpolate_mem_uIcc (s f : ℤ) (ht : t < n) : interpolate s f t n ∈ Set.uIcc s f := by
  rcases Nat.eq_zero_or_pos t with rfl | hpos
  · rw [interpolate_zero]
    exact Set.left_mem_uIcc
  · have hlast := interpolate_last s f (n := n) (by omega)
    rcases le_total s f with h | h
    · rw [Set.uIcc_of_le h]
      constructor
      · calc s = interpolate s f 0 n := (interpolate_zero s f n).symm
          _ ≤ interpolate s f t n := interpolate_mono (by omega) h (Nat.zero_le t)
      · calc interpolate s f t n ≤ interpolate s f (n - 1) n :=
              interpolate_mono (by omega) h (by omega)
          _ = f := hlast
    · rw [Set.uIcc_of_ge h]
      constructor
      · calc f = interpolate s f (n - 1) n := hlast.symm
          _ ≤ interpolate s f t n := interpolate_anti (by omega) h (by omega)
      · calc interpolate s f t n ≤ interpolate s f 0 n :=
              interpolate_anti (by omega) h (Nat.zero_le t)
          _ = s := interpolate_zero s f n

end

/-- **One channel.** -/
theorem interpolate_runs (s f : ℤ) {n : ℕ} (hn : 1 ≤ n) :
    Runs n s f ((List.range n).map fun t => interpolate s f t n) := by
  have hne : n ≠ 0 := by omega
  refine ⟨?_, ?_, ?_, ?_, ?_, ?_⟩
  · simp
  · simp [List.head?_range, hne]
  · intro htwo
    simp [List.getLast?_range, hne, interpolate_last s f htwo]
  · intro h
    exact List.pairwise_map.mpr (List.pairwise_lt_range.imp fun htu => interpolate_mono hn h htu.le)
  · intro h
    exact List.pairwise_map.mpr (List.pairwise_lt_range.imp fun htu => interpolate_anti hn h htu.le)
  · intro v hv
    obtain ⟨t, ht, rfl⟩ := List.mem_map.mp hv
    exact interpolate_mem_uIcc s f (List.mem_range.mp ht)

/-! ### The gradient -/

/-- The colour at step `t` of `n`. -/
def colourAt (s f : RGB) (n t : ℕ) : RGB :=
  ⟨interpolate s.r f.r t n, interpolate s.g f.g t n, interpolate s.b f.b t n⟩

/-- The colour the source puts first is the one at step `0`. -/
theorem linearGradient_eq {start finish : Str} {s f : RGB} (hs : hexToRGB start = some s)
    (hf : hexToRGB finish = some f) {n : ℕ} (hn : 1 ≤ n) :
    linearGradient start finish n = some (colorDict ((List.range n).map (colourAt s f n))) := by
  have hfirst : colourAt s f n 0 = s := by simp [colourAt]
  have hrange : List.range n = 0 :: List.range' 1 (n - 1) := by
    obtain ⟨m, rfl⟩ := Nat.exists_eq_add_of_le' hn
    rw [List.range_eq_range', List.range'_succ]
    rfl
  rw [hrange, List.map_cons, hfirst]
  simp only [linearGradient, hs, hf, Option.bind_eq_bind, Option.bind_some]
  rfl

/-- Values between two that fit in two digits fit as well. -/
theorem twoDigits_of_mem_uIcc {s f v : ℤ} (hs : TwoDigits s) (hf : TwoDigits f)
    (hv : v ∈ Set.uIcc s f) : TwoDigits v := by
  rw [Set.mem_uIcc] at hv
  unfold TwoDigits at *
  omega

theorem colourAt_inRange {s f : RGB} (hs : s.InRange) (hf : f.InRange) {n t : ℕ} (ht : t < n) :
    (colourAt s f n t).InRange :=
  ⟨twoDigits_of_mem_uIcc hs.r hf.r (interpolate_mem_uIcc _ _ ht),
    twoDigits_of_mem_uIcc hs.g hf.g (interpolate_mem_uIcc _ _ ht),
    twoDigits_of_mem_uIcc hs.b hf.b (interpolate_mem_uIcc _ _ ht)⟩

/-- **The gradient of any two colours**: `n` texts of seven characters, which read as
the returned channels; the first is the text of the first colour in lower case, the
last that of the last one, and each channel runs from one to the other. -/
theorem linearGradient_runs {start finish : Str} (hstart : HexColour start)
    (hfinish : HexColour finish) {n : ℕ} (hn : 1 ≤ n) :
    ∃ s f d, hexToRGB start = some s ∧ hexToRGB finish = some f ∧
      linearGradient start finish n = some d ∧
      d.hex.length = n ∧ d.hex.head? = some (start.map Char.toLower) ∧
      (2 ≤ n → d.hex.getLast? = some (finish.map Char.toLower)) ∧
      Runs n s.r f.r d.r ∧ Runs n s.g f.g d.g ∧ Runs n s.b f.b d.b ∧
      (∀ text ∈ d.hex, text.length = 7) ∧
      ∃ colours : List RGB, d.hex.map hexToRGB = colours.map some ∧
        colours.map RGB.r = d.r ∧ colours.map RGB.g = d.g ∧ colours.map RGB.b = d.b := by
  obtain ⟨s, hs, hsrange, hstext⟩ := exists_of_hexColour hstart
  obtain ⟨f, hf, hfrange, hftext⟩ := exists_of_hexColour hfinish
  have hrange : ∀ t ∈ List.range n, (colourAt s f n t).InRange :=
    fun t ht => colourAt_inRange hsrange hfrange (List.mem_range.mp ht)
  have hne : n ≠ 0 := by omega
  refine ⟨s, f, _, hs, hf, linearGradient_eq hs hf hn, ?_, ?_, ?_, ?_, ?_, ?_, ?_, ?_⟩
  · simp [colorDict]
  · simp [colorDict, List.head?_range, hne, colourAt, hstext]
  · intro htwo
    simp [colorDict, List.getLast?_range, hne, colourAt, interpolate_last _ _ htwo, hftext]
  · simpa [colorDict, colourAt, Function.comp_def] using interpolate_runs s.r f.r hn
  · simpa [colorDict, colourAt, Function.comp_def] using interpolate_runs s.g f.g hn
  · simpa [colorDict, colourAt, Function.comp_def] using interpolate_runs s.b f.b hn
  · intro text htext
    obtain ⟨c, hc, rfl⟩ := List.mem_map.mp htext
    obtain ⟨t, ht, rfl⟩ := List.mem_map.mp hc
    exact length_RGBToHex (hrange t ht)
  · refine ⟨(List.range n).map (colourAt s f n), ?_, rfl, rfl, rfl⟩
    rw [colorDict, List.map_map, List.map_map, List.map_map]
    exact List.map_congr_left fun t ht => hexToRGB_RGBToHex (hrange t ht)

/-- From grey to darker grey, which ends where it should and not at `#969696`, as the
test of the script has it. -/
theorem linearGradient_runs_grey :
    ∃ d, linearGradient "#F0F0F0".toList "#737373".toList 10 = some d ∧
      d.hex.head? = some "#f0f0f0".toList ∧ d.hex.getLast? = some "#737373".toList ∧
      Runs 10 240 115 d.r := by
  have hstart : HexColour "#F0F0F0".toList :=
    ⟨"F0F0F0".toList, rfl, rfl, List.all_eq_true.mp (by decide)⟩
  have hfinish : HexColour "#737373".toList :=
    ⟨"737373".toList, rfl, rfl, List.all_eq_true.mp (by decide)⟩
  obtain ⟨s, f, d, hs, hf, hd, _, hfirst, hlast, hr, _⟩ :=
    @linearGradient_runs _ _ hstart hfinish 10 (by decide)
  have hs' : s = ⟨240, 240, 240⟩ := by
    rw [show hexToRGB "#F0F0F0".toList = some ⟨240, 240, 240⟩ from rfl] at hs
    exact (Option.some.inj hs).symm
  have hf' : f = ⟨115, 115, 115⟩ := by
    rw [show hexToRGB "#737373".toList = some ⟨115, 115, 115⟩ from rfl] at hf
    exact (Option.some.inj hf).symm
  subst hs' hf'
  exact ⟨d, hd, hfirst, hlast (by decide), hr⟩

/-- The gradient of the script has as many colours as it asks for. -/
theorem length_gradientHex : gradientHex.length = 10 := by
  rw [gradientHex, linearGradient_eq rfl rfl (by decide)]
  simp [colorDict]

end Dotdir
end Dfuser
