import Dfuser.Ini.Merge

/-!
# What a comparison can tell

`diff` is to output the differences between two INI files.  `compare_configs` goes
through the named sections, and there through the options each of them shows, its
own and the inherited ones.  The default section is not one of the named sections,
so its entries are compared only where a section of both files inherits them.

## Main definitions

* `NoDifference` — a report that has nothing to report.
* `SameConfiguration` — two configurations are equal.
* `VisiblyDiffer` — some named section shows a difference.

## Main results

* `noDifference_iff` — the report is empty exactly when no section shows a difference.
* `compareConfigs_decides_iff` — **when an empty report means equal configurations.**
-/

namespace Dfuser
namespace Ini

variable {x : OptionXform}

/-- No section added or removed, no option added or removed, no value changed. -/
structure NoDifference (d : Differences) : Prop where
  sectionsAdded : d.sectionsAdded = ∅
  sectionsRemoved : d.sectionsRemoved = ∅
  keysAdded : ∀ s ks, d.keysAdded.get? s = some ks → ks = ∅
  keysRemoved : ∀ s ks, d.keysRemoved.get? s = some ks → ks = ∅
  changedValues : d.changedValues.keys = []

/-- Equal as configurations: the same sections, the same default entries, and in
each section the same options with the same values. -/
structure SameConfiguration (c₁ c₂ : Config x) : Prop where
  sections : ∀ s, s ∈ c₁.sections.keys ↔ s ∈ c₂.sections.keys
  defaults : ∀ k, c₁.defaults.get? k = c₂.defaults.get? k
  options : ∀ s ∈ c₁.sections.keys, ∀ k, c₁.env s k = c₂.env s k

/-- Some section is only in one of the configurations, or shows an option in one of
them that it does not show, or not with this value, in the other. -/
def VisiblyDiffer (c₁ c₂ : Config x) : Prop :=
  (∃ s, ¬ (s ∈ c₁.sections.keys ↔ s ∈ c₂.sections.keys)) ∨
  ∃ s ∈ c₁.sections.keys, s ∈ c₂.sections.keys ∧ ∃ k, c₁.env s k ≠ c₂.env s k

theorem not_visiblyDiffer_iff {c₁ c₂ : Config x} :
    ¬ VisiblyDiffer c₁ c₂ ↔
      (∀ s, s ∈ c₁.sections.keys ↔ s ∈ c₂.sections.keys) ∧
      ∀ s ∈ c₁.sections.keys, s ∈ c₂.sections.keys → ∀ k, c₁.env s k = c₂.env s k := by
  unfold VisiblyDiffer
  push Not
  rfl

/-- Without `%`, an option reads as its raw value. -/
theorem get_of_plainConfig {c : Config x} (h : PlainConfig c) {s k raw : Str}
    (hraw : c.env s k = some raw) : c.get s k = .ok raw :=
  Config.get_of_interp hraw (interp_of_plain (plain_of_env h hraw) 9)

theorem bothRead_of_plainConfig {c₁ c₂ : Config x} (h₁ : PlainConfig c₁) (h₂ : PlainConfig c₂)
    {s k : Str} (hk : k ∈ commonOptions c₁ c₂ s) : BothRead c₁ c₂ s k := by
  rw [mem_commonOptions, Config.mem_options, Config.mem_options] at hk
  obtain ⟨⟨v₁, hv₁⟩, v₂, hv₂⟩ := hk
  exact ⟨⟨v₁, get_of_plainConfig h₁ hv₁⟩, ⟨v₂, get_of_plainConfig h₂ hv₂⟩⟩

/-- Without `%`, options read alike when their raw values are the same. -/
theorem readAlike_iff_of_plainConfig {c₁ c₂ : Config x} (h₁ : PlainConfig c₁)
    (h₂ : PlainConfig c₂) {s k : Str} (hk : k ∈ commonOptions c₁ c₂ s) :
    ReadAlike c₁ c₂ s k ↔ c₁.env s k = c₂.env s k := by
  rw [mem_commonOptions, Config.mem_options, Config.mem_options] at hk
  obtain ⟨⟨v₁, hv₁⟩, v₂, hv₂⟩ := hk
  rw [ReadAlike, get_of_plainConfig h₁ hv₁, get_of_plainConfig h₂ hv₂, hv₁, hv₂]
  constructor
  · rintro ⟨v, hv₁, hv₂⟩
    cases hv₁
    cases hv₂
    rfl
  · intro h
    cases h
    exact ⟨v₁, rfl, rfl⟩

/-- A section shows the same in both configurations when neither shows an option the
other does not and what both show reads alike. -/
theorem env_eq_iff {c₁ c₂ : Config x} (h₁ : PlainConfig c₁) (h₂ : PlainConfig c₂) (s : Str) :
    (∀ k, c₁.env s k = c₂.env s k) ↔
      addedOptions c₁ c₂ s = ∅ ∧ addedOptions c₂ c₁ s = ∅ ∧
        ∀ k ∈ commonOptions c₁ c₂ s, ReadAlike c₁ c₂ s k := by
  have hadded : ∀ a b : Config x,
      addedOptions a b s = ∅ ↔ ∀ k, k ∈ b.options s → k ∈ a.options s := by
    intro a b
    rw [addedOptions, Finset.sdiff_eq_empty_iff_subset]
    simp only [Finset.subset_iff, List.mem_toFinset]
  rw [hadded, hadded]
  constructor
  · intro h
    refine ⟨fun k hk => ?_, fun k hk => ?_, fun k hk => ?_⟩
    · rwa [Config.mem_options, h, ← Config.mem_options]
    · rwa [Config.mem_options, ← h, ← Config.mem_options]
    · exact (readAlike_iff_of_plainConfig h₁ h₂ hk).mpr (h k)
  · intro ⟨h₂₁, h₁₂, halike⟩ k
    by_cases hk : k ∈ c₁.options s
    · have hcommon := (mem_commonOptions c₁ c₂ s k).mpr ⟨hk, h₁₂ k hk⟩
      exact (readAlike_iff_of_plainConfig h₁ h₂ hcommon).mp (halike k hcommon)
    · -- an option neither shows has no value in either
      have hnone : ∀ c : Config x, k ∉ c.options s → c.env s k = none := by
        intro c hc
        rw [Config.mem_options] at hc
        exact Option.eq_none_iff_forall_ne_some.mpr fun v hv => hc ⟨v, hv⟩
      rw [hnone c₁ hk, hnone c₂ fun hk₂ => hk (h₂₁ k hk₂)]

/-- **What an empty report says.**  Comparing files without `%` succeeds, and reports
no difference exactly when no named section shows one. -/
theorem noDifference_iff {c₁ c₂ : Config x} (h₁ : PlainConfig c₁) (h₂ : PlainConfig c₂) :
    ∃ d, compareConfigs c₁ c₂ = .ok d ∧ (NoDifference d ↔ ¬ VisiblyDiffer c₁ c₂) := by
  obtain ⟨d, hd, hadded, hremoved, hkeys, hkeys', hchanged⟩ :=
    compareConfigs_ok fun s _ k hk => bothRead_of_plainConfig h₁ h₂ (s := s) (k := k) hk
  refine ⟨d, hd, ?_⟩
  rw [not_visiblyDiffer_iff]
  have hsections : d.sectionsAdded = ∅ ∧ d.sectionsRemoved = ∅ ↔
      ∀ s, s ∈ c₁.sections.keys ↔ s ∈ c₂.sections.keys := by
    rw [hadded, hremoved, Finset.sdiff_eq_empty_iff_subset, Finset.sdiff_eq_empty_iff_subset]
    simp only [Finset.subset_iff, List.mem_toFinset]
    exact ⟨fun h s => ⟨fun hs => h.2 hs, fun hs => h.1 hs⟩,
      fun h => ⟨fun s hs => (h s).mpr hs, fun s hs => (h s).mp hs⟩⟩
  rw [← hsections]
  constructor
  · intro h
    refine ⟨⟨h.sectionsAdded, h.sectionsRemoved⟩, fun s hs₁ hs₂ => ?_⟩
    have hs := (mem_commonSections c₁ c₂ s).mpr ⟨hs₁, hs₂⟩
    exact (env_eq_iff h₁ h₂ s).mpr
      ⟨h.keysAdded s _ ((hkeys s _).mpr ⟨hs, rfl⟩), h.keysRemoved s _ ((hkeys' s _).mpr ⟨hs, rfl⟩),
        hchanged.mp h.changedValues s hs⟩
  · intro ⟨⟨hnew, hold⟩, hshow⟩
    have hsection : ∀ s ∈ commonSections c₁ c₂, addedOptions c₁ c₂ s = ∅ ∧
        addedOptions c₂ c₁ s = ∅ ∧ ∀ k ∈ commonOptions c₁ c₂ s, ReadAlike c₁ c₂ s k := by
      intro s hs
      rw [mem_commonSections] at hs
      exact (env_eq_iff h₁ h₂ s).mp (hshow s hs.1 hs.2)
    refine ⟨hnew, hold, fun s ks hks => ?_, fun s ks hks => ?_, ?_⟩
    · obtain ⟨hs, rfl⟩ := (hkeys s ks).mp hks
      exact (hsection s hs).1
    · obtain ⟨hs, rfl⟩ := (hkeys' s ks).mp hks
      exact (hsection s hs).2.1
    · exact hchanged.mpr fun s hs => (hsection s hs).2.2

/-- An empty report means that the configurations are equal, and only that. -/
def Decides (c₁ c₂ : Config x) : Prop :=
  ∃ d, compareConfigs c₁ c₂ = .ok d ∧ (NoDifference d ↔ SameConfiguration c₁ c₂)

/-- **When an empty report means equality.**  It does exactly when the default entries
are the same or some named section shows a difference: what is left out is a
difference of the default entries that no section inherits. -/
theorem compareConfigs_decides_iff {c₁ c₂ : Config x} (h₁ : PlainConfig c₁)
    (h₂ : PlainConfig c₂) :
    Decides c₁ c₂ ↔ (∀ k, c₁.defaults.get? k = c₂.defaults.get? k) ∨ VisiblyDiffer c₁ c₂ := by
  obtain ⟨d, hd, hreport⟩ := noDifference_iff h₁ h₂
  have hsame : SameConfiguration c₁ c₂ ↔
      ¬ VisiblyDiffer c₁ c₂ ∧ ∀ k, c₁.defaults.get? k = c₂.defaults.get? k := by
    rw [not_visiblyDiffer_iff]
    constructor
    · intro h
      exact ⟨⟨h.sections, fun s hs _ => h.options s hs⟩, h.defaults⟩
    · intro ⟨⟨hsec, hopt⟩, hdef⟩
      exact ⟨hsec, hdef, fun s hs => hopt s hs ((hsec s).mp hs)⟩
  have hdecides : Decides c₁ c₂ ↔ (NoDifference d ↔ SameConfiguration c₁ c₂) := by
    constructor
    · intro ⟨d', hd', h⟩
      rw [hd] at hd'
      cases hd'
      exact h
    · intro h
      exact ⟨d, hd, h⟩
  rw [hdecides, hreport, hsame]
  tauto

/-- A changed value is seen, whatever the default entries are. -/
theorem compareConfigs_decides_iff_oneOption :
    Decides (oneOption "mine".toList) (oneOption "theirs".toList) :=
  (compareConfigs_decides_iff (plainConfig_oneOption (by decide))
    (plainConfig_oneOption (by decide))).mpr (Or.inl fun _ => rfl)

/-- A default entry that no section inherits is not reported. -/
theorem not_decides_setDefault :
    ¬ Decides (Config.empty.setDefault "k".toList "v".toList : Config asciiLower) Config.empty := by
  intro ⟨d, hd, h⟩
  have hnone : NoDifference d := by
    cases hd
    refine ⟨by decide, by decide, ?_, ?_, rfl⟩
    · intro s ks hks
      cases hks
    · intro s ks hks
      cases hks
  have hdefault := (h.mp hnone).defaults "k".toList
  exact absurd hdefault (by decide)

end Ini
end Dfuser
