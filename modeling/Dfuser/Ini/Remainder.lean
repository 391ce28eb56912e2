import Dfuser.Ini.Merge

/-!
# What an update leaves to apply

After `update t r`, a comparison with `r` should find no section and no option to
add and no value to change.  An update copies what `r` reads, and the copy is
interpolated once more when it is compared; so it comes out as it went in exactly
when there is nothing left in it to interpolate.

## Main definitions

* `NothingLeft` — the comparison after an update reports nothing to apply.
* `Copies` — the update goes through, and copies only text without `%`.

## Main results

* `readAlike_updateFiles` — copied text without `%` reads like the original.
* `plain_of_readsBack` — copied text that reads as itself has no `%`.
* `nothingLeft_iff_copies` — **an update applies the reference** when it copies only
  text without `%`, and over a target without `%` only then.
-/

namespace Dfuser
namespace Ini

variable {x : OptionXform}

/-- `compare_configs(update_ini(parse t, parse r), parse r)` reports nothing to
apply. -/
def NothingLeft (t r : Config x) : Prop :=
  ∃ target reference u d, parseIniFile t = .ok target ∧ parseIniFile r = .ok reference ∧
    updateIni target reference = .ok u ∧ compareConfigs u reference = .ok d ∧
    d.sectionsAdded = ∅ ∧ (∀ s ks, d.keysAdded.get? s = some ks → ks = ∅) ∧
    d.changedValues.keys = []

/-- Every option `r` shows can be read and stored, and those of its named sections
read as text without `%`. -/
def Copies (r : Config x) : Prop :=
  r.Copyable ∧ ∀ s ∈ r.sections.keys, ∀ k ∈ r.options s, Plain (r.text s k)

/-! ### The updated configuration -/

theorem get_eq_text_of_copyable {r : Config x} (h : r.Copyable) {s k : Str} (hs : r.HasSection s)
    (hk : k ∈ r.options s) : r.get s k = .ok (r.text s k) := by
  obtain ⟨v, hv, -⟩ := h s hs k hk
  rw [Config.text, hv]

/-- In a section of `r`, an update has the texts of `r`, and below them what `t` has. -/
theorem env_updateFiles_of_hasSection {t r u : Config x} (hu : updateFiles t r = .ok u) {s : Str}
    (hs : r.HasSection s) (k : Str) :
    u.env s k = if k ∈ r.options s then some (r.text s k) else t.env s k := by
  rw [env_eq_overlaid hu, overlaid, stored, if_pos hs]
  by_cases hk : k ∈ r.options s
  · simp [hk]
  · obtain ⟨hnone, hdnone⟩ := own_eq_none_of_notMem_options hk
    simp [hk, mergedEnv, hnone, hdnone, Config.env]

theorem mem_options_updateFiles {t r u : Config x} (hu : updateFiles t r = .ok u) {s k : Str}
    (hs : r.HasSection s) (hk : k ∈ r.options s) : k ∈ u.options s :=
  (Config.mem_options u s k).mpr ⟨_, by rw [env_updateFiles_of_hasSection hu hs, if_pos hk]⟩

/-- Copied text without `%` reads like the original. -/
theorem readAlike_updateFiles {t r u : Config x} (h : Copies r) (hu : updateFiles t r = .ok u)
    {s k : Str} (hs : s ∈ r.sections.keys) (hk : k ∈ r.options s) : ReadAlike u r s k := by
  have hsec : r.HasSection s := Or.inr hs
  have henv : u.env s k = some (r.text s k) := by
    rw [env_updateFiles_of_hasSection hu hsec, if_pos hk]
  exact ⟨r.text s k, Config.get_of_interp henv (interp_of_plain (h.2 s hs k hk) 9),
    get_eq_text_of_copyable h.1 hsec hk⟩

/-- Every section of the reference is one of the update, with all its options. -/
theorem mem_common_updateFiles {t r u reference : Config x} (hrc : SameContent reference r)
    (hu : updateFiles t r = .ok u) {s : Str} (hs : s ∈ r.sections.keys) :
    s ∈ commonSections u reference ∧ ∀ k ∈ r.options s, k ∈ commonOptions u reference s := by
  obtain ⟨hne, hsec⟩ := (sections_mem_iff r).mp hs
  refine ⟨(mem_commonSections _ _ _).mpr ⟨?_, (hrc.mem_sections s).mpr hs⟩, fun k hk => ?_⟩
  · exact (sections_mem_iff u).mpr ⟨hne, ((env_updateFiles hu).1 s).mpr (Or.inl hsec)⟩
  · exact (mem_commonOptions _ _ _ _).mpr
      ⟨mem_options_updateFiles hu hsec hk, (hrc.mem_options s k).mpr hk⟩

/-- An update that reads like the reference leaves nothing to apply. -/
theorem compareConfigs_updateFiles {t r u reference : Config x} (hrc : SameContent reference r)
    (hu : updateFiles t r = .ok u)
    (h : ∀ s ∈ r.sections.keys, ∀ k ∈ r.options s, ReadAlike u r s k) :
    ∃ d, compareConfigs u reference = .ok d ∧ d.sectionsAdded = ∅ ∧
      (∀ s ks, d.keysAdded.get? s = some ks → ks = ∅) ∧ d.changedValues.keys = [] := by
  have halike : ∀ s ∈ commonSections u reference, ∀ k ∈ commonOptions u reference s,
      ReadAlike u reference s k := by
    intro s hs k hk
    rw [mem_commonSections, hrc.mem_sections] at hs
    rw [mem_commonOptions, hrc.mem_options] at hk
    exact (hrc.readAlike u s k).mpr (h s hs.2 k hk.2)
  obtain ⟨d, hd, hadded, -, hkeys, -, hchanged⟩ :=
    compareConfigs_ok fun s hs k hk => (halike s hs k hk).bothRead
  refine ⟨d, hd, ?_, fun s ks hks => ?_, hchanged.mpr halike⟩
  · rw [hadded, Finset.sdiff_eq_empty_iff_subset]
    intro s hs
    rw [List.mem_toFinset, hrc.mem_sections] at hs
    exact List.mem_toFinset.mpr
      ((mem_commonSections _ _ _).mp (mem_common_updateFiles hrc hu hs).1).1
  · obtain ⟨hs, rfl⟩ := (hkeys s ks).mp hks
    rw [mem_commonSections, hrc.mem_sections] at hs
    rw [addedOptions, Finset.sdiff_eq_empty_iff_subset]
    intro k hk
    rw [List.mem_toFinset, hrc.mem_options] at hk
    exact List.mem_toFinset.mpr (mem_options_updateFiles hu (Or.inr hs.2) hk)

/-- The comparison of an update with the reference, in terms of what both read. -/
theorem nothingLeft_iff_readAlike (t r : Config x) :
    NothingLeft t r ↔ ∃ u, updateFiles t r = .ok u ∧
      ∀ s ∈ r.sections.keys, ∀ k ∈ r.options s, ReadAlike u r s k := by
  obtain ⟨target, ht, -⟩ := parseIniFile_ok t
  obtain ⟨reference, hr, hrc⟩ := parseIniFile_ok r
  have hupd : updateFiles t r = updateIni target reference := by
    simp only [updateFiles, ht, hr, Except.bind]
  constructor
  · rintro ⟨target', reference', u, d, ht', hr', hu, hd, -, -, hchanged⟩
    rw [ht] at ht'
    rw [hr] at hr'
    cases ht'
    cases hr'
    rw [← hupd] at hu
    obtain ⟨-, halike⟩ := (changedValues_compareSections_iff hd).mp hchanged
    refine ⟨u, hu, ?_⟩
    intro s hs k hk
    obtain ⟨hsec, hopt⟩ := mem_common_updateFiles hrc hu hs
    exact (hrc.readAlike u s k).mp (halike s hsec k (hopt k hk))
  · rintro ⟨u, hu, halike⟩
    obtain ⟨d, hd, hreport⟩ := compareConfigs_updateFiles hrc hu halike
    exact ⟨target, reference, u, d, ht, hr, hupd ▸ hu, hd, hreport⟩

/-! ### Text that reads as itself -/

/-- Copied text that reads as itself, over values without `%`, has no `%`.  The
induction is on the nesting left: what the text refers to is itself copied text that
reads as itself. -/
theorem plain_of_readsBack {lower : Str → Str} {env : Str → Option Str} {copied : Str → Prop}
    (hself : ∀ k v, copied k → env k = some v →
      interp lower env maxInterpolationDepth v = .ok v)
    (hrest : ∀ k v, ¬ copied k → env k = some v → Plain v) :
    ∀ n ≤ maxInterpolationDepth, ∀ v, interp lower env n v = .ok v → Plain v := by
  intro n
  induction n with
  | zero => intro _ v hv; cases hv
  | succ n ih =>
    intro hn v hv
    rw [interp_succ] at hv
    refine plain_of_expand_eq_self (fun name w _ hw => ?_) hv
    unfold look at hw
    cases ha : env (lower name) with
    | none => rw [ha] at hw; cases hw
    | some a =>
      rw [ha] at hw
      by_cases hp : Plain a
      · simp only [nested_of_plain hp] at hw
        cases hw
        exact hp
      · simp only [nested_of_not_plain hp] at hw
        -- what is not plain was copied, and so reads as itself one level down
        by_cases hc : copied (lower name)
        · have hback := hself _ a hc ha
          rw [interp_mono_fuel (by omega) hw] at hback
          cases hback
          exact ih (by omega) _ hw
        · exact absurd (hrest _ a hc ha) hp

/-- **An update applies the reference** when it goes through and copies only text
without `%`; over a target without `%` it does so only then. -/
theorem nothingLeft_iff_copies (t r : Config x) :
    (Copies r → NothingLeft t r) ∧ (PlainConfig t → (NothingLeft t r ↔ Copies r)) := by
  have hsuff : Copies r → NothingLeft t r := by
    intro h
    obtain ⟨u, hu, -⟩ := @own_updateFiles x t r h.1
    exact (nothingLeft_iff_readAlike t r).mpr
      ⟨u, hu, fun s hs k hk => readAlike_updateFiles h hu hs hk⟩
  refine ⟨hsuff, fun ht => ⟨fun h => ?_, hsuff⟩⟩
  obtain ⟨u, hu, halike⟩ := (nothingLeft_iff_readAlike t r).mp h
  have hcopy := copyable_of_updateFiles hu
  refine ⟨hcopy, ?_⟩
  intro s hs k hk
  have hsec : r.HasSection s := Or.inr hs
  have henv := env_updateFiles_of_hasSection hu hsec
  -- the update holds the text that `r` reads, and reads it as that text
  have hself : ∀ a v, a ∈ r.options s → u.env s a = some v →
      interp x.lower (u.env s) maxInterpolationDepth v = .ok v := by
    intro a v ha hv
    obtain ⟨w, hw, hrw⟩ := halike s hs a ha
    rw [get_eq_text_of_copyable hcopy hsec ha] at hrw
    cases hrw
    have hback := Config.interp_of_get hv hw
    rw [henv, if_pos ha] at hv
    cases hv
    exact hback
  have hk' : u.env s k = some (r.text s k) := by rw [henv, if_pos hk]
  refine plain_of_readsBack hself (fun a v ha hv => ?_) maxInterpolationDepth le_rfl _
    (hself k _ hk hk')
  rw [henv, if_neg ha] at hv
  exact plain_of_env ht hv

theorem nothingLeft_iff_copies_oneOption :
    Copies (oneOption "theirs".toList) ∧
      NothingLeft (oneOption "mine".toList) (oneOption "theirs".toList) := by
  have hplain := @plainConfig_oneOption "theirs".toList (by decide)
  have hreads := readsPlain_of_plainConfig hplain
  have hcopies : Copies (oneOption "theirs".toList) :=
    ⟨copyable_of_readsPlain hreads, fun s hs k hk => (get_eq_text hreads (Or.inr hs) hk).2⟩
  exact ⟨hcopies, (nothingLeft_iff_copies _ _).1 hcopies⟩

/-- `k = a%%%%b` reads as `a%%b`, and its copy as `a%b`. -/
theorem not_nothingLeft_percent :
    ¬ NothingLeft (oneOption "mine".toList) (oneOption "a%%%%b".toList) := by
  intro h
  obtain ⟨u, hu, halike⟩ := (nothingLeft_iff_readAlike _ _).mp h
  obtain ⟨v, huv, hrv⟩ := halike "s".toList (by decide) "k".toList (by decide)
  have hupd : (updateFiles (oneOption "mine".toList) (oneOption "a%%%%b".toList)).map
      (·.get "s".toList "k".toList) = .ok (.ok "a%b".toList) := by decide
  have href : (oneOption "a%%%%b".toList).get "s".toList "k".toList = .ok "a%%b".toList := by decide
  rw [hu] at hupd
  have hu' : u.get "s".toList "k".toList = .ok "a%b".toList := Except.ok.inj hupd
  rw [hu'] at huv
  rw [href] at hrv
  cases huv
  cases hrv

/-! ### Updating again -/

/-- **Updating again changes nothing.**  A second update with the same reference goes
through and leaves the configuration as the first one left it, and what is not an
option the section of that name shows in the reference has kept its raw value. -/
theorem updateIni_again {target reference u : Config x} (h : updateIni target reference = .ok u) :
    updateIni u reference = .ok u ∧
      ∀ s k, ¬ (reference.HasSection s ∧ k ∈ reference.options s) → u.own s k = target.own s k := by
  have hcopy := Config.copyable_of_readDict h
  obtain ⟨u', hu', hsec, hown⟩ := Config.readDict_ok hcopy target
  rw [updateIni, hu'] at h
  cases h
  constructor
  · refine Config.readDict_of_own hcopy (fun s hs => (hsec s).mpr (Or.inl hs)) fun s hs k hk => ?_
    rw [hown, if_pos ⟨hs, hk⟩]
  · intro s k hno
    rw [hown, if_neg hno]

/-- A reference that reads otherwise than it is written is copied once only. -/
theorem updateIni_again_percent :
    ∃ u, updateIni (oneOption "mine".toList) (oneOption "a%%%%b".toList) = .ok u ∧
      updateIni u (oneOption "a%%%%b".toList) = .ok u := by
  have hread : (updateIni (oneOption "mine".toList) (oneOption "a%%%%b".toList)).map
      (·.own "s".toList "k".toList) = .ok (some "a%%b".toList) := by decide
  cases hu : updateIni (oneOption "mine".toList) (oneOption "a%%%%b".toList) with
  | error e => rw [hu] at hread; cases hread
  | ok u => exact ⟨u, rfl, (updateIni_again hu).1⟩

end Ini
end Dfuser
