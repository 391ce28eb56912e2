import Dfuser.Ini.Manager

/-!
# Updating against joining

`update t r` and `join t r` are two ways to lay the options of `r` over those of
`t`.  `join` works on raw values; `update` copies what `r` *reads* its options as,
so that it also stores what a section of `r` merely inherits, resolves references
inside `r`, and has its results interpolated a second time when they are read.

## Main definitions

* `mergedEnv`, `mergedGet` — the merge both commands are for: the value of `r`'s
  section, else that of `t`'s section, else the default of `r`, else that of `t`.
* `UpdateIsJoin` — both commands succeed and read as the merge.
* `UpdateAgrees` — when they do.

## Main results

* `env_updateFiles` — what an update stores is laid over the merge.
* `updateIsJoin_of_agrees` — **update and join agree** when nothing of `r` is
  changed by being read early.
-/

namespace Dfuser
namespace Ini

variable {x : OptionXform}

/-! ### The merge -/

/-- `update t r`, on the contents of the two files. -/
def updateFiles (t r : Config x) : Except ConfigError (Config x) :=
  (parseIniFile t).bind fun target =>
    (parseIniFile r).bind fun reference => updateIni target reference

theorem openFile_ok {files : Str → Option (Config x)} {path : Str} {c : Config x}
    (h : files path = some c) (message : Str) : openFile files message path = .ok c := by
  rw [openFile, h]

/-- `update` writes the configuration `updateFiles` computes. -/
theorem updateCommand_eq {files : Str → Option (Config x)} {target reference : Str} {t r : Config x}
    (ht : files target = some t) (hr : files reference = some r) (output : Option Str) :
    (updateCommand files target reference output).map Prod.snd = liftConfig (updateFiles t r) := by
  obtain ⟨c, hc, -⟩ := parseIniFile_ok t
  obtain ⟨d, hd, -⟩ := parseIniFile_ok r
  simp only [updateCommand, openFile_ok ht, openFile_ok hr, updateFiles, hc, hd, liftConfig,
    Except.bind, bind]
  cases updateIni c d with
  | error e => rfl
  | ok u =>
    rcases output with _ | _ | ⟨a, path⟩
    · rfl
    · rfl
    · rfl

/-- `join`, given an output, writes the configuration `joinIniFiles` computes. -/
theorem joinCommand_eq {files : Str → Option (Config x)} {target reference : Str} {t r : Config x}
    (ht : files target = some t) (hr : files reference = some r) {output : Str} (ho : output ≠ []) :
    (joinCommand files [target, reference] (some output)).map Prod.snd =
      liftConfig (joinIniFiles [t, r]) := by
  cases output with
  | nil => exact absurd rfl ho
  | cons a path =>
    simp only [joinCommand, List.mapM_cons, List.mapM_nil, openFile_ok ht, openFile_ok hr,
      Except.bind, bind, pure, Except.pure]
    cases joinIniFiles [t, r] with
    | error e => rfl
    | ok j => rfl

/-- The raw value the merge of `t` and `r` has for option `k` in section `s`. -/
def mergedEnv (t r : Config x) (s k : Str) : Option Str :=
  (r.own s k).or ((t.own s k).or ((r.own defaultSection k).or (t.own defaultSection k)))

/-- What the merge of `t` and `r` reads option `k` of section `s` as. -/
def mergedGet (t r : Config x) (s k : Str) : Except ConfigError Str :=
  Config.readOption x (mergedEnv t r s) k

/-- Both commands succeed, with the same sections, the same options in each and the
values of the merge. -/
def UpdateIsJoin (t r : Config x) : Prop :=
  ∃ u j, updateFiles t r = .ok u ∧ joinIniFiles [t, r] = .ok j ∧
    (∀ s, u.HasSection s ↔ j.HasSection s) ∧
    ∀ s, j.HasSection s → (∀ k, k ∈ u.options s ↔ k ∈ j.options s) ∧
      ∀ k, u.get s k = mergedGet t r s k ∧ j.get s k = mergedGet t r s k

/-- What an update stores for option `k` of section `s`: what the section of `r`
reads it as, and in a section that `r` does not have, what the default section of
`r` reads it as. -/
def stored (t r : Config x) (s k : Str) : Option Str :=
  if r.HasSection s then
    if k ∈ r.options s then some (r.text s k) else none
  else if t.own s k = none ∧ k ∈ r.options defaultSection then some (r.text defaultSection k)
  else none

/-- The merge, with the empty text for everything that comes from `r`. -/
def blanked (t r : Config x) (s k : Str) : Option Str :=
  if stored t r s k = none then mergedEnv t r s k else some []

/-- Everything `r` shows reads as text without `%`. -/
def ReadsPlain (r : Config x) : Prop :=
  ∀ s, r.HasSection s → ∀ k ∈ r.options s, ∃ v, r.get s k = .ok v ∧ Plain v

/-- When updating agrees with joining. -/
structure UpdateAgrees (t r : Config x) : Prop where
  /-- Every option `r` shows can be read in `r`, as text without `%`. -/
  reads : ReadsPlain r
  /-- Where a section of `t` itself defines an option that the section of `r` only
  inherits, it defines the same raw value, or the text `r` reads. -/
  inherited : ∀ s k v, r.HasSection s → k ∈ r.options s → r.own s k = none →
    t.own s k = some v → r.own defaultSection k = some v ∨ v = r.text s k
  /-- In a section that only `t` has, the defaults of `r` that it inherits do not
  refer to an option that it defines as another text. -/
  late : ∀ s k raw name v, ¬ r.HasSection s → r.own defaultSection k = some raw →
    t.own s k = none → .ref name ∈ tokens raw → t.own s (x.lower name) = some v →
    v = r.text defaultSection (x.lower name)
  /-- Where an option of the merge nests references beyond the limit, it is one of
  `t`, and what comes from `r` has no part in it. -/
  nesting : ∀ s k raw, mergedEnv t r s k = some raw →
    interp x.lower (mergedEnv t r s) maxInterpolationDepth raw = .error .depth →
    stored t r s k = none ∧
      interp x.lower (blanked t r s) maxInterpolationDepth raw = .error .depth

theorem options_default_subset (r : Config x) (s : Str) {k : Str}
    (h : k ∈ r.options defaultSection) : k ∈ r.options s := by
  rw [Config.mem_options, Config.env_defaultSection] at h
  obtain ⟨v, hv⟩ := h
  rw [Config.mem_options, Config.env, hv]
  cases r.own s k <;> simp

theorem own_eq_none_of_notMem_options {r : Config x} {s k : Str} (h : k ∉ r.options s) :
    r.own s k = none ∧ r.own defaultSection k = none := by
  rw [Config.mem_options, Config.env] at h
  cases hs : r.own s k with
  | some v => exact absurd ⟨v, by rw [hs]; rfl⟩ h
  | none =>
    cases hd : r.own defaultSection k with
    | some v => exact absurd ⟨v, by rw [hs, hd]; rfl⟩ h
    | none => exact ⟨rfl, rfl⟩

/-- The sections and options of an update, for files that can be copied. -/
theorem own_updateFiles {t r : Config x} (h : r.Copyable) :
    ∃ u, updateFiles t r = .ok u ∧ (∀ s, u.HasSection s ↔ r.HasSection s ∨ t.HasSection s) ∧
      ∀ s k, u.own s k =
        if r.HasSection s ∧ k ∈ r.options s then some (r.text s k) else t.own s k := by
  obtain ⟨target, ht, htc⟩ := parseIniFile_ok t
  obtain ⟨reference, hr, hrc⟩ := parseIniFile_ok r
  obtain ⟨u, hu, hsec, hown⟩ := Config.readDict_ok (hrc.copyable.mpr h) target
  refine ⟨u, ?_, ?_, ?_⟩
  · simp only [updateFiles, ht, hr, Except.bind, updateIni, hu]
  · intro s
    rw [hsec, hrc.hasSection, htc.hasSection]
  · intro s k
    rw [hown, htc.own, hrc.text]
    exact if_congr (and_congr (hrc.hasSection s) (hrc.mem_options s k)) rfl rfl

theorem copyable_of_updateFiles {t r u : Config x} (h : updateFiles t r = .ok u) : r.Copyable := by
  obtain ⟨target, ht, -⟩ := parseIniFile_ok t
  obtain ⟨reference, hr, hrc⟩ := parseIniFile_ok r
  simp only [updateFiles, ht, hr, Except.bind] at h
  exact hrc.copyable.mp (Config.copyable_of_readDict h)

/-- **What an update stores is laid over the merge.** -/
theorem env_updateFiles {t r u : Config x} (h : updateFiles t r = .ok u) :
    (∀ s, u.HasSection s ↔ r.HasSection s ∨ t.HasSection s) ∧
      ∀ s k, u.env s k = (stored t r s k).or (mergedEnv t r s k) := by
  obtain ⟨u', hu', hsec, hown⟩ := @own_updateFiles x t r (copyable_of_updateFiles h)
  rw [h] at hu'
  cases hu'
  refine ⟨hsec, ?_⟩
  intro s k
  have hdef : r.HasSection defaultSection := Or.inl rfl
  rw [Config.env, hown, hown, stored, mergedEnv]
  simp only [hdef, true_and]
  by_cases hs : r.HasSection s
  · by_cases hk : k ∈ r.options s
    · simp [hs, hk]
    · obtain ⟨hnone, hdnone⟩ := own_eq_none_of_notMem_options hk
      have hd : k ∉ r.options defaultSection := fun hd => hk (options_default_subset r s hd)
      simp [hs, hk, hd, hnone, hdnone]
  · have hnone := Config.own_of_not_hasSection hs k
    by_cases hd : k ∈ r.options defaultSection
    · cases ht : t.own s k with
      | some v => simp [hs, hnone]
      | none => simp [hs, hd, hnone]
    · obtain ⟨-, hdnone⟩ := own_eq_none_of_notMem_options hd
      simp [hs, hd, hnone, hdnone]

/-- The values of a join are those of the merge. -/
theorem env_joinIniFiles {t r j : Config x} (h : joinIniFiles [t, r] = .ok j) :
    (∀ s, j.HasSection s ↔ r.HasSection s ∨ t.HasSection s) ∧
      ∀ s, j.env s = mergedEnv t r s := by
  obtain ⟨j', hj', hsec, hown⟩ := joinIniFiles_pair t r
  rw [h] at hj'
  cases hj'
  refine ⟨hsec, ?_⟩
  intro s
  funext k
  rw [Config.env, hown, hown, mergedEnv, Option.or_assoc]

/-! ### Reading early -/

/-- What a section of `r` reads its options as. -/
def texts (r : Config x) (s k : Str) : Option Str :=
  if k ∈ r.options s then some (r.text s k) else none

theorem texts_eq_some {r : Config x} {s k w : Str} (h : texts r s k = some w) :
    k ∈ r.options s ∧ w = r.text s k := by
  unfold texts at h
  split at h
  · next hk => exact ⟨hk, (Option.some.inj h).symm⟩
  · cases h

theorem get_eq_text {r : Config x} (hread : ReadsPlain r) {s k : Str} (hs : r.HasSection s)
    (hk : k ∈ r.options s) : r.get s k = .ok (r.text s k) ∧ Plain (r.text s k) := by
  obtain ⟨v, hv, hp⟩ := hread s hs k hk
  have htext : r.text s k = v := by rw [Config.text, hv]
  rw [htext]
  exact ⟨hv, hp⟩

theorem texts_plain {r : Config x} (hread : ReadsPlain r) {s : Str} (hs : r.HasSection s) :
    ∀ k w, texts r s k = some w → Plain w := by
  intro k w h
  obtain ⟨hk, rfl⟩ := texts_eq_some h
  exact (get_eq_text hread hs hk).2

theorem copyable_of_readsPlain {r : Config x} (h : ReadsPlain r) : r.Copyable := by
  intro s hs k hk
  obtain ⟨v, hv, hp⟩ := h s hs k hk
  exact ⟨v, hv, Config.setCheck_of_plain hp⟩

/-- A raw value of `r` expands, over the texts of its section, to the text it reads
as, and does so without nesting. -/
theorem interp_texts {r : Config x} (hread : ReadsPlain r) {s k raw : Str} (hs : r.HasSection s)
    (hk : r.env s k = some raw) (m : ℕ) :
    interp x.lower (texts r s) (m + 1) raw = .ok (r.text s k) := by
  have hplain := texts_plain hread hs
  have hmem : k ∈ r.options s := (Config.mem_options r s k).mpr ⟨raw, hk⟩
  have hraw := Config.interp_of_get hk (get_eq_text hread hs hmem).1
  -- laying the texts over the section changes nothing it can read
  have hover := @interp_overlay x.lower (r.env s) (texts r s) hplain maxInterpolationDepth
    (by
      intro n hn a w ha
      obtain ⟨hao, rfl⟩ := texts_eq_some ha
      obtain ⟨v, hv⟩ := (Config.mem_options r s a).mp hao
      refine ⟨v, hv, ?_⟩
      have hget := Config.interp_of_get hv (get_eq_text hread hs hao).1
      by_cases hp : Plain v
      · rw [nested_of_plain hp]
        rw [maxInterpolationDepth, interp_of_plain hp] at hget
        exact Or.inr hget
      · rw [nested_of_not_plain hp, ← hget]
        exact interp_fuel (Nat.le_of_lt hn) v) raw
  rw [hraw] at hover
  have hsame : (fun a => (texts r s a).or (r.env s a)) = texts r s := by
    funext a
    unfold texts
    split
    · rfl
    · next ha =>
      cases hv : r.env s a with
      | none => rfl
      | some v => exact absurd ((Config.mem_options r s a).mpr ⟨v, hv⟩) ha
  rw [hsame] at hover
  rcases hover with h | h
  · cases h
  · rw [interp_succ_of_plain_env hplain m 9]
    exact h.symm

theorem stored_of_hasSection {t r : Config x} {s : Str} (hs : r.HasSection s) :
    stored t r s = texts r s := by
  funext k
  rw [stored, if_pos hs, texts]

theorem stored_of_not_hasSection {t r : Config x} {s k w : Str} (hs : ¬ r.HasSection s)
    (h : stored t r s k = some w) :
    t.own s k = none ∧ k ∈ r.options defaultSection ∧ w = r.text defaultSection k := by
  rw [stored, if_neg hs] at h
  split at h
  · next hk => exact ⟨hk.1, hk.2, (Option.some.inj h).symm⟩
  · cases h

theorem stored_plain {t r : Config x} (hread : ReadsPlain r) (s : Str) :
    ∀ k w, stored t r s k = some w → Plain w := by
  intro k w h
  by_cases hs : r.HasSection s
  · rw [stored_of_hasSection hs] at h
    exact texts_plain hread hs k w h
  · obtain ⟨-, hk, rfl⟩ := stored_of_not_hasSection hs h
    exact (get_eq_text hread (Or.inl rfl) hk).2

/-- The section of an update: what it stores, over the merge. -/
def overlaid (t r : Config x) (s k : Str) : Option Str := (stored t r s k).or (mergedEnv t r s k)

/-- In a section of `r`, the merge has the raw value of `r`, or already the text it
reads as. -/
theorem interp_overlaid_of_hasSection {t r : Config x} (h : UpdateAgrees t r) {s k : Str}
    (hs : r.HasSection s) (hk : k ∈ r.options s) :
    ∃ v, mergedEnv t r s k = some v ∧
      ∀ m, interp x.lower (overlaid t r s) (m + 1) v = .ok (r.text s k) := by
  obtain ⟨raw, hraw⟩ := (Config.mem_options r s k).mp hk
  have hr : ∀ {v}, r.env s k = some v →
      ∀ m, interp x.lower (overlaid t r s) (m + 1) v = .ok (r.text s k) := by
    intro v hv m
    -- the texts of the section are part of the overlay, so what they give it gives too
    refine interp_mono_env (fun a b hab => ?_) (interp_texts h.reads hs hv m)
    rw [overlaid, stored_of_hasSection hs, hab]
    rfl
  cases hrs : r.own s k with
  | some v => exact ⟨v, by simp [mergedEnv, hrs], hr (by simp [Config.env, hrs])⟩
  | none =>
    have hd : r.own defaultSection k = some raw := by simpa [Config.env, hrs] using hraw
    -- `t` may define what the section of `r` inherits, but only as the same value
    cases ht : t.own s k with
    | none => exact ⟨raw, by simp [mergedEnv, hrs, ht, hd], hr hraw⟩
    | some v =>
      refine ⟨v, by simp [mergedEnv, hrs, ht], ?_⟩
      rcases h.inherited s k v hs hk hrs ht with hv | rfl
      · exact hr (by simp [Config.env, hrs, hv])
      · exact interp_of_plain (get_eq_text h.reads hs hk).2

/-- In a section only `t` has, a default of `r` that it inherits expands to the text
`r` reads it as: what it refers to is another such default, or an option of `t` with
the text of the default. -/
theorem interp_overlaid_of_not_hasSection {t r : Config x} (h : UpdateAgrees t r) {s k raw : Str}
    (hs : ¬ r.HasSection s) (ht : t.own s k = none) (hraw : r.own defaultSection k = some raw)
    (m : ℕ) : interp x.lower (overlaid t r s) (m + 1) raw = .ok (r.text defaultSection k) := by
  have hdef : r.HasSection defaultSection := Or.inl rfl
  have htexts := interp_texts h.reads hdef (by simpa using hraw) m
  rw [interp_succ] at htexts ⊢
  refine expand_mono (fun name v hmem hv => ?_) htexts
  unfold look at hv ⊢
  cases hy : texts r defaultSection (x.lower name) with
  | none => rw [hy] at hv; cases hv
  | some b =>
    rw [hy] at hv
    obtain ⟨hyo, rfl⟩ := texts_eq_some hy
    have hplain := (get_eq_text h.reads hdef hyo).2
    simp only [nested_of_plain hplain] at hv
    cases hv
    -- what it refers to is stored for `r`, or defined by `t` as the same text
    have hover : overlaid t r s (x.lower name) = some (r.text defaultSection (x.lower name)) := by
      cases hty : t.own s (x.lower name) with
      | none => rw [overlaid, stored, if_neg hs, if_pos ⟨hty, hyo⟩]; rfl
      | some b =>
        have hb := h.late s k raw name b hs hraw ht hmem hty
        rw [overlaid, stored, if_neg hs, if_neg (by simp [hty]), mergedEnv,
          Config.own_of_not_hasSection hs, hty, hb]
        rfl
    simp only [hover, nested_of_plain hplain]

/-- The merge holds, for everything an update stores, a raw value that expands to
the stored text. -/
theorem exists_mergedEnv_of_stored {t r : Config x} (h : UpdateAgrees t r) {s k w : Str}
    (hw : stored t r s k = some w) :
    ∃ v, mergedEnv t r s k = some v ∧ ∀ m, interp x.lower (overlaid t r s) (m + 1) v = .ok w := by
  by_cases hs : r.HasSection s
  · rw [stored_of_hasSection hs] at hw
    obtain ⟨hk, rfl⟩ := texts_eq_some hw
    exact interp_overlaid_of_hasSection h hs hk
  · obtain ⟨ht, hk, rfl⟩ := stored_of_not_hasSection hs hw
    obtain ⟨raw, hraw⟩ := (Config.mem_options r defaultSection k).mp hk
    have hd : r.own defaultSection k = some raw := by simpa using hraw
    refine ⟨raw, ?_, interp_overlaid_of_not_hasSection h hs ht hd⟩
    simp [mergedEnv, Config.own_of_not_hasSection hs, ht, hd]

/-- **Early and late.**  Whatever an update stores is what the merge reads there, as
far as the nesting limit lets it.  The induction is on the nesting left: the
references of a value are covered by the statement one level down. -/
theorem nested_mergedEnv {t r : Config x} (h : UpdateAgrees t r) (s : Str) (m : ℕ) :
    ∀ k w, stored t r s k = some w → ∃ v, mergedEnv t r s k = some v ∧
      (nested x.lower (mergedEnv t r s) m v = .error .depth ∨
        nested x.lower (mergedEnv t r s) m v = .ok w) := by
  induction m using Nat.strong_induction_on with
  | _ m ih =>
    intro k w hw
    obtain ⟨v, hv, hread⟩ := exists_mergedEnv_of_stored h hw
    refine ⟨v, hv, ?_⟩
    by_cases hp : Plain v
    · right
      rw [nested_of_plain hp, ← interp_of_plain hp 0]
      exact hread 0
    · rw [nested_of_not_plain hp]
      cases m with
      | zero => exact Or.inl rfl
      | succ m =>
        rcases @interp_overlay x.lower (mergedEnv t r s) (stored t r s) (stored_plain h.reads s)
          (m + 1)
          ih v with hd | he
        · exact Or.inl hd
        · exact Or.inr (he.trans (hread m))

/-! ### Updating agrees with joining -/

theorem get_eq_mergedGet_of_env {t r c : Config x} {s : Str} (h : c.env s = mergedEnv t r s)
    (k : Str) : c.get s k = mergedGet t r s k := by
  rw [Config.get, mergedGet, h]

/-- Blanking what comes from `r` does not change which values fail to be read. -/
theorem interp_blanked_error_iff {t r : Config x} (hread : ReadsPlain r) {s raw : Str} {n : ℕ}
    {e : InterpError} :
    interp x.lower (blanked t r s) n raw = .error e ↔
      interp x.lower (overlaid t r s) n raw = .error e := by
  refine interp_error_iff (fun k => ?_) n raw e
  unfold blanked overlaid
  cases hst : stored t r s k with
  | none => exact Or.inl (by simp)
  | some w => exact Or.inr ⟨[], w, by simp, rfl, by simp [Plain], stored_plain hread s k w hst⟩

/-- The section of an update reads as the merge. -/
theorem interp_overlaid {t r : Config x} (h : UpdateAgrees t r) {s k : Str} :
    (∀ raw, overlaid t r s k = some raw →
      ∃ v, mergedEnv t r s k = some v ∧
        interp x.lower (overlaid t r s) maxInterpolationDepth raw =
          interp x.lower (mergedEnv t r s) maxInterpolationDepth v) ∧
    (overlaid t r s k = none → mergedEnv t r s k = none) := by
  constructor
  · intro raw hraw
    cases hst : stored t r s k with
    | some w =>
      have hw : w = raw := by simpa [overlaid, hst] using hraw
      subst hw
      obtain ⟨v, hv, hread⟩ := nested_mergedEnv h s maxInterpolationDepth k w hst
      refine ⟨v, hv, ?_⟩
      rw [maxInterpolationDepth, interp_of_plain (stored_plain h.reads s k w hst)]
      by_cases hp : Plain v
      · rw [nested_of_plain hp] at hread
        rw [interp_of_plain hp]
        -- only the nesting limit can make a difference, and `nesting` excludes that
        rcases hread with hd | he
        · cases hd
        · exact he.symm
      · rw [nested_of_not_plain hp] at hread
        rcases hread with hd | he
        · rw [(h.nesting s k v hv hd).1] at hst
          cases hst
        · exact he.symm
    | none =>
      have hv : mergedEnv t r s k = some raw := by simpa [overlaid, hst] using hraw
      refine ⟨raw, hv, ?_⟩
      rcases @interp_overlay x.lower (mergedEnv t r s) (stored t r s) (stored_plain h.reads s)
        maxInterpolationDepth (fun m _ => nested_mergedEnv h s m) raw with hd | he
      · rw [hd, ← interp_blanked_error_iff h.reads]
        exact (h.nesting s k raw hv hd).2
      · exact he.symm
  · intro hnone
    rw [overlaid, Option.or_eq_none_iff] at hnone
    exact hnone.2

theorem env_eq_overlaid {t r u : Config x} (h : updateFiles t r = .ok u) (s : Str) :
    u.env s = overlaid t r s := funext ((env_updateFiles h).2 s)

theorem get_updateFiles {t r u : Config x} (h : UpdateAgrees t r) (hu : updateFiles t r = .ok u)
    (s k : Str) : u.get s k = mergedGet t r s k := by
  rw [Config.get, mergedGet, env_eq_overlaid hu, Config.readOption, Config.readOption]
  obtain ⟨hsome, hnone⟩ := @interp_overlaid x t r h s (x.lower k)
  cases hk : overlaid t r s (x.lower k) with
  | none => simp only [hnone hk]
  | some raw =>
    obtain ⟨v, hv, hread⟩ := hsome raw hk
    simp only [hv, hread]

/-- Every raw value is free of `%`. -/
def PlainConfig (c : Config x) : Prop := ∀ s k v, c.own s k = some v → Plain v

theorem plain_of_env {c : Config x} (h : PlainConfig c) {s k v : Str} (hv : c.env s k = some v) :
    Plain v := by
  rw [Config.env, Option.or_eq_some_iff] at hv
  rcases hv with hv | ⟨-, hv⟩
  · exact h s k v hv
  · exact h _ k v hv

theorem plain_of_mergedEnv {t r : Config x} (ht : PlainConfig t) (hr : PlainConfig r) {s k v : Str}
    (hv : mergedEnv t r s k = some v) : Plain v := by
  simp only [mergedEnv, Option.or_eq_some_iff] at hv
  rcases hv with hv | ⟨-, hv | ⟨-, hv | ⟨-, hv⟩⟩⟩
  · exact hr s k v hv
  · exact ht s k v hv
  · exact hr _ k v hv
  · exact ht _ k v hv

theorem readsPlain_of_plainConfig {r : Config x} (h : PlainConfig r) : ReadsPlain r := by
  intro s _ k hk
  obtain ⟨raw, hraw⟩ := (Config.mem_options r s k).mp hk
  have hp := plain_of_env h hraw
  exact ⟨raw, Config.get_of_interp hraw (interp_of_plain hp 9), hp⟩

/-- On files without `%`, only what sections of `r` inherit matters. -/
theorem updateAgrees_of_plainConfig {t r : Config x} (ht : PlainConfig t) (hr : PlainConfig r)
    (h : ∀ s k v, r.HasSection s → k ∈ r.options s → r.own s k = none → t.own s k = some v →
      r.own defaultSection k = some v ∨ v = r.text s k) : UpdateAgrees t r := by
  refine ⟨readsPlain_of_plainConfig hr, h, ?_, ?_⟩
  · intro s k raw name v _ hraw _ hmem _
    rw [tokens_of_plain (hr _ k raw hraw)] at hmem
    simp at hmem
  · intro s k raw hraw hdepth
    rw [maxInterpolationDepth, interp_of_plain (plain_of_mergedEnv ht hr hraw)] at hdepth
    cases hdepth

theorem updateIsJoin_of_updateAgrees {t r : Config x} (h : UpdateAgrees t r) :
    UpdateIsJoin t r := by
  obtain ⟨u, hu, husec, -⟩ := @own_updateFiles x t r (copyable_of_readsPlain h.reads)
  obtain ⟨j, hj, hjsec, -⟩ := joinIniFiles_pair t r
  have henv := (env_joinIniFiles hj).2
  refine ⟨u, j, hu, hj, fun s => (husec s).trans (hjsec s).symm, fun s _ => ⟨fun k => ?_, fun k =>
    ⟨get_updateFiles h hu s k, get_eq_mergedGet_of_env (henv s) k⟩⟩⟩
  rw [Config.mem_options, Config.mem_options, env_eq_overlaid hu, henv]
  obtain ⟨hsome, hnone⟩ := @interp_overlaid x t r h s k
  constructor
  · rintro ⟨raw, hraw⟩
    obtain ⟨v, hv, -⟩ := hsome raw hraw
    exact ⟨v, hv⟩
  · rintro ⟨v, hv⟩
    cases ho : overlaid t r s k with
    | some raw => exact ⟨raw, rfl⟩
    | none => rw [hnone ho] at hv; cases hv

/-- On files without `%`, agreement means that no option of `t` is overwritten by one
`r` only inherits. -/
theorem eq_text_of_updateIsJoin {t r : Config x} (ht : PlainConfig t) (hr : PlainConfig r)
    (h : UpdateIsJoin t r) {s k v : Str} (hs : r.HasSection s) (hk : k ∈ r.options s)
    (hrs : r.own s k = none) (hts : t.own s k = some v) : v = r.text s k := by
  obtain ⟨u, j, hu, hj, -, hsame⟩ := h
  have hjs : j.HasSection s := ((env_joinIniFiles hj).1 s).mpr (Or.inl hs)
  have hget := ((hsame s hjs).2 k).1
  have hu' : u.env s k = some (r.text s k) := by
    rw [env_eq_overlaid hu, overlaid, stored, if_pos hs, if_pos hk]
    rfl
  have hm : mergedEnv t r s k = some v := by simp [mergedEnv, hrs, hts]
  have hplain := (get_eq_text (readsPlain_of_plainConfig hr) hs hk).2
  rw [Config.get_of_interp hu' (interp_of_plain hplain 9), mergedGet, Config.readOption,
    Config.lower_of_own hts, hm] at hget
  simp only [maxInterpolationDepth, interp_of_plain (ht s k v hts)] at hget
  exact (Except.ok.inj hget).symm

/-- **Update and join agree** when `r` reads as plain text, nothing it merely
inherits is defined otherwise by `t`, its defaults do not meet other definitions
late, and it adds nothing to references that nest too deep; on files without `%`
they agree only then. -/
theorem updateIsJoin_of_agrees (t r : Config x) :
    (UpdateAgrees t r → UpdateIsJoin t r) ∧
    (PlainConfig t → PlainConfig r → UpdateIsJoin t r → UpdateAgrees t r) := by
  refine ⟨updateIsJoin_of_updateAgrees, ?_⟩
  intro ht hr h
  exact updateAgrees_of_plainConfig ht hr fun s k v hs hk hrs hts =>
    Or.inr (eq_text_of_updateIsJoin ht hr h hs hk hrs hts)

/-- A file with one section `[s]` that defines `k = v`. -/
def oneOption (v : Str) : Config asciiLower :=
  Config.empty.setSection "s".toList (Dict.empty.set "k".toList v) (by decide)
    fun k hk => by
      rcases (Dict.mem_keys_set _ _ _ _).mp hk with rfl | hk
      · decide
      · cases hk

/-- A file with the default `k = theirs` and an empty section `[s]`. -/
def oneDefault : Config asciiLower :=
  (Config.empty.setDefault "k".toList "theirs".toList).ensureSection "s".toList

theorem plainConfig_oneOption {v : Str} (hv : Plain v) : PlainConfig (oneOption v) := by
  intro s k w hw
  rw [oneOption, Config.own_setSection] at hw
  split at hw
  · rw [Dict.get?_set] at hw
    split at hw
    · cases hw
      exact hv
    · cases hw
  · rw [Config.own_empty] at hw
    cases hw

theorem updateIsJoin_of_agrees_oneOption :
    UpdateAgrees (oneOption "mine".toList) (oneOption "theirs".toList) ∧
      UpdateIsJoin (oneOption "mine".toList) (oneOption "theirs".toList) := by
  have hagree : UpdateAgrees (oneOption "mine".toList) (oneOption "theirs".toList) := by
    refine updateAgrees_of_plainConfig (plainConfig_oneOption (by decide))
      (plainConfig_oneOption (by decide)) fun s k v _ _ hrs hts => ?_
    simp only [oneOption, Config.own_setSection, Dict.get?_set, Config.own_empty] at hrs hts
    split at hts
    · next hs =>
      split at hts
      · next hk => simp [hs, hk] at hrs
      · cases hts
    · cases hts
  exact ⟨hagree, (updateIsJoin_of_agrees _ _).1 hagree⟩

/-- A section that only inherits `k` overwrites the `k` of the target. -/
theorem not_updateIsJoin_oneDefault : ¬ UpdateIsJoin (oneOption "mine".toList) oneDefault := by
  rintro ⟨u, j, hu, hj, -, hsame⟩
  have hsec : j.HasSection "s".toList := ((env_joinIniFiles hj).1 _).mpr (Or.inl (by decide))
  have hget := ((hsame _ hsec).2 "k".toList).1
  have hupd : (updateFiles (oneOption "mine".toList) oneDefault).map
      (·.get "s".toList "k".toList) = .ok (.ok "theirs".toList) := by decide
  have hmerge : mergedGet (oneOption "mine".toList) oneDefault "s".toList "k".toList =
      .ok "mine".toList := by decide
  rw [hu] at hupd
  have hu' : u.get "s".toList "k".toList = .ok "theirs".toList := Except.ok.inj hupd
  rw [hu', hmerge] at hget
  exact absurd hget (by decide)

end Ini
end Dfuser
