import Dfuser.Ini.Config

/-!
# The order of a configuration

A configuration is told by the names of its sections and options, in their order, and by
the values.  Reading a file over another configuration stores the sections and options of
the file one after the other: the new ones come behind those that are there, and the values
of the file win.

## Main definitions

* `Config.put` — storing in a section that is there.
* `Config.putSections` — storing for each option of each section in a list.
* `Config.overlay` — a file read over a configuration.

## Main results

* `eq_of_own` — what tells a configuration.
* `read_eq_overlay` — **reading a file always succeeds, with the file over what is there.**
* `overlay_put`, `overlay_ensureSection`, `overlay_overlay` — how reading composes.
-/

namespace Dfuser
namespace Ini
namespace Config

open Dict (appendKeys appendKeys_nil appendKeys_cons)

variable {x : OptionXform} {c d f : Config x} {s k v : Str}

/-! ### What tells a configuration -/

/-- Configurations with the same names, in the same order, and the same values are one. -/
theorem eq_of_own (hsec : c.sections.keys = d.sections.keys)
    (hkeys : ∀ s, c.ownKeys s = d.ownKeys s) (hown : ∀ s k, c.own s k = d.own s k) : c = d := by
  have hdefaults : c.defaults = d.defaults := Dict.eq_of_keys (hkeys defaultSection)
    (hown defaultSection)
  have hsections : c.sections = d.sections := by
    refine Dict.eq_of_keys hsec fun s => ?_
    cases hc : c.sections.get? s with
    | none =>
      have hno : s ∉ d.sections.keys := hsec ▸ (Dict.get?_eq_none_iff _ _).mp hc
      exact ((Dict.get?_eq_none_iff _ _).mpr hno).symm
    | some o =>
      have hs : s ∈ c.sections.keys := (Dict.mem_keys_iff _ _).mpr ⟨o, hc⟩
      have hne : s ≠ defaultSection := (c.names s hs).1
      obtain ⟨o', hd⟩ := (Dict.mem_keys_iff _ _).mp (hsec ▸ hs)
      have hnames : o.keys = o'.keys := by
        have h := hkeys s
        rw [ownKeys, ownKeys, if_neg hne, if_neg hne, hc, hd] at h
        exact h
      have hvalues : ∀ k, o.get? k = o'.get? k := by
        intro k
        have h := hown s k
        rw [own, own, if_neg hne, if_neg hne, hc, hd] at h
        exact h
      rw [hd, Dict.eq_of_keys hnames hvalues]
  cases c
  cases d
  cases hdefaults
  cases hsections
  rfl

theorem own_eq_none_iff : c.own s k = none ↔ k ∉ c.ownKeys s := by
  rw [mem_ownKeys]
  cases c.own s k <;> simp

theorem hasSection_of_own (h : c.own s k = some v) : c.HasSection s := by
  by_contra hno
  rw [own_of_not_hasSection hno] at h
  cases h

theorem ownKeys_of_not_hasSection (h : ¬ c.HasSection s) : c.ownKeys s = [] := by
  rw [List.eq_nil_iff_forall_not_mem]
  intro k
  rw [← own_eq_none_iff]
  exact own_of_not_hasSection h k

theorem nodup_ownKeys (c : Config x) (s : Str) : (c.ownKeys s).Nodup := by
  unfold ownKeys
  split
  · exact c.defaults.nodup
  · cases c.sections.get? s with
    | none => exact List.nodup_nil
    | some o => exact o.nodup

/-! ### Storing in a section that is there -/

/-- `c[s][k] = v`, on the values as they are stored. -/
def put (c : Config x) (s k v : Str) : Config x := (c.setRaw s k v).toOption.getD c

/-- What storing does to the names. -/
theorem keys_setRaw (hne : s ≠ []) {c' : Config x} (h : c.setRaw s k v = .ok c') :
    c'.sections.keys = c.sections.keys ∧
      ∀ a, c'.ownKeys a = if a = s then appendKeys (c.ownKeys s) [x.lower k] else c.ownKeys a := by
  unfold setRaw at h
  by_cases hs : s = defaultSection
  · rw [if_pos (.inl hs)] at h
    cases h
    refine ⟨rfl, fun a => ?_⟩
    subst hs
    by_cases ha : a = defaultSection
    · subst ha
      simp only [ownKeys, if_true]
      exact Dict.keys_set _ _ _
    · simp only [ownKeys, if_neg ha]
      rfl
  · rw [if_neg (not_or.mpr ⟨hs, hne⟩)] at h
    split at h
    · cases h
    · next o ho =>
      cases h
      have hmem : s ∈ c.sections.keys := (Dict.mem_keys_iff _ _).mpr ⟨o, ho⟩
      refine ⟨Dict.keys_set_of_mem hmem _, fun a => ?_⟩
      by_cases ha : a = defaultSection
      · have hane : a ≠ s := fun h => hs (h ▸ ha)
        rw [if_neg hane]
        simp only [ownKeys, if_pos ha]
        rfl
      · by_cases has : a = s
        · subst has
          simp only [ownKeys, if_neg ha, setSection, Dict.get?_set, if_true, Option.map_some,
            Option.getD_some, ho]
          exact Dict.keys_set _ _ _
        · simp only [ownKeys, if_neg ha, setSection, Dict.get?_set, if_neg has]

section

variable (hs : c.HasSection s)

include hs

theorem setRaw_eq_put (k v : Str) : c.setRaw s k v = .ok (c.put s k v) := by
  obtain ⟨c', hc', -⟩ := own_setRaw (ne_nil_of_hasSection hs) hs k v
  rw [put, hc']
  rfl

theorem own_put (k v a b : Str) :
    (c.put s k v).own a b = if a = s ∧ b = x.lower k then some v else c.own a b := by
  obtain ⟨c', hc', -, hown⟩ := own_setRaw (ne_nil_of_hasSection hs) hs k v
  rw [put, hc']
  exact hown a b

theorem keys_sections_put (k v : Str) : (c.put s k v).sections.keys = c.sections.keys :=
  (keys_setRaw (ne_nil_of_hasSection hs) (setRaw_eq_put hs k v)).1

theorem ownKeys_put (k v a : Str) :
    (c.put s k v).ownKeys a =
      if a = s then appendKeys (c.ownKeys s) [x.lower k] else c.ownKeys a :=
  (keys_setRaw (ne_nil_of_hasSection hs) (setRaw_eq_put hs k v)).2 a

theorem hasSection_put (k v a : Str) : (c.put s k v).HasSection a ↔ c.HasSection a := by
  rw [HasSection, HasSection, keys_sections_put hs]

/-- Storing over a value that has just been stored. -/
theorem put_put (k v w : Str) : (c.put s k v).put s k w = c.put s k w := by
  have hs' := (hasSection_put hs k v s).mpr hs
  refine eq_of_own ?_ (fun a => ?_) fun a b => ?_
  · rw [keys_sections_put hs', keys_sections_put hs, keys_sections_put hs]
  · simp only [ownKeys_put hs', ownKeys_put hs, if_true]
    split
    · exact Dict.appendKeys_of_subset fun b hb => Dict.mem_appendKeys.mpr (.inr hb)
    · rfl
  · simp only [own_put hs', own_put hs]
    split <;> rfl

end

theorem keys_sections_ensureSection (c : Config x) (hs : s ≠ []) :
    (c.ensureSection s).sections.keys =
      if s = defaultSection then c.sections.keys else appendKeys c.sections.keys [s] := by
  unfold ensureSection
  by_cases hd : s = defaultSection
  · rw [dif_neg fun h => h.1 hd, if_pos hd]
  · rw [if_neg hd]
    by_cases hmem : s ∈ c.sections.keys
    · rw [dif_neg fun h => h.2.2 hmem]
      exact (Dict.appendKeys_of_subset fun a ha => List.mem_singleton.mp ha ▸ hmem).symm
    · rw [dif_pos ⟨hd, hs, hmem⟩]
      exact Dict.keys_set _ _ _

theorem ownKeys_ensureSection (c : Config x) (s a : Str) :
    (c.ensureSection s).ownKeys a = c.ownKeys a := by
  unfold ensureSection
  split
  · next h =>
    unfold ownKeys
    split
    · rfl
    · simp only [setSection, Dict.get?_set]
      split
      · next has =>
        rw [has, (Dict.get?_eq_none_iff _ _).mpr h.2.2]
        rfl
      · rfl
  · rfl

theorem hasSection_ensureSection_self (c : Config x) (hs : s ≠ []) :
    (c.ensureSection s).HasSection s := (hasSection_ensureSection c hs s).mpr (.inl rfl)

/-! ### Storing for each option of each section -/

/-- Store a value for each option in a list. -/
def putOptions (val : Str → Str) (s : Str) (c : Config x) (ks : List Str) : Config x :=
  ks.foldl (fun c k => c.put s k (val k)) c

/-- Store a value for each option of each section in a list. -/
def putSections (val : Str → Str → Str) (keys : Str → List Str) (c : Config x) (ss : List Str) :
    Config x :=
  ss.foldl (fun c s => putOptions (val s) s (c.ensureSection s) (keys s)) c

theorem fillSection_eq {val : Str → Except ConfigError Str} {check : Str → Bool} {rd : Str → Str}
    {ks : List Str} (hs : c.HasSection s)
    (h : ∀ k ∈ ks, val k = .ok (rd k) ∧ check (rd k) = true) :
    fillSection val check s c ks = .ok (putOptions rd s c ks) := by
  induction ks generalizing c with
  | nil => rfl
  | cons k ks ih =>
    obtain ⟨hk, hcheck⟩ := h k List.mem_cons_self
    simp only [fillSection, hk, Except.bind, setChecked, hcheck, if_true, setRaw_eq_put hs]
    exact ih ((hasSection_put hs k _ s).mpr hs) fun a ha => h a (List.mem_cons_of_mem _ ha)

/-- A loop whose values are all there and pass the check. -/
theorem fill_eq {val : Str → Str → Except ConfigError Str} {check : Str → Bool}
    {keys : Str → List Str} {rd : Str → Str → Str} {ss : List Str} (hne : ∀ s ∈ ss, s ≠ [])
    (h : ∀ s ∈ ss, ∀ k ∈ keys s, val s k = .ok (rd s k) ∧ check (rd s k) = true) (c : Config x) :
    fill val check keys c ss = .ok (putSections rd keys c ss) := by
  induction ss generalizing c with
  | nil => rfl
  | cons s ss ih =>
    have hs := hasSection_ensureSection_self c (hne s List.mem_cons_self)
    simp only [fill, fillSection_eq hs (h s List.mem_cons_self), Except.bind]
    exact ih (fun a ha => hne a (List.mem_cons_of_mem _ ha))
      (fun a ha => h a (List.mem_cons_of_mem _ ha)) _

theorem keys_putOptions (rd : Str → Str) {ks : List Str} (hs : c.HasSection s) (hnodup : ks.Nodup)
    (hlow : ∀ k ∈ ks, x.lower k = k) :
    (putOptions rd s c ks).sections.keys = c.sections.keys ∧
      ∀ a, (putOptions rd s c ks).ownKeys a =
        if a = s then appendKeys (c.ownKeys s) ks else c.ownKeys a := by
  induction ks generalizing c with
  | nil =>
    refine ⟨rfl, fun a => ?_⟩
    rw [appendKeys_nil]
    split
    · next has => rw [has]; rfl
    · rfl
  | cons k ks ih =>
    obtain ⟨hk, hks⟩ := List.nodup_cons.mp hnodup
    obtain ⟨hsec, hkeys⟩ := ih ((hasSection_put hs k (rd k) s).mpr hs) hks
      fun a ha => hlow a (List.mem_cons_of_mem _ ha)
    refine ⟨hsec.trans (keys_sections_put hs k _), fun a => (hkeys a).trans ?_⟩
    simp only [ownKeys_put hs, if_true, hlow k List.mem_cons_self]
    split
    · exact (appendKeys_cons hk).symm
    · rfl

theorem own_putOptions (rd : Str → Str) {ks : List Str} (hs : c.HasSection s)
    (hlow : ∀ k ∈ ks, x.lower k = k) (a b : Str) :
    (putOptions rd s c ks).own a b = if a = s ∧ b ∈ ks then some (rd b) else c.own a b := by
  induction ks generalizing c with
  | nil => simp [putOptions]
  | cons k ks ih =>
    refine (ih ((hasSection_put hs k (rd k) s).mpr hs) fun a ha =>
      hlow a (List.mem_cons_of_mem _ ha)).trans ?_
    simp only [own_put hs, hlow k List.mem_cons_self, List.mem_cons]
    by_cases ha : a = s
    · by_cases hb : b = k
      · simp [ha, hb]
      · simp [ha, hb]
    · simp [ha]

/-- What the loop does to the names. -/
theorem keys_putSections (rd : Str → Str → Str) {keys : Str → List Str} {ss : List Str}
    (hne : ∀ s ∈ ss, s ≠ []) (hnodup : ss.Nodup)
    (hkeys : ∀ s ∈ ss, (keys s).Nodup ∧ ∀ k ∈ keys s, x.lower k = k) (c : Config x) :
    (putSections rd keys c ss).sections.keys =
        appendKeys c.sections.keys (ss.filter (· ≠ defaultSection)) ∧
      ∀ a, (putSections rd keys c ss).ownKeys a =
        if a ∈ ss then appendKeys (c.ownKeys a) (keys a) else c.ownKeys a := by
  induction ss generalizing c with
  | nil => exact ⟨(appendKeys_nil _).symm, fun a => rfl⟩
  | cons s ss ih =>
    have hs : s ≠ [] := hne s List.mem_cons_self
    obtain ⟨hmem, hss⟩ := List.nodup_cons.mp hnodup
    obtain ⟨hksnodup, hlow⟩ := hkeys s List.mem_cons_self
    obtain ⟨hsec₁, hkeys₁⟩ := keys_putOptions (rd s) (hasSection_ensureSection_self c hs)
      hksnodup hlow
    obtain ⟨hsec₂, hkeys₂⟩ := ih (fun a ha => hne a (List.mem_cons_of_mem _ ha)) hss
      (fun a ha => hkeys a (List.mem_cons_of_mem _ ha))
      (putOptions (rd s) s (c.ensureSection s) (keys s))
    refine ⟨hsec₂.trans ?_, fun a => (hkeys₂ a).trans ?_⟩
    · rw [hsec₁, keys_sections_ensureSection c hs]
      by_cases hd : s = defaultSection
      · rw [if_pos hd, List.filter_cons_of_neg (by simpa using hd)]
      · rw [if_neg hd, List.filter_cons_of_pos (by simpa using hd)]
        exact (appendKeys_cons fun h => hmem (List.mem_of_mem_filter h)).symm
    · simp only [hkeys₁, ownKeys_ensureSection, List.mem_cons]
      by_cases has : a = s
      · subst has
        rw [if_neg hmem, if_pos rfl, if_pos (.inl rfl)]
      · simp only [has, if_false, false_or]

/-! ### A file over a configuration -/

/-- The configuration `f` read over `c`. -/
def overlay (c f : Config x) : Config x :=
  putSections (fun s k => (f.own s k).getD []) f.ownKeys c (defaultSection :: f.sections.keys)

theorem nodup_sectionList (f : Config x) : (defaultSection :: f.sections.keys).Nodup :=
  List.nodup_cons.mpr ⟨fun h => (f.names _ h).1 rfl, f.sections.nodup⟩

theorem lower_of_mem_ownKeys (h : k ∈ f.ownKeys s) : x.lower k = k := by
  obtain ⟨v, hv⟩ := (mem_ownKeys f s k).mp h
  exact lower_of_own hv

/-- **Reading a file always succeeds**, with the file over what is there. -/
theorem read_eq_overlay (c f : Config x) : c.read f = .ok (c.overlay f) := by
  refine fill_eq (fun s hs => ne_nil_of_hasSection ((mem_sectionList f s).mp hs))
    (fun s _ k hk => ?_) c
  obtain ⟨v, hv⟩ := (mem_ownKeys f s k).mp hk
  simp only [hv, Option.getD_some, true_and]

theorem keys_overlay (c f : Config x) :
    (c.overlay f).sections.keys = appendKeys c.sections.keys f.sections.keys ∧
      ∀ s, (c.overlay f).ownKeys s = appendKeys (c.ownKeys s) (f.ownKeys s) := by
  obtain ⟨hsec, hkeys⟩ := keys_putSections (fun s k => (f.own s k).getD [])
    (fun s hs => ne_nil_of_hasSection ((mem_sectionList f s).mp hs)) (nodup_sectionList f)
    (fun s _ => ⟨nodup_ownKeys f s, fun k hk => lower_of_mem_ownKeys hk⟩) c
  refine ⟨hsec.trans ?_, fun s => (hkeys s).trans ?_⟩
  · rw [List.filter_cons_of_neg (by simp), List.filter_eq_self.mpr]
    intro s hs
    exact decide_eq_true (f.names s hs).1
  · split
    · rfl
    · next hs =>
      rw [ownKeys_of_not_hasSection fun h => hs ((mem_sectionList f s).mpr h), appendKeys_nil]

theorem own_overlay (c f : Config x) (s k : Str) :
    (c.overlay f).own s k = (f.own s k).or (c.own s k) := by
  obtain ⟨c', hc', -, hown⟩ := read_ok c f
  rw [read_eq_overlay] at hc'
  cases hc'
  exact hown s k

theorem hasSection_overlay (c f : Config x) (s : Str) :
    (c.overlay f).HasSection s ↔ c.HasSection s ∨ f.HasSection s := by
  simp only [HasSection, (keys_overlay c f).1, Dict.mem_appendKeys]
  tauto

@[simp] theorem ownKeys_empty (s : Str) : (empty : Config x).ownKeys s = [] := by
  rw [List.eq_nil_iff_forall_not_mem]
  intro k
  rw [← own_eq_none_iff, own_empty]

@[simp] theorem empty_overlay (f : Config x) : empty.overlay f = f := by
  refine eq_of_own ?_ (fun s => ?_) fun s k => ?_
  · exact (keys_overlay empty f).1.trans (Dict.nil_appendKeys _)
  · rw [(keys_overlay empty f).2, ownKeys_empty, Dict.nil_appendKeys]
  · rw [own_overlay, own_empty, Option.or_none]

@[simp] theorem overlay_empty (c : Config x) : c.overlay empty = c := by
  refine eq_of_own ?_ (fun s => ?_) fun s k => ?_
  · exact (keys_overlay c empty).1.trans (appendKeys_nil _)
  · rw [(keys_overlay c empty).2, ownKeys_empty, appendKeys_nil]
  · rw [own_overlay, own_empty, Option.none_or]

/-- Reading over what has been read. -/
theorem overlay_overlay (c d f : Config x) : c.overlay (d.overlay f) = (c.overlay d).overlay f := by
  refine eq_of_own ?_ (fun s => ?_) fun s k => ?_
  · simp only [(keys_overlay _ _).1, Dict.appendKeys_assoc]
  · simp only [(keys_overlay _ _).2, Dict.appendKeys_assoc]
  · simp only [own_overlay, Option.or_assoc]

theorem overlay_ensureSection (c f : Config x) (hs : s ≠ []) :
    c.overlay (f.ensureSection s) = (c.overlay f).ensureSection s := by
  refine eq_of_own ?_ (fun a => ?_) fun a b => ?_
  · rw [(keys_overlay _ _).1, keys_sections_ensureSection _ hs, keys_sections_ensureSection _ hs,
      (keys_overlay _ _).1]
    split
    · rfl
    · exact (Dict.appendKeys_assoc _ _ _).symm
  · simp only [(keys_overlay _ _).2, ownKeys_ensureSection]
  · simp only [own_overlay, own_ensureSection]

theorem overlay_put (c : Config x) (hs : f.HasSection s) (k v : Str) :
    c.overlay (f.put s k v) = (c.overlay f).put s k v := by
  have hover : (c.overlay f).HasSection s := (hasSection_overlay c f s).mpr (.inr hs)
  refine eq_of_own ?_ (fun a => ?_) fun a b => ?_
  · rw [(keys_overlay _ _).1, keys_sections_put hs, keys_sections_put hover, (keys_overlay _ _).1]
  · rw [(keys_overlay _ _).2, ownKeys_put hs, ownKeys_put hover, (keys_overlay _ _).2,
      (keys_overlay _ _).2]
    split
    · next has => rw [has, Dict.appendKeys_assoc]
    · rfl
  · simp only [own_overlay, own_put hs, own_put hover]
    split <;> rfl

end Config
end Ini
end Dfuser
