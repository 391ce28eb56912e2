import Mathlib
import Dfuser.Lib.Dict
import Dfuser.Ini.Interpolation

/-!
# Configurations

Python's `configparser.ConfigParser`: named sections of options, and a `DEFAULT`
section every other section inherits from.  Option names are normalised by
`optionxform` (`str.lower`), of which only idempotence is used.  Values are kept
raw and interpolated when they are read.

Reading a file and copying another configuration (`read_dict`) both go through the
sections and their options and store a value for each; `fill` is that loop.  They
differ in what they store: `read` the raw values of the file, `readDict` what the
other configuration *reads* its options as — inherited ones included — after the
check of `set`.

## Main definitions

* `Config x` — configurations, with well-formed section and option names.
* `Config.own`, `Config.env`, `Config.options`, `Config.get` — reading.
* `Config.read`, `Config.readDict` — the two ways of filling a configuration.

## Main results

* `own_setRaw` — storing changes one option.
* `fill_ok` — **what a successful loop leaves**, option by option.
* `forall_ok_of_fill` — a successful loop has obtained every value.
* `fill_of_own` — a loop whose values are all there changes nothing.
-/

namespace Dfuser
namespace Ini

/-- `optionxform`: how option names are normalised. -/
structure OptionXform where
  lower : Str → Str
  idem : ∀ k, lower (lower k) = lower k

/-- `str.lower`, on ASCII names. -/
def asciiLower : OptionXform :=
  ⟨List.map Char.toLower, fun k => by simp [Function.comp_def]⟩

/-- The name of the section every other one inherits from. -/
def defaultSection : Str := "DEFAULT".toList

/-- A configuration.  The default section is not one of the named ones, and no
section has an empty name. -/
structure Config (x : OptionXform) where
  /-- The options of the default section, raw. -/
  defaults : Dict Str Str
  /-- The options of the named sections, raw. -/
  sections : Dict Str (Dict Str Str)
  names : ∀ s ∈ sections.keys, s ≠ defaultSection ∧ s ≠ []
  lower_defaults : ∀ k ∈ defaults.keys, x.lower k = k
  lower_options : ∀ s o, sections.get? s = some o → ∀ k ∈ o.keys, x.lower k = k

/-- Why an operation on a configuration fails. -/
inductive ConfigError
  | noSection
  | noOption
  /-- `set` refuses the value. -/
  | valueError
  | interpolation (e : InterpError)
  deriving DecidableEq, Repr

namespace Config

variable {x : OptionXform}

/-- The configuration with no sections and no options. -/
def empty : Config x :=
  ⟨Dict.empty, Dict.empty, fun _ h => by simp [Dict.keys, Dict.empty] at h,
    fun _ h => by simp [Dict.keys, Dict.empty] at h, fun _ _ h => by cases h⟩

/-! ### Reading -/

/-- The raw value section `s` itself defines for option `k`. -/
def own (c : Config x) (s k : Str) : Option Str :=
  if s = defaultSection then c.defaults.get? k else (c.sections.get? s).bind (·.get? k)

/-- The section exists, or is the default one. -/
def HasSection (c : Config x) (s : Str) : Prop := s = defaultSection ∨ s ∈ c.sections.keys

instance (c : Config x) (s : Str) : Decidable (c.HasSection s) :=
  inferInstanceAs (Decidable (s = defaultSection ∨ s ∈ c.sections.keys))

/-- The options section `s` itself defines. -/
def ownKeys (c : Config x) (s : Str) : List Str :=
  if s = defaultSection then c.defaults.keys else ((c.sections.get? s).map Dict.keys).getD []

/-- The raw values visible in section `s`: its own, then the inherited ones. -/
def env (c : Config x) (s k : Str) : Option Str := (c.own s k).or (c.own defaultSection k)

/-- The options visible in section `s`, its own first. -/
def options (c : Config x) (s : Str) : List Str :=
  c.ownKeys s ++ (c.ownKeys defaultSection).filter (· ∉ c.ownKeys s)

/-- The interpolated value of option `k`, the raw values being in `env`. -/
def readOption (x : OptionXform) (env : Str → Option Str) (k : Str) : Except ConfigError Str :=
  match env (x.lower k) with
  | none => .error .noOption
  | some raw =>
    match interp x.lower env maxInterpolationDepth raw with
    | .ok v => .ok v
    | .error e => .error (.interpolation e)

/-- `c[s][k]`: the interpolated value. -/
def get (c : Config x) (s k : Str) : Except ConfigError Str := readOption x (c.env s) k

theorem mem_ownKeys (c : Config x) (s k : Str) : k ∈ c.ownKeys s ↔ ∃ v, c.own s k = some v := by
  unfold ownKeys own
  by_cases hs : s = defaultSection
  · simp only [hs, if_true]
    exact Dict.mem_keys_iff _ _
  · simp only [hs, if_false]
    cases c.sections.get? s with
    | none => simp
    | some o => simpa using Dict.mem_keys_iff o k

theorem env_eq_some_or (c : Config x) (s k : Str) :
    (∃ v, c.env s k = some v) ↔ k ∈ c.ownKeys s ∨ k ∈ c.ownKeys defaultSection := by
  rw [mem_ownKeys, mem_ownKeys, env]
  cases c.own s k <;> simp

/-- The visible options are those with a visible value. -/
theorem mem_options (c : Config x) (s k : Str) : k ∈ c.options s ↔ ∃ v, c.env s k = some v := by
  rw [env_eq_some_or, options, List.mem_append, List.mem_filter, decide_eq_true_eq]
  tauto

@[simp] theorem env_defaultSection (c : Config x) (k : Str) :
    c.env defaultSection k = c.own defaultSection k := by
  rw [env]
  cases c.own defaultSection k <;> rfl

@[simp] theorem own_empty (s k : Str) : (empty : Config x).own s k = none := by
  unfold own
  split <;> rfl

/-- Option names are normalised. -/
theorem lower_of_own {c : Config x} {s k v : Str} (h : c.own s k = some v) : x.lower k = k := by
  unfold own at h
  by_cases hs : s = defaultSection
  · rw [if_pos hs] at h
    exact c.lower_defaults k ((Dict.mem_keys_iff _ _).mpr ⟨v, h⟩)
  · rw [if_neg hs, Option.bind_eq_some_iff] at h
    obtain ⟨o, ho, hv⟩ := h
    exact c.lower_options s o ho k ((Dict.mem_keys_iff _ _).mpr ⟨v, hv⟩)

theorem lower_of_env {c : Config x} {s k v : Str} (h : c.env s k = some v) : x.lower k = k := by
  rw [env, Option.or_eq_some_iff] at h
  rcases h with h | ⟨-, h⟩
  · exact lower_of_own h
  · exact lower_of_own h

theorem get_of_interp {c : Config x} {s k raw v : Str} (h : c.env s k = some raw)
    (hv : interp x.lower (c.env s) maxInterpolationDepth raw = .ok v) : c.get s k = .ok v := by
  simp only [get, readOption, lower_of_env h, h, hv]

theorem interp_of_get {c : Config x} {s k raw v : Str} (h : c.env s k = some raw)
    (hv : c.get s k = .ok v) : interp x.lower (c.env s) maxInterpolationDepth raw = .ok v := by
  simp only [get, readOption, lower_of_env h, h] at hv
  split at hv
  · next w hw => rw [hw]; exact congrArg _ (Except.ok.inj hv)
  · cases hv

theorem own_of_not_hasSection {c : Config x} {s : Str} (h : ¬ c.HasSection s) (k : Str) :
    c.own s k = none := by
  rw [HasSection, not_or] at h
  rw [own, if_neg h.1, (Dict.get?_eq_none_iff _ _).mpr h.2]
  rfl

/-! ### Storing -/

/-- Store a raw value in the default section. -/
def setDefault (c : Config x) (k v : Str) : Config x :=
  { c with
    defaults := c.defaults.set (x.lower k) v
    lower_defaults := by
      intro a ha
      rcases (Dict.mem_keys_set _ _ _ _).mp ha with rfl | ha
      · exact x.idem k
      · exact c.lower_defaults a ha }

/-- Store a whole named section. -/
def setSection (c : Config x) (s : Str) (o : Dict Str Str) (hs : s ≠ defaultSection ∧ s ≠ [])
    (ho : ∀ k ∈ o.keys, x.lower k = k) : Config x :=
  { c with
    sections := c.sections.set s o
    names := by
      intro a ha
      rcases (Dict.mem_keys_set _ _ _ _).mp ha with rfl | ha
      · exact hs
      · exact c.names a ha
    lower_options := by
      intro a p hp k hk
      rw [Dict.get?_set] at hp
      split at hp
      · cases hp; exact ho k hk
      · exact c.lower_options a p hp k hk }

theorem own_setDefault (c : Config x) (k v a b : Str) :
    (c.setDefault k v).own a b =
      if a = defaultSection ∧ b = x.lower k then some v else c.own a b := by
  by_cases ha : a = defaultSection
  · simp only [own, setDefault, ha, if_true, Dict.get?_set, true_and]
  · simp only [own, setDefault, ha, if_false, false_and]

theorem own_setSection (c : Config x) {s : Str} {o : Dict Str Str}
    (hs : s ≠ defaultSection ∧ s ≠ []) (ho : ∀ k ∈ o.keys, x.lower k = k) (a b : Str) :
    (c.setSection s o hs ho).own a b = if a = s then o.get? b else c.own a b := by
  by_cases ha : a = defaultSection
  · have has : a ≠ s := fun h => hs.1 (h ▸ ha)
    rw [if_neg has]
    simp only [own, setSection, ha, if_true]
  · by_cases has : a = s
    · subst has
      simp only [own, setSection, ha, if_true, if_false, Dict.get?_set, Option.bind_some]
    · simp only [own, setSection, ha, has, if_false, Dict.get?_set]

/-- `add_section`, as `read_dict` uses it: the exceptions for the default section
and for a section that exists are caught. -/
def ensureSection (c : Config x) (s : Str) : Config x :=
  if h : s ≠ defaultSection ∧ s ≠ [] ∧ s ∉ c.sections.keys then
    c.setSection s Dict.empty ⟨h.1, h.2.1⟩ fun _ hk => by simp [Dict.keys, Dict.empty] at hk
  else c

/-- Store a raw value; without the section there is nowhere to store it. -/
def setRaw (c : Config x) (s k v : Str) : Except ConfigError (Config x) :=
  -- `set` takes the empty name for the default section
  if s = defaultSection ∨ s = [] then .ok (c.setDefault k v)
  else
    match h : c.sections.get? s with
    | none => .error .noSection
    | some o =>
      .ok (c.setSection s (o.set (x.lower k) v) (c.names s ((Dict.mem_keys_iff _ _).mpr ⟨o, h⟩))
        (by
          intro a ha
          rcases (Dict.mem_keys_set _ _ _ _).mp ha with rfl | ha
          · exact x.idem k
          · exact c.lower_options s o h a ha))

/-- Store a value that has to pass a check. -/
def setChecked (c : Config x) (check : Str → Bool) (s k v : Str) : Except ConfigError (Config x) :=
  if check v then c.setRaw s k v else .error .valueError

/-- The check of `set`; the empty text is not looked at. -/
def setCheck (v : Str) : Bool := v = [] ∨ setAccepts v

theorem hasSection_ensureSection (c : Config x) {s : Str} (hs : s ≠ []) (a : Str) :
    (c.ensureSection s).HasSection a ↔ a = s ∨ c.HasSection a := by
  unfold ensureSection HasSection
  split
  · next h =>
    simp only [setSection, Dict.mem_keys_set]
    tauto
  · next h =>
    constructor
    · exact Or.inr
    · rintro (rfl | ha)
      · by_contra hno
        rw [not_or] at hno
        exact h ⟨hno.1, hs, hno.2⟩
      · exact ha

theorem own_ensureSection (c : Config x) (s a k : Str) :
    (c.ensureSection s).own a k = c.own a k := by
  unfold ensureSection
  split
  · next h =>
    rw [own_setSection]
    split
    · next has => rw [has, own, if_neg h.1, (Dict.get?_eq_none_iff _ _).mpr h.2.2]; rfl
    · rfl
  · rfl

/-- **Storing changes one option**, of a section that exists. -/
theorem own_setRaw {c : Config x} {s : Str} (hne : s ≠ []) (hs : c.HasSection s) (k v : Str) :
    ∃ c', c.setRaw s k v = .ok c' ∧ (∀ a, c'.HasSection a ↔ c.HasSection a) ∧
      ∀ a b, c'.own a b = if a = s ∧ b = x.lower k then some v else c.own a b := by
  unfold setRaw
  by_cases hd : s = defaultSection
  · refine ⟨c.setDefault k v, by rw [if_pos (Or.inl hd)], fun a => Iff.rfl, ?_⟩
    intro a b
    rw [own_setDefault, hd]
  · rw [if_neg (not_or.mpr ⟨hd, hne⟩)]
    have hmem : s ∈ c.sections.keys := hs.resolve_left hd
    obtain ⟨o, ho⟩ := (Dict.mem_keys_iff _ _).mp hmem
    split
    · next hnone => rw [ho] at hnone; cases hnone
    · next o' ho' =>
      rw [ho] at ho'
      cases ho'
      refine ⟨_, rfl, ?_, ?_⟩
      · intro a
        simp only [HasSection, setSection, Dict.mem_keys_set]
        constructor
        · rintro (h | rfl | h)
          · exact Or.inl h
          · exact hs
          · exact Or.inr h
        · rintro (h | h)
          · exact Or.inl h
          · exact Or.inr (Or.inr h)
      · intro a b
        rw [own_setSection]
        by_cases has : a = s
        · subst has
          simp only [own, hd, ho, if_true, if_false, Dict.get?_set, Option.bind_some, true_and]
        · simp only [has, if_false, false_and]

/-! ### The loop -/

/-- Store a value for each option in a list, in section `s`. -/
def fillSection (val : Str → Except ConfigError Str) (check : Str → Bool) (s : Str) :
    Config x → List Str → Except ConfigError (Config x)
  | c, [] => .ok c
  | c, k :: ks =>
    (val k).bind fun v => (c.setChecked check s k v).bind fun c => fillSection val check s c ks

/-- Store a value for each option of each section in a list. -/
def fill (val : Str → Str → Except ConfigError Str) (check : Str → Bool) (keys : Str → List Str) :
    Config x → List Str → Except ConfigError (Config x)
  | c, [] => .ok c
  | c, s :: ss =>
    (fillSection (val s) check s (c.ensureSection s) (keys s)).bind fun c =>
      fill val check keys c ss

/-- `read`: the raw values of a file, over what is there. -/
def read (c f : Config x) : Except ConfigError (Config x) :=
  fill (fun s k => match f.own s k with | some v => .ok v | none => .error .noOption)
    (fun _ => true) f.ownKeys c (defaultSection :: f.sections.keys)

/-- `read_dict` of another configuration: what its options read as, over what is
there.  Sections come in order, the default one first; the keys are distinct, so
the test for duplicates never fires. -/
def readDict (c r : Config x) : Except ConfigError (Config x) :=
  fill r.get setCheck r.options c (defaultSection :: r.sections.keys)

theorem setCheck_of_plain {v : Str} (h : Plain v) : setCheck v = true := by
  simp [setCheck, setAccepts_of_plain h]

/-- One section of the loop. -/
theorem fillSection_ok {val : Str → Except ConfigError Str} {check : Str → Bool} {rd : Str → Str}
    {s : Str} (hne : s ≠ []) {ks : List Str}
    (hval : ∀ k ∈ ks, val k = .ok (rd k) ∧ check (rd k) = true ∧ x.lower k = k) {c : Config x}
    (hs : c.HasSection s) :
    ∃ c', fillSection val check s c ks = .ok c' ∧ (∀ a, c'.HasSection a ↔ c.HasSection a) ∧
      ∀ a b, c'.own a b = if a = s ∧ b ∈ ks then some (rd b) else c.own a b := by
  induction ks generalizing c with
  | nil => exact ⟨c, rfl, fun a => Iff.rfl, fun a b => by simp⟩
  | cons k ks ih =>
    obtain ⟨hk, hcheck, hlow⟩ := hval k List.mem_cons_self
    obtain ⟨c₁, hc₁, hsec₁, hown₁⟩ := own_setRaw hne hs k (rd k)
    obtain ⟨c₂, hc₂, hsec₂, hown₂⟩ :=
      ih (fun a ha => hval a (List.mem_cons_of_mem _ ha)) ((hsec₁ s).mpr hs)
    refine ⟨c₂, ?_, fun a => (hsec₂ a).trans (hsec₁ a), ?_⟩
    · simp only [fillSection, hk, Except.bind, setChecked, hcheck, if_true, hc₁]
      exact hc₂
    · intro a b
      rw [hown₂, hown₁, hlow]
      by_cases ha : a = s
      · by_cases hb : b ∈ ks
        · simp [ha, hb]
        · by_cases hbk : b = k
          · simp [ha, hbk]
          · simp [ha, hb, hbk]
      · simp [ha]

/-- **What a successful loop leaves**: the stored value for every option it went
through, and everything else as it was. -/
theorem fill_ok {val : Str → Str → Except ConfigError Str} {check : Str → Bool}
    {keys : Str → List Str} {rd : Str → Str → Str} {ss : List Str} (hne : ∀ s ∈ ss, s ≠ [])
    (hval : ∀ s ∈ ss, ∀ k ∈ keys s,
      val s k = .ok (rd s k) ∧ check (rd s k) = true ∧ x.lower k = k) (c : Config x) :
    ∃ c', fill val check keys c ss = .ok c' ∧
      (∀ a, c'.HasSection a ↔ a ∈ ss ∨ c.HasSection a) ∧
      ∀ a b, c'.own a b = if a ∈ ss ∧ b ∈ keys a then some (rd a b) else c.own a b := by
  induction ss generalizing c with
  | nil => exact ⟨c, rfl, fun a => by simp, fun a b => by simp⟩
  | cons s ss ih =>
    have hs : s ≠ [] := hne s List.mem_cons_self
    have hsec : (c.ensureSection s).HasSection s :=
      (hasSection_ensureSection c hs s).mpr (Or.inl rfl)
    obtain ⟨c₁, hc₁, hsec₁, hown₁⟩ := fillSection_ok hs (hval s List.mem_cons_self) hsec
    obtain ⟨c₂, hc₂, hsec₂, hown₂⟩ := ih (fun a ha => hne a (List.mem_cons_of_mem _ ha))
      (fun a ha => hval a (List.mem_cons_of_mem _ ha)) c₁
    refine ⟨c₂, ?_, ?_, ?_⟩
    · simp only [fill, hc₁, Except.bind]
      exact hc₂
    · intro a
      rw [hsec₂, hsec₁, hasSection_ensureSection c hs, List.mem_cons]
      tauto
    · intro a b
      rw [hown₂, hown₁, own_ensureSection]
      -- a section that comes again gets the same values again
      by_cases hmem : a ∈ ss
      · by_cases hb : b ∈ keys a
        · simp [hmem, hb]
        · have : ¬ (a = s ∧ b ∈ keys s) := by rintro ⟨rfl, h⟩; exact hb h
          simp [hb, this]
      · by_cases ha : a = s
        · subst ha
          simp [hmem]
        · simp [hmem, ha]

theorem forall_ok_of_fillSection {val : Str → Except ConfigError Str} {check : Str → Bool} {s : Str}
    {ks : List Str} {c c' : Config x} (h : fillSection val check s c ks = .ok c') :
    ∀ k ∈ ks, ∃ v, val k = .ok v ∧ check v = true := by
  induction ks generalizing c with
  | nil => intro k hk; cases hk
  | cons k ks ih =>
    rw [fillSection] at h
    cases hv : val k with
    | error e => rw [hv] at h; cases h
    | ok v =>
      rw [hv] at h
      simp only [Except.bind, setChecked] at h
      cases hcheck : check v with
      | false => rw [hcheck] at h; cases h
      | true =>
        rw [hcheck, if_pos rfl] at h
        cases hset : c.setRaw s k v with
        | error e => rw [hset] at h; cases h
        | ok c₁ =>
          rw [hset] at h
          intro a ha
          rcases List.mem_cons.mp ha with rfl | ha
          · exact ⟨v, hv, hcheck⟩
          · exact ih h a ha

/-- A successful loop has obtained every value, and every value passed the check. -/
theorem forall_ok_of_fill {val : Str → Str → Except ConfigError Str} {check : Str → Bool}
    {keys : Str → List Str} {ss : List Str} {c c' : Config x}
    (h : fill val check keys c ss = .ok c') :
    ∀ s ∈ ss, ∀ k ∈ keys s, ∃ v, val s k = .ok v ∧ check v = true := by
  induction ss generalizing c with
  | nil => intro s hs; cases hs
  | cons s ss ih =>
    rw [fill] at h
    cases hsec : fillSection (val s) check s (c.ensureSection s) (keys s) with
    | error e => rw [hsec] at h; cases h
    | ok c₁ =>
      rw [hsec] at h
      intro a ha
      rcases List.mem_cons.mp ha with rfl | ha
      · exact forall_ok_of_fillSection hsec
      · exact ih h a ha

/-! ### A loop that changes nothing -/

/-- Storing the raw value that is there changes nothing. -/
theorem setRaw_of_own {c : Config x} {s k v : Str} (hs : s ≠ []) (h : c.own s k = some v) :
    c.setRaw s k v = .ok c := by
  have hlow : x.lower k = k := lower_of_own h
  unfold setRaw
  by_cases hd : s = defaultSection
  · rw [own, if_pos hd] at h
    rw [if_pos (Or.inl hd)]
    simp only [setDefault, hlow, Dict.set_eq_self h]
  · rw [if_neg (not_or.mpr ⟨hd, hs⟩)]
    rw [own, if_neg hd, Option.bind_eq_some_iff] at h
    obtain ⟨o, ho, hv⟩ := h
    split
    · next hnone => rw [ho] at hnone; cases hnone
    · next o' ho' =>
      rw [ho] at ho'
      cases ho'
      simp only [setSection, hlow, Dict.set_eq_self hv, Dict.set_eq_self ho]

theorem ensureSection_of_hasSection {c : Config x} {s : Str} (h : c.HasSection s) :
    c.ensureSection s = c := by
  unfold ensureSection
  rw [dif_neg]
  intro ⟨hd, _, hs⟩
  exact hs (h.resolve_left hd)

theorem fillSection_of_own {val : Str → Except ConfigError Str} {check : Str → Bool} {s : Str}
    (hs : s ≠ []) {ks : List Str} {c : Config x}
    (h : ∀ k ∈ ks, ∃ v, val k = .ok v ∧ check v = true ∧ c.own s k = some v) :
    fillSection val check s c ks = .ok c := by
  induction ks with
  | nil => rfl
  | cons k ks ih =>
    obtain ⟨v, hv, hcheck, hown⟩ := h k List.mem_cons_self
    simp only [fillSection, hv, Except.bind, setChecked, hcheck, if_true, setRaw_of_own hs hown]
    exact ih fun a ha => h a (List.mem_cons_of_mem _ ha)

/-- A loop whose values are all there already leaves the configuration as it is. -/
theorem fill_of_own {val : Str → Str → Except ConfigError Str} {check : Str → Bool}
    {keys : Str → List Str} {ss : List Str} {c : Config x}
    (hss : ∀ s ∈ ss, s ≠ [] ∧ c.HasSection s)
    (h : ∀ s ∈ ss, ∀ k ∈ keys s, ∃ v, val s k = .ok v ∧ check v = true ∧ c.own s k = some v) :
    fill val check keys c ss = .ok c := by
  induction ss with
  | nil => rfl
  | cons s ss ih =>
    obtain ⟨hne, hsec⟩ := hss s List.mem_cons_self
    simp only [fill, ensureSection_of_hasSection hsec,
      fillSection_of_own hne (h s List.mem_cons_self), Except.bind]
    exact ih (fun a ha => hss a (List.mem_cons_of_mem _ ha))
      fun a ha => h a (List.mem_cons_of_mem _ ha)

/-! ### Reading a file, and copying a configuration -/

theorem mem_sectionList (f : Config x) (s : Str) :
    s ∈ defaultSection :: f.sections.keys ↔ f.HasSection s := List.mem_cons

theorem ne_nil_of_hasSection {f : Config x} {s : Str} (h : f.HasSection s) : s ≠ [] := by
  rcases h with rfl | h
  · decide
  · exact (f.names s h).2

/-- Reading a file always succeeds, and the file wins over what was there. -/
theorem read_ok (c f : Config x) :
    ∃ c', c.read f = .ok c' ∧ (∀ s, c'.HasSection s ↔ f.HasSection s ∨ c.HasSection s) ∧
      ∀ s k, c'.own s k = (f.own s k).or (c.own s k) := by
  obtain ⟨c', hc', hsec, hown⟩ := @fill_ok x
    (fun s k => match f.own s k with | some v => .ok v | none => .error .noOption)
    (fun _ => true) f.ownKeys (fun s k => (f.own s k).getD []) (defaultSection :: f.sections.keys)
    (fun s hs => ne_nil_of_hasSection ((mem_sectionList f s).mp hs))
    (fun s _ k hk => by
      obtain ⟨v, hv⟩ := (mem_ownKeys f s k).mp hk
      simp only [hv, Option.getD_some, true_and]
      exact lower_of_own hv) c
  refine ⟨c', hc', fun s => by rw [hsec, mem_sectionList], ?_⟩
  intro s k
  rw [hown]
  cases hk : f.own s k with
  | none =>
    have hno : k ∉ f.ownKeys s := by
      rw [mem_ownKeys, hk]
      simp
    rw [if_neg fun h => hno h.2, Option.none_or]
  | some v =>
    have hs : f.HasSection s := by
      by_contra hno
      rw [own_of_not_hasSection hno] at hk
      cases hk
    rw [if_pos ⟨(mem_sectionList f s).mpr hs, (mem_ownKeys f s k).mpr ⟨v, hk⟩⟩]
    rfl

/-- What section `s` reads option `k` as, when it can be read. -/
def text (c : Config x) (s k : Str) : Str :=
  match c.get s k with
  | .ok v => v
  | .error _ => []

/-- Every option visible in `r` can be read, and what it reads as can be stored. -/
def Copyable (r : Config x) : Prop :=
  ∀ s, r.HasSection s → ∀ k ∈ r.options s, ∃ v, r.get s k = .ok v ∧ setCheck v = true

theorem copyable_of_readDict {c r c' : Config x} (h : c.readDict r = .ok c') : r.Copyable :=
  fun s hs => forall_ok_of_fill h s ((mem_sectionList r s).mpr hs)

/-- Copying a configuration stores, for every option visible in a section of it,
what that section reads it as. -/
theorem readDict_ok {r : Config x} (h : r.Copyable) (c : Config x) :
    ∃ c', c.readDict r = .ok c' ∧ (∀ s, c'.HasSection s ↔ r.HasSection s ∨ c.HasSection s) ∧
      ∀ s k, c'.own s k =
        if r.HasSection s ∧ k ∈ r.options s then some (r.text s k) else c.own s k := by
  obtain ⟨c', hc', hsec, hown⟩ := @fill_ok x r.get setCheck r.options r.text
    (defaultSection :: r.sections.keys)
    (fun s hs => ne_nil_of_hasSection ((mem_sectionList r s).mp hs))
    (fun s hs k hk => by
      obtain ⟨v, hv, hcheck⟩ := h s ((mem_sectionList r s).mp hs) k hk
      obtain ⟨raw, hraw⟩ := (mem_options r s k).mp hk
      have htext : r.text s k = v := by rw [text, hv]
      exact ⟨by rw [htext, hv], by rw [htext, hcheck], lower_of_env hraw⟩) c
  refine ⟨c', hc', fun s => by rw [hsec, mem_sectionList], ?_⟩
  intro s k
  rw [hown]
  exact if_congr (and_congr_left' (mem_sectionList r s)) rfl rfl

/-- Copying again what is there changes nothing. -/
theorem readDict_of_own {r : Config x} (h : r.Copyable) {c : Config x}
    (hsec : ∀ s, r.HasSection s → c.HasSection s)
    (hown : ∀ s, r.HasSection s → ∀ k ∈ r.options s, c.own s k = some (r.text s k)) :
    c.readDict r = .ok c := by
  refine fill_of_own (fun s hs => ?_) fun s hs k hk => ?_
  · have hr := (mem_sectionList r s).mp hs
    exact ⟨ne_nil_of_hasSection hr, hsec s hr⟩
  · have hr := (mem_sectionList r s).mp hs
    obtain ⟨v, hv, hcheck⟩ := h s hr k hk
    have htext : r.text s k = v := by rw [text, hv]
    exact ⟨v, hv, hcheck, htext ▸ hown s hr k hk⟩

end Config
end Ini
end Dfuser
