import Mathlib.Data.List.Count
import Mathlib.Tactic.Linarith
import Dfuser.Lib.Text

/-!
# Interpolation of option values

Python's `configparser.BasicInterpolation`: reading an option replaces `%%` by `%`
and `%(name)s` by the value of option `name` of the same section, itself
interpolated, to a nesting of at most ten.  Storing a value is refused when it has
a `%` that belongs to neither form.

A raw value is scanned into tokens first, which does not depend on any option;
expanding the tokens then asks for the references one by one, from left to right,
so that the first error met is the one raised.

## Main definitions

* `scan`, `tokens` — the tokens of a raw value.
* `expand`, `interp`, `look` — expansion, with the nesting left as fuel.
* `setAccepts` — the check a value has to pass to be stored.

## Main results

* `interp_of_plain` — text without `%` stands for itself.
* `expand_eq_or_depth` — **resolvers that agree up to the nesting limit expand
  alike up to the nesting limit.**
* `interp_fuel` — more fuel only turns nesting errors into something else.
* `plain_of_expand_eq_self` — a value that reads as itself has no `%`, when what it
  refers to has none.
-/

namespace Dfuser
namespace Ini

/-! ### Tokens -/

/-- A piece of a raw value. -/
inductive Tok
  /-- A character of the result; `%%` is one too. -/
  | lit (c : Char)
  /-- A reference `%(name)s`. -/
  | ref (name : Str)
  /-- A `%` that starts neither form. -/
  | bad
  deriving DecidableEq, Repr

/-- Where a scan is: in the text, after a `%`, or inside the name of a reference
(kept reversed). -/
inductive Mode
  | text
  | percent
  | name (acc : Str)

/-- The tokens of a raw value from a mode on; a syntax error ends the scan. -/
def scan : Mode → Str → List Tok
  | .text, [] => []
  | .text, c :: s => if c = '%' then scan .percent s else .lit c :: scan .text s
  | .percent, [] => [.bad]
  | .percent, c :: s =>
    if c = '%' then .lit '%' :: scan .text s
    else if c = '(' then scan (.name []) s
    else [.bad]
  | .name _, [] => [.bad]
  -- the name ends at the first `)`, which has to be that of `)s`
  | .name acc, ')' :: 's' :: s => if acc = [] then [.bad] else .ref acc.reverse :: scan .text s
  | .name acc, c :: s => if c = ')' then [.bad] else scan (.name (c :: acc)) s

/-- The tokens of a raw value. -/
def tokens (raw : Str) : List Tok := scan .text raw

/-- `%%` pairs removed, from left to right. -/
def dropPairs : Str → Str
  | [] => []
  | '%' :: '%' :: s => dropPairs s
  | c :: s => c :: dropPairs s

/-- `before_set`: once `%%` pairs and then references are taken out, no `%` may be
left. -/
def setAccepts (v : Str) : Bool := Tok.bad ∉ tokens (dropPairs v)

/-- Text without `%`. -/
def Plain (v : Str) : Prop := '%' ∉ v

instance (v : Str) : Decidable (Plain v) := inferInstanceAs (Decidable ('%' ∉ v))

theorem tokens_of_plain {v : Str} (h : Plain v) : tokens v = v.map .lit := by
  unfold tokens
  induction v with
  | nil => rfl
  | cons c v ih =>
    rw [Plain, List.mem_cons, not_or] at h
    rw [scan, if_neg (Ne.symm h.1), ih h.2]
    rfl

theorem dropPairs_of_plain {v : Str} (h : Plain v) : dropPairs v = v := by
  induction v with
  | nil => rfl
  | cons c v ih =>
    rw [Plain, List.mem_cons, not_or] at h
    rw [dropPairs, ih h.2]
    intro s hc
    exact absurd hc.symm h.1

/-- Text without `%` may be stored. -/
theorem setAccepts_of_plain {v : Str} (h : Plain v) : setAccepts v = true := by
  rw [setAccepts, dropPairs_of_plain h, tokens_of_plain h]
  simp

/-! ### Expansion -/

/-- Why reading an option fails. -/
inductive InterpError
  | syntaxError
  | missingOption
  | depth
  deriving DecidableEq, Repr

/-- Expand tokens from left to right, `look` giving the text of a reference. -/
def expand (look : Str → Except InterpError Str) : List Tok → Except InterpError Str
  | [] => .ok []
  | .lit c :: ts => (expand look ts).map (c :: ·)
  | .ref name :: ts => (look name).bind fun v => (expand look ts).map (v ++ ·)
  | .bad :: _ => .error .syntaxError

/-- `MAX_INTERPOLATION_DEPTH`. -/
def maxInterpolationDepth : ℕ := 10

section Interp

variable (lower : Str → Str) (env : Str → Option Str)

/-- `_interpolate_some`, the nesting still allowed as fuel: the raw values of the
section are in `env`, and `lower` normalises the name of a reference. -/
def interp : ℕ → Str → Except InterpError Str
  | 0, _ => .error .depth
  | n + 1, raw =>
    expand (fun name =>
      -- a value without `%` is used as it is, whatever nesting is left
      match env (lower name) with
      | none => .error .missingOption
      | some v => if Plain v then .ok v else interp n v) (tokens raw)

/-- The text a value referred to contributes, with `n` levels of nesting left. -/
def nested (n : ℕ) (v : Str) : Except InterpError Str :=
  if Plain v then .ok v else interp lower env n v

/-- The text of a reference, with `n` levels of nesting left below it. -/
def look (n : ℕ) (name : Str) : Except InterpError Str :=
  match env (lower name) with
  | none => .error .missingOption
  | some v => nested lower env n v

theorem interp_succ (n : ℕ) (raw : Str) :
    interp lower env (n + 1) raw = expand (look lower env n) (tokens raw) := rfl

end Interp

variable {lower : Str → Str} {env : Str → Option Str}

theorem nested_of_plain {v : Str} (h : Plain v) (n : ℕ) : nested lower env n v = .ok v := if_pos h

theorem nested_of_not_plain {v : Str} (h : ¬ Plain v) (n : ℕ) :
    nested lower env n v = interp lower env n v := if_neg h

/-- The text one token contributes. -/
def Tok.text (look : Str → Except InterpError Str) : Tok → Except InterpError Str
  | .lit c => .ok [c]
  | .ref name => look name
  | .bad => .error .syntaxError

/-- An expansion that succeeds is the text of its first token, and an expansion of the
rest. -/
theorem expand_cons_eq_ok {look : Str → Except InterpError Str} {t : Tok} {ts : List Tok}
    {v : Str} : expand look (t :: ts) = .ok v ↔
      ∃ a w, t.text look = .ok a ∧ expand look ts = .ok w ∧ v = a ++ w := by
  cases t with
  | bad => simp [expand, Tok.text]
  | lit c =>
    rw [expand]
    cases expand look ts <;> simp [Except.map, Tok.text, eq_comm]
  | ref name =>
    rw [expand, Tok.text]
    cases look name <;> cases expand look ts <;> simp [Except.map, Except.bind, eq_comm]

theorem expand_map_lit (look : Str → Except InterpError Str) (v : Str) :
    expand look (v.map .lit) = .ok v := by
  induction v with
  | nil => rfl
  | cons c v ih => simp [expand, ih, Except.map]

/-- **Text without `%` stands for itself.** -/
theorem interp_of_plain {v : Str} (h : Plain v) (n : ℕ) : interp lower env (n + 1) v = .ok v := by
  rw [interp_succ, tokens_of_plain h, expand_map_lit]

/-- **Resolvers that agree up to the nesting limit expand alike up to the nesting
limit.** -/
theorem expand_eq_or_depth {look₁ look₂ : Str → Except InterpError Str}
    (h : ∀ name, look₁ name = .error .depth ∨ look₁ name = look₂ name) (ts : List Tok) :
    expand look₁ ts = .error .depth ∨ expand look₁ ts = expand look₂ ts := by
  induction ts with
  | nil => exact Or.inr rfl
  | cons t ts ih =>
    cases t with
    | bad => exact Or.inr rfl
    | lit c =>
      rcases ih with ih | ih
      · exact Or.inl (by rw [expand, ih]; rfl)
      · exact Or.inr (by rw [expand, expand, ih])
    | ref name =>
      -- tokens are expanded from left to right, and the first error is the result
      rcases h name with hn | hn
      · exact Or.inl (by rw [expand, hn]; rfl)
      · rw [expand, expand, ← hn]
        cases look₁ name with
        | error e => exact Or.inr rfl
        | ok v =>
          rcases ih with ih | ih
          · exact Or.inl (by rw [ih]; rfl)
          · exact Or.inr (by rw [ih])

/-- A resolver that answers whatever another one answers expands whatever that one
expands. -/
theorem expand_mono {look₁ look₂ : Str → Except InterpError Str} {ts : List Tok}
    (h : ∀ name v, .ref name ∈ ts → look₁ name = .ok v → look₂ name = .ok v) {v : Str}
    (hv : expand look₁ ts = .ok v) : expand look₂ ts = .ok v := by
  induction ts generalizing v with
  | nil => exact hv
  | cons t ts ih =>
    obtain ⟨a, w, ha, hw, rfl⟩ := expand_cons_eq_ok.mp hv
    have hrest := ih (fun name v hmem => h name v (List.mem_cons_of_mem _ hmem)) hw
    refine expand_cons_eq_ok.mpr ⟨a, w, ?_, hrest, rfl⟩
    cases t with
    | bad => exact ha
    | lit c => exact ha
    | ref name => exact h name a List.mem_cons_self ha

/-- More fuel only turns nesting errors into something else. -/
theorem interp_fuel {n m : ℕ} (hnm : n ≤ m) (raw : Str) :
    interp lower env n raw = .error .depth ∨ interp lower env n raw = interp lower env m raw := by
  induction n generalizing m raw with
  | zero => exact Or.inl rfl
  | succ n ih =>
    obtain ⟨m, rfl⟩ : ∃ k, m = k + 1 := ⟨m - 1, by omega⟩
    rw [interp_succ, interp_succ]
    refine expand_eq_or_depth (fun name => ?_) _
    unfold look
    cases env (lower name) with
    | none => exact Or.inr rfl
    | some v =>
      by_cases hv : Plain v
      · exact Or.inr (by simp only [nested_of_plain hv])
      · simp only [nested_of_not_plain hv]
        exact ih (by omega) v

theorem interp_mono_fuel {n m : ℕ} (hnm : n ≤ m) {raw v : Str}
    (h : interp lower env n raw = .ok v) : interp lower env m raw = .ok v := by
  rcases @interp_fuel lower env n m hnm raw with hd | he
  · rw [hd] at h; cases h
  · rw [← he, h]

/-- A section that defines more reads at least as much. -/
theorem interp_mono_env {env' : Str → Option Str} (h : ∀ k v, env k = some v → env' k = some v)
    {n : ℕ} {raw v : Str} (hv : interp lower env n raw = .ok v) :
    interp lower env' n raw = .ok v := by
  induction n generalizing raw v with
  | zero => cases hv
  | succ n ih =>
    rw [interp_succ] at hv ⊢
    refine expand_mono (fun name w _ hw => ?_) hv
    unfold look at hw ⊢
    cases hk : env (lower name) with
    | none => rw [hk] at hw; cases hw
    | some x =>
      rw [hk] at hw
      rw [h _ x hk]
      by_cases hx : Plain x
      · simp only [nested_of_plain hx] at hw ⊢
        exact hw
      · simp only [nested_of_not_plain hx] at hw ⊢
        exact ih hw

/-- References to plain values do not nest, so one level is as good as another. -/
theorem interp_succ_of_plain_env (h : ∀ k v, env k = some v → Plain v) (n m : ℕ) (raw : Str) :
    interp lower env (n + 1) raw = interp lower env (m + 1) raw := by
  have hlook : look lower env n = look lower env m := by
    funext name
    unfold look
    cases hk : env (lower name) with
    | none => rfl
    | some v => simp only [nested_of_plain (h _ v hk)]
  rw [interp_succ, interp_succ, hlook]

/-- **Replacing options by what they read as.**  When `res` gives, for some options,
the plain text they read as wherever the nesting limit allows it, a section that
holds these texts instead reads like the original one wherever the nesting limit
allows it. -/
theorem interp_overlay {res : Str → Option Str} (hplain : ∀ k w, res k = some w → Plain w) (n : ℕ)
    (h : ∀ m < n, ∀ k w, res k = some w → ∃ v, env k = some v ∧
      (nested lower env m v = .error .depth ∨ nested lower env m v = .ok w)) (raw : Str) :
    interp lower env n raw = .error .depth ∨
      interp lower env n raw = interp lower (fun k => (res k).or (env k)) n raw := by
  induction n generalizing raw with
  | zero => exact Or.inl rfl
  | succ n ih =>
    rw [interp_succ, interp_succ]
    refine expand_eq_or_depth (fun name => ?_) _
    simp only [look]
    -- a replaced option is plain here and one level down there; any other is the same
    -- on both sides, and covered by the induction hypothesis
    cases hres : res (lower name) with
    | some w =>
      obtain ⟨v, hv, hread⟩ := h n (Nat.lt_succ_self n) _ w hres
      simp only [hv, Option.some_or, nested_of_plain (hplain _ w hres)]
      exact hread
    | none =>
      simp only [Option.none_or]
      cases hv : env (lower name) with
      | none => exact Or.inr rfl
      | some v =>
        by_cases hp : Plain v
        · exact Or.inr (by simp only [nested_of_plain hp])
        · simp only [nested_of_not_plain hp]
          exact ih (fun m hm => h m (Nat.lt_succ_of_lt hm)) v

theorem map_error_iff {a : Except InterpError Str} {f : Str → Str} {e : InterpError} :
    a.map f = .error e ↔ a = .error e := by
  cases a <;> simp [Except.map]

theorem bind_error_iff {a b : Except InterpError Str} {f : Str → Str → Str} {e : InterpError} :
    (a.bind fun v => b.map (f v)) = .error e ↔
      a = .error e ∨ ((∃ v, a = .ok v) ∧ b = .error e) := by
  cases a <;> simp [Except.bind, map_error_iff]

/-- Resolvers that fail alike make the same expansions fail, with the same error. -/
theorem expand_error_iff {look₁ look₂ : Str → Except InterpError Str}
    (h : ∀ name e, look₁ name = .error e ↔ look₂ name = .error e) (ts : List Tok)
    (e : InterpError) : expand look₁ ts = .error e ↔ expand look₂ ts = .error e := by
  induction ts with
  | nil => exact Iff.rfl
  | cons t ts ih =>
    cases t with
    | bad => exact Iff.rfl
    | lit c =>
      rw [expand, expand, map_error_iff, map_error_iff]
      exact ih
    | ref name =>
      rw [expand, expand, bind_error_iff, bind_error_iff, h name e]
      refine or_congr Iff.rfl (and_congr ?_ ih)
      constructor
      · rintro ⟨v, hv⟩
        cases hw : look₂ name with
        | ok w => exact ⟨w, rfl⟩
        | error e => rw [(h name e).mpr hw] at hv; cases hv
      · rintro ⟨v, hv⟩
        cases hw : look₁ name with
        | ok w => exact ⟨w, rfl⟩
        | error e => rw [(h name e).mp hw] at hv; cases hv

/-- Sections that differ only in plain texts fail on the same values. -/
theorem interp_error_iff {env' : Str → Option Str}
    (h : ∀ k, env k = env' k ∨ ∃ v w, env k = some v ∧ env' k = some w ∧ Plain v ∧ Plain w)
    (n : ℕ) (raw : Str) (e : InterpError) :
    interp lower env n raw = .error e ↔ interp lower env' n raw = .error e := by
  induction n generalizing raw e with
  | zero => exact Iff.rfl
  | succ n ih =>
    rw [interp_succ, interp_succ]
    refine expand_error_iff (fun name e => ?_) _ e
    unfold look
    rcases h (lower name) with heq | ⟨v, w, hv, hw, hpv, hpw⟩
    · rw [heq]
      cases env' (lower name) with
      | none => exact Iff.rfl
      | some v =>
        by_cases hp : Plain v
        · simp only [nested_of_plain hp]
        · simp only [nested_of_not_plain hp]
          exact ih v e
    · rw [hv, hw]
      simp only [nested_of_plain hpv, nested_of_plain hpw, reduceCtorEq]

/-! ### Values that read as themselves -/

/-- The number of `%%` tokens. -/
def pairCount (ts : List Tok) : ℕ := ts.countP (· = .lit '%')

/-- The number of references. -/
def refCount (ts : List Tok) : ℕ := ts.countP fun t => t matches .ref _

/-- The `%` a scan has consumed and not yet turned into a token. -/
def Mode.pending : Mode → ℕ
  | .text => 0
  | .percent => 1
  | .name _ => 1

/-- Every `%` of a well-formed value belongs to a token: two of them to a `%%`, one
at least to a reference.  The induction follows the scan. -/
theorem scan_count (mode : Mode) (s : Str) (hbad : Tok.bad ∉ scan mode s) :
    2 * pairCount (scan mode s) + refCount (scan mode s) ≤ mode.pending + s.count '%' ∧
      (mode.pending + s.count '%' ≠ 0 → 1 ≤ pairCount (scan mode s) + refCount (scan mode s)) := by
  fun_induction scan mode s with
  | case1 => simp [pairCount, refCount, Mode.pending]
  | case2 s ih =>
    have := ih hbad
    simp only [Mode.pending, List.count_cons_self] at this ⊢
    omega
  | case3 c s hc ih =>
    have := ih fun h => hbad (List.mem_cons_of_mem _ h)
    simp only [Mode.pending, pairCount, refCount, List.count_cons_of_ne hc] at this ⊢
    simpa [hc] using this
  | case4 => simp at hbad
  | case5 s ih =>
    have := ih fun h => hbad (List.mem_cons_of_mem _ h)
    simp only [Mode.pending, pairCount, refCount, List.count_cons_self] at this ⊢
    simp at this ⊢
    omega
  | case6 s hc ih =>
    have := ih hbad
    simp only [Mode.pending] at this ⊢
    simpa using this
  | case7 => simp at hbad
  | case8 => simp at hbad
  | case9 => simp at hbad
  | case10 acc s hacc ih =>
    have := ih fun h => hbad (List.mem_cons_of_mem _ h)
    simp only [Mode.pending, pairCount, refCount] at this ⊢
    simp at this ⊢
    omega
  | case11 => simp at hbad
  | case12 acc c s _ hc ih =>
    have := ih hbad
    -- a `%` inside the name of a reference belongs to no other token
    have hle : s.count '%' ≤ (c :: s).count '%' := List.count_le_count_cons
    simp only [Mode.pending] at this ⊢
    omega

/-- When every reference expands to plain text, the `%` of the result are the `%%`
of the value. -/
theorem count_expand {look : Str → Except InterpError Str} {ts : List Tok} {v : Str}
    (h : ∀ name w, .ref name ∈ ts → look name = .ok w → Plain w) (hv : expand look ts = .ok v) :
    v.count '%' = pairCount ts := by
  induction ts generalizing v with
  | nil => cases hv; rfl
  | cons t ts ih =>
    obtain ⟨a, w, ha, hw, rfl⟩ := expand_cons_eq_ok.mp hv
    have hrest := ih (fun name w hmem => h name w (List.mem_cons_of_mem _ hmem)) hw
    rw [List.count_append, hrest, pairCount, pairCount, List.countP_cons]
    cases t with
    | bad => cases ha
    | lit c =>
      cases ha
      simp [List.count_singleton, Nat.add_comm]
    | ref name =>
      rw [List.count_eq_zero.mpr (h name a List.mem_cons_self ha)]
      simp

theorem bad_notMem_of_expand {look : Str → Except InterpError Str} {ts : List Tok} {v : Str}
    (hv : expand look ts = .ok v) : Tok.bad ∉ ts := by
  induction ts generalizing v with
  | nil => simp
  | cons t ts ih =>
    obtain ⟨a, w, ha, hw, rfl⟩ := expand_cons_eq_ok.mp hv
    have hrest := ih hw
    cases t with
    | bad => cases ha
    | lit c => simpa using hrest
    | ref name => simpa using hrest

/-- **A value that reads as itself has no `%`**, when what it refers to has none: a
`%%` would have become shorter, and a reference would have gone. -/
theorem plain_of_expand_eq_self {look : Str → Except InterpError Str} {v : Str}
    (h : ∀ name w, .ref name ∈ tokens v → look name = .ok w → Plain w)
    (hv : expand look (tokens v) = .ok v) : Plain v := by
  -- the value has as many `%` as `%%`, but each `%%` takes two and each reference one
  have hcount := count_expand h hv
  obtain ⟨hle, hpos⟩ := scan_count .text v (bad_notMem_of_expand hv)
  simp only [Mode.pending, Nat.zero_add] at hle hpos
  have hzero : v.count '%' = 0 := by
    by_contra hne
    have := hpos hne
    unfold tokens at hcount
    omega
  exact List.count_eq_zero.mp hzero

end Ini
end Dfuser
