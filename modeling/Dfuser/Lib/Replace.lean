import Mathlib.Data.List.Find
import Mathlib.Data.List.Infix
import Dfuser.Lib.Text

/-!
# Replacing text

Literal replacement, as `s/…/…/g` does it for a pattern without special characters:
the text is read from the left, and what starts with a pattern is replaced and skipped.
With several rules, the first that applies is taken, all of them in one pass.

A replacement cannot reach over a character that no pattern has behind its first one.
So a pattern whose first letter does not come again in it never meets itself, and
the text may be cut before any such letter.

## Main definitions

* `rewriteAll` — replace the left sides of rules by their right sides, in one pass.
* `replaceAll p r` — replace `p` by `r`.
* `occurrences p s` — how often `p` is replaced in `s`.
* `replaceFirst p r` — replace the first `p` by `r`.

## Main results

* `rewriteAll_induction` — the cases of a pass.
* `rewriteAll_append_cons` — **a pass may be cut** before a character that is no later
  character of a pattern.
* `countP_replaceAll` — what a replacement does to the number of characters of a kind.
* `replaceAll_eq_self_iff` — when a replacement changes nothing.
-/

namespace Dfuser

/-! ### Passes -/

/-- A pass over the text, the first characters of which are to be skipped. -/
def rewriteFrom (rules : List (Str × Str)) : ℕ → Str → Str
  | _, [] => []
  | skip + 1, _ :: s => rewriteFrom rules skip s
  | 0, a :: s =>
    match rules.find? fun rule => rule.1.isPrefixOf (a :: s) with
    | some (p, r) => r ++ rewriteFrom rules (p.length - 1) s
    | none => a :: rewriteFrom rules 0 s

/-- Replace the left sides of rules by their right sides, in one pass. -/
def rewriteAll (rules : List (Str × Str)) (s : Str) : Str := rewriteFrom rules 0 s

variable {rules : List (Str × Str)}

@[simp] theorem rewriteAll_nil : rewriteAll rules [] = [] := rfl

theorem rewriteFrom_eq (skip : ℕ) (s : Str) :
    rewriteFrom rules skip s = rewriteAll rules (s.drop skip) := by
  induction skip generalizing s with
  | zero => rfl
  | succ skip ih =>
    cases s with
    | nil => rfl
    | cons a s => exact ih s

/-- The rule that applies at the start of the text. -/
def ruleAt (rules : List (Str × Str)) (s : Str) : Option (Str × Str) :=
  rules.find? fun rule => rule.1.isPrefixOf s

theorem rewriteAll_of_ruleAt {p r s : Str} (hp : p ≠ []) (h : ruleAt rules (p ++ s) = some (p, r)) :
    rewriteAll rules (p ++ s) = r ++ rewriteAll rules s := by
  obtain ⟨a, p, rfl⟩ := List.exists_cons_of_ne_nil hp
  rw [ruleAt, List.cons_append] at h
  rw [rewriteAll, List.cons_append, rewriteFrom, h]
  dsimp only
  rw [rewriteFrom_eq, List.length_cons, Nat.add_sub_cancel, List.drop_left]

theorem rewriteAll_of_none {a : Char} {s : Str} (h : ruleAt rules (a :: s) = none) :
    rewriteAll rules (a :: s) = a :: rewriteAll rules s := by
  rw [ruleAt] at h
  rw [rewriteAll, rewriteFrom, h]
  rfl

theorem ruleAt_eq_some {p r s : Str} (h : ruleAt rules s = some (p, r)) :
    (p, r) ∈ rules ∧ ∃ t, s = p ++ t := by
  refine ⟨List.mem_of_find?_eq_some h, ?_⟩
  have hpre := List.find?_some h
  obtain ⟨t, ht⟩ := List.isPrefixOf_iff_prefix.mp hpre
  exact ⟨t, ht.symm⟩

theorem ruleAt_eq_none {s : Str} : ruleAt rules s = none ↔ ∀ rule ∈ rules, ¬ rule.1 <+: s := by
  rw [ruleAt, List.find?_eq_none]
  simp only [List.isPrefixOf_iff_prefix]

/-- **The cases of a pass**: nothing is left, a rule applies, or none does. -/
theorem rewriteAll_induction (hrules : ∀ rule ∈ rules, rule.1 ≠ []) {motive : Str → Prop}
    (nil : motive [])
    (rule : ∀ p r s, (p, r) ∈ rules → ruleAt rules (p ++ s) = some (p, r) → motive s →
      motive (p ++ s))
    (none : ∀ a s, ruleAt rules (a :: s) = none → motive s → motive (a :: s)) (s : Str) :
    motive s := by
  induction hn : s.length using Nat.strong_induction_on generalizing s with
  | _ n ih =>
    cases s with
    | nil => exact nil
    | cons a s =>
      cases hr : ruleAt rules (a :: s) with
      | none => exact none a s hr (ih s.length (by rw [← hn]; exact Nat.lt_succ_self _) s rfl)
      | some pr =>
        obtain ⟨p, r⟩ := pr
        obtain ⟨hmem, t, ht⟩ := ruleAt_eq_some hr
        have hpos : 0 < p.length := List.length_pos_iff.mpr (hrules _ hmem)
        rw [ht] at hr hn ⊢
        rw [List.length_append] at hn
        exact rule p r t hmem hr (ih t.length (by omega) t rfl)

/-- A character that no pattern has behind its first one ends what is before it. -/
theorem ruleAt_append_cons {d : Char} (hd : ∀ rule ∈ rules, d ∉ rule.1.tail) (a : Char)
    (s t : Str) : ruleAt rules (a :: s ++ d :: t) = ruleAt rules (a :: s) := by
  have hpre : ∀ rule ∈ rules,
      rule.1.isPrefixOf (a :: s ++ d :: t) = rule.1.isPrefixOf (a :: s) := by
    intro rule hrule
    rw [Bool.eq_iff_iff, List.isPrefixOf_iff_prefix, List.isPrefixOf_iff_prefix]
    constructor
    · intro h
      have hstart : a :: s <+: a :: s ++ d :: t := List.prefix_append _ _
      rcases Nat.le_total rule.1.length (a :: s).length with hle | hle
      · exact List.prefix_of_prefix_length_le h hstart hle
      · -- what is left of the pattern could only start with `d`
        obtain ⟨u, hu⟩ := List.prefix_of_prefix_length_le hstart h hle
        rw [← hu, List.prefix_append_right_inj] at h
        cases u with
        | nil => exact ⟨[], by rw [← hu, List.append_nil, List.append_nil]⟩
        | cons c u =>
          obtain ⟨rfl, -⟩ := List.cons_prefix_cons.mp h
          refine absurd ?_ (hd rule hrule)
          rw [← hu]
          simp
    · intro h
      exact h.trans (List.prefix_append _ _)
  exact List.find?_congr hpre

/-- **A pass may be cut** before a character that no pattern has behind its first
one. -/
theorem rewriteAll_append_cons (hrules : ∀ rule ∈ rules, rule.1 ≠ []) {d : Char}
    (hd : ∀ rule ∈ rules, d ∉ rule.1.tail) (s t : Str) :
    rewriteAll rules (s ++ d :: t) = rewriteAll rules s ++ rewriteAll rules (d :: t) := by
  induction s using rewriteAll_induction hrules with
  | nil => rfl
  | rule p r s hmem hrule ih =>
    have hp := hrules _ hmem
    obtain ⟨a, p', rfl⟩ := List.exists_cons_of_ne_nil hp
    have hrule' : ruleAt rules ((a :: p') ++ (s ++ d :: t)) = some (a :: p', r) := by
      rw [← hrule, ← List.append_assoc]
      exact ruleAt_append_cons hd a (p' ++ s) t
    rw [List.append_assoc, rewriteAll_of_ruleAt hp hrule', rewriteAll_of_ruleAt hp hrule, ih,
      List.append_assoc]
  | none a s hnone ih =>
    have hnone' : ruleAt rules (a :: (s ++ d :: t)) = none := by
      rw [← hnone]
      exact ruleAt_append_cons hd a s t
    rw [List.cons_append, rewriteAll_of_none hnone', rewriteAll_of_none hnone, ih, List.cons_append]

/-- Text in which no pattern starts is passed over. -/
theorem rewriteAll_append_of_notMem {s : Str} (h : ∀ rule ∈ rules, ∃ c ∉ s, rule.1.head? = some c)
    (t : Str) : rewriteAll rules (s ++ t) = s ++ rewriteAll rules t := by
  induction s with
  | nil => rfl
  | cons a s ih =>
    have hnone : ruleAt rules (a :: (s ++ t)) = none := by
      refine ruleAt_eq_none.mpr fun rule hrule hpre => ?_
      obtain ⟨c, hc, hhead⟩ := h rule hrule
      obtain ⟨u, hu⟩ := hpre
      obtain ⟨p', hp'⟩ := List.head?_eq_some_iff.mp hhead
      rw [hp', List.cons_append] at hu
      exact hc (by rw [(List.cons.inj hu).1]; exact List.mem_cons_self)
    rw [List.cons_append, rewriteAll_of_none hnone, ih fun rule hrule => ?_, List.cons_append]
    obtain ⟨c, hc, hhead⟩ := h rule hrule
    exact ⟨c, fun hmem => hc (List.mem_cons_of_mem a hmem), hhead⟩

/-! ### One pattern -/

/-- Replace `p` by `r`. -/
def replaceAll (p r s : Str) : Str := rewriteAll [(p, r)] s

/-- The number of times `p` is replaced, the first characters being skipped. -/
def occurrencesFrom (p : Str) : ℕ → Str → ℕ
  | _, [] => 0
  | skip + 1, _ :: s => occurrencesFrom p skip s
  | 0, a :: s =>
    if p.isPrefixOf (a :: s) then occurrencesFrom p (p.length - 1) s + 1 else occurrencesFrom p 0 s

/-- The number of times `p` is replaced. -/
def occurrences (p s : Str) : ℕ := occurrencesFrom p 0 s

section

variable {p r : Str}

@[simp] theorem replaceAll_nil : replaceAll p r [] = [] := rfl

@[simp] theorem occurrences_nil : occurrences p [] = 0 := rfl

theorem ruleAt_singleton (p r s : Str) :
    ruleAt [(p, r)] s = if p <+: s then some (p, r) else none := by
  by_cases h : p <+: s
  · rw [if_pos h]
    exact List.find?_cons_of_pos (List.isPrefixOf_iff_prefix.mpr h)
  · rw [if_neg h, ruleAt_eq_none]
    intro rule hrule
    rw [List.mem_singleton] at hrule
    rwa [hrule]

theorem replaceAll_append (hp : p ≠ []) (s : Str) :
    replaceAll p r (p ++ s) = r ++ replaceAll p r s :=
  rewriteAll_of_ruleAt hp (by rw [ruleAt_singleton, if_pos (List.prefix_append p s)])

theorem replaceAll_cons {a : Char} {s : Str} (h : ¬ p <+: a :: s) :
    replaceAll p r (a :: s) = a :: replaceAll p r s :=
  rewriteAll_of_none (by rw [ruleAt_singleton, if_neg h])

theorem occurrencesFrom_eq (skip : ℕ) (s : Str) :
    occurrencesFrom p skip s = occurrences p (s.drop skip) := by
  induction skip generalizing s with
  | zero => rfl
  | succ skip ih =>
    cases s with
    | nil => rfl
    | cons a s => exact ih s

theorem occurrences_append (hp : p ≠ []) (s : Str) :
    occurrences p (p ++ s) = occurrences p s + 1 := by
  obtain ⟨a, p, rfl⟩ := List.exists_cons_of_ne_nil hp
  have hpre : (a :: p).isPrefixOf (a :: (p ++ s)) = true :=
    List.isPrefixOf_iff_prefix.mpr (List.prefix_append (a :: p) s)
  rw [occurrences, List.cons_append, occurrencesFrom, if_pos hpre, occurrencesFrom_eq,
    List.length_cons, Nat.add_sub_cancel, List.drop_left]

theorem occurrences_cons {a : Char} {s : Str} (h : ¬ p <+: a :: s) :
    occurrences p (a :: s) = occurrences p s := by
  rw [occurrences, occurrencesFrom, if_neg (mt List.isPrefixOf_iff_prefix.mp h)]
  rfl

/-- The cases of a replacement: nothing is left, the pattern is next, or it is not. -/
theorem replaceAll_induction (hp : p ≠ []) {motive : Str → Prop} (nil : motive [])
    (append : ∀ s, motive s → motive (p ++ s))
    (cons : ∀ a s, ¬ p <+: a :: s → motive s → motive (a :: s)) (s : Str) : motive s := by
  have hrules : ∀ rule ∈ [(p, ([] : Str))], rule.1 ≠ [] := by
    intro rule hrule
    rw [List.mem_singleton] at hrule
    rwa [hrule]
  induction s using rewriteAll_induction hrules with
  | nil => exact nil
  | rule q r s hmem _ ih =>
    cases List.mem_singleton.mp hmem
    exact append s ih
  | none a s hnone ih =>
    rw [ruleAt_singleton] at hnone
    by_cases h : p <+: a :: s
    · rw [if_pos h] at hnone
      cases hnone
    · exact cons a s h ih

/-- What a replacement does to the number of characters of a kind. -/
theorem countP_replaceAll (hp : p ≠ []) (f : Char → Bool) (s : Str) :
    (replaceAll p r s).countP f + occurrences p s * p.countP f =
      s.countP f + occurrences p s * r.countP f := by
  induction s using replaceAll_induction hp with
  | nil => simp
  | append s ih =>
    rw [replaceAll_append hp, occurrences_append hp, List.countP_append, List.countP_append,
      Nat.succ_mul, Nat.succ_mul]
    omega
  | cons a s h ih =>
    rw [replaceAll_cons h, occurrences_cons h, List.countP_cons, List.countP_cons]
    omega

theorem length_replaceAll (hp : p ≠ []) (s : Str) :
    (replaceAll p r s).length + occurrences p s * p.length =
      s.length + occurrences p s * r.length := by
  simpa using countP_replaceAll (r := r) hp (fun _ => true) s

theorem count_replaceAll (hp : p ≠ []) (c : Char) (s : Str) :
    (replaceAll p r s).count c + occurrences p s * p.count c =
      s.count c + occurrences p s * r.count c :=
  countP_replaceAll hp (· == c) s

theorem replaceAll_self (hp : p ≠ []) (s : Str) : replaceAll p p s = s := by
  induction s using replaceAll_induction hp with
  | nil => rfl
  | append s ih => rw [replaceAll_append hp, ih]
  | cons a s h ih => rw [replaceAll_cons h, ih]

theorem occurrences_eq_zero_iff (hp : p ≠ []) (s : Str) : occurrences p s = 0 ↔ ¬ p <:+: s := by
  induction s using replaceAll_induction hp with
  | nil => simp [hp]
  | append s ih =>
    rw [occurrences_append hp]
    simp [(List.prefix_append p s).isInfix]
  | cons a s h ih => rw [occurrences_cons h, ih, List.infix_cons_iff, or_iff_right h]

theorem replaceAll_of_absent (hp : p ≠ []) {s : Str} (h : ¬ p <:+: s) : replaceAll p r s = s := by
  induction s using replaceAll_induction hp with
  | nil => rfl
  | append s ih => exact absurd (List.prefix_append p s).isInfix h
  | cons a s hpre ih =>
    rw [replaceAll_cons hpre, ih fun hs => h (List.infix_cons hs)]

/-- A replacement that changes nothing has nothing to replace, or replaces by the
same. -/
theorem replaceAll_eq_self_iff (hp : p ≠ []) (s : Str) :
    replaceAll p r s = s ↔ ¬ p <:+: s ∨ r = p := by
  constructor
  · intro h
    by_cases hs : p <:+: s
    · right
      have hpos : occurrences p s ≠ 0 := fun h0 => (occurrences_eq_zero_iff hp s).mp h0 hs
      have hlength : r.length = p.length := by
        have := length_replaceAll (r := r) hp s
        rw [h, Nat.add_left_cancel_iff] at this
        exact (Nat.eq_of_mul_eq_mul_left (Nat.pos_of_ne_zero hpos) this).symm
      induction s using replaceAll_induction hp with
      | nil => exact absurd (List.infix_nil.mp hs) hp
      | append s ih =>
        rw [replaceAll_append hp] at h
        exact (List.append_inj h hlength).1
      | cons a s hpre ih =>
        rw [replaceAll_cons hpre] at h
        rw [List.infix_cons_iff, or_iff_right hpre] at hs
        exact ih (List.cons.inj h).2 hs fun h0 => (occurrences_eq_zero_iff hp s).mp h0 hs
    · exact Or.inl hs
  · rintro (h | rfl)
    · exact replaceAll_of_absent hp h
    · exact replaceAll_self hp s

/-- The first place of a pattern. -/
theorem exists_first (hp : p ≠ []) {s : Str} (h : p <:+: s) :
    ∃ a b, s = a ++ p ++ b ∧ ¬ p <:+: a := by
  induction s using replaceAll_induction hp with
  | nil => exact absurd (List.infix_nil.mp h) hp
  | append s ih => exact ⟨[], s, rfl, fun hnil => hp (List.infix_nil.mp hnil)⟩
  | cons c s hpre ih =>
    rw [List.infix_cons_iff, or_iff_right hpre] at h
    obtain ⟨a, b, rfl, ha⟩ := ih h
    refine ⟨c :: a, b, rfl, ?_⟩
    rw [List.infix_cons_iff, not_or]
    refine ⟨fun hca => hpre (hca.trans ?_), ha⟩
    rw [List.append_assoc]
    exact List.prefix_append (c :: a) (p ++ b)

/-- A replacement may be cut before a character that is no later one of the pattern. -/
theorem replaceAll_append_cons (hp : p ≠ []) {d : Char} (hd : d ∉ p.tail) (s t : Str) :
    replaceAll p r (s ++ d :: t) = replaceAll p r s ++ replaceAll p r (d :: t) := by
  refine rewriteAll_append_cons (fun rule hrule => ?_) (fun rule hrule => ?_) s t
  · rw [List.mem_singleton] at hrule
    rwa [hrule]
  · rw [List.mem_singleton] at hrule
    rwa [hrule]

/-- So may the counting of the places. -/
theorem occurrences_append_cons (hp : p ≠ []) {d : Char} (hd : d ∉ p.tail) (s t : Str) :
    occurrences p (s ++ d :: t) = occurrences p s + occurrences p (d :: t) := by
  have hcut := congrArg List.length (replaceAll_append_cons (r := d :: p) hp hd s t)
  have hwhole := length_replaceAll (r := d :: p) hp (s ++ d :: t)
  have hleft := length_replaceAll (r := d :: p) hp s
  have hright := length_replaceAll (r := d :: p) hp (d :: t)
  simp only [List.length_append, List.length_cons, Nat.mul_succ] at hcut hwhole hleft hright
  omega

end

/-! ### The first one only -/

/-- Replace the first `p` by `r`. -/
def replaceFirst (p r : Str) : Str → Str
  | [] => if p = [] then r else []
  | a :: s => if p <+: a :: s then r ++ (a :: s).drop p.length else a :: replaceFirst p r s

theorem mem_replaceFirst {p r s : Str} {c : Char} (h : c ∈ replaceFirst p r s) : c ∈ r ∨ c ∈ s := by
  induction s with
  | nil =>
    rw [replaceFirst] at h
    split at h
    · exact .inl h
    · cases h
  | cons a s ih =>
    rw [replaceFirst] at h
    split at h
    · rcases List.mem_append.mp h with h | h
      · exact .inl h
      · exact .inr (List.mem_of_mem_drop h)
    · rcases List.mem_cons.mp h with rfl | h
      · exact .inr List.mem_cons_self
      · exact (ih h).imp_right (List.mem_cons_of_mem a)

theorem replaceFirst_append {p : Str} (hp : p ≠ []) (r s : Str) :
    replaceFirst p r (p ++ s) = r ++ s := by
  obtain ⟨a, q, rfl⟩ := List.exists_cons_of_ne_nil hp
  rw [List.cons_append, replaceFirst, ← List.cons_append, if_pos (List.prefix_append _ _),
    List.drop_left]

/-- Text in which no `p` can start is passed over. -/
theorem replaceFirst_append_of_tails {p a : Str} (h : ∀ x ∈ a.tails, x ≠ [] → ¬ p <+: x ∧ ¬ x <+: p)
    (r s : Str) : replaceFirst p r (a ++ s) = a ++ replaceFirst p r s := by
  induction a with
  | nil => rfl
  | cons c a ih =>
    have hself := h (c :: a) (by simp) (by simp)
    have hnot : ¬ p <+: c :: (a ++ s) := by
      intro hp
      rcases List.prefix_or_prefix_of_prefix hp (List.prefix_append (c :: a) s) with hpre | hpre
      · exact hself.1 hpre
      · exact hself.2 hpre
    rw [List.cons_append, replaceFirst, if_neg hnot, ih, List.cons_append]
    intro x hx
    exact h x ((List.mem_tails _ _).mpr (((List.mem_tails _ _).mp hx).trans (List.suffix_cons c a)))

end Dfuser
