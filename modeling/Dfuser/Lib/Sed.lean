import Dfuser.Lib.Replace
import Dfuser.Lib.Lines

/-!
# The stream editor

`sed` takes a file line by line and applies its commands to each line, one after the
other.  The commands here are `s/…/…/g` with a pattern of letters, digits and
underscores; in the replacement `&` stands for what was matched.

Two such commands replace one after the other, so that the second also sees what the
first has put in.  They come to one pass over the text exactly when the first puts in
nothing that the second would replace.

## Main definitions

* `Substitution`, `substitution?` — such a command, read from its script.
* `sedOutput` — what `sed` prints.

## Main results

* `replaceAll_replaceAll_eq_iff` — **when two passes are one.**
* `sedOutput_eq` — the lines do not matter.
-/

namespace Dfuser

/-! ### Two patterns -/

section TwoPatterns

variable {c : Char} {p q : Str}

/-- The cases of a text by the places of a pattern: there is none, or there is a first
one. -/
theorem first_induction (hq : q ≠ []) {motive : Str → Prop} (base : ∀ t, ¬ q <:+: t → motive t)
    (step : ∀ a b, ¬ q <:+: a → motive b → motive (a ++ q ++ b)) (t : Str) : motive t := by
  induction hn : t.length using Nat.strong_induction_on generalizing t with
  | _ n ih =>
    by_cases h : q <:+: t
    · obtain ⟨a, b, rfl, ha⟩ := exists_first hq h
      have hpos : 0 < q.length := List.length_pos_iff.mpr hq
      rw [List.length_append, List.length_append] at hn
      exact step a b ha (ih b.length (by omega) b rfl)
    · exact base t h

/-- Two patterns that start with the same letter, have it nowhere else, and are not one
the start of the other. -/
structure Distinct (c : Char) (p q : Str) : Prop where
  left : c ∉ p
  right : c ∉ q
  not_prefix : ¬ p <+: q
  not_prefix' : ¬ q <+: p

/-- Where the second pattern does not occur, one pass is the replacement of the first. -/
theorem rewriteAll_of_absent (r w : Str) {t : Str} (ht : ¬ c :: q <:+: t) :
    rewriteAll [(c :: p, r), (c :: q, w)] t = replaceAll (c :: p) r t := by
  have hrules : ∀ rule ∈ [(c :: p, r), (c :: q, w)], rule.1 ≠ [] := by simp
  induction t using rewriteAll_induction hrules with
  | nil => rfl
  | rule p' r' s hmem hrule ih =>
    have hs : ¬ c :: q <:+: s := fun hs => ht (hs.trans (List.suffix_append p' s).isInfix)
    simp only [List.mem_cons, Prod.mk.injEq, List.not_mem_nil, or_false] at hmem
    rcases hmem with ⟨rfl, rfl⟩ | ⟨rfl, rfl⟩
    · rw [rewriteAll_of_ruleAt (List.cons_ne_nil c p) hrule, ih hs,
        replaceAll_append (List.cons_ne_nil c p)]
    · exact absurd (List.prefix_append (c :: q) s).isInfix ht
  | none a s hnone ih =>
    have hpre : ¬ c :: p <+: a :: s := ruleAt_eq_none.mp hnone _ List.mem_cons_self
    rw [rewriteAll_of_none hnone, replaceAll_cons hpre, ih fun hs => ht (List.infix_cons hs)]

variable (h : Distinct c p q)
include h

theorem Distinct.not_prefix_append (b : Str) : ¬ c :: p <+: c :: (q ++ b) := by
  intro hpre
  rw [List.cons_prefix_cons] at hpre
  rcases Nat.le_total p.length q.length with hle | hle
  · exact h.not_prefix (List.prefix_of_prefix_length_le hpre.2 (List.prefix_append q b) hle)
  · exact h.not_prefix' (List.prefix_of_prefix_length_le (List.prefix_append q b) hpre.2 hle)

/-- The other pattern is passed over. -/
theorem Distinct.replaceAll_other (r a b : Str) :
    replaceAll (c :: p) r (a ++ c :: q ++ b) =
      replaceAll (c :: p) r a ++ c :: q ++ replaceAll (c :: p) r b := by
  have hpass : replaceAll (c :: p) r (q ++ b) = q ++ replaceAll (c :: p) r b := by
    refine rewriteAll_append_of_notMem (fun rule hrule => ?_) b
    rw [List.mem_singleton] at hrule
    exact ⟨c, h.right, by rw [hrule]; rfl⟩
  rw [List.append_assoc, List.cons_append, replaceAll_append_cons (List.cons_ne_nil c p) h.left,
    replaceAll_cons (h.not_prefix_append b), hpass, List.append_assoc, List.cons_append]

/-- The pattern itself is replaced. -/
theorem Distinct.replaceAll_self (w x y : Str) :
    replaceAll (c :: q) w (x ++ c :: q ++ y) =
      replaceAll (c :: q) w x ++ w ++ replaceAll (c :: q) w y := by
  rw [List.append_assoc, List.cons_append, replaceAll_append_cons (List.cons_ne_nil c q) h.right,
    ← List.cons_append, replaceAll_append (List.cons_ne_nil c q), List.append_assoc]

theorem Distinct.occurrences_other (a b : Str) :
    occurrences (c :: p) (a ++ c :: q ++ b) =
      occurrences (c :: p) a + occurrences (c :: p) b := by
  have hp := List.cons_ne_nil c p
  have hcut := congrArg List.length (h.replaceAll_other (c :: c :: p) a b)
  have hwhole := length_replaceAll (r := c :: c :: p) hp (a ++ c :: q ++ b)
  have hleft := length_replaceAll (r := c :: c :: p) hp a
  have hright := length_replaceAll (r := c :: c :: p) hp b
  simp only [List.length_append, List.length_cons, Nat.mul_succ] at hcut hwhole hleft hright
  omega

theorem Distinct.occurrences_self (x y : Str) :
    occurrences (c :: q) (x ++ c :: q ++ y) =
      occurrences (c :: q) x + (occurrences (c :: q) y + 1) := by
  rw [List.append_assoc, List.cons_append,
    occurrences_append_cons (List.cons_ne_nil c q) h.right, ← List.cons_append,
    occurrences_append (List.cons_ne_nil c q)]

/-- One pass, up to the first place of the second pattern. -/
theorem Distinct.rewriteAll_first (r w : Str) {a : Str} (ha : ¬ c :: q <:+: a) (b : Str) :
    rewriteAll [(c :: p, r), (c :: q, w)] (a ++ c :: q ++ b) =
      replaceAll (c :: p) r a ++ w ++ rewriteAll [(c :: p, r), (c :: q, w)] b := by
  have hrules : ∀ rule ∈ [(c :: p, r), (c :: q, w)], rule.1 ≠ [] := by simp
  have htails : ∀ rule ∈ [(c :: p, r), (c :: q, w)], c ∉ rule.1.tail := by
    simp [h.left, h.right]
  have hrule : ruleAt [(c :: p, r), (c :: q, w)] (c :: q ++ b) = some (c :: q, w) := by
    rw [ruleAt, List.find?_cons_of_neg, List.find?_cons_of_pos]
    · exact List.isPrefixOf_iff_prefix.mpr (List.prefix_append (c :: q) b)
    · rw [List.isPrefixOf_iff_prefix]
      exact h.not_prefix_append b
  rw [List.append_assoc, List.cons_append, rewriteAll_append_cons hrules htails,
    rewriteAll_of_absent r w ha, ← List.cons_append,
    rewriteAll_of_ruleAt (List.cons_ne_nil c q) hrule, List.append_assoc]

/-! ### Two passes -/

/-- What one pass does to the number of characters of a kind. -/
theorem Distinct.countP_rewriteAll (f : Char → Bool) (r w t : Str) :
    (rewriteAll [(c :: p, r), (c :: q, w)] t).countP f +
        occurrences (c :: p) t * (c :: p).countP f + occurrences (c :: q) t * (c :: q).countP f =
      t.countP f + occurrences (c :: p) t * r.countP f + occurrences (c :: q) t * w.countP f := by
  have hp := List.cons_ne_nil c p
  have hq := List.cons_ne_nil c q
  induction t using first_induction hq with
  | base t ht =>
    have hcount := countP_replaceAll (r := r) hp f t
    rw [rewriteAll_of_absent r w ht, (occurrences_eq_zero_iff hq t).mpr ht]
    omega
  | step a b ha ih =>
    have hcount := countP_replaceAll (r := r) hp f a
    rw [h.rewriteAll_first r w ha, h.occurrences_other, h.occurrences_self,
      (occurrences_eq_zero_iff hq a).mpr ha]
    simp only [List.countP_append, Nat.add_mul, Nat.zero_add, Nat.one_mul]
    omega

/-- Replacing the first pattern keeps the places of the second one. -/
theorem Distinct.occurrences_le (r t : Str) :
    occurrences (c :: q) t ≤ occurrences (c :: q) (replaceAll (c :: p) r t) := by
  have hq := List.cons_ne_nil c q
  induction t using first_induction hq with
  | base t ht =>
    rw [(occurrences_eq_zero_iff hq t).mpr ht]
    exact Nat.zero_le _
  | step a b ha ih =>
    rw [h.replaceAll_other, h.occurrences_self, h.occurrences_self,
      (occurrences_eq_zero_iff hq a).mpr ha]
    omega

/-- Two passes are one when nothing new is there to be replaced. -/
theorem Distinct.replaceAll_replaceAll_of_occurrences (r w : Str) {t : Str}
    (ht : occurrences (c :: q) (replaceAll (c :: p) r t) = occurrences (c :: q) t) :
    replaceAll (c :: q) w (replaceAll (c :: p) r t) = rewriteAll [(c :: p, r), (c :: q, w)] t := by
  have hq := List.cons_ne_nil c q
  induction t using first_induction hq with
  | base t hno =>
    rw [(occurrences_eq_zero_iff hq t).mpr hno, occurrences_eq_zero_iff hq] at ht
    rw [rewriteAll_of_absent r w hno, replaceAll_of_absent hq ht]
  | step a b ha ih =>
    have hle := h.occurrences_le r b
    rw [h.replaceAll_other, h.occurrences_self, h.occurrences_self,
      (occurrences_eq_zero_iff hq a).mpr ha] at ht
    have hleft : ¬ c :: q <:+: replaceAll (c :: p) r a :=
      (occurrences_eq_zero_iff hq _).mp (by omega)
    rw [h.replaceAll_other, h.replaceAll_self, h.rewriteAll_first r w ha, ih (by omega),
      replaceAll_of_absent hq hleft]

/-- So they are when the second one changes nothing. -/
theorem Distinct.rewriteAll_self (r t : Str) :
    rewriteAll [(c :: p, r), (c :: q, c :: q)] t = replaceAll (c :: p) r t := by
  have hq := List.cons_ne_nil c q
  induction t using first_induction hq with
  | base t ht => exact rewriteAll_of_absent r (c :: q) ht
  | step a b ha ih => rw [h.rewriteAll_first r (c :: q) ha, h.replaceAll_other, ih]

/-- Something new that is replaced by a text of the same length shows. -/
theorem Distinct.eq_of_replaceAll_replaceAll (r : Str) {w t : Str}
    (hlen : w.length = (c :: q).length) (heq : replaceAll (c :: q) w (replaceAll (c :: p) r t) =
      rewriteAll [(c :: p, r), (c :: q, w)] t)
    (ht : occurrences (c :: q) (replaceAll (c :: p) r t) ≠ occurrences (c :: q) t) :
    w = c :: q := by
  have hq := List.cons_ne_nil c q
  have hsame : ∀ s, (replaceAll (c :: q) w s).length = s.length := by
    intro s
    have := length_replaceAll (r := w) hq s
    rw [hlen] at this
    omega
  induction t using first_induction hq with
  | base t hno =>
    rw [rewriteAll_of_absent r w hno] at heq
    rw [(occurrences_eq_zero_iff hq t).mpr hno, ne_eq, occurrences_eq_zero_iff hq] at ht
    exact ((replaceAll_eq_self_iff hq _).mp heq).resolve_left ht
  | step a b ha ih =>
    rw [h.replaceAll_other, h.replaceAll_self, h.rewriteAll_first r w ha, List.append_assoc,
      List.append_assoc] at heq
    obtain ⟨hleft, hright⟩ := List.append_inj heq (hsame _)
    rw [h.replaceAll_other, h.occurrences_self, h.occurrences_self,
      (occurrences_eq_zero_iff hq a).mpr ha] at ht
    rcases (replaceAll_eq_self_iff hq _).mp hleft with hnone | hw
    · rw [(occurrences_eq_zero_iff hq _).mpr hnone] at ht
      exact ih (List.append_cancel_left hright) (by omega)
    · exact hw

/-- **When two passes are one.**  Replacing the first pattern and then the second is
one pass exactly when the first replacement makes no new place for the second, or the
second changes nothing. -/
theorem Distinct.replaceAll_replaceAll_eq_iff (r w t : Str) :
    replaceAll (c :: q) w (replaceAll (c :: p) r t) = rewriteAll [(c :: p, r), (c :: q, w)] t ↔
      occurrences (c :: q) (replaceAll (c :: p) r t) = occurrences (c :: q) t ∨ w = c :: q := by
  have hq := List.cons_ne_nil c q
  constructor
  · intro heq
    by_contra hnot
    rw [not_or] at hnot
    -- the lengths tell how often the second pattern was replaced too often
    have hlen : w.length = (c :: q).length := by
      have hlength := congrArg List.length heq
      have htwo := length_replaceAll (r := w) hq (replaceAll (c :: p) r t)
      have hone := length_replaceAll (r := r) (List.cons_ne_nil c p) t
      have hpass := h.countP_rewriteAll (fun _ => true) r w t
      simp only [List.countP_true] at hpass
      have hle := lt_of_le_of_ne (h.occurrences_le r t) (Ne.symm hnot.1)
      obtain ⟨k, hk⟩ := Nat.exists_eq_add_of_lt hle
      rw [hk, Nat.add_mul, Nat.add_mul, Nat.add_mul, Nat.add_mul] at htwo
      have hmul : (k + 1) * w.length = (k + 1) * (c :: q).length := by
        rw [Nat.add_mul, Nat.add_mul]
        omega
      exact Nat.eq_of_mul_eq_mul_left (Nat.succ_pos k) hmul
    exact hnot.2 (h.eq_of_replaceAll_replaceAll r hlen heq hnot.1)
  · rintro (hnew | rfl)
    · exact h.replaceAll_replaceAll_of_occurrences r w hnew
    · rw [h.rewriteAll_self, Dfuser.replaceAll_self hq]

/-! ### Matched text in the replacement -/

omit h in
/-- The text that a replacement stands for: `&` is what was matched. -/
def expansion (p r : Str) : Str := r.flatMap fun a => if a = '&' then p else [a]

omit h in
theorem expansion_of_notMem {r : Str} (hr : '&' ∉ r) (p : Str) : expansion p r = r := by
  have hword : ∀ a ∈ r, (if a = '&' then p else [a]) = [a] := by
    intro a ha
    rw [if_neg]
    rintro rfl
    exact hr ha
  rw [expansion, List.flatMap_congr hword, List.flatMap_singleton']

omit h in
/-- Nothing of the marks is left. -/
theorem notMem_expansion {p : Str} (hp : '&' ∉ p) (r : Str) : '&' ∉ expansion p r := by
  intro hmem
  obtain ⟨a, -, ha⟩ := List.mem_flatMap.mp hmem
  split at ha
  · exact hp ha
  · next hne => exact hne (List.mem_singleton.mp ha).symm

omit h in
theorem length_le_expansion {p : Str} (hp : p ≠ []) (r : Str) :
    r.length ≤ (expansion p r).length := by
  have hpos : 0 < p.length := List.length_pos_iff.mpr hp
  induction r with
  | nil => exact Nat.zero_le _
  | cons a r ih =>
    rw [expansion, List.flatMap_cons, List.length_append, List.length_cons]
    rw [expansion] at ih
    split
    · omega
    · rw [List.length_singleton]
      omega

omit h in
/-- A replacement stands for the pattern when it is the pattern, or the mark. -/
theorem expansion_eq_self_iff {p : Str} (hp : p ≠ []) (hmark : '&' ∉ p) (r : Str) :
    expansion p r = p ↔ r = p ∨ r = ['&'] := by
  constructor
  · intro heq
    by_cases hr : '&' ∈ r
    · obtain ⟨a, b, rfl⟩ := List.append_of_mem hr
      have hparts : expansion p (a ++ '&' :: b) = expansion p a ++ (p ++ expansion p b) := by
        simp [expansion]
      have hlen := congrArg List.length (hparts.symm.trans heq)
      have ha := length_le_expansion hp a
      have hb := length_le_expansion hp b
      simp only [List.length_append] at hlen
      have ha0 : a = [] := List.length_eq_zero_iff.mp (by omega)
      have hb0 : b = [] := List.length_eq_zero_iff.mp (by omega)
      rw [ha0, hb0]
      exact Or.inr rfl
    · rw [expansion_of_notMem hr] at heq
      exact Or.inl heq
  · rintro (rfl | rfl)
    · exact expansion_of_notMem hmark r
    · simp [expansion]

/-- **When two commands are one literal replacement.**  There is no mark in a text that
is put in, and the first command makes no new place for the second, or the second
changes nothing. -/
theorem Distinct.replaceAll_expansion_iff (hp : '&' ∉ c :: p) (hq : '&' ∉ c :: q) (r w t : Str) :
    replaceAll (c :: q) (expansion (c :: q) w) (replaceAll (c :: p) (expansion (c :: p) r) t) =
        rewriteAll [(c :: p, r), (c :: q, w)] t ↔
      (c :: p <:+: t → '&' ∉ r) ∧ (c :: q <:+: t → '&' ∉ w) ∧
        (occurrences (c :: q) (replaceAll (c :: p) r t) = occurrences (c :: q) t ∨
          expansion (c :: q) w = c :: q) := by
  have hpne := List.cons_ne_nil c p
  have hqne := List.cons_ne_nil c q
  -- without marks that count, both sides are about plain replacements
  have hplain : (c :: p <:+: t → '&' ∉ r) → (c :: q <:+: t → '&' ∉ w) →
      (replaceAll (c :: q) (expansion (c :: q) w) (replaceAll (c :: p) (expansion (c :: p) r) t) =
          rewriteAll [(c :: p, r), (c :: q, w)] t ↔
        occurrences (c :: q) (replaceAll (c :: p) r t) = occurrences (c :: q) t ∨
          expansion (c :: q) w = c :: q) := by
    intro hr hw
    have hfirst : replaceAll (c :: p) (expansion (c :: p) r) t = replaceAll (c :: p) r t := by
      by_cases ht : c :: p <:+: t
      · rw [expansion_of_notMem (hr ht)]
      · rw [replaceAll_of_absent hpne ht, replaceAll_of_absent hpne ht]
    have hpass : rewriteAll [(c :: p, r), (c :: q, w)] t =
        rewriteAll [(c :: p, r), (c :: q, expansion (c :: q) w)] t := by
      by_cases ht : c :: q <:+: t
      · rw [expansion_of_notMem (hw ht)]
      · rw [rewriteAll_of_absent r _ ht, rewriteAll_of_absent r _ ht]
    rw [hfirst, hpass]
    exact h.replaceAll_replaceAll_eq_iff r (expansion (c :: q) w) t
  constructor
  · intro heq
    -- the marks of the texts put in are gone, those of the text itself are not
    have hcount := congrArg (List.count '&') heq
    have hone := count_replaceAll (r := expansion (c :: p) r) hpne '&' t
    have htwo := count_replaceAll (r := expansion (c :: q) w) hqne '&'
      (replaceAll (c :: p) (expansion (c :: p) r) t)
    have hpass := h.countP_rewriteAll (· == '&') r w t
    simp only [← List.count_eq_countP, List.count_eq_zero.mpr hp, List.count_eq_zero.mpr hq,
      List.count_eq_zero.mpr (notMem_expansion hp r),
        List.count_eq_zero.mpr (notMem_expansion hq w),
      Nat.mul_zero, Nat.add_zero] at hone htwo hpass
    have hr : c :: p <:+: t → '&' ∉ r := by
      intro ht
      have hpos : occurrences (c :: p) t ≠ 0 := fun h0 => (occurrences_eq_zero_iff hpne t).mp h0 ht
      have hzero : occurrences (c :: p) t * r.count '&' = 0 := by omega
      exact List.count_eq_zero.mp ((Nat.mul_eq_zero.mp hzero).resolve_left hpos)
    have hw : c :: q <:+: t → '&' ∉ w := by
      intro ht
      have hpos : occurrences (c :: q) t ≠ 0 := fun h0 => (occurrences_eq_zero_iff hqne t).mp h0 ht
      have hzero : occurrences (c :: q) t * w.count '&' = 0 := by omega
      exact List.count_eq_zero.mp ((Nat.mul_eq_zero.mp hzero).resolve_left hpos)
    exact ⟨hr, hw, (hplain hr hw).mp heq⟩
  · intro ⟨hr, hw, hnew⟩
    exact (hplain hr hw).mpr hnew

end TwoPatterns

/-! ### The editor -/

/-- A command `s/pattern/replacement/g`. -/
structure Substitution where
  pattern : Str
  replacement : Str

/-- The command of a script, when it is one whose pattern has nothing but letters,
digits and underscores, and whose replacement has no backslash. -/
def substitution? (script : Str) : Option Substitution :=
  match script.splitOn '/' with
  | [name, pattern, replacement, flags] =>
    if name = ['s'] ∧ flags = ['g'] ∧ pattern ≠ [] ∧ pattern.all isNameChar ∧
        '\\' ∉ replacement ∧ '\n' ∉ replacement then
      some ⟨pattern, replacement⟩
    else none
  | _ => none

/-- Apply a command to a line. -/
def Substitution.apply (cmd : Substitution) (line : Str) : Str :=
  replaceAll cmd.pattern (expansion cmd.pattern cmd.replacement) line

/-- What `sed` prints for a text: its lines, each of them edited by the commands in
turn.  The text after the last newline is no line when it is empty; nothing is
replaced in it then. -/
def sedOutput (cmds : List Substitution) (text : Str) : Str :=
  ['\n'].intercalate <|
    (text.splitOn '\n').map fun line => cmds.foldl (fun line cmd => cmd.apply line) line

/-- A command without a newline in its pattern edits lines as it edits their text. -/
theorem Substitution.intercalate_map_apply {cmd : Substitution} (hne : cmd.pattern ≠ [])
    (hline : '\n' ∉ cmd.pattern) (lines : List Str) :
    ['\n'].intercalate (lines.map cmd.apply) = cmd.apply (['\n'].intercalate lines) := by
  induction lines with
  | nil => rfl
  | cons line lines ih =>
    cases lines with
    | nil => rw [List.map_singleton, List.intercalate_singleton, List.intercalate_singleton]
    | cons next lines =>
      have hend : ¬ cmd.pattern <+: '\n' :: ['\n'].intercalate (next :: lines) := by
        intro hpre
        obtain ⟨u, hu⟩ := hpre
        obtain ⟨a, p, hp⟩ := List.exists_cons_of_ne_nil hne
        rw [hp, List.cons_append] at hu
        exact hline (by rw [hp, (List.cons.inj hu).1]; exact List.mem_cons_self)
      have htail : '\n' ∉ cmd.pattern.tail := fun h => hline (List.mem_of_mem_tail h)
      rw [List.map_cons, List.map_cons, List.intercalate_cons_cons, ← List.map_cons, ih,
        List.intercalate_cons_cons, List.append_assoc, List.append_assoc, List.singleton_append,
        List.singleton_append, Substitution.apply, Substitution.apply, Substitution.apply,
        replaceAll_append_cons hne htail, replaceAll_cons hend]

/-- **The lines do not matter** to commands without a newline in their patterns. -/
theorem sedOutput_eq {cmds : List Substitution}
    (h : ∀ cmd ∈ cmds, cmd.pattern ≠ [] ∧ '\n' ∉ cmd.pattern) (text : Str) :
    sedOutput cmds text = cmds.foldl (fun text cmd => cmd.apply text) text := by
  have hlines : ∀ lines : List Str,
      ['\n'].intercalate (lines.map fun line => cmds.foldl (fun line cmd => cmd.apply line) line) =
        cmds.foldl (fun text cmd => cmd.apply text) (['\n'].intercalate lines) := by
    induction cmds with
    | nil => intro lines; rw [List.foldl_nil]; exact congrArg _ (List.map_id' lines)
    | cons cmd cmds ih =>
      intro lines
      obtain ⟨hne, hline⟩ := h cmd List.mem_cons_self
      have hrest := ih (fun d hd => h d (List.mem_cons_of_mem cmd hd)) (lines.map cmd.apply)
      rw [List.map_map, Substitution.intercalate_map_apply hne hline] at hrest
      exact hrest
  rw [sedOutput, hlines, List.intercalate_splitOn]

end Dfuser
