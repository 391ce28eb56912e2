import Mathlib.Data.List.Basic
import Mathlib.Data.List.Infix

/-!
# Backtracking regular expressions

A regular expression is tried at the start of a text and leaves what it has not
consumed.  A backtracking matcher can leave it in several ways, and tries them in an
order: a greedy repetition first goes on and then stops, a lazy one first stops.
`results` is the list of these ways in that order, and the match is its head.

## Main definitions

* `Regex`, `Regex.plus`, `Regex.word` — the expressions.
* `Regex.results`, `Regex.first` — all ways to match, and the one that is taken.
* `Grouped`, `Grouped.capture`, `Grouped.replace` — an expression with one group, what the
  group takes, and the text with the group in place of the match.
* `scan`, `Regex.findall` — the matches found in a text, from left to right, for an
  expression that does not match the empty text.

## Main results

* `Regex.results_star` — a repetition goes on or stops.
* `Regex.first_greedy_seq` — a greedy run up to a character that is not in it.
* `Grouped.capture_of_last` — what a group takes between the last places it can.
* `scan_cons`, `length_le_of_mem_scan` — a scan goes from left to right, and its matches
  do not overlap.
-/

namespace Dfuser

/-- A regular expression over the characters `α`. -/
inductive Regex (α : Type*)
  /-- The empty text. -/
  | eps
  /-- One character of a class. -/
  | char (p : α → Bool)
  /-- One after the other. -/
  | seq (r q : Regex α)
  /-- Any number of times, as often as possible or as seldom as possible. -/
  | star (greedy : Bool) (r : Regex α)

namespace Regex

variable {α : Type*}

/-- At least once. -/
def plus (greedy : Bool) (r : Regex α) : Regex α := seq r (star greedy r)

/-- A fixed text, and then `r`. -/
def word [DecidableEq α] (w : List α) (r : Regex α) : Regex α :=
  w.foldr (fun a r => seq (char fun b => decide (b = a)) r) r

/-- The ways a repetition can leave a text, when `step` gives those of its body.  Every
round consumes something, so the length of the text is enough fuel. -/
def iterate (greedy : Bool) (step : List α → List (List α)) : ℕ → List α → List (List α)
  | 0, s => [s]
  | n + 1, s =>
    let more := ((step s).filter fun t => t.length < s.length).flatMap (iterate greedy step n)
    if greedy then more ++ [s] else s :: more

/-- The rests of the text after each way to match, in the order they are tried. -/
def results : Regex α → List α → List (List α)
  | eps, s => [s]
  | char _, [] => []
  | char p, a :: s => if p a then [s] else []
  | seq r q, s => (results r s).flatMap (results q)
  | star greedy r, s => iterate greedy (results r) s.length s

/-- The rest of the text after the match that is taken. -/
def first (r : Regex α) (s : List α) : Option (List α) := (results r s).head?

/-! ### Repetition -/

theorem iterate_congr (greedy : Bool) (step : List α → List (List α)) {m n : ℕ} {s : List α}
    (hm : s.length ≤ m) (hn : s.length ≤ n) :
    iterate greedy step m s = iterate greedy step n s := by
  induction m generalizing n s with
  | zero =>
    -- nothing is left to consume
    have hs : s = [] := List.length_eq_zero_iff.mp (by omega)
    subst hs
    cases n with
    | zero => rfl
    | succ n => cases greedy <;> simp [iterate]
  | succ m ih =>
    cases n with
    | zero =>
      have hs : s = [] := List.length_eq_zero_iff.mp (by omega)
      subst hs
      cases greedy <;> simp [iterate]
    | succ n =>
      have hmore : ((step s).filter fun t => t.length < s.length).flatMap (iterate greedy step m) =
          ((step s).filter fun t => t.length < s.length).flatMap (iterate greedy step n) := by
        refine List.flatMap_congr fun t ht => ih ?_ ?_
        · have := of_decide_eq_true (List.mem_filter.mp ht).2
          omega
        · have := of_decide_eq_true (List.mem_filter.mp ht).2
          omega
      simp only [iterate, hmore]

/-- **A repetition goes on or stops.** -/
theorem results_star (greedy : Bool) (r : Regex α) (s : List α) :
    results (star greedy r) s =
      let more := ((results r s).filter fun t => t.length < s.length).flatMap
        (results (star greedy r))
      if greedy then more ++ [s] else s :: more := by
  cases s with
  | nil => cases greedy <;> simp [results, iterate]
  | cons a s =>
    have hmore : ((results r (a :: s)).filter fun t => t.length < (a :: s).length).flatMap
          (iterate greedy (results r) s.length) =
        ((results r (a :: s)).filter fun t => t.length < (a :: s).length).flatMap
          (results (star greedy r)) := by
      refine List.flatMap_congr fun t ht => iterate_congr greedy (results r) ?_ le_rfl
      have := of_decide_eq_true (List.mem_filter.mp ht).2
      rw [List.length_cons] at this
      omega
    rw [results, List.length_cons, iterate]
    simp only [List.length_cons] at hmore
    simp only [List.length_cons, hmore]

theorem results_star_char (p : α → Bool) (greedy : Bool) (a : α) (s : List α) :
    results (star greedy (char p)) (a :: s) =
      if p a then
        if greedy then results (star greedy (char p)) s ++ [a :: s]
        else (a :: s) :: results (star greedy (char p)) s
      else [a :: s] := by
  rw [results_star]
  by_cases h : p a
  · simp [results, h]
  · simp [results, h]

@[simp] theorem results_star_nil (greedy : Bool) (r : Regex α) :
    results (star greedy r) [] = [[]] := by
  cases greedy <;> simp [results, iterate]

/-! ### The match that is taken -/

theorem first_seq (r q : Regex α) (s : List α) :
    first (seq r q) s = (results r s).findSome? (first q) := by
  rw [first, results, List.head?_flatMap]
  rfl

theorem first_seq_assoc (r q o : Regex α) (s : List α) :
    first (seq (seq r q) o) s = first (seq r (seq q o)) s := by
  simp only [first, results, List.flatMap_assoc]

theorem first_seq_char_cons (p : α → Bool) (q : Regex α) (a : α) (s : List α) :
    first (seq (char p) q) (a :: s) = if p a then first q s else none := by
  rw [first_seq, results]
  split <;> simp

@[simp] theorem first_seq_char_nil (p : α → Bool) (q : Regex α) :
    first (seq (char p) q) [] = none := rfl

theorem results_word [DecidableEq α] (w : List α) (r : Regex α) (s : List α) :
    results (word w r) s = if w <+: s then results r (s.drop w.length) else [] := by
  induction w generalizing s with
  | nil => simp [word]
  | cons a w ih =>
    cases s with
    | nil => simp [word, results]
    | cons b s =>
      have ih' : results (w.foldr (fun a r => seq (char fun b => decide (b = a)) r) r) s =
          if w <+: s then results r (s.drop w.length) else [] := ih s
      simp only [word, List.foldr_cons, results, decide_eq_true_eq, List.cons_prefix_cons,
        List.length_cons, List.drop_succ_cons]
      by_cases hb : b = a
      · simp [hb, ih']
      · simp [hb, Ne.symm hb]

theorem first_word [DecidableEq α] (w : List α) (r : Regex α) (s : List α) :
    first (word w r) s = if w <+: s then first r (s.drop w.length) else none := by
  rw [first, results_word]
  split <;> rfl

theorem first_word_eq_some_iff [DecidableEq α] {w : List α} {r : Regex α} {s x : List α} :
    first (word w r) s = some x ↔ ∃ t, s = w ++ t ∧ first r t = some x := by
  rw [first_word]
  constructor
  · intro h
    split at h
    · next hw =>
      obtain ⟨t, rfl⟩ := hw
      rw [List.drop_left] at h
      exact ⟨t, rfl, h⟩
    · cases h
  · rintro ⟨t, rfl, h⟩
    rw [if_pos (List.prefix_append w t), List.drop_left, h]

theorem first_star_isSome (greedy : Bool) (r : Regex α) (s : List α) :
    (first (star greedy r) s).isSome = true := by
  rw [first, results_star]
  cases greedy <;> simp

/-- A repetition stops only when its body does not match. -/
theorem first_star_greedy {r : Regex α} {s : List α}
    (hr : ∀ t ∈ results r s, t.length < s.length) :
    first (star true r) s =
      match first r s with
      | some t => first (star true r) t
      | none => some s := by
  have hfilter : (results r s).filter (fun t => t.length < s.length) = results r s :=
    List.filter_eq_self.mpr fun t ht => decide_eq_true (hr t ht)
  rw [first, results_star, hfilter, first]
  cases hres : results r s with
  | nil => rfl
  | cons t ts =>
    -- the rounds after the first way out of the body always lead somewhere
    obtain ⟨u, hu⟩ := Option.isSome_iff_exists.mp (first_star_isSome true r t)
    rw [first] at hu
    simp only [if_true, List.flatMap_cons, List.head?_cons, List.append_assoc, List.head?_append,
      first, hu, Option.some_or]

/-- Once the body has matched, a repetition goes on from there. -/
theorem first_plus (r : Regex α) (greedy : Bool) (s : List α) :
    first (plus greedy r) s = (first r s).bind (first (star greedy r)) := by
  rw [plus, first_seq, first]
  cases results r s with
  | nil => rfl
  | cons t ts =>
    obtain ⟨u, hu⟩ := Option.isSome_iff_exists.mp (first_star_isSome greedy r t)
    simp [hu]

/-- The first way to go on after a greedy run, when nothing goes on with a character
of the run. -/
theorem findSome?_greedy {β : Type*} {p : α → Bool} {f : List α → Option β}
    (hf : ∀ a s, p a = true → f (a :: s) = none) (s : List α) :
    (results (star true (char p)) s).findSome? f = f (s.dropWhile p) := by
  induction s with
  | nil => simp
  | cons a s ih =>
    rw [results_star_char]
    by_cases ha : p a = true
    · simp only [ha, if_true, List.findSome?_append, ih, List.findSome?_singleton, hf a s ha,
        List.dropWhile_cons, Option.or_none]
    · simp [ha]

/-- The first way to go on after a greedy run of at least one character. -/
theorem findSome?_run {β : Type*} {p : α → Bool} {f : List α → Option β}
    (hf : ∀ a s, p a = true → f (a :: s) = none) {a t : List α} (hne : a ≠ [])
    (hall : ∀ c ∈ a, p c = true) (hstop : t.dropWhile p = t) :
    (results (plus true (char p)) (a ++ t)).findSome? f = f t := by
  cases a with
  | nil => exact absurd rfl hne
  | cons c a =>
    rw [List.forall_mem_cons] at hall
    rw [plus, List.cons_append, results, results, if_pos hall.1, List.flatMap_singleton,
      findSome?_greedy hf, List.dropWhile_append_of_pos hall.2, hstop]

/-- **A greedy run**, followed by something that does not start with a character of
the run, takes all of it. -/
theorem first_greedy_seq {p : α → Bool} {q : Regex α}
    (hq : ∀ a s, p a = true → first q (a :: s) = none) (s : List α) :
    first (seq (star true (char p)) q) s = first q (s.dropWhile p) := by
  rw [first_seq, findSome?_greedy hq]

theorem first_run_eq_some_iff {p : α → Bool} {q : Regex α}
    (hq : ∀ a s, p a = true → first q (a :: s) = none) {s x : List α} :
    first (seq (plus true (char p)) q) s = some x ↔
      ∃ a t, s = a ++ t ∧ (a ≠ [] ∧ ∀ c ∈ a, p c = true) ∧ first q t = some x := by
  constructor
  · intro h
    rw [plus, first_seq_assoc] at h
    cases s with
    | nil => cases h
    | cons c s =>
      rw [first_seq_char_cons] at h
      split at h
      · next hc =>
        rw [first_greedy_seq hq] at h
        refine ⟨c :: s.takeWhile p, s.dropWhile p, ?_, ⟨by simp, ?_⟩, h⟩
        · rw [List.cons_append, List.takeWhile_append_dropWhile]
        · have hall := List.all_eq_true.mp (List.all_takeWhile (p := p) (l := s))
          simpa [hc] using hall
      · cases h
  · rintro ⟨a, t, rfl, ⟨hne, hall⟩, h⟩
    -- the run stops at `t`, where something else goes on
    have hstop : t.dropWhile p = t := by
      cases t with
      | nil => rfl
      | cons d t =>
        rw [List.dropWhile_cons_of_neg]
        intro hd
        rw [hq d t hd] at h
        cases h
    rw [first_seq, findSome?_run hq hne hall hstop, h]

/-- A greedy run that can go on to the end of the text stops at the last place where
something follows. -/
theorem findSome?_of_last {β : Type*} {p : α → Bool} {f : List α → Option β} {b : β} {x u : List α}
    (hall : ∀ c ∈ x ++ u, p c = true) (hu : f u = some b)
    (hnone : ∀ v, v <:+ u → v ≠ u → f v = none) :
    (results (star true (char p)) (x ++ u)).findSome? f = some b := by
  have hend : ∀ v, v <:+ u → v ≠ u → (results (star true (char p)) v).findSome? f = none := by
    intro v
    induction v with
    | nil =>
      intro hsuf hne
      rw [results_star_nil, List.findSome?_singleton, hnone [] hsuf hne]
    | cons a v ih =>
      intro hsuf hne
      have hsuf' : v <:+ u := (List.suffix_cons a v).trans hsuf
      have hne' : v ≠ u := by
        rintro rfl
        have := hsuf.length_le
        rw [List.length_cons] at this
        omega
      have ha : p a = true := hall a (List.mem_append_right x (hsuf.subset List.mem_cons_self))
      rw [results_star_char, if_pos ha, if_pos rfl, List.findSome?_append, ih hsuf' hne',
        List.findSome?_singleton, hnone _ hsuf hne]
      rfl
  induction x with
  | nil =>
    cases u with
    | nil => rw [List.nil_append, results_star_nil, List.findSome?_singleton, hu]
    | cons a u =>
      have ha : p a = true := hall a List.mem_cons_self
      rw [List.nil_append, results_star_char, if_pos ha, if_pos rfl, List.findSome?_append,
        hend u (List.suffix_cons a u) (by simp), List.findSome?_singleton, hu]
      rfl
  | cons a x ih =>
    rw [List.cons_append, List.forall_mem_cons] at hall
    rw [List.cons_append, results_star_char, if_pos hall.1, if_pos rfl, List.findSome?_append,
      ih hall.2]
    rfl

theorem results_lazy_any (s : List α) :
    results (star false (char fun _ => true)) s = s.tails := by
  induction s with
  | nil => simp
  | cons a s ih => rw [results_star_char, ih]; simp

/-- A lazy run of any characters ends at the first place where what follows matches. -/
theorem first_lazy_seq (q : Regex α) (s : List α) :
    first (seq (star false (char fun _ => true)) q) s = s.tails.findSome? (first q) := by
  rw [first_seq, results_lazy_any]

/-- A search over the ends of a text passes over those that do not lead anywhere. -/
theorem findSome?_tails_append {β : Type*} {f : List α → Option β} {a s : List α}
    (h : ∀ b, b ≠ [] → b <:+ a → f (b ++ s) = none) :
    (a ++ s).tails.findSome? f = s.tails.findSome? f := by
  induction a with
  | nil => rfl
  | cons c a ih =>
    have hnone : f (c :: (a ++ s)) = none := h (c :: a) (by simp) List.suffix_rfl
    rw [List.cons_append, List.tails_cons, List.findSome?_cons, hnone]
    exact ih fun b hb hsuf => h b hb (hsuf.trans (List.suffix_cons c a))

theorem findSome?_tails_of_some {β : Type*} {f : List α → Option β} {s : List α} {b : β}
    (h : f s = some b) : s.tails.findSome? f = some b := by
  cases s <;> simp [h]

/-- **A lazy run** ends at the first place where what follows matches. -/
theorem first_lazy_eq_some_iff {q : Regex α} {s x : List α} :
    first (seq (star false (char fun _ => true)) q) s = some x ↔
      ∃ a t, s = a ++ t ∧ first q t = some x ∧
        ∀ b, b ≠ [] → b <:+ a → first q (b ++ t) = none := by
  rw [first_lazy_seq]
  constructor
  · intro h
    induction s with
    | nil =>
      exact ⟨[], [], rfl, by simpa using h, fun b hb hsuf => absurd (List.suffix_nil.mp hsuf) hb⟩
    | cons c s ih =>
      rw [List.tails_cons, List.findSome?_cons] at h
      cases hc : first q (c :: s) with
      | some y =>
        rw [hc] at h
        exact ⟨[], c :: s, rfl, hc.trans h, fun b hb hsuf => absurd (List.suffix_nil.mp hsuf) hb⟩
      | none =>
        rw [hc] at h
        obtain ⟨a, t, rfl, ht, hnone⟩ := ih h
        refine ⟨c :: a, t, rfl, ht, ?_⟩
        intro b hb hsuf
        rcases List.suffix_cons_iff.mp hsuf with rfl | hsuf
        · exact hc
        · exact hnone b hb hsuf
  · rintro ⟨a, t, rfl, ht, hnone⟩
    rw [findSome?_tails_append hnone, findSome?_tails_of_some ht]

/-- What is left is an end of the text. -/
theorem suffix_of_mem_results {r : Regex α} {s t : List α} (h : t ∈ results r s) : t <:+ s := by
  induction r generalizing s t with
  | eps => rw [results, List.mem_singleton] at h; exact h ▸ List.suffix_rfl
  | char p =>
    cases s with
    | nil => cases h
    | cons a s =>
      rw [results] at h
      split at h
      · rw [List.mem_singleton] at h; exact h ▸ List.suffix_cons a s
      · cases h
  | seq r q ihr ihq =>
    obtain ⟨u, hu, ht⟩ := List.mem_flatMap.mp h
    exact (ihq ht).trans (ihr hu)
  | star greedy r ih =>
    induction hn : s.length using Nat.strong_induction_on generalizing s with
    | _ n ihn =>
      rw [results_star] at h
      have hcases : t = s ∨ ∃ u ∈ results r s, u.length < s.length ∧
          t ∈ results (star greedy r) u := by
        cases greedy with
        | false => simpa [List.mem_flatMap, and_assoc] using h
        | true => simpa [List.mem_flatMap, and_assoc, or_comm] using h
      rcases hcases with rfl | ⟨u, hu, hlt, ht⟩
      · exact List.suffix_rfl
      · exact (ihn u.length (hn ▸ hlt) ht rfl).trans (ih hu)

theorem suffix_of_first {r : Regex α} {s t : List α} (h : first r s = some t) : t <:+ s :=
  suffix_of_mem_results (List.mem_of_mem_head? h)

end Regex

/-! ### A group -/

/-- An expression with one group in it, which may be optional. -/
structure Grouped (α : Type*) where
  before : Regex α
  group : Regex α
  optional : Bool
  after : Regex α

namespace Grouped

variable {α : Type*} (g : Grouped α)

/-- What the group takes when the expression is tried at the start of a text, and the rest
of the text.  An optional group that takes no part is empty. -/
def capture (s : List α) : Option (List α × List α) :=
  (g.before.results s).findSome? fun t =>
    ((g.group.results t).findSome? fun u =>
      (g.after.first u).map fun rest => (t.take (t.length - u.length), rest)).or
      (if g.optional then (g.after.first t).map fun rest => ([], rest) else none)

/-- The text with the group in the place of the first match. -/
def replace : List α → Option (List α)
  | [] => (g.capture []).map fun r => r.1 ++ r.2
  | a :: s =>
    match g.capture (a :: s) with
    | some r => some (r.1 ++ r.2)
    | none => (replace s).map (a :: ·)

theorem replace_of_capture {s x rest : List α} (h : g.capture s = some (x, rest)) :
    g.replace s = some (x ++ rest) := by
  cases s with
  | nil => rw [replace, h]; rfl
  | cons a s => rw [replace, h]

/-- **A group between the last place of `c` and the last place where the expression goes
on**, when it may take all there is in between. -/
theorem capture_of_last {p q : α → Bool} {c : α} {optional : Bool} {after : Regex α}
    {a x u rest : List α} (hc : p c = true) (hp : ∀ d ∈ x ++ u, p d = false)
    (hq : ∀ d ∈ x ++ u, q d = true)
    (hu : after.first u = some rest) (hnone : ∀ v, v <:+ u → v ≠ u → after.first v = none) :
    capture ⟨.seq (.star true (.char fun _ => true)) (.char p), .star true (.char q), optional,
      after⟩ (a ++ c :: (x ++ u)) = some (x, rest) := by
  have hgroup : ((Regex.star true (.char q)).results (x ++ u)).findSome? (fun v =>
      (after.first v).map fun rest => ((x ++ u).take ((x ++ u).length - v.length), rest)) =
        some (x, rest) := by
    apply Regex.findSome?_of_last hq
    · have hlength : (x ++ u).length - u.length = x.length := by
        rw [List.length_append]
        omega
      rw [hu, Option.map_some, hlength, List.take_left]
    · intro v hsuf hne
      rw [hnone v hsuf hne, Option.map_none]
  have hlist : ∀ (l : List (List α)) (f : List α → List (List α))
      (k : List α → Option (List α × List α)),
      (l.flatMap f).findSome? k = l.findSome? fun t => (f t).findSome? k := by
    intro l f k
    induction l with
    | nil => rfl
    | cons t l ih =>
      rw [List.flatMap_cons, List.findSome?_append, List.findSome?_cons, ih]
      cases (f t).findSome? k <;> rfl
  rw [capture, Regex.results, hlist]
  apply Regex.findSome?_of_last (fun _ _ => rfl)
  · rw [Regex.results, if_pos hc, List.findSome?_singleton, hgroup]
    rfl
  · intro v hsuf hne
    -- there is no further place for the character
    cases v with
    | nil => rfl
    | cons d v =>
      have hd : d ∈ x ++ u := by
        rcases List.suffix_cons_iff.mp hsuf with heq | hsuf
        · exact absurd heq hne
        · exact hsuf.subset List.mem_cons_self
      rw [Regex.results, hp d hd]
      rfl

end Grouped

/-! ### Scanning a text -/

section Scan

variable {α : Type*} (m : List α → Option (List α))

/-- The matches of `m` in a text from left to right, each with the text from its start
on and the text after it. -/
def scanFuel : ℕ → List α → List (List α × List α)
  | 0, _ => []
  | _ + 1, [] => []
  | n + 1, a :: s =>
    match m (a :: s) with
    | some rest =>
      if rest.length ≤ s.length then (a :: s, rest) :: scanFuel n rest else scanFuel n s
    | none => scanFuel n s

/-- The matches of `m` in a text.  Every step consumes something, so the length of the
text is enough fuel. -/
def scan (s : List α) : List (List α × List α) := scanFuel m s.length s

theorem scanFuel_congr {k n : ℕ} {s : List α} (hk : s.length ≤ k) (hn : s.length ≤ n) :
    scanFuel m k s = scanFuel m n s := by
  induction k generalizing n s with
  | zero =>
    have hs : s = [] := List.length_eq_zero_iff.mp (by omega)
    subst hs
    cases n <;> rfl
  | succ k ih =>
    cases s with
    | nil => cases n <;> rfl
    | cons a s =>
      rw [List.length_cons] at hk hn
      obtain ⟨n, rfl⟩ : ∃ n', n = n' + 1 := ⟨n - 1, by omega⟩
      have hs : scanFuel m k s = scanFuel m n s := ih (by omega) (by omega)
      rw [scanFuel, scanFuel, hs]
      split
      · split
        · next hle => rw [ih (n := n) (by omega) (by omega)]
        · rfl
      · rfl

@[simp] theorem scan_nil : scan m [] = [] := rfl

variable {m}

theorem scan_of_some {s rest : List α} (h : m s = some rest) (hlt : rest.length < s.length) :
    scan m s = (s, rest) :: scan m rest := by
  cases s with
  | nil => simp at hlt
  | cons a s =>
    rw [List.length_cons] at hlt
    have hle : rest.length ≤ s.length := by omega
    rw [scan, List.length_cons, scanFuel]
    simp only [h, hle, if_true, scan]
    rw [scanFuel_congr m hle le_rfl]

theorem scan_cons_of_none {a : α} {s : List α} (h : m (a :: s) = none) :
    scan m (a :: s) = scan m s := by
  rw [scan, List.length_cons, scanFuel, h]
  rfl

/-- The cases of one step of a scan. -/
theorem scan_cons (a : α) (s : List α) :
    (∃ rest, m (a :: s) = some rest ∧ rest.length ≤ s.length ∧
      scan m (a :: s) = (a :: s, rest) :: scan m rest) ∨ scan m (a :: s) = scan m s := by
  cases h : m (a :: s) with
  | none => exact .inr (scan_cons_of_none h)
  | some rest =>
    by_cases hle : rest.length ≤ s.length
    · refine .inl ⟨rest, rfl, hle, scan_of_some h ?_⟩
      rw [List.length_cons]
      omega
    · refine .inr ?_
      rw [scan, List.length_cons, scanFuel]
      simp only [h, hle, if_false]
      rfl

/-- The steps of a scan: past a match, or past one character. -/
theorem scan_induction {motive : List α → Prop} (nil : motive [])
    (hit : ∀ a s rest, m (a :: s) = some rest → rest.length ≤ s.length →
      scan m (a :: s) = (a :: s, rest) :: scan m rest → motive rest → motive (a :: s))
    (miss : ∀ a s, scan m (a :: s) = scan m s → motive s → motive (a :: s)) (s : List α) :
    motive s := by
  induction hn : s.length using Nat.strong_induction_on generalizing s with
  | _ n ih =>
    cases s with
    | nil => exact nil
    | cons a s =>
      rcases scan_cons (m := m) a s with ⟨rest, hsome, hle, hscan⟩ | hscan
      · exact hit a s rest hsome hle hscan
          (ih rest.length (by rw [← hn, List.length_cons]; omega) rest rfl)
      · exact miss a s hscan (ih s.length (by rw [← hn, List.length_cons]; omega) s rfl)

/-- A scan only reports matches, at ends of the text. -/
theorem mem_scan {s : List α} (hm : ∀ t rest, m t = some rest → rest <:+ t) {e : List α × List α}
    (h : e ∈ scan m s) : e.1 <:+ s ∧ m e.1 = some e.2 := by
  induction s using scan_induction (m := m) with
  | nil => cases h
  | hit a s rest hsome hle hscan ih =>
    rw [hscan] at h
    rcases List.mem_cons.mp h with rfl | h
    · exact ⟨List.suffix_rfl, hsome⟩
    · obtain ⟨hsuf, hmatch⟩ := ih h
      exact ⟨hsuf.trans (hm _ _ hsome), hmatch⟩
  | miss a s hscan ih =>
    rw [hscan] at h
    obtain ⟨hsuf, hmatch⟩ := ih h
    exact ⟨hsuf.trans (List.suffix_cons a s), hmatch⟩

/-- Matches do not overlap: a later one starts after the end of an earlier one. -/
theorem length_le_of_mem_scan {s : List α} (hm : ∀ t rest, m t = some rest → rest <:+ t)
    {e e' : List α × List α} (h : e ∈ scan m s) (h' : e' ∈ scan m s)
    (hlt : e'.1.length < e.1.length) : e'.1.length ≤ e.2.length := by
  induction s using scan_induction (m := m) with
  | nil => cases h
  | hit a s rest hsome hle hscan ih =>
    rw [hscan] at h h'
    have hshort : ∀ e'' ∈ scan m rest, e''.1.length ≤ rest.length := fun e'' h'' =>
      (mem_scan hm h'').1.length_le
    rcases List.mem_cons.mp h with rfl | h
    · rcases List.mem_cons.mp h' with rfl | h'
      · omega
      · exact hshort e' h'
    · rcases List.mem_cons.mp h' with rfl | h'
      · have := hshort e h
        simp only [List.length_cons] at hlt
        omega
      · exact ih h h'
  | miss a s hscan ih =>
    rw [hscan] at h h'
    exact ih h h'

end Scan

/-- `re.findall`: the texts of all matches. -/
def Regex.findall {α : Type*} (r : Regex α) (s : List α) : List (List α) :=
  (scan r.first s).map fun e => e.1.take (e.1.length - e.2.length)

end Dfuser
