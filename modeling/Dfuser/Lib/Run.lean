import Mathlib.Data.List.Basic

/-!
# Runs

A deterministic system takes one command after another.  A condition on commands may
depend on the state they are given in; a run meets it when each of its commands does,
in the state the commands before it have led to.

* `Meets` — every command of a run meets a condition.
* `invariant_of_meets` — **an invariant that conforming commands keep holds in every
  state reached.**
* `cond_of_meets` — each command of a run meets the condition where it is given.
* `answers`, `foldl_answers` — **what the last command that has an answer answers** is what is
  observed in the end.
* `foldlM_ok`, `foldlM_error` — a loop that may stop with an error: it does not when no
  step fails, and does when one is sure to.
* `exists_step_ok` — each step of a loop that comes to its end succeeds.
-/

namespace Dfuser

variable {σ α : Type*}

/-- Every command meets the condition, in the state it is given in. -/
def Meets (step : σ → α → σ) (cond : σ → α → Prop) : σ → List α → Prop
  | _, [] => True
  | s, a :: as => cond s a ∧ Meets step cond (step s a) as

instance Meets.decidable (step : σ → α → σ) (cond : σ → α → Prop) [∀ s a, Decidable (cond s a)] :
    ∀ s as, Decidable (Meets step cond s as)
  | _, [] => isTrue trivial
  | s, a :: as =>
    have := Meets.decidable step cond (step s a) as
    inferInstanceAs (Decidable (cond s a ∧ Meets step cond (step s a) as))

variable {step : σ → α → σ} {cond : σ → α → Prop}

theorem meets_append {s : σ} {as bs : List α} :
    Meets step cond s (as ++ bs) ↔ Meets step cond s as ∧ Meets step cond (as.foldl step s) bs := by
  induction as generalizing s with
  | nil => exact (true_and _).symm.to_iff
  | cons a as ih =>
    rw [List.cons_append, Meets, Meets, ih, and_assoc]
    rfl

/-- **An invariant that conforming commands keep holds in every state reached.** -/
theorem invariant_of_meets {Inv : σ → Prop} {s : σ} {as : List α}
    (hstep : ∀ s, ∀ a ∈ as, Inv s → cond s a → Inv (step s a)) (hs : Inv s)
    (h : Meets step cond s as) : ∀ done, done <+: as → Inv (done.foldl step s) := by
  intro done hpre
  induction done generalizing s as with
  | nil => exact hs
  | cons a done ih =>
    obtain ⟨as, rfl, hrest⟩ := List.cons_prefix_iff.mp hpre
    exact ih (fun s b hb => hstep s b (List.mem_cons_of_mem a hb))
      (hstep s a List.mem_cons_self hs h.1)
      h.2 hrest

/-- Each command of a run meets the condition where it is given. -/
theorem cond_of_meets {s : σ} {done as : List α} {a : α} (h : Meets step cond s as)
    (hpre : done ++ [a] <+: as) : cond (done.foldl step s) a := by
  induction done generalizing s as with
  | nil =>
    obtain ⟨as, rfl, -⟩ := List.cons_prefix_iff.mp hpre
    exact h.1
  | cons b done ih =>
    obtain ⟨as, rfl, hrest⟩ := List.cons_prefix_iff.mp hpre
    exact ih h.2 hrest

/-! ### The last answer -/

variable {β : Type*}

/-- What the commands of a run answer, those that have no answer left out. -/
def answers (step : σ → α → σ) (answer : σ → α → Option β) : σ → List α → List β
  | _, [] => []
  | s, a :: as => (answer s a).toList ++ answers step answer (step s a) as

/-- **The last answer is what is observed in the end**, where a command makes what is observed
its answer, and leaves it alone when it has none. -/
theorem foldl_answers {answer : σ → α → Option β} {obs : σ → β} {Inv : σ → Prop} {s : σ}
    {as : List α} (hstep : ∀ s a, Inv s → cond s a →
      Inv (step s a) ∧ obs (step s a) = (answer s a).getD (obs s))
    (hs : Inv s) (h : Meets step cond s as) :
    Inv (as.foldl step s) ∧
      obs (as.foldl step s) = ((answers step answer s as).getLast?).getD (obs s) := by
  induction as generalizing s with
  | nil => exact ⟨hs, rfl⟩
  | cons a as ih =>
    obtain ⟨hinv, hobs⟩ := hstep s a hs h.1
    obtain ⟨hinv', hobs'⟩ := ih hinv h.2
    refine ⟨hinv', ?_⟩
    rw [List.foldl_cons, hobs', hobs, answers, List.getLast?_append]
    cases answer s a <;> cases (answers step answer (step s a) as).getLast? <;> rfl

/-! ### Loops that may stop -/

section Loop

variable {ε : Type*} {step : σ → α → Except ε σ} {l : List α}

/-- A loop none of whose steps fails. -/
theorem foldlM_ok {next : σ → α → σ} (h : ∀ a ∈ l, ∀ s, step s a = .ok (next s a)) (s : σ) :
    l.foldlM step s = .ok (l.foldl next s) := by
  induction l generalizing s with
  | nil => rfl
  | cons a l ih =>
    rw [List.foldlM_cons, h a List.mem_cons_self]
    exact ih (fun b hb => h b (List.mem_cons_of_mem a hb)) _

/-- A loop stops at the first of its steps that fail. -/
theorem foldlM_error {bad : α → Prop} {e : ε}
    (hok : ∀ a ∈ l, ¬ bad a → ∀ s, ∃ s', step s a = .ok s')
    (hbad : ∀ a ∈ l, bad a → ∀ s, step s a = .error e) (h : ∃ a ∈ l, bad a) (s : σ) :
    l.foldlM step s = .error e := by
  induction l generalizing s with
  | nil =>
    obtain ⟨a, ha, -⟩ := h
    cases ha
  | cons a l ih =>
    rw [List.foldlM_cons]
    by_cases ha : bad a
    · rw [hbad a List.mem_cons_self ha]
      rfl
    · obtain ⟨s', hs'⟩ := hok a List.mem_cons_self ha s
      rw [hs']
      obtain ⟨b, hb, hbb⟩ := h
      have hbl : b ∈ l := (List.mem_cons.mp hb).resolve_left fun hab => ha (hab ▸ hbb)
      exact ih (fun c hc => hok c (List.mem_cons_of_mem a hc))
        (fun c hc => hbad c (List.mem_cons_of_mem a hc)) ⟨b, hbl, hbb⟩ s'

/-- Each step of a loop that comes to its end succeeds. -/
theorem exists_step_ok {s s' : σ} (h : l.foldlM step s = .ok s') :
    ∀ a ∈ l, ∃ s₁ s₂, step s₁ a = .ok s₂ := by
  induction l generalizing s with
  | nil => simp
  | cons a l ih =>
    rw [List.foldlM_cons] at h
    cases ha : step s a with
    | error e =>
      rw [ha] at h
      cases h
    | ok s₁ =>
      rw [ha] at h
      intro b hb
      rcases List.mem_cons.mp hb with rfl | hb
      · exact ⟨s, s₁, ha⟩
      · exact ih h b hb

end Loop

end Dfuser
