import Mathlib.Data.List.Basic
import Mathlib.Data.List.Nodup
import Mathlib.Algebra.BigOperators.Group.List.Basic
import Mathlib.Tactic.Ring

/-!
# Insertion-ordered dictionaries

The associative containers of scripting languages: a finite list of key/value
pairs in which no key occurs twice.  Assigning to a key that is already there
replaces the value in place, assigning to a new one appends it, so the list is
also the order a loop over the container visits its keys in.

Two dictionaries that differ only in that order read the same at every key, and
`get?` is what every statement about them is phrased in.

## Main definitions

* `Dict α β` — the dictionaries, with distinct keys as part of the value.
* `Dict.get?`, `Dict.set`, `Dict.erase`, `Dict.eraseAll`, `Dict.mapVal` — reading and
  updating.
* `Dict.sumBy` — a sum over the stored values.

## Main results

* `Dict.get?_set`, `Dict.get?_erase`, `Dict.get?_mapVal` — what each update reads
  back as.
* `Dict.sumBy_set_of_none`, `Dict.sumBy_set_of_some` — an assignment changes a sum
  by the assigned value alone.
-/

namespace Dfuser

/-- A finite map kept in insertion order: no key occurs twice. -/
structure Dict (α β : Type*) where
  /-- The stored pairs, oldest key first. -/
  entries : List (α × β)
  /-- No key occurs twice. -/
  nodup : (entries.map Prod.fst).Nodup

namespace Dict

variable {α β γ : Type*}

/-- The dictionary with no keys. -/
def empty : Dict α β := ⟨[], List.nodup_nil⟩

/-- The keys, oldest first. -/
def keys (d : Dict α β) : List α := d.entries.map Prod.fst

instance [DecidableEq α] [DecidableEq β] : DecidableEq (Dict α β) := fun d e =>
  decidable_of_iff (d.entries = e.entries)
    ⟨fun h => by cases d; cases e; cases h; rfl, fun h => h ▸ rfl⟩

variable [DecidableEq α]

/-- The value stored under `k`, if any. -/
def get? (d : Dict α β) (k : α) : Option β := d.entries.lookup k

@[simp] theorem get?_empty (k : α) : (empty : Dict α β).get? k = none := rfl

/-- `List.lookup` with the key test as a proposition. -/
theorem lookup_cons_ite (k a : α) (b : β) (l : List (α × β)) :
    ((a, b) :: l).lookup k = if k = a then some b else l.lookup k := by
  by_cases h : k = a
  · simp [h]
  · rw [List.lookup_cons, beq_eq_false_iff_ne.mpr h, if_neg h]

/-! ### Assignment -/

/-- Assign `v` to `k` in a list of pairs: in place when the key is there, at the
end when it is not. -/
def setPairs (k : α) (v : β) : List (α × β) → List (α × β)
  | [] => [(k, v)]
  | (a, b) :: l => if a = k then (k, v) :: l else (a, b) :: setPairs k v l

theorem map_fst_setPairs (k : α) (v : β) (l : List (α × β)) :
    (setPairs k v l).map Prod.fst =
      if k ∈ l.map Prod.fst then l.map Prod.fst else l.map Prod.fst ++ [k] := by
  induction l with
  | nil => rfl
  | cons e l ih =>
    obtain ⟨a, b⟩ := e
    by_cases ha : a = k
    · simp [setPairs, ha]
    · have hk : k ≠ a := fun h => ha h.symm
      rw [setPairs, if_neg ha, List.map_cons, ih]
      by_cases hmem : k ∈ l.map Prod.fst
      · rw [if_pos hmem, if_pos (by simp only [List.map_cons]; exact List.mem_cons_of_mem _ hmem)]
        rfl
      · rw [if_neg hmem,
          if_neg (by simp only [List.map_cons, List.mem_cons, not_or]; exact ⟨hk, hmem⟩)]
        rfl

theorem nodup_setPairs (k : α) (v : β) {l : List (α × β)} (h : (l.map Prod.fst).Nodup) :
    ((setPairs k v l).map Prod.fst).Nodup := by
  rw [map_fst_setPairs]
  split
  · exact h
  · next hk =>
    rw [List.nodup_append]
    refine ⟨h, List.nodup_singleton k, ?_⟩
    intro a ha b hb hab
    rw [List.mem_singleton] at hb
    exact hk (hb ▸ hab ▸ ha)

/-- `d[k] = v`. -/
def set (d : Dict α β) (k : α) (v : β) : Dict α β :=
  ⟨setPairs k v d.entries, nodup_setPairs k v d.nodup⟩

theorem lookup_setPairs (k a : α) (v : β) (l : List (α × β)) :
    (setPairs k v l).lookup a = if a = k then some v else l.lookup a := by
  induction l with
  | nil =>
    simp only [setPairs, lookup_cons_ite]
  | cons e l ih =>
    obtain ⟨b, w⟩ := e
    by_cases hb : b = k
    · subst hb
      rw [setPairs, if_pos rfl, lookup_cons_ite, lookup_cons_ite]
      by_cases ha : a = b
      · simp [ha]
      · simp [ha]
    · rw [setPairs, if_neg hb, lookup_cons_ite, lookup_cons_ite, ih]
      by_cases hab : a = b
      · subst hab; simp [hb]
      · simp [hab]

/-- **Assignment changes exactly one key.** -/
theorem get?_set (d : Dict α β) (k a : α) (v : β) :
    (d.set k v).get? a = if a = k then some v else d.get? a :=
  lookup_setPairs k a v d.entries

@[simp] theorem get?_set_self (d : Dict α β) (k : α) (v : β) : (d.set k v).get? k = some v := by
  rw [get?_set, if_pos rfl]

theorem get?_set_of_ne (d : Dict α β) {k a : α} (h : a ≠ k) (v : β) :
    (d.set k v).get? a = d.get? a := by
  rw [get?_set, if_neg h]

theorem setPairs_setPairs (k : α) (v w : β) (l : List (α × β)) :
    setPairs k w (setPairs k v l) = setPairs k w l := by
  induction l with
  | nil => simp [setPairs]
  | cons e l ih =>
    obtain ⟨a, b⟩ := e
    by_cases ha : a = k
    · simp [setPairs, ha]
    · simp [setPairs, ha, ih]

/-- The second of two assignments to one key is the one that counts. -/
theorem set_set (d : Dict α β) (k : α) (v w : β) : (d.set k v).set k w = d.set k w := by
  unfold set
  congr 1
  exact setPairs_setPairs k v w d.entries

theorem setPairs_eq_self {k : α} {v : β} {l : List (α × β)} (h : l.lookup k = some v) :
    setPairs k v l = l := by
  induction l with
  | nil => cases h
  | cons e l ih =>
    obtain ⟨a, b⟩ := e
    rw [lookup_cons_ite] at h
    by_cases ha : a = k
    · subst ha
      rw [if_pos rfl] at h
      cases h
      rw [setPairs, if_pos rfl]
    · rw [if_neg fun hk => ha hk.symm] at h
      rw [setPairs, if_neg ha, ih h]

/-- Assigning the value that is there changes nothing, not even the order. -/
theorem set_eq_self {d : Dict α β} {k : α} {v : β} (h : d.get? k = some v) : d.set k v = d := by
  unfold set
  congr 1
  exact setPairs_eq_self h

/-! ### Removal -/

/-- Remove `k`. -/
def erase (d : Dict α β) (k : α) : Dict α β :=
  ⟨d.entries.filter fun e => e.1 ≠ k,
    d.nodup.sublist (List.Sublist.map _ List.filter_sublist)⟩

theorem get?_erase (d : Dict α β) (k a : α) :
    (d.erase k).get? a = if a = k then none else d.get? a := by
  show (d.entries.filter fun e => e.1 ≠ k).lookup a = if a = k then none else d.entries.lookup a
  induction d.entries with
  | nil => simp
  | cons e l ih =>
    obtain ⟨b, w⟩ := e
    by_cases hb : b = k
    · rw [List.filter_cons_of_neg (by simpa using hb), ih, lookup_cons_ite]
      by_cases ha : a = k
      · simp [ha]
      · have hab : a ≠ b := fun h => ha (h.trans hb)
        simp [ha, hab]
    · rw [List.filter_cons_of_pos (by simpa using hb), lookup_cons_ite, lookup_cons_ite, ih]
      by_cases hab : a = b
      · subst hab; simp [hb]
      · simp [hab]

theorem get?_foldl_erase (l : List α) (d : Dict α β) (a : α) :
    (l.foldl erase d).get? a = if a ∈ l then none else d.get? a := by
  induction l generalizing d with
  | nil => rfl
  | cons k l ih =>
    rw [List.foldl_cons, ih, get?_erase]
    by_cases hk : a = k
    · simp [hk]
    · simp [hk]

/-- Remove every key of a kind. -/
def eraseAll (d : Dict α β) (p : α → Bool) : Dict α β :=
  ⟨d.entries.filter fun e => !p e.1, d.nodup.sublist (List.Sublist.map _ List.filter_sublist)⟩

theorem get?_eraseAll (d : Dict α β) (p : α → Bool) (a : α) :
    (d.eraseAll p).get? a = if p a then none else d.get? a := by
  show (d.entries.filter fun e => !p e.1).lookup a = if p a then none else d.entries.lookup a
  induction d.entries with
  | nil => simp
  | cons e l ih =>
    obtain ⟨b, w⟩ := e
    by_cases hb : p b = true
    · rw [List.filter_cons_of_neg (by simpa using hb), ih, lookup_cons_ite]
      by_cases ha : p a = true
      · simp [ha]
      · have hab : a ≠ b := fun h => ha (h ▸ hb)
        simp [ha, hab]
    · rw [List.filter_cons_of_pos (by simpa using hb), lookup_cons_ite, lookup_cons_ite, ih]
      by_cases hab : a = b
      · subst hab; simp [hb]
      · simp [hab]

/-! ### Keys and entries -/

theorem mem_entries_iff (d : Dict α β) (k : α) (v : β) :
    (k, v) ∈ d.entries ↔ d.get? k = some v := by
  obtain ⟨l, hl⟩ := d
  show (k, v) ∈ l ↔ l.lookup k = some v
  induction l with
  | nil => simp
  | cons e l ih =>
    obtain ⟨a, b⟩ := e
    rw [List.map_cons, List.nodup_cons] at hl
    rw [List.mem_cons, ih hl.2, lookup_cons_ite]
    by_cases hk : k = a
    · subst hk
      -- no key occurs twice, so the rest of the list does not hold `k`
      have hnone : l.lookup k = none := by
        rw [List.lookup_eq_none_iff]
        intro e he
        rw [bne_iff_ne]
        intro hke
        exact hl.1 (List.mem_map.mpr ⟨e, he, hke.symm⟩)
      simp [hnone, eq_comm]
    · simp [hk]

theorem mem_keys_iff (d : Dict α β) (k : α) : k ∈ d.keys ↔ ∃ v, d.get? k = some v := by
  unfold keys
  rw [List.mem_map]
  constructor
  · rintro ⟨⟨a, v⟩, hmem, rfl⟩
    exact ⟨v, (mem_entries_iff d a v).mp hmem⟩
  · rintro ⟨v, hv⟩
    exact ⟨(k, v), (mem_entries_iff d k v).mpr hv, rfl⟩

theorem get?_eq_none_iff (d : Dict α β) (k : α) : d.get? k = none ↔ k ∉ d.keys := by
  rw [mem_keys_iff, not_exists, Option.eq_none_iff_forall_ne_some]

/-- After many assignments a key holds the value of the last one to it. -/
theorem get?_foldl_set (f : γ → α) (g : γ → β) (l : List γ) (d : Dict α β) (k : α) :
    (l.foldl (fun d e => d.set (f e) (g e)) d).get? k =
      ((l.filter fun e => f e = k).getLast?.map g).or (d.get? k) := by
  induction l generalizing d with
  | nil => rfl
  | cons e l ih =>
    rw [List.foldl_cons, ih, get?_set]
    by_cases hk : f e = k
    · simp only [hk, List.filter_cons, decide_true, if_true]
      cases hl : (l.filter fun e => f e = k).getLast? with
      | none =>
        rw [List.getLast?_eq_none_iff] at hl
        simp [hl]
      | some e' => simp [List.getLast?_cons, hl]
    · simp [hk, Ne.symm hk]

theorem mem_keys_set (d : Dict α β) (k a : α) (v : β) :
    a ∈ (d.set k v).keys ↔ a = k ∨ a ∈ d.keys := by
  rw [mem_keys_iff, mem_keys_iff, get?_set]
  by_cases h : a = k
  · simp [h]
  · simp [h]

theorem setPairs_of_notMem {k : α} {l : List (α × β)} (h : k ∉ l.map Prod.fst) (v : β) :
    setPairs k v l = l ++ [(k, v)] := by
  induction l with
  | nil => rfl
  | cons e l ih =>
    rw [List.map_cons, List.mem_cons, not_or] at h
    rw [setPairs, if_neg (Ne.symm h.1), ih h.2, List.cons_append]

/-- The dictionary of a list of pairs; the last pair with a key wins. -/
def ofPairs (l : List (α × β)) : Dict α β := l.foldl (fun d e => d.set e.1 e.2) empty

/-- New keys are added at the end. -/
theorem entries_foldl_set {l : List (α × β)} (hl : (l.map Prod.fst).Nodup) {d : Dict α β}
    (h : ∀ k ∈ l.map Prod.fst, k ∉ d.entries.map Prod.fst) :
    (l.foldl (fun d e => d.set e.1 e.2) d).entries = d.entries ++ l := by
  induction l generalizing d with
  | nil => exact (List.append_nil _).symm
  | cons e l ih =>
    rw [List.map_cons, List.nodup_cons] at hl
    have hentries : (d.set e.1 e.2).entries = d.entries ++ [e] :=
      setPairs_of_notMem (h e.1 List.mem_cons_self) e.2
    rw [List.foldl_cons, ih hl.2, hentries, List.append_assoc, List.singleton_append]
    intro k hk hmem
    rw [hentries, List.map_append, List.mem_append, List.map_singleton, List.mem_singleton] at hmem
    rcases hmem with hmem | rfl
    · exact h k (List.mem_cons_of_mem _ hk) hmem
    · exact hl.1 hk

/-- A dictionary is that of its own pairs. -/
theorem ofPairs_entries (d : Dict α β) : ofPairs d.entries = d := by
  have hentries := entries_foldl_set d.nodup (d := empty) fun k _ hk => by cases hk
  obtain ⟨entries, hnodup⟩ := d
  exact Dict.mk.injEq .. |>.mpr hentries

/-- Assigning to a key that is there keeps the keys, in their order. -/
theorem keys_set_of_mem {d : Dict α β} {k : α} (h : k ∈ d.keys) (v : β) :
    (d.set k v).keys = d.keys := by
  have hkeys := map_fst_setPairs k v d.entries
  rw [if_pos (show k ∈ d.entries.map Prod.fst from h)] at hkeys
  exact hkeys

/-- The keys of a loop of assignments: the new ones come behind those that are there. -/
def appendKeys (l l' : List α) : List α := l ++ l'.filter (· ∉ l)

theorem keys_set (d : Dict α β) (k : α) (v : β) : (d.set k v).keys = appendKeys d.keys [k] := by
  have hkeys : (d.set k v).keys = if k ∈ d.keys then d.keys else d.keys ++ [k] :=
    map_fst_setPairs k v d.entries
  rw [hkeys, appendKeys]
  by_cases hk : k ∈ d.keys <;> simp [hk]

@[simp] theorem appendKeys_nil (l : List α) : appendKeys l [] = l := List.append_nil l

@[simp] theorem nil_appendKeys (l : List α) : appendKeys [] l = l := by
  simp [appendKeys]

theorem mem_appendKeys {l l' : List α} {a : α} : a ∈ appendKeys l l' ↔ a ∈ l ∨ a ∈ l' := by
  simp only [appendKeys, List.mem_append, List.mem_filter, decide_eq_true_eq]
  tauto

theorem appendKeys_assoc (l l' l'' : List α) :
    appendKeys (appendKeys l l') l'' = appendKeys l (appendKeys l' l'') := by
  have hfilter : (l'').filter (· ∉ appendKeys l l') =
      (l''.filter (· ∉ l')).filter (· ∉ l) := by
    rw [List.filter_filter]
    apply List.filter_congr
    intro a _
    rw [← Bool.decide_and, decide_eq_decide, mem_appendKeys, not_or]
  conv_lhs => rw [appendKeys, hfilter, appendKeys]
  rw [appendKeys, appendKeys, List.filter_append, List.append_assoc]

/-- New keys one after the other. -/
theorem appendKeys_cons {l : List α} {a : α} {l' : List α} (h : a ∉ l') :
    appendKeys l (a :: l') = appendKeys (appendKeys l [a]) l' := by
  rw [appendKeys_assoc]
  congr 1
  have hfilter : l'.filter (· ∉ [a]) = l' := by
    rw [List.filter_eq_self]
    intro b hb
    rw [decide_eq_true_eq, List.mem_singleton]
    rintro rfl
    exact h hb
  rw [appendKeys, hfilter]
  rfl

theorem appendKeys_eq {l l' : List α} {p : α → Bool} (h : ∀ a ∈ l', p a = true ↔ a ∉ l) :
    appendKeys l l' = l ++ l'.filter p := by
  rw [appendKeys]
  congr 1
  apply List.filter_congr
  intro a ha
  rw [Bool.eq_iff_iff, h a ha, decide_eq_true_eq]

theorem appendKeys_of_subset {l l' : List α} (h : ∀ a ∈ l', a ∈ l) : appendKeys l l' = l := by
  have hfilter : l'.filter (· ∉ l) = [] := by
    rw [List.filter_eq_nil_iff]
    intro a ha
    rw [decide_eq_true_eq, not_not]
    exact h a ha
  rw [appendKeys, hfilter, List.append_nil]

/-- The pairs, from the keys. -/
theorem entries_eq (d : Dict α β) :
    d.entries = d.keys.filterMap fun k => (d.get? k).map fun v => (k, v) := by
  conv_lhs => rw [← List.filterMap_some (l := d.entries)]
  rw [keys, List.filterMap_map]
  apply List.filterMap_congr
  intro e he
  rw [Function.comp_apply, (mem_entries_iff d e.1 e.2).mp he]
  rfl

/-- Two dictionaries with the same keys, in the same order, and the same values are one. -/
theorem eq_of_keys {d d' : Dict α β} (hkeys : d.keys = d'.keys) (h : ∀ k, d.get? k = d'.get? k) :
    d = d' := by
  have hentries : d.entries = d'.entries := by
    rw [entries_eq, entries_eq, hkeys]
    simp only [h]
  cases d
  cases d'
  cases hentries
  rfl

theorem mem_keys_erase (d : Dict α β) (k a : α) :
    a ∈ (d.erase k).keys ↔ a ≠ k ∧ a ∈ d.keys := by
  rw [mem_keys_iff, mem_keys_iff, get?_erase]
  by_cases h : a = k
  · simp [h]
  · simp [h]

theorem mem_keys_eraseAll (d : Dict α β) (p : α → Bool) (a : α) :
    a ∈ (d.eraseAll p).keys ↔ p a = false ∧ a ∈ d.keys := by
  rw [mem_keys_iff, mem_keys_iff, get?_eraseAll]
  by_cases h : p a = true
  · simp [h]
  · simp [h]

/-! ### Updating every value -/

omit [DecidableEq α] in
theorem map_fst_mapVal (f : β → γ) (l : List (α × β)) :
    (l.map fun e => (e.1, f e.2)).map Prod.fst = l.map Prod.fst := by
  rw [List.map_map]
  rfl

/-- Apply `f` to every stored value, as a loop that reassigns every key does. -/
def mapVal (f : β → γ) (d : Dict α β) : Dict α γ :=
  ⟨d.entries.map fun e => (e.1, f e.2), by rw [map_fst_mapVal]; exact d.nodup⟩

@[simp] theorem get?_mapVal (f : β → γ) (d : Dict α β) (k : α) :
    (d.mapVal f).get? k = (d.get? k).map f := by
  show (d.entries.map fun e => (e.1, f e.2)).lookup k = (d.entries.lookup k).map f
  induction d.entries with
  | nil => rfl
  | cons e l ih =>
    obtain ⟨a, b⟩ := e
    rw [List.map_cons, lookup_cons_ite, lookup_cons_ite, ih]
    by_cases h : k = a <;> simp [h]

omit [DecidableEq α] in
@[simp] theorem keys_mapVal (f : β → γ) (d : Dict α β) : (d.mapVal f).keys = d.keys :=
  map_fst_mapVal f d.entries

/-! ### Sums over the values -/

/-- The sum of `f` over the stored values. -/
def sumBy (f : β → ℤ) (d : Dict α β) : ℤ := (d.entries.map fun e => f e.2).sum

omit [DecidableEq α] in
@[simp] theorem sumBy_empty (f : β → ℤ) : (empty : Dict α β).sumBy f = 0 := rfl

theorem sum_setPairs (f : β → ℤ) (k : α) (v : β) (l : List (α × β)) :
    ((setPairs k v l).map fun e => f e.2).sum =
      (l.map fun e => f e.2).sum + f v - ((l.lookup k).map f).getD 0 := by
  induction l with
  | nil => simp [setPairs]
  | cons e l ih =>
    obtain ⟨a, b⟩ := e
    by_cases ha : a = k
    · subst ha
      simp [setPairs]
      ring
    · have hk : k ≠ a := fun h => ha h.symm
      rw [setPairs, if_neg ha, lookup_cons_ite, if_neg hk, List.map_cons, List.sum_cons, ih,
        List.map_cons, List.sum_cons]
      ring

theorem sumBy_set_of_none (f : β → ℤ) (d : Dict α β) {k : α} (v : β) (h : d.get? k = none) :
    (d.set k v).sumBy f = d.sumBy f + f v := by
  have := sum_setPairs f k v d.entries
  rw [show d.entries.lookup k = none from h] at this
  simpa [sumBy, set] using this

theorem sumBy_set_of_some (f : β → ℤ) (d : Dict α β) {k : α} {w : β} (v : β)
    (h : d.get? k = some w) : (d.set k v).sumBy f = d.sumBy f + f v - f w := by
  have := sum_setPairs f k v d.entries
  rw [show d.entries.lookup k = some w from h] at this
  simpa [sumBy, set] using this

end Dict

end Dfuser
