import Dfuser.Lib.Joined
import Dfuser.Manager.Environment

/-!
# Filtering `PATH`

`dfman env filter item` prints `PATH` without the entries that start with `item`.  It takes
`PATH` apart at blanks too, takes `item` for a pattern, and puts a colon before every entry
that it keeps, also before the first one.  So the list that is printed starts with an empty
entry, and has no other one.

## Main definitions

* `keptEntries` — the entries that should be kept.
* `FiltersAt` — these are printed, and filtering once more changes nothing.
* `Stands` — the words that come up name no files as patterns.
* `KeepsEntries` — the kept entries are such a list.

## Main results

* `filter_eq` — what is printed.
* `eq_nil_cons_unmatched_iff` — when the words that are kept are the kept entries.
* `filters_iff` — **which values of `PATH` are filtered.**
-/

namespace Dfuser
namespace Manager

open FileSystem
open Dfuser.Joined (spell spell_cons intercalate_cons_eq)

variable (T : Tools) (S : Setting) (sh : Shell) (ifs : Option Str) (item : Str)

/-- The entries of a `PATH` that do not start with the item. -/
def keptEntries (path item : Str) : List Str := (path.splitOn ':').filter fun e => ¬ item <+: e

/-- The kept entries are printed, and filtering what is printed prints it once more. -/
def FiltersAt : Prop :=
  let printed := (dfmanEnvCommand T S sh ifs "filter".toList item).printed
  printed = [':'].intercalate (keptEntries sh.path item) ++ ['\n'] ∧
    (dfmanEnvCommand T S { sh with path := chomp printed } ifs "filter".toList item).printed =
      printed

/-- The words that `split_current_path` prints, where none is a pattern of a file. -/
def pathWords (path : Str) : List Str :=
  fields isBlank (colonsToLines (echo T.interpret (fields isBlank path)))

/-- No word that comes up names a file as a pattern. -/
structure Stands : Prop where
  path : ∀ w ∈ fields isBlank sh.path, glob sh.fs S.cwd w = [w]
  item : ∀ w ∈ fields isBlank item, glob sh.fs S.cwd w = [w]
  words : ∀ w ∈ pathWords T sh.path, glob sh.fs S.cwd w = [w]
  lists : ∀ ws, ws.Sublist (pathWords T sh.path) → glob sh.fs S.cwd (spell ':' ws) = [spell ':' ws]

/-- A word is kept that the item does not match as the start of a pattern. -/
def isUnmatched (first w : Str) : Bool := !matchesPattern T (first ++ ['*']) w

/-- The words of `PATH` that are kept, for the first word of the item. -/
def keptWords (path first : Str) : List Str := (pathWords T path).filter (isUnmatched T first)

/-- When the right entries are printed.  An item without a word is answered with the usage.
Otherwise the first of the kept entries is empty; the others are not, have no blanks, and
are not matched by the item; and the words of the entries that are dropped are.  A `PATH`
that starts with an option to `echo` is a case of its own. -/
def KeepsEntries (path : Str) : Prop :=
  match fields isBlank item with
  | [] => "Usage: dfman env filter <path>".toList = [':'].intercalate (keptEntries path item)
  | first :: _ =>
    if (fields isBlank path).head?.any isEchoOption then
      keptEntries path item = [] :: keptWords T path first ∨
        keptEntries path item = [] ∧ keptWords T path first = []
    else
      (keptEntries path item = [] ∨ ∃ rest, keptEntries path item = [] :: rest ∧
        ∀ e ∈ rest, e ≠ [] ∧ e.all (fun c => !isBlank c) = true ∧ isUnmatched T first e = true) ∧
      ∀ e ∈ path.splitOn ':', item <+: e → ∀ w ∈ fields isBlank e, isUnmatched T first w = false

/-! ### The words of a `PATH` -/

section

variable {T S sh ifs item}

theorem fields_colonsToLines (s : Str) :
    fields isBlank (colonsToLines s) = fields (fun c => isBlank c || c = ':') s := by
  apply fields_map
  · intro c
    by_cases hc : c = ':'
    · subst hc
      decide
    · rw [if_neg hc, decide_eq_false hc, Bool.or_false]
  · intro c hc
    rw [Bool.or_eq_false_iff, decide_eq_false_iff_not] at hc
    rw [if_neg hc.2]

/-- A word of a `PATH` has no blank and no colon in it. -/
theorem of_mem_pathWords {path w : Str} (h : w ∈ pathWords T path) :
    w ≠ [] ∧ ∀ c ∈ w, isBlank c = false ∧ c ≠ ':' := by
  rw [pathWords, fields_colonsToLines] at h
  obtain ⟨hne, hall⟩ := mem_fields h
  refine ⟨hne, fun c hc => ?_⟩
  have hc := hall c hc
  rw [Bool.or_eq_false_iff, decide_eq_false_iff_not] at hc
  exact hc

/-- The words are those of the entries. -/
theorem pathWords_eq {path : Str} (h : (fields isBlank path).head?.any isEchoOption = false) :
    pathWords T path = (path.splitOn ':').flatMap (fields isBlank) := by
  have hblank : ∀ c, isBlank c = true → (isBlank c || decide (c = ':')) = true :=
    fun c hc => by rw [hc]; rfl
  have hhead : ∀ w ∈ (fields isBlank path).head?, isEchoOption w = false := by
    intro w hw
    rw [Option.mem_def.mp hw] at h
    exact h
  have hwords : ∀ ws : List Str, (∀ w ∈ ws, w ∈ fields isBlank path) →
      fields isBlank ([' '].intercalate ws ++ ['\n']) = ws := by
    intro ws hws
    have hnewline : fields isBlank ([' '].intercalate ws ++ ['\n']) =
        fields isBlank ([' '].intercalate ws) := by
      rw [fields_append_cons (by decide), fields_nil, List.append_nil]
    rw [hnewline]
    induction ws with
    | nil => rw [List.intercalate_nil, fields_nil]
    | cons w ws ih =>
      rw [List.forall_mem_cons] at hws
      obtain ⟨hne, hw⟩ := mem_fields hws.1
      cases ws with
      | nil => rw [List.intercalate_singleton, fields_eq_singleton hne hw]
      | cons w' ws =>
        rw [List.intercalate_cons_cons, List.append_assoc, List.singleton_append,
          fields_append_cons (by decide), fields_eq_singleton hne hw]
        refine congrArg (w :: ·) (ih hws.2 ?_)
        rw [fields_append_cons (by decide), fields_nil, List.append_nil]
  rw [pathWords, fields_colonsToLines, echo_of_head hhead, fields_eq_flatMap_fields hblank,
    hwords _ fun _ hw => hw, ← fields_eq_flatMap_fields hblank, List.splitOn_eq_splitOnP,
    fields_eq_flatMap_splitOnP (r := fun c => c == ':') fun c hc => by rw [eq_of_beq hc]; rfl]
  apply List.flatMap_congr
  intro e he
  apply fields_congr
  intro c hc
  have hcolon := of_mem_splitOnP he c hc
  rw [beq_eq_false_iff_ne] at hcolon
  rw [decide_eq_false hcolon, Bool.or_false]

/-- The words of a list that has been printed. -/
theorem pathWords_spell {ws : List Str}
    (h : ∀ w ∈ ws, w ≠ [] ∧ ∀ c ∈ w, isBlank c = false ∧ c ≠ ':') :
    pathWords T (spell ':' ws) = ws := by
  have hoption : (fields isBlank (spell ':' ws)).head?.any isEchoOption = false := by
    cases ws with
    | nil => rw [Joined.spell_nil, fields_nil]; rfl
    | cons w ws =>
      have hcolon : [':'] <+: spell ':' (w :: ws) := ⟨w ++ spell ':' ws, by rw [spell_cons]; rfl⟩
      obtain ⟨v, rest, hfields, hpre⟩ := fields_of_prefix (p := isBlank) (List.cons_ne_nil ':' [])
        (List.forall_mem_singleton.mpr (by decide)) hcolon
      obtain ⟨t, rfl⟩ := hpre
      rw [hfields]
      rfl
  rw [pathWords_eq hoption]
  have hsplit : (spell ':' ws).splitOn ':' = if ws = [] then [[]] else [] :: ws := by
    cases ws with
    | nil => rfl
    | cons w ws =>
      have hempty : spell ':' (w :: ws) = [':'].intercalate ([] :: w :: ws) := by
        rw [intercalate_cons_eq, List.nil_append]
      rw [hempty, List.splitOn_intercalate, if_neg (List.cons_ne_nil _ _)]
      · intro v hv
        rcases List.mem_cons.mp hv with rfl | hv
        · exact List.not_mem_nil
        · exact fun hc => ((h v hv).2 ':' hc).2 rfl
      · exact List.cons_ne_nil _ _
  rw [hsplit]
  have hfields : ∀ l : List Str, (∀ w ∈ l, w ∈ ws) → l.flatMap (fields isBlank) = l := by
    intro l hl
    induction l with
    | nil => rfl
    | cons w l ih =>
      rw [List.forall_mem_cons] at hl
      obtain ⟨hne, hw⟩ := h w hl.1
      rw [List.flatMap_cons, fields_eq_singleton hne fun c hc => (hw c hc).1, ih hl.2]
      rfl
  split
  · next hnil => rw [hnil]; rfl
  · rw [List.flatMap_cons, fields_nil, List.nil_append, hfields ws fun _ hw => hw]

/-! ### What is printed -/

/-- The loop puts a colon before every word that it keeps. -/
theorem newPath_eq (first : Str) (ps : List Str) :
    newPath T first ps = spell ':' (ps.filter (isUnmatched T first)) := by
  have hloop : ∀ path, ps.foldl (fun path p =>
      if matchesPattern T (first ++ ['*']) p then path else path ++ ':' :: p) path =
        path ++ spell ':' (ps.filter (isUnmatched T first)) := by
    induction ps with
    | nil => simp
    | cons p ps ih =>
      intro path
      rw [List.foldl_cons, ih]
      by_cases hp : matchesPattern T (first ++ ['*']) p = true
      · rw [if_pos hp, List.filter_cons_of_neg (by simp [isUnmatched, hp])]
      · rw [if_neg hp, List.filter_cons_of_pos (by simpa [isUnmatched] using hp), spell_cons,
          List.append_assoc]
        rfl
  exact hloop []

theorem blank_of_mem_spell {ws : List Str} (h : ∀ w ∈ ws, ∀ c ∈ w, isBlank c = false) :
    ∀ c ∈ spell ':' ws, isBlank c = false := by
  intro c hc
  obtain ⟨w, hw, hc⟩ := List.mem_flatMap.mp hc
  rcases List.mem_cons.mp hc with rfl | hc
  · decide
  · exact h w hw c hc

theorem of_mem_keptWords {path first w : Str} (h : w ∈ keptWords T path first) :
    w ≠ [] ∧ ∀ c ∈ w, isBlank c = false ∧ c ≠ ':' :=
  of_mem_pathWords (List.mem_of_mem_filter h)

theorem blank_of_mem_kept (path first : Str) :
    ∀ c ∈ spell ':' (keptWords T path first), isBlank c = false :=
  blank_of_mem_spell fun _ hw c hc => ((of_mem_keptWords hw).2 c hc).1

theorem dfmanEnv_filter {first : Str} (hne : first ≠ []) (rest : List Str) :
    dfmanEnv T S sh ifs ("filter".toList :: first :: rest) =
      ⟨filterOutOfPath T S sh (argument S sh first), 0, ifs⟩ := by
  have hshow : "filter".toList ≠ "show".toList := by decide
  have hcheck : "filter".toList ≠ "check".toList := by decide
  simp only [dfmanEnv, List.head?_cons, List.getD_cons_succ, List.getD_cons_zero, Option.some.injEq,
    hshow, hcheck, hne, if_false, if_true]

/-- The loop goes over the words of `PATH`. -/
theorem words_splitCurrentPath (h : Stands T S sh item) :
    words S sh (chomp (splitCurrentPath T S sh)) = pathWords T sh.path := by
  have hprinted : splitCurrentPath T S sh =
      colonsToLines (echo T.interpret (fields isBlank sh.path)) := by
    rw [splitCurrentPath, words, expandWords_of_forall h.path]
  rw [words, expandWords_of_forall, fields_chomp, hprinted]
  · rfl
  · rw [fields_chomp, hprinted]
    exact h.words

/-- The list is one word. -/
theorem echo_kept (h : Stands T S sh item) (first : Str) :
    echo T.interpret (words S sh (spell ':' (keptWords T sh.path first))) =
      spell ':' (keptWords T sh.path first) ++ ['\n'] := by
  by_cases hnil : keptWords T sh.path first = []
  · rw [hnil, Joined.spell_nil, words_nil]
    rfl
  · obtain ⟨w, ws, hws⟩ := List.exists_cons_of_ne_nil hnil
    have hne : spell ':' (keptWords T sh.path first) ≠ [] := by
      rw [hws, spell_cons]
      exact List.cons_ne_nil _ _
    rw [words, expandWords_of_glob hne (blank_of_mem_kept sh.path first)
      (h.lists _ List.filter_sublist), echo_singleton]
    rw [hws, spell_cons]
    rfl

/-- **What is printed** for an item with a word in it. -/
theorem filter_eq (h : Stands T S sh item) {first : Str} {rest : List Str}
    (hitem : fields isBlank item = first :: rest) :
    (dfmanEnvCommand T S sh ifs "filter".toList item).printed =
      spell ':' (keptWords T sh.path first) ++ ['\n'] := by
  have hmem : first ∈ fields isBlank item := by
    rw [hitem]
    exact List.mem_cons_self
  obtain ⟨hne, hfirst⟩ := mem_fields hmem
  have hargs : words S sh item = first :: rest := (expandWords_of_forall h.item).trans hitem
  have hargument : argument S sh first = first := by
    rw [argument, words, expandWords_of_glob hne hfirst (h.item first hmem), List.headD_cons]
  have hcommand : words S sh "filter".toList = ["filter".toList] :=
    words_of_literal sh (by decide) (by decide)
  have hlist : newPath T first (pathWords T sh.path) = spell ':' (keptWords T sh.path first) :=
    newPath_eq first _
  rw [dfmanEnvCommand, hcommand, hargs, List.singleton_append, dfmanEnv_filter hne]
  dsimp only
  rw [hargument, filterOutOfPath, words_splitCurrentPath h, hlist, echo_kept h]

/-- An item without a word is answered with the usage. -/
theorem filter_of_blank (hitem : fields isBlank item = []) :
    (dfmanEnvCommand T S sh ifs "filter".toList item).printed =
      "Usage: dfman env filter <path>".toList ++ ['\n'] := by
  have hargs : words S sh item = [] := by
    rw [words, expandWords, hitem]
    rfl
  rw [dfmanEnvCommand, words_of_literal sh (by decide) (by decide), hargs, dfmanEnv]
  rfl

/-- What is printed once stands for itself again. -/
theorem stands_again (h : Stands T S sh item) (first : Str) :
    Stands T S { sh with path := spell ':' (keptWords T sh.path first) } item := by
  have hwords : pathWords T (spell ':' (keptWords T sh.path first)) = keptWords T sh.path first :=
    pathWords_spell fun w hw => of_mem_keptWords hw
  refine ⟨?_, h.item, ?_, ?_⟩
  · intro w hw
    dsimp only at hw ⊢
    rw [fields_of_forall (blank_of_mem_kept sh.path first)] at hw
    split at hw
    · cases hw
    · rw [List.mem_singleton.mp hw]
      exact h.lists _ List.filter_sublist
  · intro w hw
    rw [hwords] at hw
    exact h.words w (List.mem_of_mem_filter hw)
  · intro ws hws
    rw [hwords] at hws
    exact h.lists ws (hws.trans List.filter_sublist)

/-! ### When this is right -/

/-- A list that starts with a colon. -/
theorem spell_eq_intercalate_iff {ws l : List Str} (hws : ∀ w ∈ ws, ':' ∉ w)
    (hl : ∀ e ∈ l, ':' ∉ e) :
    spell ':' ws = [':'].intercalate l ↔ l = [] :: ws ∨ l = [] ∧ ws = [] := by
  have hempty : spell ':' ws = [':'].intercalate ([] :: ws) := by
    rw [intercalate_cons_eq, List.nil_append]
  constructor
  · intro h
    cases l with
    | nil =>
      right
      refine ⟨rfl, ?_⟩
      cases ws with
      | nil => rfl
      | cons w ws =>
        rw [spell_cons] at h
        cases h
    | cons e l =>
      left
      have hsplit := congrArg (List.splitOn ':') (hempty.symm.trans h)
      rw [List.splitOn_intercalate ':' _ (List.cons_ne_nil _ _),
        List.splitOn_intercalate ':' hl (List.cons_ne_nil _ _)] at hsplit
      · exact hsplit.symm
      · intro w hw
        rcases List.mem_cons.mp hw with rfl | hw
        · exact List.not_mem_nil
        · exact hws w hw
  · rintro (rfl | ⟨rfl, rfl⟩)
    · exact hempty
    · rfl

/-- The words of some entries, counted by the entries that are kept and those that are not. -/
theorem length_flatMap_filter (f : Str → List Str) (k : Str → Bool) (es : List Str) :
    (es.flatMap f).length = ((es.filter k).flatMap f).length +
      ((es.filter (!k ·)).flatMap f).length := by
  induction es with
  | nil => rfl
  | cons e es ih =>
    rw [List.flatMap_cons, List.length_append, ih]
    by_cases hk : k e = true
    · rw [List.filter_cons_of_pos hk, List.filter_cons_of_neg (by simp [hk]), List.flatMap_cons,
        List.length_append, Nat.add_assoc]
    · rw [List.filter_cons_of_neg hk, List.filter_cons_of_pos (by simpa using hk),
        List.flatMap_cons, List.length_append, Nat.add_left_comm]

theorem flatMap_filter_of_forall {f : Str → List Str} {k : Str → Bool} {es : List Str}
    (h : ∀ e ∈ es, k e = false → f e = []) : es.flatMap f = (es.filter k).flatMap f := by
  induction es with
  | nil => rfl
  | cons e es ih =>
    rw [List.forall_mem_cons] at h
    rw [List.flatMap_cons, ih h.2]
    by_cases hk : k e = true
    · rw [List.filter_cons_of_pos hk, List.flatMap_cons]
    · rw [List.filter_cons_of_neg hk, h.1 (by simpa using hk), List.nil_append]

/-- Entries that are words, and kept as such. -/
theorem flatMap_of_words {u : Str → Bool} {es : List Str}
    (h : ∀ e ∈ es, e ≠ [] ∧ e.all (fun c => !isBlank c) = true ∧ u e = true) :
    es.flatMap (fun e => (fields isBlank e).filter u) = es := by
  induction es with
  | nil => rfl
  | cons e es ih =>
    rw [List.forall_mem_cons] at h
    obtain ⟨⟨hne, hblank, hu⟩, hrest⟩ := h
    have hfields : fields isBlank e = [e] := by
      apply fields_eq_singleton hne
      intro c hc
      simpa using List.all_eq_true.mp hblank c hc
    rw [List.flatMap_cons, hfields, List.filter_singleton, hu, ih hrest]
    rfl

/-- Words are not empty, and have no blanks. -/
theorem of_mem_flatMap_fields {u : Str → Bool} {es : List Str} {w : Str}
    (h : w ∈ es.flatMap fun e => (fields isBlank e).filter u) :
    w ≠ [] ∧ w.all (fun c => !isBlank c) = true ∧ u w = true := by
  obtain ⟨e, -, he⟩ := List.mem_flatMap.mp h
  obtain ⟨hfield, hu⟩ := List.mem_filter.mp he
  obtain ⟨hne, hblank⟩ := mem_fields hfield
  refine ⟨hne, ?_, hu⟩
  rw [List.all_eq_true]
  intro c hc
  rw [hblank c hc]
  rfl

/-- **The words that are kept are the kept entries** but the first one, which is empty,
exactly if the others are words that are not matched and the words of the entries that
are dropped are. -/
theorem eq_nil_cons_unmatched_iff {u k : Str → Bool} {es : List Str} :
    (es.filter k = [] :: (es.flatMap (fields isBlank)).filter u ∨
        es.filter k = [] ∧ (es.flatMap (fields isBlank)).filter u = []) ↔
      (es.filter k = [] ∨ ∃ rest, es.filter k = [] :: rest ∧
        ∀ e ∈ rest, e ≠ [] ∧ e.all (fun c => !isBlank c) = true ∧ u e = true) ∧
      ∀ e ∈ es, k e = false → ∀ w ∈ fields isBlank e, u w = false := by
  have hwords : (es.flatMap (fields isBlank)).filter u =
      es.flatMap fun e => (fields isBlank e).filter u :=
    List.filter_flatMap
  rw [hwords]
  have hnone : ∀ e, (fields isBlank e).filter u = [] ↔ ∀ w ∈ fields isBlank e, u w = false := by
    intro e
    rw [List.filter_eq_nil_iff]
    simp only [Bool.not_eq_true]
  -- an entry that is dropped has no word that is kept, if all kept words are accounted for
  have hdropped : ((es.filter (!k ·)).flatMap fun e => (fields isBlank e).filter u).length = 0 →
      ∀ e ∈ es, k e = false → ∀ w ∈ fields isBlank e, u w = false := by
    intro hzero e he hk
    rw [← hnone]
    rw [List.length_eq_zero_iff, List.flatMap_eq_nil_iff] at hzero
    exact hzero e (List.mem_filter.mpr ⟨he, by simp [hk]⟩)
  have hcount := length_flatMap_filter (fun e => (fields isBlank e).filter u) k es
  constructor
  · rintro (heq | ⟨hnil, hempty⟩)
    · refine ⟨.inr ⟨_, heq, fun e => of_mem_flatMap_fields⟩, hdropped ?_⟩
      rw [heq, List.flatMap_cons, flatMap_of_words fun e => of_mem_flatMap_fields, fields_nil,
        List.filter_nil, List.nil_append] at hcount
      omega
    · refine ⟨.inl hnil, hdropped ?_⟩
      rw [hempty, hnil] at hcount
      simpa using hcount.symm
  · rintro ⟨hkept, hdrop⟩
    have hall := flatMap_filter_of_forall (f := fun e => (fields isBlank e).filter u) (k := k)
      fun e he hk => (hnone e).mpr (hdrop e he hk)
    rcases hkept with hnil | ⟨rest, hrest, hentries⟩
    · right
      refine ⟨hnil, ?_⟩
      rw [hall, hnil]
      rfl
    · left
      rw [hall, hrest, List.flatMap_cons, flatMap_of_words hentries, fields_nil]
      rfl

theorem colon_notMem_of_mem_keptEntries {path e : Str} (h : e ∈ keptEntries path item) :
    ':' ∉ e := by
  have hsplit : e ∈ path.splitOn ':' := List.mem_of_mem_filter h
  rw [List.splitOn_eq_splitOnP] at hsplit
  intro hc
  simpa using of_mem_splitOnP hsplit ':' hc

/-- Where the words stand for themselves. -/
theorem filtersAt_iff (h : Stands T S sh item) :
    FiltersAt T S sh ifs item ↔ KeepsEntries T item sh.path := by
  unfold FiltersAt KeepsEntries
  cases hitem : fields isBlank item with
  | nil =>
    dsimp only
    rw [filter_of_blank hitem, filter_of_blank hitem, and_iff_left rfl]
    constructor
    · exact fun heq => List.append_cancel_right heq
    · exact fun heq => congrArg (· ++ ['\n']) heq
  | cons first rest =>
    have hprinted : ∀ sh', Stands T S sh' item →
        (dfmanEnvCommand T S sh' ifs "filter".toList item).printed =
          spell ':' (keptWords T sh'.path first) ++ ['\n'] := fun sh' h' => filter_eq h' hitem
    dsimp only
    rw [hprinted sh h]
    have hnewline : '\n' ∉ spell ':' (keptWords T sh.path first) := by
      intro hc
      exact absurd (blank_of_mem_kept sh.path first _ hc) (by decide)
    have hwords : keptWords T (spell ':' (keptWords T sh.path first)) first =
        keptWords T sh.path first := by
      rw [keptWords, pathWords_spell fun w hw => of_mem_keptWords hw, keptWords, List.filter_filter]
      simp only [Bool.and_self]
    -- filtering once more changes nothing
    rw [chomp_concat, chomp_of_notMem hnewline, hprinted _ (stands_again h first), hwords,
      and_iff_left rfl]
    have hlist : spell ':' (keptWords T sh.path first) ++ ['\n'] =
        [':'].intercalate (keptEntries sh.path item) ++ ['\n'] ↔
          keptEntries sh.path item = [] :: keptWords T sh.path first ∨
            keptEntries sh.path item = [] ∧ keptWords T sh.path first = [] := by
      rw [← spell_eq_intercalate_iff (fun w hw hc => ((of_mem_keptWords hw).2 ':' hc).2 rfl)
        fun e he => colon_notMem_of_mem_keptEntries he]
      exact ⟨fun heq => List.append_cancel_right heq, fun heq => congrArg (· ++ ['\n']) heq⟩
    rw [hlist]
    split
    · exact Iff.rfl
    · next hoption =>
      rw [Bool.not_eq_true] at hoption
      rw [keptWords, pathWords_eq hoption, keptEntries, eq_nil_cons_unmatched_iff]
      simp

end

end Manager
end Dfuser
