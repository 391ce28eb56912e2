import Dfuser.Lib.Lines
import Dfuser.Lib.Squeeze

/-!
# The names that `update_files.sh` gives

`scripts/bash/update_files.sh` takes a base name through seven substitutions, with an `echo`
before each `sed`.  The last of them makes underscores of dashes, behind those that squeeze
underscores and take one away at the start: the name of a name may be another one, but that
is the last.

Text is in the C locale, in which a letter is an ASCII letter.

* `newName` — the name that a base name is given.
* `mem_newName` — its characters.
* `newName_of_plain` — what becomes of such a name.
* `newName_newName_newName` — **after two times a name does not change.**
-/

namespace Dfuser
namespace UpdateFiles

/-! ### The substitutions -/

/-- `echo "$name"`.  When the name is an option, there is no text for `echo -e` to
interpret. -/
def echoName (name : Str) : Str := echo id [name]

/-- `[[:alnum:]]._-` and the brackets around it. -/
def isKept (c : Char) : Bool := c.isAlphanum || c = '[' || c = ']' || c = '.' || c = '_' || c = '-'

/-- `tr '\[\]' '_'` -/
def bracketToUnderscore (c : Char) : Char := if c = '[' ∨ c = ']' then '_' else c

/-- `$(echo "$base_name" | tr -s ' ' | tr ' ' '_' | tr -cd … | tr … | tr -s '\[\]' '_')` -/
def tidy (baseName : Str) : Str :=
  let name := trSqueeze (· = ' ') (echoName baseName)
  let name := name.map fun c => if c = ' ' then '_' else c
  let name := name.filter isKept
  let name := name.map Char.toLower
  chomp (trSqueeze (· = '_') (name.map bracketToUnderscore))

/-- `$(echo "$new_name" | sed …)`, for a substitution on a line. -/
def sedName (f : Str → Str) (name : Str) : Str :=
  chomp (unlines ((textLines (echoName name)).map f))

/-- `s/^_//` -/
def stripUnderscore : Str → Str
  | '_' :: s => s
  | s => s

/-- Underscores in the place of dashes. -/
def underscores (s : Str) : Str := s.map fun c => if c = '-' then '_' else c

/-- The new name for a base name. -/
def newName (baseName : Str) : Str := sedName underscores (sedName stripUnderscore (tidy baseName))

/-! ### The characters of a name -/

/-- A character that is left by the substitutions of `tr`. -/
def isTidy (c : Char) : Bool := (c.isAlphanum && !c.isUpper) || c = '.' || c = '_' || c = '-'

/-- A character of a new name. -/
def isPlain (c : Char) : Bool := (c.isAlphanum && !c.isUpper) || c = '.' || c = '_'

theorem isTidy_of_isKept {c : Char} (h : isKept c = true) :
    isTidy (bracketToUnderscore c.toLower) = true := by
  have hall : ((List.range 128).all fun n => !isKept (Char.ofNat n) ||
      isTidy (bracketToUnderscore (Char.ofNat n).toLower)) = true := by decide +kernel
  have hascii : c.toNat < 128 := by
    simp only [isKept, Bool.or_eq_true, decide_eq_true_eq] at h
    rcases h with ((((h | rfl) | rfl) | rfl) | rfl) | rfl
    · exact Nat.lt_of_le_of_lt (range_of_isAlphanum h).2 (by decide)
    · decide
    · decide
    · decide
    · decide
    · decide
  have hc := List.all_eq_true.mp hall c.toNat (List.mem_range.mpr hascii)
  rw [Char.ofNat_toNat, h, Bool.not_true, Bool.false_or] at hc
  exact hc

/-- A plain character goes through all substitutions of `tr`. -/
theorem of_isPlain {c : Char} (h : isPlain c = true) :
    isKept c = true ∧ bracketToUnderscore c.toLower = c ∧ c ≠ ' ' ∧ c ≠ '-' ∧ c ≠ '\n' := by
  have hall : ((List.range 128).all fun n => !isPlain (Char.ofNat n) ||
      decide (isKept (Char.ofNat n) = true ∧
        bracketToUnderscore (Char.ofNat n).toLower = Char.ofNat n ∧
        Char.ofNat n ≠ ' ' ∧ Char.ofNat n ≠ '-' ∧ Char.ofNat n ≠ '\n')) = true := by decide +kernel
  have hascii : c.toNat < 128 := by
    simp only [isPlain, Bool.or_eq_true, Bool.and_eq_true, decide_eq_true_eq] at h
    rcases h with (⟨h, -⟩ | rfl) | rfl
    · exact Nat.lt_of_le_of_lt (range_of_isAlphanum h).2 (by decide)
    · decide
    · decide
  have hc := List.all_eq_true.mp hall c.toNat (List.mem_range.mpr hascii)
  rw [Char.ofNat_toNat, h, Bool.not_true, Bool.false_or, decide_eq_true_eq] at hc
  exact hc

theorem mem_tidy {c : Char} {name : Str} (h : c ∈ tidy name) : isTidy c = true := by
  have hmem := (trSqueeze_sublist _ _).subset ((prefix_chomp _).subset h)
  obtain ⟨d, hd, rfl⟩ := List.mem_map.mp hmem
  obtain ⟨e, he, rfl⟩ := List.mem_map.mp hd
  exact isTidy_of_isKept (List.mem_filter.mp he).2

theorem newline_notMem_of_isTidy {s : Str} (h : ∀ c ∈ s, isTidy c = true) : '\n' ∉ s :=
  fun hc => absurd (h _ hc) (by decide)

theorem sedName_eq {f : Str → Str} {name : Str} (hnil : f [] = []) (hname : '\n' ∉ name)
    (hf : '\n' ∉ f name) : sedName f name = if isEchoOption name then [] else f name := by
  split
  · next hoption =>
    have htake : [name].takeWhile isEchoOption = [name] := by simp [hoption]
    have hdrop : [name].dropWhile isEchoOption = [] := by simp [hoption]
    have hecho : echoName name = [] ∨ echoName name = ['\n'] := by
      unfold echoName echo
      rw [htake, hdrop]
      dsimp only [id]
      rw [ite_self]
      split
      · exact .inl rfl
      · exact .inr rfl
    rcases hecho with hecho | hecho
    · rw [sedName, hecho]
      rfl
    · have hline : textLines ['\n'] = [[]] := by decide
      rw [sedName, hecho, hline, List.map_singleton, hnil]
      rfl
  · next hoption =>
    rw [Bool.not_eq_true] at hoption
    have hline : name ++ ['\n'] = unlines [name] := by simp [unlines]
    rw [sedName, echoName, echo_singleton hoption, hline, textLines_unlines (by simpa using hname),
      List.map_singleton, unlines, List.flatMap_singleton, chomp_concat, chomp_of_notMem hf]

theorem stripUnderscore_sublist (s : Str) : (stripUnderscore s).Sublist s := by
  unfold stripUnderscore
  split
  · exact List.sublist_cons_self _ _
  · exact List.Sublist.refl _

theorem mem_underscores {c : Char} {s : Str} (hs : ∀ d ∈ s, isTidy d = true)
    (h : c ∈ underscores s) : isPlain c = true := by
  obtain ⟨d, hd, rfl⟩ := List.mem_map.mp h
  have htidy := hs d hd
  split
  · decide
  · next hdash =>
    simp only [isTidy, hdash, decide_false, Bool.or_false] at htidy
    exact htidy

/-- The characters of a name are plain. -/
theorem mem_newName {c : Char} {name : Str} (h : c ∈ newName name) : isPlain c = true := by
  have hstrip : ∀ d ∈ sedName stripUnderscore (tidy name), isTidy d = true := by
    have hsub : ∀ d ∈ stripUnderscore (tidy name), isTidy d = true :=
      fun d hd => mem_tidy ((stripUnderscore_sublist _).subset hd)
    rw [sedName_eq rfl (newline_notMem_of_isTidy fun _ => mem_tidy) (newline_notMem_of_isTidy hsub)]
    split
    · simp
    · exact hsub
  have hplain : ∀ d ∈ underscores (sedName stripUnderscore (tidy name)), isPlain d = true :=
    fun d hd => mem_underscores hstrip hd
  rw [newName, sedName_eq rfl (newline_notMem_of_isTidy hstrip)
    fun hc => absurd (hplain _ hc) (by decide)] at h
  split at h
  · cases h
  · exact hplain c h

/-! ### Names of names -/

/-- A name without dashes and newlines is no option, and is one line. -/
theorem sedName_of_plain {f : Str → Str} {name : Str} (hnil : f [] = [])
    (hname : ∀ c ∈ name, isPlain c = true) (hf : ∀ c ∈ f name, isPlain c = true) :
    sedName f name = f name := by
  rw [sedName_eq hnil (fun hc => (of_isPlain (hname _ hc)).2.2.2.2 rfl)
    (fun hc => (of_isPlain (hf _ hc)).2.2.2.2 rfl), isEchoOption_of_notMem,
      if_neg Bool.false_ne_true]
  exact fun hc => (of_isPlain (hname _ hc)).2.2.2.1 rfl

theorem tidy_of_plain {s : Str} (h : ∀ c ∈ s, isPlain c = true) :
    tidy s = trSqueeze (· = '_') s := by
  have hecho : echoName s = s ++ ['\n'] :=
    echo_singleton (isEchoOption_of_notMem fun hc => (of_isPlain (h _ hc)).2.2.2.1 rfl)
  have hblank : ∀ c ∈ s ++ ['\n'], c ≠ ' ' := by
    intro c hc
    rcases List.mem_append.mp hc with hc | hc
    · exact (of_isPlain (h c hc)).2.2.1
    · rw [List.mem_singleton.mp hc]
      decide
  have hmap : (s ++ ['\n']).map (fun c => if c = ' ' then '_' else c) = s ++ ['\n'] := by
    conv_rhs => rw [← List.map_id (s ++ ['\n'])]
    exact List.map_congr_left fun c hc => if_neg (hblank c hc)
  have hfilter : (s ++ ['\n']).filter isKept = s := by
    have hnewline : ¬ isKept '\n' = true := by decide
    rw [List.filter_append, List.filter_eq_self.mpr fun c hc => (of_isPlain (h c hc)).1,
      List.filter_cons_of_neg hnewline, List.filter_nil, List.append_nil]
  have hlower : (s.map Char.toLower).map bracketToUnderscore = s := by
    rw [List.map_map]
    conv_rhs => rw [← List.map_id s]
    exact List.map_congr_left fun c hc => (of_isPlain (h c hc)).2.1
  have hnewline : '\n' ∉ trSqueeze (· = '_') s :=
    fun hc => (of_isPlain (h _ ((trSqueeze_sublist _ s).subset hc))).2.2.2.2 rfl
  unfold tidy
  rw [hecho, trSqueeze_of_forall fun c hc => decide_eq_false (hblank c hc)]
  dsimp only
  rw [hmap, hfilter, hlower, chomp_of_notMem hnewline]

/-- What becomes of a plain name: underscores are squeezed, and one is taken away. -/
theorem newName_of_plain {s : Str} (h : ∀ c ∈ s, isPlain c = true) :
    newName s = stripUnderscore (trSqueeze (· = '_') s) := by
  have hsqueeze : ∀ c ∈ trSqueeze (· = '_') s, isPlain c = true :=
    fun c hc => h c ((trSqueeze_sublist _ s).subset hc)
  have hstrip : ∀ c ∈ stripUnderscore (trSqueeze (· = '_') s), isPlain c = true :=
    fun c hc => hsqueeze c ((stripUnderscore_sublist _).subset hc)
  have hsame : underscores (stripUnderscore (trSqueeze (· = '_') s)) =
      stripUnderscore (trSqueeze (· = '_') s) := by
    rw [underscores]
    conv_rhs => rw [← List.map_id (stripUnderscore (trSqueeze (· = '_') s))]
    exact List.map_congr_left fun c hc => if_neg (of_isPlain (hstrip c hc)).2.2.2.1
  rw [newName, tidy_of_plain h, sedName_of_plain rfl hsqueeze hstrip,
    sedName_of_plain rfl hstrip (by rw [hsame]; exact hstrip), hsame]

theorem stripUnderscore_of_head? {s : Str} (h : s.head? ≠ some '_') : stripUnderscore s = s := by
  unfold stripUnderscore
  split
  · exact absurd rfl h
  · rfl

/-- **After two times a name does not change.** -/
theorem newName_newName_newName (name : Str) :
    newName (newName (newName name)) = newName (newName name) := by
  have hplain : ∀ c ∈ newName name, isPlain c = true := fun _ => mem_newName
  have hsqueezed := trSqueeze_trSqueeze (p := (· = '_')) (newName name)
  -- no underscore is at the start, and none behind another one
  have hfixed : trSqueeze (· = '_') (newName (newName name)) = newName (newName name) ∧
      (newName (newName name)).head? ≠ some '_' := by
    rw [newName_of_plain hplain]
    generalize trSqueeze (· = '_') (newName name) = t at hsqueezed
    unfold stripUnderscore
    split
    · obtain ⟨hrest, hhead⟩ := trSqueeze_of_cons hsqueezed
      exact ⟨hrest, fun h => hhead ⟨h, by decide⟩⟩
    · next hnot =>
      refine ⟨hsqueezed, ?_⟩
      intro h
      obtain ⟨s, rfl⟩ := List.head?_eq_some_iff.mp h
      exact hnot s rfl
  rw [newName_of_plain fun _ => mem_newName, hfixed.1, stripUnderscore_of_head? hfixed.2]

end UpdateFiles
end Dfuser
