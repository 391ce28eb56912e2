import Dfuser.Ini.ReadBack

/-!
# What has been read can be written

The shapes that a configuration must have to be read back are those that the reader gives
it: a name is what stands before a delimiter, on a line that is no comment and no header,
and the lines of a value have been stripped.  So a text that has been read, written and read
again is the same configuration.

Option names are normalised while they are read.  That the shape of a name survives this is
`KeepsMarks`; of `str.lower` it holds, since spaces, brackets and comment signs have no case.

## Main definitions

* `KeepsMarks` — what is asked of the normalisation of names.
* `Reader.Sound` — the shapes of what has been read so far.

## Main results

* `writable_of_parse` — what has been read is writable.
* `parse_write_iff` — **exactly the writable configurations come back.**
-/

namespace Dfuser
namespace Ini

open History (isSpace)
open Columns (strip)
open Dfuser.Joined (spell)

variable {x : OptionXform}

/-! ### The normalisation of names -/

/-- The characters that make a line a comment or a header, and the spaces around a name. -/
def isMark (c : Char) : Bool := isSpace c || c = '#' || c = ';' || c = '[' || c = ']'

/-- Normalising a name leaves its marks where they are and makes no marks or delimiters. -/
structure KeepsMarks (x : OptionXform) : Prop where
  cut : ∀ c, isMark c = true → ∀ a b, x.lower (a ++ c :: b) = x.lower a ++ c :: x.lower b
  notMem : ∀ c, isMark c = true ∨ isDelimiter c = true → ∀ k, c ∉ k → c ∉ x.lower k
  eq_nil_iff : ∀ k, x.lower k = [] ↔ k = []

theorem toLower_eq_iff {c : Char}
    (hc : c.toNat < 65 ∨ (90 < c.toNat ∧ c.toNat < 97) ∨ 122 < c.toNat) (d : Char) :
    d.toLower = c ↔ d = c := by
  by_cases hd : 'A'.val ≤ d.val ∧ d.val ≤ 'Z'.val
  · have hrange : 65 ≤ d.toNat ∧ d.toNat ≤ 90 := ⟨hd.1, hd.2⟩
    have hlower : d.toLower.toNat = d.toNat + 32 := by
      rw [Char.toLower, dif_pos hd]
      show (d.val + ('a'.val - 'A'.val)).toNat = d.val.toNat + 32
      have hval : d.val.toNat = d.toNat := rfl
      have hdiff : ('a'.val - 'A'.val).toNat = 32 := by decide
      rw [UInt32.toNat_add, hdiff, hval]
      omega
    constructor
    · rintro rfl
      omega
    · rintro rfl
      omega
  · rw [Char.toLower, dif_neg hd]

/-- Marks and delimiters are no letters. -/
theorem not_letter {c : Char} (h : isMark c = true ∨ isDelimiter c = true) :
    c.toNat < 65 ∨ (90 < c.toNat ∧ c.toNat < 97) ∨ 122 < c.toNat := by
  simp only [isMark, isDelimiter, isSpace, Bool.or_eq_true, Bool.and_eq_true, decide_eq_true_eq,
    beq_iff_eq] at h
  rcases h with ((((h | rfl) | rfl) | rfl) | rfl) | (rfl | rfl)
  · omega
  all_goals decide

theorem keepsMarks_asciiLower : KeepsMarks asciiLower where
  cut := by
    intro c hc a b
    have hself : c.toLower = c := (toLower_eq_iff (not_letter (.inl hc)) c).mpr rfl
    simp only [asciiLower, List.map_append, List.map_cons, hself]
  notMem := by
    intro c hc k hk hmem
    obtain ⟨d, hd, hlower⟩ := List.mem_map.mp hmem
    rw [(toLower_eq_iff (not_letter hc) d).mp hlower] at hd
    exact hk hd
  eq_nil_iff := fun k => List.map_eq_nil_iff

namespace KeepsMarks

variable {k : Str} {c : Char}

/-- A name that starts with a mark after the normalisation started with it before. -/
theorem head_lower (hx : KeepsMarks x) (hc : isMark c = true) {r : Str}
    (h : x.lower k = c :: r) : ∃ b, k = c :: b ∧ r = x.lower b := by
  have hmem : c ∈ k := by
    by_contra hno
    exact hx.notMem c (.inl hc) k hno (h ▸ List.mem_cons_self)
  obtain ⟨a, b, rfl, hfirst⟩ := List.eq_append_cons_of_mem hmem
  rw [hx.cut c hc] at h
  cases ha : x.lower a with
  | nil =>
    rw [ha] at h
    rw [(hx.eq_nil_iff a).mp ha]
    exact ⟨b, rfl, ((List.cons.inj h).2).symm⟩
  | cons d a' =>
    rw [ha] at h
    have hd : c ∈ x.lower a := by
      rw [ha, (List.cons.inj h).1]
      exact List.mem_cons_self
    exact absurd hd (hx.notMem c (.inl hc) a hfirst)

/-- So did one that ends with a mark. -/
theorem getLast_lower (hx : KeepsMarks x) (hc : isMark c = true)
    (h : c ∈ (x.lower k).getLast?) : c ∈ k.getLast? := by
  have hmem : c ∈ k := by
    by_contra hno
    exact hx.notMem c (.inl hc) k hno (List.mem_of_getLast? h)
  obtain ⟨b, a, hk, hlast⟩ := List.eq_append_cons_of_mem (List.mem_reverse.mpr hmem)
  have hcut : k = a.reverse ++ c :: b.reverse := by
    rw [← List.reverse_reverse k, hk]
    simp
  have hnot : c ∉ x.lower b.reverse :=
    hx.notMem c (.inl hc) _ fun hb => hlast (List.mem_reverse.mp hb)
  rw [hcut, hx.cut c hc] at h
  have hnil : x.lower b.reverse = [] := by
    by_contra hne
    rw [← List.singleton_append, ← List.append_assoc,
      List.getLast?_append_of_ne_nil _ hne] at h
    exact hnot (List.mem_of_getLast? h)
  rw [hcut, (hx.eq_nil_iff _).mp hnil, List.getLast?_concat]
  rfl

/-- A mark that comes after the first character did so before the normalisation. -/
theorem mem_tail_lower (hx : KeepsMarks x) (hc : isMark c = true)
    (h : c ∈ (x.lower k).tail) : c ∈ k.tail := by
  cases k with
  | nil =>
    rw [(hx.eq_nil_iff []).mpr rfl] at h
    cases h
  | cons d b =>
    rw [List.tail_cons]
    by_contra hno
    by_cases hd : d = c
    · subst hd
      have hlower := hx.cut d hc [] b
      rw [(hx.eq_nil_iff []).mpr rfl, List.nil_append, List.nil_append] at hlower
      rw [hlower, List.tail_cons] at h
      exact hx.notMem d (.inl hc) b hno h
    · have hnot : c ∉ d :: b := List.not_mem_cons_of_ne_of_not_mem (Ne.symm hd) hno
      exact hx.notMem c (.inl hc) _ hnot (List.mem_of_mem_tail h)

/-- **The normalisation makes names of names.** -/
theorem isName_lower (hx : KeepsMarks x) (hk : IsName k) : IsName (x.lower k) := by
  obtain ⟨hhead, hlast⟩ := Columns.strip_eq_self_iff.mp hk.stripped
  have hspace : ∀ {c}, isSpace c = true → isMark c = true := fun h => by simp [isMark, h]
  refine ⟨fun h => hk.ne_nil ((hx.eq_nil_iff k).mp h), ?_, ?_, fun c hc => ?_, ?_, ?_⟩
  · rw [Columns.strip_eq_self_iff]
    constructor
    · intro c hc
      by_contra hno
      have hs : isSpace c = true := by simpa using hno
      obtain ⟨r, hr⟩ := List.head?_eq_some_iff.mp hc
      obtain ⟨b, rfl, -⟩ := hx.head_lower (hspace hs) hr
      exact absurd (hhead c rfl) hno
    · intro c hc
      by_contra hno
      have hs : isSpace c = true := by simpa using hno
      exact absurd (hlast c (hx.getLast_lower (hspace hs) hc)) hno
  · have hcomment := hk.noComment
    rw [isComment] at hcomment ⊢
    cases hhead : (x.lower k).head? with
    | none => rfl
    | some c =>
      rw [Option.any_some]
      by_contra hno
      have hc : c = '#' ∨ c = ';' := by
        rwa [Bool.not_eq_false, decide_eq_true_eq] at hno
      obtain ⟨r, hr⟩ := List.head?_eq_some_iff.mp hhead
      obtain ⟨b, rfl, -⟩ := hx.head_lower (by rcases hc with rfl | rfl <;> decide) hr
      rw [List.head?_cons, Option.any_some] at hcomment
      rw [hcomment] at hno
      exact hno rfl
  · by_contra hno
    have hd : isDelimiter c = true := by simpa using hno
    refine hx.notMem c (.inr hd) k (fun hmem => ?_) hc
    rw [hk.noDelimiter c hmem] at hd
    cases hd
  · exact hx.notMem _ (.inl (by decide)) k hk.noNewline.1
  · exact hx.notMem _ (.inl (by decide)) k hk.noNewline.2

end KeepsMarks

/-! ### The line of an option -/

/-- A line with a name, a delimiter and more is no header after it has been written again. -/
theorem header?_optionLine (hx : KeepsMarks x) {w name l rest : Str} (hheader : header? w = none)
    (hw : w = name ++ rest) (hname : IsName name) (hl : strip isSpace l = l)
    (hrest : ∀ c ∈ l, c ∈ rest.tail) :
    header? (strip isSpace (optionLine (x.lower name) l)) = none := by
  have hlower := hx.isName_lower hname
  obtain ⟨rest', hstrip, -, hmem⟩ := strip_optionLine hlower.ne_nil hlower.stripped hl
  rw [hstrip, header?_eq_none_iff, head?_of_ne_nil hlower.ne_nil]
  intro hopen hclose
  obtain ⟨r, hr⟩ := List.head?_eq_some_iff.mp hopen
  obtain ⟨b, rfl, rfl⟩ := hx.head_lower (by decide) hr
  have hwhead : w.head? = some '[' := by rw [hw]; rfl
  have hno := header?_eq_none_iff.mp hheader hwhead
  have hdrop : w.drop 2 = (b ++ rest).tail := by
    rw [hw, ← List.tail_drop]
    rfl
  rw [hr, List.cons_append, ← List.tail_drop, List.drop_one, List.tail_cons] at hclose
  apply hno
  rw [hdrop]
  -- the bracket comes from the name or from the value
  have hcases : ']' ∈ (x.lower b).tail ∨ ']' ∈ l := by
    cases hb : x.lower b with
    | nil =>
      rw [hb, List.nil_append, List.tail_cons] at hclose
      rcases List.mem_cons.mp hclose with heq | hmem'
      · cases heq
      · rcases hmem _ hmem' with heq | hmem'
        · cases heq
        · exact .inr hmem'
    | cons d b' =>
      rw [hb, List.cons_append, List.tail_cons, List.mem_append, List.mem_cons,
        List.mem_cons] at hclose
      rcases hclose with hmem' | heq | heq | hmem'
      · exact .inl hmem'
      · cases heq
      · cases heq
      · rcases hmem _ hmem' with heq | hmem'
        · cases heq
        · exact .inr hmem'
  rcases hcases with hb | hmem'
  · have hbtail := hx.mem_tail_lower (by decide) hb
    rw [List.tail_append_of_ne_nil (by rintro rfl; cases hbtail)]
    exact List.mem_append_left _ hbtail
  · have htail := hrest _ hmem'
    cases b with
    | nil => exact htail
    | cons d b =>
      rw [List.cons_append, List.tail_cons]
      exact List.mem_append_right _ (List.mem_of_mem_tail htail)

/-- What the line of an option is read as. -/
theorem isItem_of_option? (hx : KeepsMarks x) {w name optval : Str} (hw : strip isSpace w = w)
    (hcomment : isComment w = false) (hheader : header? w = none) (hnew : '\n' ∉ w ∧ '\r' ∉ w)
    (h : option? w = some (name, optval)) (hne : name ≠ []) : IsItem (x.lower name) optval := by
  unfold option? at h
  split at h
  · cases h
  · next d after hafter =>
    obtain ⟨hname, hoptval⟩ := Prod.mk.inj (Option.some.inj h)
    -- the line is the name, space, the delimiter, and what comes after it
    obtain ⟨space, hspace⟩ :=
      List.rdropWhile_prefix isSpace (l := w.takeWhile fun c => !isDelimiter c)
    rw [hname] at hspace
    have hcut : w = name ++ (space ++ d :: after) := by
      rw [← List.append_assoc, hspace, ← hafter, List.takeWhile_append_dropWhile]
    have hsub : ∀ c ∈ name, c ∈ w := fun c hc => by
      rw [hcut]
      exact List.mem_append_left _ hc
    have hsubval : ∀ c ∈ optval, c ∈ after := fun c hc =>
      Columns.mem_of_mem_strip (p := isSpace) (hoptval ▸ hc)
    have hsubw : ∀ c ∈ optval, c ∈ w := fun c hc => by
      rw [hcut]
      exact List.mem_append_right _
        (List.mem_append_right _ (List.mem_cons_of_mem _ (hsubval c hc)))
    have hisName : IsName name := by
      refine ⟨hne, ?_, ?_, fun c hc => ?_, fun hc => hnew.1 (hsub _ hc),
        fun hc => hnew.2 (hsub _ hc)⟩
      · rw [Columns.strip_eq_self_iff]
        constructor
        · have hhead := (Columns.strip_eq_self_iff.mp hw).1
          rwa [hcut, head?_of_ne_nil hne] at hhead
        · rw [← Columns.rdropWhile_eq_self_iff, ← hname]
          exact List.rdropWhile_idempotent isSpace _
      · rwa [hcut, isComment_append hne] at hcomment
      · have hbefore : c ∈ w.takeWhile fun c => !isDelimiter c := by
          rw [← hspace]
          exact List.mem_append_left _ hc
        simpa using List.mem_takeWhile_imp hbefore
    have hstripped : strip isSpace optval = optval := by
      rw [← hoptval, Columns.strip_strip]
    have hlines : optval.splitOn '\n' = [optval] :=
      List.splitOn_eq_singleton fun hc => hnew.1 (hsubw _ hc)
    refine ⟨hx.isName_lower hisName, fun hc => hnew.2 (hsubw _ hc), ?_, ?_, ?_⟩
    · rw [hlines]
      intro l hl
      rw [List.mem_singleton.mp hl, hstripped]
    · rw [hlines]
      intro l hl
      cases hl
    · rw [hlines]
      refine header?_optionLine hx hheader hcut hisName hstripped fun c hc => ?_
      have hmem := hsubval c hc
      cases space with
      | nil => exact hmem
      | cons a space => exact List.mem_append_right _ (List.mem_cons_of_mem _ hmem)

/-! ### The lines of a value -/

theorem splitOn_spell {l : Str} {ls : List Str} (hl : '\n' ∉ l) (hls : ∀ a ∈ ls, '\n' ∉ a) :
    (l ++ spell '\n' ls).splitOn '\n' = l :: ls := by
  rw [← Joined.intercalate_cons_eq]
  refine List.splitOn_intercalate '\n' (fun a ha => ?_) (List.cons_ne_nil _ _)
  rcases List.mem_cons.mp ha with rfl | ha
  · exact hl
  · exact hls a ha

/-- The lines of a value that another line has been added to. -/
theorem splitOn_append_line (v : Str) {l : Str} (hl : '\n' ∉ l) :
    (v ++ '\n' :: l).splitOn '\n' = v.splitOn '\n' ++ [l] := by
  cases hlines : v.splitOn '\n' with
  | nil => exact absurd hlines (List.splitOn_ne_nil _ _)
  | cons l₀ ls =>
    have hnew : ∀ a ∈ l₀ :: ls, '\n' ∉ a := fun a ha =>
      newline_notMem_splitOn (hlines ▸ ha)
    have hv := spell_splitOn v
    rw [hlines, List.headD_cons, List.tail_cons] at hv
    have hspell : v ++ '\n' :: l = l₀ ++ spell '\n' (ls ++ [l]) := by
      rw [← hv, Joined.spell_append, Joined.spell_cons, Joined.spell_nil, List.append_nil,
        List.append_assoc]
    rw [hspell, splitOn_spell (hnew l₀ List.mem_cons_self)]
    · rfl
    · intro a ha
      rcases List.mem_append.mp ha with ha | ha
      · exact hnew a (List.mem_cons_of_mem _ ha)
      · exact List.mem_singleton.mp ha ▸ hl

theorem IsItem.append {k v l : Str} (h : IsItem k v) (hl : strip isSpace l = l)
    (hcomment : isComment l = false) (hnew : '\n' ∉ l ∧ '\r' ∉ l) : IsItem k (v ++ '\n' :: l) := by
  have hne := List.splitOn_ne_nil '\n' v
  refine ⟨h.name, ?_, ?_, ?_, ?_⟩
  · simp [h.noReturn, hnew.2]
  · rw [splitOn_append_line v hnew.1]
    intro a ha
    rcases List.mem_append.mp ha with ha | ha
    · exact h.stripped a ha
    · rw [List.mem_singleton.mp ha, hl]
  · rw [splitOn_append_line v hnew.1, List.tail_append_of_ne_nil hne]
    intro a ha
    rcases List.mem_append.mp ha with ha | ha
    · exact h.noComment a ha
    · rw [List.mem_singleton.mp ha, hcomment]
  · have hheader := h.noHeader
    rw [splitOn_append_line v hnew.1]
    cases hlines : v.splitOn '\n' with
    | nil => exact absurd hlines hne
    | cons l₀ ls =>
      rw [hlines] at hheader
      exact hheader

/-- Trimming a value takes away its last lines as far as they are empty. -/
theorem exists_trim (l : Str) (ls : List Str) (hl : strip isSpace l = l)
    (hls : ∀ a ∈ ls, strip isSpace a = a) :
    ∃ ls', ls' <+: ls ∧ (l ++ spell '\n' ls).rdropWhile isSpace = l ++ spell '\n' ls' := by
  induction ls using List.reverseRecOn with
  | nil =>
    refine ⟨[], List.prefix_rfl, ?_⟩
    rw [Joined.spell_nil, List.append_nil, Columns.rdropWhile_eq_self_iff]
    exact (Columns.strip_eq_self_iff.mp hl).2
  | append_singleton ls a ih =>
    have ha := hls a (by simp)
    obtain ⟨ls', hpre, htrim⟩ := ih fun b hb => hls b (List.mem_append_left _ hb)
    have hspell : l ++ spell '\n' (ls ++ [a]) = (l ++ spell '\n' ls) ++ '\n' :: a := by
      rw [Joined.spell_append, Joined.spell_cons, Joined.spell_nil, List.append_nil,
        List.append_assoc]
    by_cases hnil : a = []
    · refine ⟨ls', hpre.trans (List.prefix_append _ _), ?_⟩
      rw [hspell, hnil, List.rdropWhile_concat_pos _ _ _ (by decide), htrim]
    · refine ⟨ls ++ [a], List.prefix_rfl, ?_⟩
      rw [Columns.rdropWhile_eq_self_iff, hspell, ← List.singleton_append, ← List.append_assoc,
        List.getLast?_append_of_ne_nil _ hnil]
      exact (Columns.strip_eq_self_iff.mp ha).2

theorem IsItem.trim {k v : Str} (h : IsItem k v) : IsItem k (v.rdropWhile isSpace) := by
  cases hlines : v.splitOn '\n' with
  | nil => exact absurd hlines (List.splitOn_ne_nil _ _)
  | cons l₀ ls =>
    have hv := spell_splitOn v
    rw [hlines, List.headD_cons, List.tail_cons] at hv
    have hstripped := h.stripped
    have hcomment := h.noComment
    have hheader := h.noHeader
    rw [hlines] at hstripped hcomment hheader
    obtain ⟨ls', hpre, htrim⟩ := exists_trim l₀ ls (hstripped l₀ List.mem_cons_self)
      fun a ha => hstripped a (List.mem_cons_of_mem _ ha)
    rw [hv] at htrim
    have hnew : ∀ a ∈ l₀ :: ls, '\n' ∉ a := fun a ha => newline_notMem_splitOn (hlines ▸ ha)
    have hlines' : (v.rdropWhile isSpace).splitOn '\n' = l₀ :: ls' := by
      rw [htrim]
      exact splitOn_spell (hnew l₀ List.mem_cons_self) fun a ha =>
        hnew a (List.mem_cons_of_mem _ (hpre.subset ha))
    refine ⟨h.name, fun hr => h.noReturn (List.rdropWhile_prefix isSpace v |>.subset hr),
      ?_, ?_, ?_⟩
    · rw [hlines']
      intro a ha
      rcases List.mem_cons.mp ha with rfl | ha
      · exact hstripped a List.mem_cons_self
      · exact hstripped a (List.mem_cons_of_mem _ (hpre.subset ha))
    · rw [hlines']
      exact fun a ha => hcomment a (hpre.subset ha)
    · rw [hlines']
      exact hheader

/-! ### What has been read -/

namespace Reader

variable {ρ ρ' : Reader x} {lineno : ℕ} {line : Str}

/-- What has been read so far has the shapes of what can be written, as long as every line was
an option. -/
structure Sound (ρ : Reader x) : Prop where
  fits : ρ.Fits
  sections : ∀ s ∈ ρ.config.sections.keys, '\n' ∉ s ∧ '\r' ∉ s
  items : ρ.errors = [] → ∀ s k v, ρ.config.own s k = some v →
    IsItem k v ∧ (s, k) ∈ ρ.optionsAdded

theorem sound_start : Sound (start (Config.empty : Config x)) where
  fits := fits_start _
  sections := fun s hs => by cases hs
  items := fun _ s k v h => by
    rw [start, Config.own_empty] at h
    cases h

theorem mem_strip_line (hline : '\n' ∉ line ∧ '\r' ∉ line) :
    '\n' ∉ strip isSpace line ∧ '\r' ∉ strip isSpace line :=
  ⟨fun h => hline.1 (Columns.mem_of_mem_strip h), fun h => hline.2 (Columns.mem_of_mem_strip h)⟩

/-- **One line keeps the shapes.** -/
theorem Sound.moves (hx : KeepsMarks x) (h : ρ.Sound) (hline : '\n' ∉ line ∧ '\r' ∉ line)
    (hmove : Moves ρ lineno line ρ') : ρ'.Sound := by
  have hfits := h.fits.moves hmove
  have hvalue := mem_strip_line hline
  cases hmove with
  | skip => exact h
  | append s value hs hopt hval =>
    have hsec := h.fits.cursect s hs
    obtain ⟨v, hv⟩ := h.fits.optname s hs hopt
    have hlow := Config.lower_of_own hv
    refine ⟨hfits, ?_, fun herrors a k w hw => ?_⟩
    · rw [append, Config.keys_sections_put hsec]
      exact h.sections
    · rw [append, Config.own_put hsec, hlow, hv, Option.getD_some] at hw
      split at hw
      · next heq =>
        obtain ⟨rfl, rfl⟩ := heq
        cases hw
        obtain ⟨hitem, hadded⟩ := h.items herrors _ _ v hv
        obtain ⟨rfl, hcomment⟩ := hval
        exact ⟨hitem.append (Columns.strip_strip _ _) hcomment hvalue, hadded⟩
      · exact h.items herrors a k w hw
  | openSection s _ hheader hopen =>
    obtain ⟨hne, hmem⟩ := header?_of_ne hheader
    rw [openSection_eq] at hopen
    split at hopen
    · cases hopen
    · cases hopen
      refine ⟨hfits, fun a ha => ?_, fun herrors a k w hw => ?_⟩
      · rw [Config.keys_sections_ensureSection _ hne] at ha
        have hname : '\n' ∉ s ∧ '\r' ∉ s :=
          ⟨fun hc => hvalue.1 (hmem _ hc), fun hc => hvalue.2 (hmem _ hc)⟩
        split at ha
        · exact h.sections a ha
        · rcases Dict.mem_appendKeys.mp ha with ha | ha
          · exact h.sections a ha
          · exact List.mem_singleton.mp ha ▸ hname
      · exact h.items herrors a k w ((Config.own_ensureSection _ _ _ _).symm.trans hw)
  | addOption s _ hs hheader hcomment hadd =>
    have hsec := h.fits.cursect s hs
    unfold addOption at hadd
    split at hadd
    · cases hadd
      refine ⟨hfits, h.sections, fun herrors => ?_⟩
      exact absurd herrors (by simp)
    · next name optval hoption =>
      dsimp only at hadd
      split at hadd
      · cases hadd
      · cases hadd
        refine ⟨hfits, ?_, fun herrors a k w hw => ?_⟩
        · dsimp only [setIndent]
          rw [Config.keys_sections_put hsec]
          exact h.sections
        · dsimp only [setIndent] at herrors hw ⊢
          -- a name that is empty is an error
          have hname : name ≠ [] := by
            rintro rfl
            simp at herrors
          rw [if_neg hname] at herrors
          rw [Config.own_put hsec, x.idem] at hw
          split at hw
          · next heq =>
            obtain ⟨rfl, rfl⟩ := heq
            cases hw
            exact ⟨isItem_of_option? hx (Columns.strip_strip _ _) hcomment hheader hvalue hoption
              hname, List.mem_cons_self⟩
          · obtain ⟨hitem, hadded⟩ := h.items herrors a k w hw
            exact ⟨hitem, List.mem_cons_of_mem _ hadded⟩

theorem Sound.readLines (hx : KeepsMarks x) (h : ρ.Sound) {lines : List Str}
    (hlines : ∀ l ∈ lines, '\n' ∉ l ∧ '\r' ∉ l) (hread : ρ.readLines lineno lines = .ok ρ') :
    ρ'.Sound := by
  induction lines generalizing ρ lineno with
  | nil =>
    cases hread
    exact h
  | cons line lines ih =>
    rw [Reader.readLines] at hread
    cases hline : ρ.readLine lineno line with
    | error e =>
      rw [hline] at hread
      cases hread
    | ok ρ₁ =>
      rw [hline] at hread
      exact ih (h.moves hx (hlines line List.mem_cons_self) (moves_of_readLine hline))
        (fun l hl => hlines l (List.mem_cons_of_mem _ hl)) hread

end Reader

/-- **What has been read is writable.** -/
theorem writable_of_parse (hx : KeepsMarks x) {text : Str} {c : Config x}
    (h : parse x text = .ok c) : Writable c := by
  rw [parse, readText] at h
  cases hread : (Reader.start (Config.empty : Config x)).readLines 1
      (textLines (universalNewlines text)) with
  | error e =>
    rw [hread] at h
    cases h
  | ok ρ =>
    rw [hread, Except.bind, Reader.finish] at h
    split at h
    · next herrors =>
      cases h
      have hlines : ∀ l ∈ textLines (universalNewlines text), '\n' ∉ l ∧ '\r' ∉ l := by
        intro l hl
        have hsplit : l ∈ (universalNewlines text).splitOn '\n' := by
          unfold textLines at hl
          dsimp only at hl
          split at hl
          · exact List.mem_of_mem_dropLast hl
          · exact hl
        exact ⟨newline_notMem_splitOn hsplit, fun hr =>
          notMem_universalNewlines text (mem_of_mem_splitOn hsplit hr).1⟩
      have hsound := Reader.sound_start.readLines hx hlines hread
      refine ⟨fun s hs => hsound.sections s ?_, fun s k v hv => ?_⟩
      · rwa [Reader.joined, (Reader.keys_foldl_trimOption _ _).1] at hs
      · -- every value comes from this text, and has been trimmed
        rw [Reader.own_joined] at hv
        split at hv
        · obtain ⟨w, hw, rfl⟩ := Option.map_eq_some_iff.mp hv
          exact ⟨(hsound.items herrors s k w hw).1.trim, List.rdropWhile_idempotent isSpace w⟩
        · next hno => exact absurd (hsound.items herrors s k v hv).2 hno
    · cases h

/-- **Exactly the writable configurations come back.** -/
theorem parse_write_iff (hx : KeepsMarks x) (c : Config x) :
    parse x (write c) = .ok c ↔ Writable c :=
  ⟨writable_of_parse hx, parse_write⟩

/-- A configuration with a value whose second line looks like a comment. -/
def commented : Config asciiLower :=
  (Config.empty.ensureSection "s".toList).put "s".toList "k".toList "x\n# y".toList

/-- The second line is skipped when it is read again. -/
theorem parse_write_iff_commented : parse asciiLower (write commented) ≠ .ok commented := by
  rw [Ne, parse_write_iff keepsMarks_asciiLower]
  intro h
  have hline := (h.items "s".toList "k".toList "x\n# y".toList rfl).1.noComment "# y".toList
    (by decide)
  cases hline

end Ini
end Dfuser
