import Mathlib.Data.List.Chain
import Dfuser.SplitModels.Blocks

/-!
# Which class blocks are lost

The converse of `saved_of_unitBodies`: when every class has a file of its own with its
whole block, the bodies are made of units.  Matches do not overlap.  A block that is
found in another place than its own is found in a longer block, so by induction on the
length every block is covered by a match in its own place; the name of the match tells
two blocks apart, so this match starts at the header of its block, and it must not have
run into the header of the next one.

## Main results

* `Source.text_position` — where the text of a block can stand.
* `Source.covered` — every block that is found is found in its own place.
* `Source.match_at_header` — and is matched at its own header.
* `splitModelsFile_saves_iff` — **when every file holds the whole block of its class.**
-/

namespace Dfuser
namespace SplitModels

open History (isSpace)

variable {w : WordClass}

/-! ### What surrounds a block -/

/-- Two ways to cut a text at a separator, one of them the first. -/
theorem eq_or_of_append_cons {α : Type*} {C Y q Y' : List α} {x : α} (hx : x ∉ C)
    (h : C ++ x :: Y = q ++ x :: Y') :
    (q = C ∧ Y' = Y) ∨ ∃ q', q = C ++ x :: q' ∧ Y = q' ++ x :: Y' := by
  rcases List.append_eq_append_iff.mp h with ⟨a', rfl, h'⟩ | ⟨c, rfl, h'⟩
  · cases a' with
    | nil => exact .inl ⟨by simp, by simpa using h'.symm⟩
    | cons y a' =>
      rw [List.cons_append, List.cons.injEq] at h'
      exact .inr ⟨a', by simp [h'.1], h'.2⟩
  · cases c with
    | nil => exact .inl ⟨by simp, by simpa using h'⟩
    | cons y c =>
      rw [List.cons_append, List.cons.injEq] at h'
      exact absurd (by simp [h'.1]) hx

theorem Block.text_append_eq (b : Block w) (R : Str) :
    b.text ++ R =
      "class".toList ++ ' ' :: (b.name ++ '(' :: (b.bases ++ ')' :: (':' :: (b.body ++ R)))) := by
  have hcolon : "):".toList = [')', ':'] := rfl
  simp [Block.text, Block.header, hcolon]

/-- The texts of blocks, each with the newline after it. -/
def preText (bs : List (Block w)) : Str := (bs.map fun b => b.text ++ ['\n']).flatten

@[simp] theorem preText_nil : preText ([] : List (Block w)) = [] := rfl

@[simp] theorem preText_cons (b : Block w) (bs : List (Block w)) :
    preText (b :: bs) = b.text ++ '\n' :: preText bs := by
  simp [preText]

/-- What follows the text of a block in a source. -/
def afterBlock (terminated : Bool) : List (Block w) → Str
  | [] => finalNewline terminated
  | b :: bs => '\n' :: sourceText terminated (b :: bs)

theorem sourceText_cons (terminated : Bool) (b : Block w) (bs : List (Block w)) :
    sourceText terminated (b :: bs) = b.text ++ afterBlock terminated bs := by
  cases bs <;> rfl

theorem sourceText_append (terminated : Bool) (pre : List (Block w)) (b : Block w)
    (post : List (Block w)) :
    sourceText terminated (pre ++ b :: post) =
      preText pre ++ sourceText terminated (b :: post) := by
  induction pre with
  | nil => rfl
  | cons c pre ih =>
    have hcons : ∃ d ds, pre ++ b :: post = d :: ds := by
      cases pre with
      | nil => exact ⟨b, post, rfl⟩
      | cons d ds => exact ⟨d, ds ++ b :: post, rfl⟩
    obtain ⟨d, ds, hds⟩ := hcons
    rw [List.cons_append, sourceText_cons, hds, afterBlock, ← hds, ih]
    simp

/-- What the source is around a block. -/
theorem Source.text_eq (s : Source w) {pre post : List (Block w)} {b : Block w}
    (h : s.blocks = pre ++ b :: post) :
    s.text = preText pre ++ (b.text ++ afterBlock s.terminated post) := by
  rw [Source.text, h, sourceText_append, sourceText_cons]

/-! ### Lines stay indented -/

/-- White space follows every newline. -/
def Indented (s : Str) : Prop := s.IsChain fun a b => a = '\n' → isSpace b = true

theorem indented_append {s t : Str} (hs : Indented s) (ht : Indented t)
    (h : ∀ c ∈ t.head?, isSpace c = true) : Indented (s ++ t) :=
  List.IsChain.append hs ht fun _ _ y hy _ => h y hy

theorem indented_of_not_mem {s : Str} (h : '\n' ∉ s) : Indented s := by
  induction s with
  | nil => exact .nil
  | cons a s ih =>
    rw [List.mem_cons, not_or] at h
    exact List.isChain_cons.mpr ⟨fun _ _ ha => absurd ha.symm h.1, ih h.2⟩

theorem indented_lines {lines : List Str}
    (h : ∀ l ∈ lines, '\n' ∉ l ∧ ∀ c ∈ l.head?, isSpace c = true) :
    Indented (lines.map ('\n' :: ·)).flatten ∧
      ∀ c ∈ ((lines.map ('\n' :: ·)).flatten).head?, isSpace c = true := by
  induction lines with
  | nil => exact ⟨.nil, by simp⟩
  | cons l lines ih =>
    rw [List.forall_mem_cons] at h
    obtain ⟨ih, ihhead⟩ := ih h.2
    obtain ⟨⟨hl, hhead⟩, -⟩ := h
    have hline : Indented ('\n' :: l) :=
      List.isChain_cons.mpr ⟨fun y hy _ => hhead y hy, indented_of_not_mem hl⟩
    refine ⟨indented_append hline ih ihhead, ?_⟩
    intro c hc
    have hnl : c = '\n' := by simpa using hc.symm
    rw [hnl]
    decide

theorem Block.indented_body (b : Block w) : Indented b.body := (indented_lines b.lines_ok).1

theorem Block.newline_notMem_header (b : Block w) : '\n' ∉ b.header := by
  have hname : '\n' ∉ b.name := by
    intro hmem
    have hword := b.name_ok.2 _ hmem
    rw [w.space _ (by decide)] at hword
    cases hword
  have hbases := b.bases_line
  have hclass : '\n' ∉ "class".toList := by decide
  have hcolon : '\n' ∉ "):".toList := by decide
  simp only [Block.header, List.mem_append, List.mem_cons, List.not_mem_nil, or_false, hname,
    hbases, hclass, hcolon]
  decide

theorem Block.indented_text (b : Block w) : Indented b.text := by
  refine indented_append (indented_of_not_mem b.newline_notMem_header) b.indented_body ?_
  exact (indented_lines b.lines_ok).2

/-! ### Where the text of a block can stand -/

/-- A block is recognised by the start of its text. -/
theorem Source.eq_of_text_append_eq (s : Source w) {b b' : Block w} (hb : b ∈ s.blocks)
    (hb' : b' ∈ s.blocks) {R R' : Str} (h : b.text ++ R = b'.text ++ R') : b = b' := by
  have hparen : ∀ c : Block w, '(' ∉ c.name := by
    intro c hmem
    have := c.name_ok.2 _ hmem
    rw [w.paren] at this
    cases this
  rw [b.text_append_eq, b'.text_append_eq, List.append_cancel_left_eq, List.cons.injEq] at h
  refine s.eq_of_name_eq hb hb' ?_
  rcases eq_or_of_append_cons (hparen b) h.2 with ⟨hname, -⟩ | ⟨q, hname, -⟩
  · exact hname.symm
  · exact absurd (by rw [hname]; simp) (hparen b')

/-- The text of a block reaches at most the newline after the block it stands in. -/
theorem Block.length_le_of_append_eq (v : Block w) {terminated : Bool} {bs : List (Block w)}
    {Z k : Str} (h : v.text ++ Z = k ++ afterBlock terminated bs) :
    v.text.length ≤ k.length + 1 := by
  cases bs with
  | nil =>
    have hlen := congrArg List.length h
    have hfinal := length_finalNewline_le terminated
    simp only [afterBlock, List.length_append] at hlen
    omega
  | cons c bs =>
    obtain ⟨t, ht⟩ := sourceText_cons_eq terminated c bs
    rw [afterBlock, ht] at h
    by_contra hlong
    -- otherwise a line of the block would start with the keyword
    have hpre : k ++ ['\n', 'c'] <+: v.text := by
      have hwhole : k ++ ['\n', 'c'] <+: v.text ++ Z := by
        rw [h]
        exact ⟨"lass".toList ++ t, by simp⟩
      refine List.prefix_of_prefix_length_le hwhole (List.prefix_append _ _) ?_
      · rw [List.length_append]
        simp only [List.length_cons, List.length_nil]
        omega
    obtain ⟨y, hy⟩ := hpre
    have hinfix : ['\n', 'c'] <:+: v.text := ⟨k, y, hy⟩
    have hchain := List.IsChain.infix v.indented_text hinfix
    have hc : isSpace 'c' = true := (List.isChain_cons_cons.mp hchain).1 rfl
    revert hc
    decide

/-- The keyword stands in the first block or after the newline that follows it. -/
theorem Block.keyword_cases (b : Block w) {terminated : Bool} {bs : List (Block w)} {A Z : Str}
    (h : A ++ ("class".toList ++ Z) = b.text ++ afterBlock terminated bs) :
    (∃ k, k ≠ [] ∧ b.text = A ++ k ∧ "class".toList ++ Z = k ++ afterBlock terminated bs) ∨
      ∃ A', A = b.text ++ '\n' :: A' ∧ A' ++ ("class".toList ++ Z) = sourceText terminated bs := by
  have hbeyond : ∀ a, a ++ ("class".toList ++ Z) = afterBlock terminated bs →
      ∃ A', a = '\n' :: A' ∧ A' ++ ("class".toList ++ Z) = sourceText terminated bs := by
    intro a ha
    cases bs with
    | nil =>
      have hlen := congrArg List.length ha
      have hfinal := length_finalNewline_le terminated
      have hclass : "class".toList.length = 5 := rfl
      simp only [afterBlock, List.length_append, hclass] at hlen
      omega
    | cons c bs =>
      rw [afterBlock] at ha
      cases a with
      | nil =>
        have hc : 'c' = '\n' := (List.cons.inj ha).1
        cases hc
      | cons x A' =>
        rw [List.cons_append, List.cons.injEq] at ha
        exact ⟨A', by rw [ha.1], ha.2⟩
  rcases List.append_eq_append_iff.mp h with ⟨k, hk, hrest⟩ | ⟨a, ha, hrest⟩
  · by_cases hne : k = []
    · rw [hne, List.nil_append] at hrest
      obtain ⟨A', hA', -⟩ := hbeyond [] hrest
      cases hA'
    · exact .inl ⟨k, hne, hk, hrest⟩
  · obtain ⟨A', rfl, hA'⟩ := hbeyond a hrest.symm
    exact .inr ⟨A', ha, hA'⟩

/-- **Where the keyword can stand** in a source: at the start of a block, or inside one. -/
theorem keyword_position {terminated : Bool} {bs : List (Block w)} {A Z : Str}
    (h : A ++ ("class".toList ++ Z) = sourceText terminated bs) :
    (∃ pre b post, bs = pre ++ b :: post ∧ A = preText pre) ∨
      ∃ pre b post a k, bs = pre ++ b :: post ∧ A = preText pre ++ a ∧ b.text = a ++ k ∧
        1 < a.length ∧ k ≠ [] := by
  induction bs generalizing A with
  | nil => simp [sourceText] at h
  | cons b bs ih =>
    rw [sourceText_cons] at h
    rcases b.keyword_cases h with ⟨k, hne, hk, hrest⟩ | ⟨A', rfl, hrest⟩
    · rcases A with - | ⟨x, - | ⟨y, A⟩⟩
      · exact .inl ⟨[], b, bs, rfl, rfl⟩
      · -- the keyword does not start with its second letter
        obtain ⟨y, k, rfl⟩ := List.exists_cons_of_ne_nil hne
        have hy : 'c' = y := (List.cons.inj hrest).1
        have hl : 'l' = y := by
          have htext := b.text_append_eq []
          rw [hk] at htext
          exact (List.cons.inj (List.cons.inj htext).2).1.symm
        rw [← hy] at hl
        cases hl
      · exact .inr ⟨[], b, bs, x :: y :: A, k, rfl, rfl, hk, by simp, hne⟩
    · -- in the blocks that follow
      rcases ih hrest with ⟨pre, c, post, rfl, rfl⟩ | ⟨pre, c, post, a, k, rfl, rfl, hk, hlen, hne⟩
      · exact .inl ⟨b :: pre, c, post, rfl, by simp⟩
      · exact .inr ⟨b :: pre, c, post, a, k, rfl, by simp, hk, hlen, hne⟩

/-- **Where the text of a block can stand** in a source: in its place, or inside a longer
block. -/
theorem Source.text_position (s : Source w) {v : Block w} (hv : v ∈ s.blocks) {A Z : Str}
    (h : A ++ (v.text ++ Z) = s.text) :
    (∃ pre post, s.blocks = pre ++ v :: post ∧ A = preText pre) ∨
      ∃ pre b post a k, s.blocks = pre ++ b :: post ∧ A = preText pre ++ a ∧ b.text = a ++ k ∧
        k ≠ [] ∧ v.text.length < b.text.length := by
  have hkey := h
  rw [v.text_append_eq] at hkey
  rcases keyword_position hkey with ⟨pre, b, post, hbs, rfl⟩ |
      ⟨pre, b, post, a, k, hbs, rfl, hk, hlen, hne⟩
  · -- at the start of a block, which has the same name
    refine .inl ⟨pre, post, ?_, rfl⟩
    rw [Source.text, hbs, sourceText_append, List.append_cancel_left_eq, sourceText_cons] at h
    rw [s.eq_of_text_append_eq hv (by rw [hbs]; simp) h]
    exact hbs
  · refine .inr ⟨pre, b, post, a, k, hbs, rfl, hk, hne, ?_⟩
    rw [Source.text, hbs, sourceText_append, List.append_assoc, List.append_cancel_left_eq,
      sourceText_cons, hk, List.append_assoc, List.append_cancel_left_eq] at h
    have hle := v.length_le_of_append_eq h
    rw [hk, List.length_append]
    omega

/-! ### Every block is matched at its own header -/

/-- The block of a class is found: a match with the file of the class covers it. -/
def Source.Found (s : Source w) (lower : Str → Str) (b : Block w) : Prop :=
  ∃ d ∈ (classRegex w).findall s.text, lower (nameOf w d) = lower b.name ∧ b.text <:+: d

/-- The matches in a source, each with the text after it. -/
def Source.IsMatch (s : Source w) (d r : Str) : Prop :=
  (d ++ r, r) ∈ scan (Regex.first (classRegex w)) s.text

/-- Two matches over one place are the same. -/
theorem Source.IsMatch.eq {s : Source w} {p d r p' d' r' q t : Str} (h : s.IsMatch d r)
    (h' : s.IsMatch d' r') (hs : p ++ (d ++ r) = s.text) (hs' : p' ++ (d' ++ r') = s.text)
    (hq : q ++ t = s.text) (hle : p.length ≤ q.length) (hle' : p'.length ≤ q.length)
    (hlt : r.length < t.length) (hlt' : r'.length < t.length) : p = p' ∧ d = d' := by
  have hlen := congrArg List.length hs
  have hlen' := congrArg List.length hs'
  have hlenq := congrArg List.length hq
  simp only [List.length_append] at hlen hlen' hlenq
  have hsuf : ∀ t rest, Regex.first (classRegex w) t = some rest → rest <:+ t :=
    fun _ _ => Regex.suffix_of_first
  have hpp : p.length = p'.length := by
    rcases lt_trichotomy p.length p'.length with hp | hp | hp
    · have := length_le_of_mem_scan hsuf h h' (by simp only [List.length_append]; omega)
      simp only [List.length_append] at this
      omega
    · exact hp
    · have := length_le_of_mem_scan hsuf h' h (by simp only [List.length_append]; omega)
      simp only [List.length_append] at this
      omega
  obtain ⟨hp, hd⟩ := List.append_inj (hs.trans hs'.symm) hpp
  -- from one start there is one match
  have hfirst : Regex.first (classRegex w) (d ++ r) = some r := (mem_scan hsuf h).2
  have hfirst' : Regex.first (classRegex w) (d' ++ r') = some r' := (mem_scan hsuf h').2
  rw [hd, hfirst', Option.some.injEq] at hfirst
  rw [hfirst] at hd
  exact ⟨hp, List.append_cancel_right hd⟩

/-- A block of a source has one place in it. -/
theorem Source.split_unique (s : Source w) {pre post pre' post' : List (Block w)} {b : Block w}
    (h : s.blocks = pre ++ b :: post) (h' : s.blocks = pre' ++ b :: post') :
    pre = pre' ∧ post = post' := by
  have hnodup : s.blocks.Nodup := s.distinct.of_map
  rw [h, List.nodup_append, List.nodup_cons] at hnodup
  have hnot : b ∉ pre := fun hmem => hnodup.2.2 b hmem b List.mem_cons_self rfl
  have heq := (List.append_cons_inj_of_notMem hnot hnodup.2.1.1).mp (h.symm.trans h')
  exact ⟨heq.1, heq.2.2⟩

/-- A match covers a block in its place. -/
def Source.Covered (s : Source w) (lower : Str → Str) (pre : List (Block w)) (b : Block w)
    (post : List (Block w)) : Prop :=
  ∃ p a z r, p ++ a = preText pre ∧ z ++ r = afterBlock s.terminated post ∧
    s.IsMatch (a ++ (b.text ++ z)) r ∧ lower (nameOf w (a ++ (b.text ++ z))) = lower b.name

section Found

variable (s : Source w) (lower : Str → Str) (hlower : (s.blocks.map fun b => lower b.name).Nodup)
  (hfound : ∀ b ∈ s.blocks, s.Found lower b)

include hlower

theorem Source.eq_of_lower_eq {pre post pre' post' : List (Block w)} {b c : Block w}
    (hb : s.blocks = pre ++ b :: post) (hc : s.blocks = pre' ++ c :: post')
    (h : lower b.name = lower c.name) : b = c :=
  List.inj_on_of_nodup_map hlower (by rw [hb]; simp) (by rw [hc]; simp) h

include hfound

/-- **Every block is covered in its own place**, by induction from the longest block
down. -/
theorem Source.covered {pre post : List (Block w)} {b : Block w}
    (hbs : s.blocks = pre ++ b :: post) : s.Covered lower pre b post := by
  induction hn : s.text.length - b.text.length using Nat.strong_induction_on
    generalizing pre b post with
  | _ n ih =>
    have hb : b ∈ s.blocks := by rw [hbs]; simp
    obtain ⟨d, hd, hname, a, z, hinfix⟩ := hfound b hb
    rw [List.append_assoc] at hinfix
    subst hinfix
    obtain ⟨r, hmatch, ⟨p, hp⟩, -⟩ := mem_findall hd
    have hplace : (p ++ a) ++ (b.text ++ (z ++ r)) = s.text := by
      rw [← hp]
      simp
    rcases s.text_position hb hplace with ⟨pre', post', hbs', hpre⟩ |
        ⟨pre', c, post', a', k, hbs', hpre, hk, hne, hlt⟩
    · obtain ⟨rfl, rfl⟩ := s.split_unique hbs hbs'
      refine ⟨p, a, z, r, hpre, ?_, hmatch, hname⟩
      rw [hpre, s.text_eq hbs, List.append_cancel_left_eq, List.append_cancel_left_eq] at hplace
      exact hplace
    · -- the match that covers the longer block covers this place too
      have htext := s.text_eq hbs'
      have hlen := congrArg List.length htext
      have hlenplace := congrArg List.length hplace
      have hlenpre := congrArg List.length hpre
      have hkpos := List.length_pos_iff.mpr hne
      have hbpos := List.length_pos_iff.mpr b.text_ne_nil
      obtain ⟨p', a'', z', r', hp', hzr, hmatch', hname'⟩ := ih _ (by
        simp only [List.length_append] at hlen
        omega) hbs' rfl
      have hs' : p' ++ (a'' ++ (c.text ++ z') ++ r') = s.text := by
        rw [htext, ← hp', ← hzr]
        simp
      have hlenp' := congrArg List.length hp'
      have hlenzr := congrArg List.length hzr
      rw [hk] at hlen
      simp only [List.length_append] at hlen hlenplace hlenpre hlenp' hlenzr
      obtain ⟨-, heq⟩ := Source.IsMatch.eq hmatch hmatch' hp hs' hplace
        (by simp only [List.length_append]; omega) (by simp only [List.length_append]; omega)
        (by simp only [List.length_append]; omega) (by simp only [List.length_append]; omega)
      rw [heq, hname'] at hname
      rw [s.eq_of_lower_eq lower hlower hbs hbs' hname.symm] at hlt
      exact absurd hlt (lt_irrefl _)

/-- **Every block is matched at its own header.** -/
theorem Source.match_at_header {pre post : List (Block w)} {b : Block w}
    (hbs : s.blocks = pre ++ b :: post) :
    ∃ z r, s.IsMatch (b.text ++ z) r ∧ z ++ r = afterBlock s.terminated post := by
  obtain ⟨p, a, z, r, hpa, hzr, hmatch, hname⟩ := s.covered lower hlower hfound hbs
  have hs : p ++ (a ++ (b.text ++ z) ++ r) = s.text := by
    rw [s.text_eq hbs, ← hpa, ← hzr]
    simp
  -- the match starts with the keyword, at the start of a block or inside one
  obtain ⟨Z, hZ⟩ : ∃ Z, a ++ (b.text ++ z) ++ r = "class".toList ++ Z := by
    have hfirst := (mem_scan (fun _ _ => Regex.suffix_of_first) hmatch).2
    obtain ⟨sp, name, rest, ht, -⟩ := (first_classRegex_eq_some_iff w).mp hfirst
    exact ⟨_, ht⟩
  have hbpos := List.length_pos_iff.mpr b.text_ne_nil
  have hsame : ∀ pre' c post' a₀ k, s.blocks = pre' ++ c :: post' → p = preText pre' ++ a₀ →
      c.text = a₀ ++ k → k ≠ [] →
      ∃ p' a' z', p' ++ a' = preText pre' ∧ p = p' ∧ a ++ (b.text ++ z) = a' ++ (c.text ++ z') ∧
        lower (nameOf w (a' ++ (c.text ++ z'))) = lower c.name := by
    intro pre' c post' a₀ k hbs' hp hk hne
    obtain ⟨p', a', z', r', hp', hzr', hmatch', hname'⟩ := s.covered lower hlower hfound hbs'
    have htext := s.text_eq hbs'
    have hs' : p' ++ (a' ++ (c.text ++ z') ++ r') = s.text := by
      rw [htext, ← hp', ← hzr']
      simp
    have hlen := congrArg List.length (hs.trans htext)
    have hlenp := congrArg List.length hp
    have hlenp' := congrArg List.length hp'
    have hlenzr := congrArg List.length hzr'
    have hkpos := List.length_pos_iff.mpr hne
    rw [hk] at hlen
    simp only [List.length_append] at hlen hlenp hlenp' hlenzr
    obtain ⟨hpp, heq⟩ := Source.IsMatch.eq hmatch hmatch' hs hs' hs le_rfl (by omega)
      (by simp only [List.length_append]; omega) (by simp only [List.length_append]; omega)
    exact ⟨p', a', z', hp', hpp, heq, hname'⟩
  rw [hZ] at hs
  rcases keyword_position hs with ⟨pre', c, post', hbs', hp⟩ |
      ⟨pre', c, post', a₀, k, hbs', hp, hk, hlen, hne⟩
  · obtain ⟨p', a', z', -, -, heq, hname'⟩ :=
      hsame pre' c post' [] c.text hbs' (by rw [hp]; simp) rfl c.text_ne_nil
    rw [heq, hname'] at hname
    obtain rfl := s.eq_of_lower_eq lower hlower hbs hbs' hname.symm
    obtain ⟨rfl, rfl⟩ := s.split_unique hbs hbs'
    have ha : a = [] := by
      rw [hp] at hpa
      exact List.append_right_eq_self.mp hpa
    subst ha
    exact ⟨z, r, hmatch, hzr⟩
  · -- a match inside a block would not be the one that covers it
    obtain ⟨p', a', z', hp', rfl, -⟩ := hsame pre' c post' a₀ k hbs' hp hk hne
    have hlenp := congrArg List.length hp
    have hlenp' := congrArg List.length hp'
    simp only [List.length_append] at hlenp hlenp'
    omega

end Found

/-! ### What a match at a header takes -/

theorem length_of_unit?_ne_none {s : Str} (h : unit? s ≠ none) : 3 ≤ s.length := by
  obtain ⟨t, ht⟩ := Option.ne_none_iff_exists'.mp h
  obtain ⟨sp, c, rfl, ⟨hsp, -⟩, -⟩ := unit?_eq_some ht
  have := List.length_pos_iff.mpr hsp
  simp only [List.length_cons, List.length_append]
  omega

theorem unit?_ne_none {y : Str} (hhead : ∃ c t, y = c :: t ∧ isSpace c = true)
    (hc : ∃ c ∈ y, isSpace c = false) : unit? ('\n' :: y) ≠ none := by
  obtain ⟨c, t, rfl, hspace⟩ := hhead
  have htake : (c :: t).takeWhile isSpace ≠ [] := by simp [hspace]
  cases hdrop : (c :: t).dropWhile isSpace with
  | nil =>
    obtain ⟨d, hd, hdspace⟩ := hc
    rw [List.dropWhile_eq_nil_iff.mp hdrop d hd] at hdspace
    cases hdspace
  | cons d rest => simp [unit?, hdrop, htake]

/-- A body with a character that is not white space, in it or after it, starts with a
unit. -/
theorem Block.unit?_body_ne_none (b : Block w) {R : Str} (hR : ∀ c ∈ R.head?, isSpace c = true)
    (h : ∃ c ∈ b.body ++ R, isSpace c = false) : unit? (b.body ++ R) ≠ none := by
  obtain ⟨t, ht⟩ := b.body_eq
  have hchain := b.indented_body
  rw [ht, List.cons_append] at h ⊢
  rw [ht] at hchain
  have hmem : ∃ c ∈ t ++ R, isSpace c = false := by
    obtain ⟨c, hc, hspace⟩ := h
    rcases List.mem_cons.mp hc with rfl | hc
    · exact absurd hspace (by decide)
    · exact ⟨c, hc, hspace⟩
  refine unit?_ne_none ?_ hmem
  cases t with
  | nil =>
    cases R with
    | nil =>
      obtain ⟨c, hc, -⟩ := hmem
      cases hc
    | cons c R => exact ⟨c, R, rfl, hR c rfl⟩
  | cons d t => exact ⟨d, t ++ R, rfl, (List.isChain_cons_cons.mp hchain).1 rfl⟩

theorem head?_afterBlock (terminated : Bool) (post : List (Block w)) :
    ∀ c ∈ (afterBlock terminated post).head?, isSpace c = true := by
  intro c hc
  have hnewline : c = '\n' := by
    cases post with
    | nil =>
      cases terminated with
      | false => cases hc
      | true => exact (Option.some.inj hc).symm
    | cons b post => exact (Option.some.inj hc).symm
  rw [hnewline]
  decide

/-- A body below which there is no unit is too short for any. -/
theorem Block.length_le_of_unit?_eq_none (b : Block w) {terminated : Bool} {post : List (Block w)}
    (h : unit? (b.body ++ afterBlock terminated post) = none) :
    (b.body ++ afterBlock terminated post).length ≤ 2 := by
  have hspace : ∀ c ∈ b.body ++ afterBlock terminated post, isSpace c = true := by
    intro c hc
    by_contra hspace
    exact b.unit?_body_ne_none (head?_afterBlock terminated post) ⟨c, hc, by simpa using hspace⟩ h
  obtain ⟨t, ht⟩ := b.body_eq
  rw [ht, List.cons_append] at h hspace ⊢
  by_contra hlong
  rw [List.length_cons] at hlong
  rw [unit?_blank (fun c hc => hspace c (List.mem_cons_of_mem _ hc)) (by omega)] at h
  cases h

theorem exists_first_units_plus {s : Str} (h : unit? s ≠ none) :
    ∃ r, Regex.first (.plus true unitRegex) s = some r := by
  obtain ⟨t, ht⟩ := Option.ne_none_iff_exists'.mp h
  obtain ⟨r, hr⟩ := Option.isSome_iff_exists.mp (Regex.first_star_isSome true unitRegex t)
  exact ⟨r, by rw [first_units_plus, ht]; exact hr⟩

/-- **A match at a header** takes what the repetition takes below it. -/
theorem Block.first_units_of_match (b : Block w) {terminated : Bool} {post : List (Block w)}
    {r : Str}
    (h : Regex.first (classRegex w) (b.header ++ (b.body ++ afterBlock terminated post)) = some r) :
    Regex.first (.star true unitRegex) (b.body ++ afterBlock terminated post) = some r := by
  cases hunit : unit? (b.body ++ afterBlock terminated post) with
  | some t =>
    obtain ⟨r', hr'⟩ := exists_first_units_plus (s := b.body ++ afterBlock terminated post)
      (by rw [hunit]; simp)
    rw [first_classRegex_header b hr'] at h
    rw [first_units_plus, hunit] at hr'
    rw [first_units, hunit, ← h]
    exact hr'
  | none =>
    -- the repetition would have to start below the header all the same
    obtain ⟨sp, name, rest, ht, -, -, hrest⟩ := (first_classRegex_eq_some_iff w).mp h
    rw [basesRegex, Regex.first_lazy_eq_some_iff] at hrest
    obtain ⟨bases, t, rfl, hcolon, -⟩ := hrest
    obtain ⟨S, rfl, hS⟩ := Regex.first_word_eq_some_iff.mp hcolon
    have hSunit : unit? S ≠ none := by
      intro hnone
      rw [first_units_plus, hnone] at hS
      cases hS
    have hshort := b.length_le_of_unit?_eq_none hunit
    have hlong := length_of_unit?_ne_none hSunit
    obtain ⟨x, hx⟩ : ∃ x, S = '\n' :: x := by
      obtain ⟨y, hy⟩ := Option.ne_none_iff_exists'.mp hSunit
      obtain ⟨sp, c, rfl, -⟩ := unit?_eq_some hy
      exact ⟨_, rfl⟩
    have hcut : b.header ++ (b.body ++ afterBlock terminated post) =
        ("class".toList ++ (sp ++ (name ++ '(' :: (bases ++ "):".toList)))) ++ '\n' :: x := by
      rw [ht, hx]
      simp
    rcases List.append_eq_append_iff.mp hcut with ⟨p, -, hp⟩ | ⟨p, hp, hpx⟩
    · have hlen := congrArg List.length hp
      simp only [List.length_append] at hlen hshort
      rw [hx] at hlong
      omega
    · cases p with
      | nil =>
        have hlen := congrArg List.length hpx
        rw [List.nil_append] at hlen
        rw [hx] at hlong
        omega
      | cons y p =>
        rw [List.cons_append, List.cons.injEq] at hpx
        exact absurd (by rw [hp, ← hpx.1]; simp) b.newline_notMem_header

/-! ### What is taken is made of units -/

/-- A round that takes no white space last ends before white space that follows. -/
theorem unit_inside {W E y sp : Str} {c : Char} (hcut : W ++ E = ('\n' :: (sp ++ [c])) ++ y)
    (hc : isSpace c = false) (hE : ∀ x a, E = x ++ a :: y → isSpace a = true) :
    ∃ W', W = ('\n' :: (sp ++ [c])) ++ W' ∧ y = W' ++ E := by
  rcases List.append_eq_append_iff.mp hcut with ⟨x, hx, hxy⟩ | ⟨W', hW', hy⟩
  · rcases List.eq_nil_or_concat x with rfl | ⟨x, a, rfl⟩
    · exact ⟨[], by simpa using hx.symm, by simpa using hxy.symm⟩
    · -- the round would have ended in white space
      rw [List.concat_eq_append] at hx hxy
      have hca : c = a := by
        rw [← List.cons_append, ← List.append_assoc] at hx
        exact (List.append_singleton_inj.mp hx).2
      have hspace : isSpace a = true := by
        apply hE x a
        rw [hxy, List.append_assoc, List.singleton_append]
      rw [hca, hspace] at hc
      cases hc
  · exact ⟨W', hW', hy⟩

/-- If the repetition stops at the next block, or right after the newline before it, it
has run over units. -/
theorem units_of_first_units {W t z r : Str}
    (h : Regex.first (.star true unitRegex) (W ++ '\n' :: ("class".toList ++ t)) = some r)
    (hz : z ++ r = '\n' :: ("class".toList ++ t)) (hlen : z.length ≤ 1) : Units W := by
  induction hn : W.length using Nat.strong_induction_on generalizing W with
  | _ n ih =>
    have hzr := congrArg List.length hz
    have hkey : "class".toList.length = 5 := rfl
    simp only [List.length_append, List.length_cons, hkey] at hzr
    rw [first_units] at h
    cases hunit : unit? (W ++ '\n' :: ("class".toList ++ t)) with
    | none =>
      rw [hunit, Option.some.injEq] at h
      have hr := congrArg List.length h
      simp only [List.length_append, List.length_cons, hkey] at hr
      rw [List.length_eq_zero_iff.mp (by omega : W.length = 0)]
      exact .nil
    | some y =>
      rw [hunit] at h
      obtain ⟨sp, c, hW, hsp, hc⟩ := unit?_eq_some hunit
      have hry := (Regex.suffix_of_first h).length_le
      have hcspace : isSpace c = false := by
        by_contra hspace
        rw [hc (by simpa using hspace)] at hry
        simp only [List.length_nil] at hry
        omega
      have hcut : W ++ '\n' :: ("class".toList ++ t) = ('\n' :: (sp ++ [c])) ++ y := by
        rw [hW]
        simp
      obtain ⟨W', rfl, hy⟩ := unit_inside hcut hcspace (by
        -- of the keyword nothing is taken, so it would be the newline before it
        intro x a hE
        have hlenx := congrArg List.length hE
        simp only [List.length_append, List.length_cons, hkey] at hlenx
        have hx : x = [] := List.length_eq_zero_iff.mp (by omega)
        rw [hx, List.nil_append, List.cons.injEq] at hE
        rw [← hE.1]
        decide)
      rw [hy] at h
      rw [List.cons_append, List.append_assoc, List.singleton_append]
      refine .cons hsp hcspace (ih W'.length ?_ h rfl)
      rw [← hn]
      simp only [List.length_append, List.length_cons, List.length_nil]
      omega

/-- If the repetition covers the last body, it has run over units and blank lines. -/
theorem unitsAtEnd_of_first_units {terminated : Bool} {W z r : Str}
    (h : Regex.first (.star true unitRegex) (W ++ finalNewline terminated) = some r)
    (hz : z ++ r = finalNewline terminated) : UnitsAtEnd terminated W := by
  induction hn : W.length using Nat.strong_induction_on generalizing W with
  | _ n ih =>
    have hzr := congrArg List.length hz
    rw [List.length_append] at hzr
    rw [first_units] at h
    cases hunit : unit? (W ++ finalNewline terminated) with
    | none =>
      rw [hunit, Option.some.injEq] at h
      have hr := congrArg List.length h
      rw [List.length_append] at hr
      rw [List.length_eq_zero_iff.mp (by omega : W.length = 0)]
      exact ⟨[], [], rfl, .nil, .inl rfl⟩
    | some y =>
      rw [hunit] at h
      obtain ⟨sp, c, hW, hsp, hc⟩ := unit?_eq_some hunit
      have hfinal := length_finalNewline_le terminated
      cases hcspace : isSpace c with
      | true =>
        -- a round over nothing but white space
        rw [hc hcspace] at hW
        have hlen := congrArg List.length hW
        have hsplen := List.length_pos_iff.mpr hsp.1
        simp only [List.length_append, List.length_cons, List.length_nil] at hlen
        cases W with
        | nil =>
          rw [List.length_nil] at hlen
          omega
        | cons a W =>
          rw [List.cons_append, List.cons.injEq] at hW
          refine ⟨[], a :: W, rfl, .nil, .inr ⟨W, by rw [hW.1], ?_, ?_⟩⟩
          · intro b hb
            have hmem : b ∈ sp ++ [c] := hW.2 ▸ List.mem_append_left _ hb
            rcases List.mem_append.mp hmem with hmem | hmem
            · exact hsp.2 b hmem
            · rw [List.mem_singleton.mp hmem]
              exact hcspace
          · rw [List.length_cons] at hlen
            rw [List.length_append]
            omega
      | false =>
        have hcut : W ++ finalNewline terminated = ('\n' :: (sp ++ [c])) ++ y := by
          rw [hW]
          simp
        obtain ⟨W', rfl, hy⟩ := unit_inside hcut hcspace (by
          intro x a hE
          apply isSpace_of_mem_finalNewline
          rw [hE]
          simp)
        rw [hy] at h
        obtain ⟨u, v, rfl, hu, hv⟩ := ih W'.length (by
          rw [← hn]
          simp only [List.length_append, List.length_cons, List.length_nil]
          omega) h rfl
        refine ⟨'\n' :: (sp ++ c :: u), v, by simp, .cons hsp hcspace hu, hv⟩


/-! ### Every block is made of units -/

section Found

variable (s : Source w) (lower : Str → Str) (hlower : (s.blocks.map fun b => lower b.name).Nodup)
  (hfound : ∀ b ∈ s.blocks, s.Found lower b)

include hlower hfound

theorem Source.units_at_header {pre post : List (Block w)} {b : Block w}
    (hbs : s.blocks = pre ++ b :: post) :
    ∃ z r, s.IsMatch (b.text ++ z) r ∧ z ++ r = afterBlock s.terminated post ∧
      Regex.first (.star true unitRegex) (b.body ++ afterBlock s.terminated post) = some r := by
  obtain ⟨z, r, hmatch, hzr⟩ := s.match_at_header lower hlower hfound hbs
  refine ⟨z, r, hmatch, hzr, b.first_units_of_match ?_⟩
  have hfirst : Regex.first (classRegex w) (b.text ++ z ++ r) = some r :=
    (mem_scan (fun _ _ => Regex.suffix_of_first) hmatch).2
  rwa [List.append_assoc, hzr, Block.text, List.append_assoc] at hfirst

/-- **Bodies that are found whole are made of units.** -/
theorem Source.unitBodies_of_found : UnitBodies s.terminated s.blocks := by
  have hsuffix : ∀ bs pre, s.blocks = pre ++ bs → UnitBodies s.terminated bs := by
    intro bs
    induction bs with
    | nil => exact fun _ _ => trivial
    | cons b bs ih =>
      intro pre hbs
      obtain ⟨z, r, hmatch, hzr, hunits⟩ := s.units_at_header lower hlower hfound hbs
      cases bs with
      | nil => exact unitsAtEnd_of_first_units hunits hzr
      | cons b' bs =>
        have hbs' : s.blocks = (pre ++ [b]) ++ b' :: bs := by rw [hbs]; simp
        refine ⟨?_, ih _ hbs'⟩
        obtain ⟨z', r', hmatch', hzr', -⟩ := s.units_at_header lower hlower hfound hbs'
        obtain ⟨t, ht⟩ := sourceText_cons_eq s.terminated b' bs
        -- the match of the next block starts after this one has ended
        have hnext : b'.text ++ z' ++ r' = sourceText s.terminated (b' :: bs) := by
          rw [List.append_assoc, hzr', ← sourceText_cons]
        have hthis : b.text ++ z ++ r = b.text ++ '\n' :: sourceText s.terminated (b' :: bs) := by
          rw [List.append_assoc, hzr, afterBlock]
        have hle := length_le_of_mem_scan (fun _ _ => Regex.suffix_of_first) hmatch hmatch' (by
          simp only
          rw [hnext, hthis, List.length_append, List.length_cons]
          omega)
        simp only at hle
        have hlen := congrArg List.length hzr
        rw [hnext] at hle
        rw [afterBlock, List.length_append, List.length_cons] at hlen
        rw [afterBlock, ht] at hunits hzr
        exact units_of_first_units hunits hzr (by omega)
  exact hsuffix s.blocks [] rfl

end Found

/-! ### What the files hold -/

/-- In a directory that was not there before, a file with a block in it was written for
a class that was found. -/
theorem mem_findall_of_saved (lower : Str → Str) {text file content : Str} (hne : content ≠ [])
    (h : (writeModelFiles lower (datamodelOf w text) none false).get? file = some content) :
    content ∈ (classRegex w).findall text ∧ outputFile lower (nameOf w content) = file := by
  rw [get?_writeModelFiles] at h
  cases hlast : ((datamodelOf w text).entries.filter fun e =>
    outputFile lower e.1 = file).getLast? with
  | some e =>
    rw [hlast, Option.map_some, Option.some_or, Option.some.injEq] at h
    obtain ⟨he, hfile⟩ := List.mem_filter.mp (List.mem_of_getLast? hlast)
    obtain ⟨hfound, hname⟩ := mem_findall_of_get? ((Dict.mem_entries_iff _ _ _).mp he)
    rw [← h, hname]
    exact ⟨hfound, of_decide_eq_true hfile⟩
  | none =>
    -- only `__init__.py` is left, and it is empty
    rw [hlast, Option.map_none, Option.none_or, Dict.get?_set] at h
    split at h
    · exact absurd (Option.some.inj h).symm hne
    · cases h

/-- A block that is saved in a new directory is found. -/
theorem Source.found_of_saved (s : Source w) {lower : Str → Str}
    (h : Saved lower (writeModelFiles lower (datamodelOf w s.text) none false) s.blocks) :
    ∀ b ∈ s.blocks, s.Found lower b := by
  intro b hb
  obtain ⟨d, hget, hinfix⟩ := h.2 b hb
  have hne : d ≠ [] := by
    rintro rfl
    exact b.text_ne_nil (List.infix_nil.mp hinfix)
  obtain ⟨hfound, hfile⟩ := mem_findall_of_saved lower hne hget
  exact ⟨d, hfound, List.append_cancel_right hfile, hinfix⟩

/-- **When every file holds the whole block of its class**: exactly when the bodies are
made of units and no two names agree in lower case. -/
theorem splitModelsFile_saves_iff (lower : Str → Str) (s : Source w) {inputFile : Str}
    (hinput : "models.py".toList <:+: inputFile) :
    (∀ outputDir, ∃ dir,
      splitModelsFile w lower inputFile (some s.text) outputDir false = .ok (some dir) ∧
        Saved lower dir s.blocks) ↔
      UnitBodies s.terminated s.blocks ∧ (s.blocks.map fun b => lower b.name).Nodup := by
  constructor
  · intro h
    obtain ⟨dir, hdir, hsaved⟩ := h none
    rw [splitModelsFile_eq lower hinput, Except.ok.injEq, Option.some.injEq] at hdir
    subst hdir
    have hlower := (nodup_outputFile_iff lower s.blocks).mp hsaved.1
    exact ⟨s.unitBodies_of_found lower hlower (s.found_of_saved hsaved), hlower⟩
  · rintro ⟨hunits, hlower⟩ outputDir
    exact ⟨_, splitModelsFile_eq lower hinput s.text outputDir,
      saved_of_unitBodies lower s hunits hlower outputDir⟩

/-! ### Two small sources -/

/-- The word characters of ASCII. -/
def asciiWords : WordClass where
  isWord c :=
    let n := c.toNat
    (48 ≤ n && n ≤ 57) || (65 ≤ n && n ≤ 90) || n == 95 || (97 ≤ n && n ≤ 122)
  paren := rfl
  space := by
    intro c hc
    simp only [isSpace, Bool.or_eq_true, Bool.and_eq_true, decide_eq_true_eq, beq_iff_eq] at hc
    simp only [Bool.or_eq_false_iff, Bool.and_eq_false_iff, decide_eq_false_iff_not,
      beq_eq_false_iff_ne]
    omega

/-- `name.lower()` for a name in ASCII. -/
def asciiLower (name : Str) : Str := name.map Char.toLower

/-- A block with a name of one letter and one line below its header. -/
def oneLine (letter : Char) (line : Str) (hletter : asciiWords.isWord letter = true)
    (hline : '\n' ∉ line) : Block asciiWords where
  name := [letter]
  bases := "Base".toList
  lines := [' ' :: line]
  name_ok := by simpa using hletter
  bases_line := by decide
  lines_ne := by simp
  lines_ok := by
    have hblank : isSpace ' ' = true := by decide
    simpa [hblank] using hline

/-- Two classes, each with a body of one character. -/
def shortBodies : Source asciiWords where
  blocks := [oneLine 'A' "x".toList (by decide) (by decide),
    oneLine 'B' "y".toList (by decide) (by decide)]
  terminated := true
  distinct := by decide
  last_ok := .inl rfl

/-- One class with an attribute. -/
def oneAttribute : Source asciiWords where
  blocks := [oneLine 'A' "   x = 1".toList (by decide) (by decide)]
  terminated := true
  distinct := by decide
  last_ok := .inl rfl

theorem shortBodies_saved :
    ∃ dir, splitModelsFile asciiWords asciiLower "models.py".toList (some shortBodies.text) none
      false = .ok (some dir) ∧ Saved asciiLower dir shortBodies.blocks := by
  refine (splitModelsFile_saves_iff asciiLower shortBodies List.infix_rfl).mpr ⟨⟨?_, ?_⟩, by decide⟩
    none
  · exact @Units.cons [' '] [] 'x' ⟨by simp, isSpace_of_mem_blank⟩ (by decide) .nil
  · refine ⟨"\n y".toList, [], rfl, ?_, .inl rfl⟩
    exact @Units.cons [' '] [] 'y' ⟨by simp, isSpace_of_mem_blank⟩ (by decide) .nil

/-- The match ends at the first character of the body. -/
theorem oneAttribute_cut :
    ¬ ∃ dir, splitModelsFile asciiWords asciiLower "models.py".toList (some oneAttribute.text) none
      false = .ok (some dir) ∧ Saved asciiLower dir oneAttribute.blocks := by
  rintro ⟨dir, hdir, -, hsaved⟩
  rw [splitModelsFile_eq asciiLower List.infix_rfl, Except.ok.injEq, Option.some.injEq] at hdir
  subst hdir
  obtain ⟨content, hget, hinfix⟩ := hsaved _ List.mem_cons_self
  have hcut : (writeModelFiles asciiLower (datamodelOf asciiWords oneAttribute.text) none
    false).get?
      (outputFile asciiLower "A".toList) = some "class A(Base):\n    x".toList := by decide +kernel
  obtain rfl := Option.some.inj (hget.symm.trans hcut)
  revert hinfix
  decide +kernel

end SplitModels
end Dfuser
