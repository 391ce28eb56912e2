import Dfuser.Lib.FileSystem

/-!
# Walks through changing file systems

A script that changes a file system also changes where texts lead.  A walk looks at the
entries it passes and at no others, so it is the same in two file systems unless it
passes an entry in which they differ; and a walk passes an entry in one of two ways: it
ends there, or the entry leads to a directory in which the walk goes on.

## Main results

* `FileSystem.walk_le` — links that are left over do no harm.
* `FileSystem.walk_append_le` — a walk can be cut in two, and the second part has no more
  links to follow.
* `FileSystem.walk_or_passes` — **a walk is the same in two file systems, or passes an
  entry in which they differ.**
* `FileSystem.walk_of_sameButFiles` — files are not on the way to a directory.
* `FileSystem.walk_lenient_end` — where a walk ends whose last name may be missing.
-/

namespace Dfuser
namespace FileSystem

variable {fs : FileSystem}

/-! ### One step -/

/-- A step that leads somewhere starts in a directory. -/
theorem dir_of_move {cur : Path} {c : Str} (h : fs.move cur c ≠ .stuck) :
    fs.obj cur = some .dir := by
  unfold move at h
  split at h
  · next hdir => exact hdir
  · exact absurd rfl h

theorem dir_of_walk_cons {n : ℕ} {cur p : Path} {c : Str} {cs : List Str}
    (h : walk fs false n cur (c :: cs) = some p) : fs.obj cur = some .dir := by
  apply dir_of_move (c := c)
  intro hstuck
  rw [walk_cons, hstuck] at h
  cases h

/-- What holds an entry is a directory. -/
theorem dir_of_obj {d : Path} {c : Str} {o : Obj} (ho : fs.obj (d ++ [c]) = some o) :
    fs.obj d = some .dir := by
  by_cases hd : d = []
  · rw [hd, obj_nil]
  · rw [obj_of_ne_nil fs hd]
    exact fs.parents d c ((fs.mem_keys_iff d c).mpr ⟨o, ho⟩) hd

/-- The walk over an entry that is no link. -/
theorem walk_cons_of_obj {n : ℕ} {cur : Path} {c : Str} {cs : List Str} {o : Obj}
    (ho : fs.obj (cur ++ [c]) = some o) (hlink : ¬ o.IsLink) :
    walk fs false n cur (c :: cs) = walk fs false n (cur ++ [c]) cs := by
  have hname := validName_of_obj ho
  have hmove : fs.move cur c = .goto (cur ++ [c]) := by
    unfold move
    rw [if_pos (dir_of_obj ho), if_neg hname.2.2.1, if_neg hname.2.2.2, ho]
    cases o with
    | link t => exact absurd ⟨t, rfl⟩ hlink
    | file c => rfl
    | dir => rfl
  rw [walk_cons, hmove]

/-- The walk over a link goes on along the text of the link. -/
theorem walk_cons_of_link {n : ℕ} {cur : Path} {c t : Str} {cs : List Str}
    (ho : fs.obj (cur ++ [c]) = some (.link t)) :
    walk fs false n cur (c :: cs) =
      match n with
      | 0 => none
      | m + 1 => walk fs false m (if t.head? = some '/' then [] else cur) (comps t ++ cs) := by
  have hname := validName_of_obj ho
  have hmove : fs.move cur c = .link (if t.head? = some '/' then [] else cur) (comps t) := by
    unfold move
    rw [if_pos (dir_of_obj ho), if_neg hname.2.2.1, if_neg hname.2.2.2, ho]
  cases n with
  | zero => rw [walk_cons, hmove]
  | succ n => rw [walk_cons, hmove]

/-- A walk does not pass a name that is missing. -/
theorem walk_cons_of_none {n : ℕ} {cur : Path} {c : Str} {cs : List Str} (hname : ValidName c)
    (ho : fs.obj (cur ++ [c]) = none) : walk fs false n cur (c :: cs) = none := by
  have hmove : fs.move cur c = .missing ∨ fs.move cur c = .stuck := by
    unfold move
    split
    · rw [if_neg hname.2.2.1, if_neg hname.2.2.2, ho]
      exact .inl rfl
    · exact .inr rfl
  rw [walk_cons]
  rcases hmove with hmove | hmove
  · rw [hmove]
  · rw [hmove]

/-! ### The links that are left -/

/-- **Links that are left over do no harm.** -/
theorem walk_le {m n : ℕ} (hmn : m ≤ n) {cur p : Path} {cs : List Str}
    (h : walk fs false m cur cs = some p) : walk fs false n cur cs = some p := by
  induction h using walk_induction generalizing n with
  | stop m => exact walk_nil n p
  | goto m cur c cs q hmove _ ih => rw [walk_cons_of_goto hmove, ih hmn]
  | link m cur c cs q ds hmove _ ih =>
    obtain ⟨k, rfl⟩ : ∃ k, n = k + 1 := ⟨n - 1, by omega⟩
    rw [walk_cons_of_move_link hmove, ih (by omega)]

/-- Two walks along the same components end in the same place. -/
theorem walk_unique {m n : ℕ} {cur p q : Path} {cs : List Str}
    (h : walk fs false m cur cs = some p) (h' : walk fs false n cur cs = some q) : p = q := by
  have hp := walk_le (Nat.le_max_left m n) h
  have hq := walk_le (Nat.le_max_right m n) h'
  exact Option.some.inj (hp.symm.trans hq)

/-! ### Cutting a walk in two -/

/-- The first part of a walk leads to the place where the second part starts, with no
more links to follow than before. -/
theorem exists_walk_append {n : ℕ} {cur p : Path} {cs ds : List Str}
    (h : walk fs false n cur (cs ++ ds) = some p) :
    ∃ m q, m ≤ n ∧ walk fs false n cur cs = some q ∧ walk fs false m q ds = some p := by
  generalize heq : cs ++ ds = es at h
  induction h using walk_induction generalizing cs with
  | stop n =>
    obtain ⟨rfl, rfl⟩ := List.append_eq_nil_iff.mp heq
    exact ⟨n, p, le_rfl, walk_nil n p, walk_nil n p⟩
  | goto n cur c es q hmove hw ih =>
    rcases List.append_eq_cons_iff.mp heq with ⟨rfl, rfl⟩ | ⟨cs, rfl, rfl⟩
    · exact ⟨n, cur, le_rfl, walk_nil n cur, (walk_cons_of_goto hmove es).trans hw⟩
    · rw [walk_cons_of_goto hmove]
      exact ih rfl
  | link n cur c es q links hmove hw ih =>
    rcases List.append_eq_cons_iff.mp heq with ⟨rfl, rfl⟩ | ⟨cs, rfl, rfl⟩
    · exact ⟨n + 1, cur, le_rfl, walk_nil _ cur, (walk_cons_of_move_link hmove es).trans hw⟩
    · obtain ⟨m, r, hm, hr, hrest⟩ := ih (List.append_assoc links cs ds)
      rw [walk_cons_of_move_link hmove]
      exact ⟨m, r, by omega, hr, hrest⟩

/-- **A walk can be cut in two**, at a place that is known. -/
theorem walk_append_le {n k : ℕ} {cur p q : Path} {cs ds : List Str}
    (h : walk fs false n cur (cs ++ ds) = some p) (hq : walk fs false k cur cs = some q) :
    ∃ m ≤ n, walk fs false m q ds = some p := by
  obtain ⟨m, q', hm, hq', hrest⟩ := exists_walk_append h
  rw [walk_unique hq hq']
  exact ⟨m, hm, hrest⟩

/-! ### Two file systems -/

/-- The same step, when the directory and the entry are the same. -/
theorem move_congr {fs' : FileSystem} {cur : Path} {c : Str} (hcur : fs.obj cur = some .dir)
    (hcur' : fs'.obj cur = some .dir)
    (ho : ValidName c → fs'.obj (cur ++ [c]) = fs.obj (cur ++ [c])) :
    fs'.move cur c = fs.move cur c := by
  unfold move
  rw [if_pos hcur, if_pos hcur']
  by_cases hname : ValidName c
  · rw [ho hname]
  · have hnone : ∀ g : FileSystem, g.obj (cur ++ [c]) = none := by
      intro g
      cases h : g.obj (cur ++ [c]) with
      | none => rfl
      | some o => exact absurd (validName_of_obj h) hname
    rw [hnone fs, hnone fs']

/-- **A walk is the same in two file systems, or passes an entry in which they differ**:
it ends there, or goes on in a directory that the entry leads to. -/
theorem walk_or_passes {fs' : FileSystem} {Q : Path → Prop} (hQ : ∀ q, Q q → fs.obj q ≠ some .dir)
    (hsame : ∀ q, ¬ Q q → fs'.obj q = fs.obj q) {n : ℕ} {cur p : Path} {cs : List Str}
    (h : walk fs false n cur cs = some p) :
    walk fs' false n cur cs = some p ∨
      ∃ d c m q, Q (d ++ [c]) ∧ ValidName c ∧ m ≤ n ∧ walk fs false m d [c] = some q ∧
        (q = p ∨ fs.obj q = some .dir) := by
  have hstep : ∀ {cur c}, fs.move cur c ≠ .stuck → ¬ (Q (cur ++ [c]) ∧ ValidName c) →
      fs'.move cur c = fs.move cur c := by
    intro cur c hmove hpass
    have hdir := dir_of_move hmove
    have hdir' : fs'.obj cur = some .dir := by rw [hsame cur fun hcur => hQ cur hcur hdir, hdir]
    exact move_congr hdir hdir' fun hname => hsame _ fun hQc => hpass ⟨hQc, hname⟩
  -- the walk passes a changed entry
  have hpasses : ∀ {n cur c cs}, walk fs false n cur ([c] ++ cs) = some p →
      Q (cur ++ [c]) ∧ ValidName c → ∃ d c m q, Q (d ++ [c]) ∧ ValidName c ∧ m ≤ n ∧
        walk fs false m d [c] = some q ∧ (q = p ∨ fs.obj q = some .dir) := by
    intro n cur c cs hw hpass
    obtain ⟨m, q, -, hq, hrest⟩ := exists_walk_append hw
    refine ⟨cur, c, n, q, hpass.1, hpass.2, le_rfl, hq, ?_⟩
    cases cs with
    | nil => exact .inl (by simpa using hrest)
    | cons c' cs => exact .inr (dir_of_walk_cons hrest)
  induction h using walk_induction with
  | stop n => exact .inl (walk_nil n p)
  | goto n cur c cs q hmove hw ih =>
    by_cases hpass : Q (cur ++ [c]) ∧ ValidName c
    · exact .inr (hpasses ((walk_cons_of_goto hmove cs).trans hw) hpass)
    · rw [walk_cons_of_goto ((hstep (by simp [hmove]) hpass).trans hmove)]
      exact ih
  | link n cur c cs q ds hmove hw ih =>
    by_cases hpass : Q (cur ++ [c]) ∧ ValidName c
    · exact .inr (hpasses ((walk_cons_of_move_link hmove cs).trans hw) hpass)
    · rw [walk_cons_of_move_link ((hstep (by simp [hmove]) hpass).trans hmove)]
      rcases ih with h | ⟨d, c', m, q', hQq, hname, hle, hq', hend⟩
      · exact .inl h
      · exact .inr ⟨d, c', m, q', hQq, hname, by omega, hq', hend⟩

/-- The two file systems hold the same directories and links. -/
def SameButFiles (fs fs' : FileSystem) : Prop :=
  ∀ p o, (∀ c, o ≠ .file c) → (fs.obj p = some o ↔ fs'.obj p = some o)

theorem SameButFiles.refl (fs : FileSystem) : fs.SameButFiles fs := fun _ _ _ => Iff.rfl

theorem SameButFiles.trans {fs₁ fs₂ fs₃ : FileSystem} (h : fs₁.SameButFiles fs₂)
    (h' : fs₂.SameButFiles fs₃) : fs₁.SameButFiles fs₃ :=
  fun p o ho => (h p o ho).trans (h' p o ho)

theorem SameButFiles.symm {fs fs' : FileSystem} (h : fs.SameButFiles fs') : fs'.SameButFiles fs :=
  fun p o ho => (h p o ho).symm

/-- What differs is a file, or is missing. -/
theorem SameButFiles.file_of_ne {fs' : FileSystem} (hsame : fs.SameButFiles fs') {q : Path}
    {o : Obj} (hne : fs'.obj q ≠ fs.obj q) (ho : fs.obj q = some o) : ∃ c, o = .file c := by
  by_contra hnot
  rw [not_exists] at hnot
  exact hne (((hsame q o hnot).mp ho).trans ho.symm)

/-- **Files are not on the way to a directory.** -/
theorem walk_of_sameButFiles {fs' : FileSystem} (hsame : fs.SameButFiles fs') {n : ℕ}
    {cur p : Path} {cs : List Str} (h : walk fs false n cur cs = some p)
    (hp : fs.obj p = some .dir) : walk fs' false n cur cs = some p := by
  have hQ : ∀ q, fs'.obj q ≠ fs.obj q → fs.obj q ≠ some .dir := by
    intro q hne hdir
    obtain ⟨c, hc⟩ := hsame.file_of_ne hne hdir
    cases hc
  rcases walk_or_passes hQ (fun q hq => not_not.mp hq) h with
      h | ⟨d, c, m, q, hne, hname, -, hq, hend⟩
  · exact h
  · exfalso
    cases ho : fs.obj (d ++ [c]) with
    | none =>
      rw [walk_cons_of_none hname ho] at hq
      cases hq
    | some o =>
      obtain ⟨x, rfl⟩ := hsame.file_of_ne hne ho
      rw [walk_cons_of_obj ho (by rintro ⟨t, ht⟩; cases ht), walk_nil, Option.some.injEq] at hq
      subst hq
      rcases hend with rfl | hdir
      · rw [ho] at hp
        cases hp
      · rw [ho] at hdir
        cases hdir

/-! ### Walks to a name that may be missing -/

theorem walk_lenient_cons (n : ℕ) (cur : Path) (c : Str) (cs : List Str) :
    walk fs true n cur (c :: cs) =
      match fs.move cur c with
      | .goto p => walk fs true n p cs
      | .link p ds =>
        match n with
        | 0 => none
        | m + 1 => walk fs true m p (ds ++ cs)
      | .missing => if cs = [] then some (cur ++ [c]) else none
      | .stuck => none := by
  rw [walk_step]
  cases fs.move cur c with
  | goto p => rfl
  | link p ds => cases n <;> rfl
  | missing => simp
  | stuck => rfl

/-- Where a component is missing. -/
theorem of_move_missing {cur : Path} {c : Str} (h : fs.move cur c = .missing) :
    fs.obj cur = some .dir ∧ c ≠ dot ∧ c ≠ dotdot ∧ fs.obj (cur ++ [c]) = none := by
  unfold move at h
  split at h
  · next hdir =>
    split at h
    · cases h
    · next hdot =>
      split at h
      · cases h
      · next hdotdot =>
        split at h
        · next ho => exact ⟨hdir, hdot, hdotdot, ho⟩
        · cases h
        · cases h
  · cases h

/-- What holds a directory is one. -/
theorem dir_of_dropLast {d : Path} (h : fs.obj d = some .dir) : fs.obj d.dropLast = some .dir := by
  rcases List.eq_nil_or_concat d with rfl | ⟨e, n, rfl⟩
  · exact fs.obj_nil
  · rw [List.concat_eq_append] at h ⊢
    rw [List.dropLast_concat]
    exact dir_of_obj h

/-- Where a component leads that is no link. -/
theorem obj_of_move_goto {cur q : Path} {c : Str} (h : fs.move cur c = .goto q) :
    ∃ o, fs.obj q = some o ∧ ¬ o.IsLink := by
  have hdir : ¬ Obj.dir.IsLink := by
    rintro ⟨t, ht⟩
    cases ht
  unfold move at h
  split at h
  · next hcur =>
    split at h
    · cases h
      exact ⟨.dir, hcur, hdir⟩
    · split at h
      · cases h
        exact ⟨.dir, dir_of_dropLast hcur, hdir⟩
      · split at h
        · cases h
        · cases h
        · next o hlink ho =>
          cases h
          exact ⟨o, ho, fun ⟨t, ht⟩ => hlink t ht⟩
  · cases h

/-- A link is followed from a directory, along the components of its text. -/
theorem of_move_link {cur q : Path} {c : Str} {ds : List Str} (h : fs.move cur c = .link q ds) :
    fs.obj q = some .dir ∧ ∃ t, ds = comps t := by
  unfold move at h
  split at h
  · next hcur =>
    split at h
    · cases h
    · split at h
      · cases h
      · split at h
        · cases h
        · next t ho =>
          cases h
          refine ⟨?_, t, rfl⟩
          split
          · exact fs.obj_nil
          · exact hcur
        · cases h
  · cases h

/-- A walk to a name that may be missing stops at a file, and at a missing name. -/
theorem walk_lenient_of_no_way {n : ℕ} {cur : Path} {c : Str} {cs : List Str}
    (hcur : fs.obj cur = some .dir) (hname : ValidName c)
    (ho : ∀ o, fs.obj (cur ++ [c]) = some o → ∃ x, o = .file x) :
    walk fs true n cur (c :: cs) = if cs = [] then some (cur ++ [c]) else none := by
  rw [walk_lenient_cons]
  unfold move
  rw [if_pos hcur, if_neg hname.2.2.1, if_neg hname.2.2.2]
  cases hobj : fs.obj (cur ++ [c]) with
  | none => rfl
  | some o =>
    obtain ⟨x, rfl⟩ := ho o hobj
    dsimp only
    cases cs with
    | nil => exact walk_nil n _
    | cons c' cs =>
      have hstuck : fs.move (cur ++ [c]) c' = .stuck := by
        unfold move
        rw [if_neg (by rw [hobj]; simp)]
      rw [walk_lenient_cons, hstuck, if_neg (List.cons_ne_nil c' cs)]

/-- **Files do not change where a walk to a name that may be missing leads.** -/
theorem walk_lenient_of_sameButFiles {fs' : FileSystem} (hsame : fs.SameButFiles fs') (n : ℕ)
    (cur : Path) (cs : List Str) : walk fs' true n cur cs = walk fs true n cur cs := by
  induction n using Nat.strong_induction_on generalizing cur cs with
  | _ n ihn =>
    induction cs generalizing cur with
    | nil => rw [walk_nil, walk_nil]
    | cons c cs ih =>
      by_cases hdir : fs.obj cur = some .dir
      · have hdir' : fs'.obj cur = some .dir := (hsame cur .dir (by intro x h; cases h)).mp hdir
        by_cases hdiffer : fs'.obj (cur ++ [c]) ≠ fs.obj (cur ++ [c]) ∧ ValidName c
        · -- where the two differ there is a file, or nothing
          obtain ⟨hne, hname⟩ := hdiffer
          rw [walk_lenient_of_no_way hdir hname fun o ho => hsame.file_of_ne hne ho,
            walk_lenient_of_no_way hdir' hname fun o ho => hsame.symm.file_of_ne hne.symm ho]
        · have hmove : fs'.move cur c = fs.move cur c := by
            apply move_congr hdir hdir'
            intro hname
            by_contra hne
            exact hdiffer ⟨hne, hname⟩
          rw [walk_lenient_cons, walk_lenient_cons, hmove]
          cases fs.move cur c with
          | goto q => exact ih q
          | link q ds =>
            cases n with
            | zero => rfl
            | succ n => exact ihn n (Nat.lt_succ_self n) q (ds ++ cs)
          | missing => rfl
          | stuck => rfl
      · have hdir' : fs'.obj cur ≠ some .dir := by
          intro h
          exact hdir ((hsame cur .dir (by intro x h; cases h)).mpr h)
        have hstuck : fs.move cur c = .stuck := by
          unfold move
          rw [if_neg hdir]
        have hstuck' : fs'.move cur c = .stuck := by
          unfold move
          rw [if_neg hdir']
        rw [walk_lenient_cons, walk_lenient_cons, hstuck, hstuck']

/-- A name that is there is reached by every walk. -/
theorem walk_of_walk_lenient {n : ℕ} {cur p : Path} {cs : List Str} {o : Obj}
    (h : walk fs true n cur cs = some p) (ho : fs.obj p = some o) :
    walk fs false n cur cs = some p := by
  induction n using Nat.strong_induction_on generalizing cur cs with
  | _ n ihn =>
    induction cs generalizing cur with
    | nil =>
      rw [walk_nil] at h
      rw [walk_nil, h]
    | cons c cs ih =>
      rw [walk_lenient_cons] at h
      rw [walk_cons]
      cases hmove : fs.move cur c with
      | goto q =>
        rw [hmove] at h
        exact ih h
      | link q ds =>
        rw [hmove] at h
        cases n with
        | zero => cases h
        | succ n => exact ihn n (Nat.lt_succ_self n) h
      | missing =>
        rw [hmove] at h
        dsimp only at h
        split at h
        · obtain rfl := Option.some.inj h
          rw [(of_move_missing hmove).2.2.2] at ho
          cases ho
        · cases h
      | stuck =>
        rw [hmove] at h
        cases h

/-- The components of a text are names. -/
theorem mem_comps {t c : Str} (h : c ∈ comps t) : c ≠ [] ∧ '/' ∉ c := by
  unfold comps at h
  rcases List.mem_append.mp h with h | h
  · obtain ⟨hne, hsep⟩ := mem_fields h
    refine ⟨hne, ?_⟩
    intro hslash
    simpa using hsep '/' hslash
  · split at h
    · rw [List.mem_singleton.mp h]
      decide
    · cases h

/-- **Where a walk to a name that may be missing ends**: at something that is no link, or
at a name that is free. -/
theorem walk_lenient_end {n : ℕ} {cur p : Path} {cs : List Str} {o : Obj}
    (h : walk fs true n cur cs = some p) (hcur : fs.obj cur = some o) (hlink : ¬ o.IsLink)
    (hcs : ∀ c ∈ cs, c ≠ [] ∧ '/' ∉ c) :
    (∃ o, fs.obj p = some o ∧ ¬ o.IsLink) ∨
      ∃ d c, p = d ++ [c] ∧ ValidName c ∧ fs.obj d = some .dir ∧ fs.obj p = none := by
  induction n using Nat.strong_induction_on generalizing cur cs o with
  | _ n ihn =>
    induction cs generalizing cur o with
    | nil =>
      rw [walk_nil, Option.some.injEq] at h
      subst h
      exact .inl ⟨o, hcur, hlink⟩
    | cons c cs ih =>
      have hrest : ∀ c' ∈ cs, c' ≠ [] ∧ '/' ∉ c' :=
        fun c' hc' => hcs c' (List.mem_cons_of_mem c hc')
      rw [walk_lenient_cons] at h
      cases hmove : fs.move cur c with
      | goto q =>
        rw [hmove] at h
        obtain ⟨o', ho', hlink'⟩ := obj_of_move_goto hmove
        exact ih h ho' hlink' hrest
      | link q ds =>
        rw [hmove] at h
        cases n with
        | zero => cases h
        | succ n =>
          obtain ⟨hq, t, rfl⟩ := of_move_link hmove
          refine ihn n (Nat.lt_succ_self n) h hq (by rintro ⟨t, ht⟩; cases ht) ?_
          intro c' hc'
          rcases List.mem_append.mp hc' with hc' | hc'
          · exact mem_comps hc'
          · exact hrest c' hc'
      | missing =>
        rw [hmove] at h
        dsimp only at h
        obtain ⟨hdir, hdot, hdotdot, hnone⟩ := of_move_missing hmove
        split at h
        · obtain rfl := Option.some.inj h
          have hc := hcs c List.mem_cons_self
          exact .inr ⟨cur, c, rfl, ⟨hc.1, hc.2, hdot, hdotdot⟩, hdir, hnone⟩
        · cases h
      | stuck =>
        rw [hmove] at h
        cases h

/-! ### Entries of a directory, by the text of the directory -/

section Entries

variable {cwd d : Path} {t n : Str}

theorem ne_nil_of_resolve (h : fs.resolve cwd t = some d) : t ≠ [] := by
  rintro rfl
  cases h

theorem start_child_of_ne_nil (ht : t ≠ []) (cwd : Path) (n : Str) :
    start cwd (child t n) = start cwd t := by
  rw [start, start, child, List.head?_append_of_ne_nil _ ht]

/-- A slash at the end of the text of a directory makes no difference. -/
theorem walk_fields (h : fs.resolve cwd t = some d) :
    walk fs false maxLinks (start cwd t) (fields (· = '/') t) = some d := by
  have hwalk := walk_of_resolve h
  unfold comps at hwalk
  split at hwalk
  · obtain ⟨m, q, -, hq, hdot⟩ := exists_walk_append hwalk
    have hmove : fs.move q dot = .goto q := by
      unfold move
      rw [if_pos (dir_of_walk_cons hdot), if_pos rfl]
    rw [walk_cons, hmove] at hdot
    dsimp only at hdot
    rw [walk_nil, Option.some.injEq] at hdot
    rw [hq, hdot]
  · rwa [List.append_nil] at hwalk

theorem place_entry (h : fs.resolve cwd t = some d) (hd : fs.obj d = some .dir) (hn : ValidName n) :
    fs.place cwd (child t n) = some (d, n) := by
  rw [place, comps_child t hn, List.getLast?_concat, List.dropLast_concat,
    start_child_of_ne_nil (ne_nil_of_resolve h), walk_fields h]
  simp [hn.2.2.1, hn.2.2.2, hd]

theorem resolve_entry_of_none (h : fs.resolve cwd t = some d) (hn : ValidName n)
    (ho : fs.obj (d ++ [n]) = none) : fs.resolve cwd (child t n) = none := by
  obtain ⟨m, hm⟩ := walk_append (walk_fields h)
  rw [resolve, if_neg (child_ne_nil t n), comps_child t hn,
    start_child_of_ne_nil (ne_nil_of_resolve h), hm, walk_cons_of_none hn ho]

theorem resolve_entry_of_file (h : fs.resolve cwd t = some d) {c : Str}
    (ho : fs.obj (d ++ [n]) = some (.file c)) : fs.resolve cwd (child t n) = some (d ++ [n]) := by
  have hlink : ¬ (Obj.file c).IsLink := by
    rintro ⟨u, hu⟩
    cases hu
  obtain ⟨m, hm⟩ := walk_append (walk_fields h)
  rw [resolve, if_neg (child_ne_nil t n), comps_child t (validName_of_obj ho),
    start_child_of_ne_nil (ne_nil_of_resolve h), hm, walk_cons_of_obj ho hlink, walk_nil]

/-- Where a text leads to a directory it does so whatever files there are. -/
theorem resolve_of_sameButFiles {fs' : FileSystem} (hsame : fs.SameButFiles fs')
    (h : fs.resolve cwd t = some d) (hd : fs.obj d = some .dir) : fs'.resolve cwd t = some d := by
  rw [resolve, if_neg (ne_nil_of_resolve h)]
  exact walk_of_sameButFiles hsame (walk_of_resolve h) hd

theorem resolve_slash (h : fs.resolve cwd t = some d) {e : Path}
    (he : fs.resolve cwd (t ++ ['/']) = some e) : e = d := by
  have hcomps : comps (t ++ ['/']) = fields (· = '/') t ++ [dot] := by
    rw [comps, fields_append_cons (by decide), fields_nil, List.append_nil, List.getLast?_concat,
      if_pos rfl]
  have hstart : start cwd (t ++ ['/']) = start cwd t := by
    rw [start, start, List.head?_append_of_ne_nil _ (ne_nil_of_resolve h)]
  have hwalk := walk_of_resolve he
  obtain ⟨m, hm⟩ := walk_append (walk_fields h)
  rw [hcomps, hstart, hm] at hwalk
  have hmove : fs.move d dot = .goto d := by
    unfold move
    rw [if_pos (dir_of_walk_cons hwalk), if_pos rfl]
  rw [walk_cons, hmove] at hwalk
  dsimp only at hwalk
  rw [walk_nil, Option.some.injEq] at hwalk
  exact hwalk.symm

/-- Where a text puts an entry does not depend on the files there are. -/
theorem place_of_sameButFiles {fs' : FileSystem} (hsame : fs.SameButFiles fs')
    (h : fs.place cwd t = some (d, n)) : fs'.place cwd t = some (d, n) := by
  have hnotFile : ∀ c, Obj.dir ≠ .file c := fun c hc => by cases hc
  unfold place at h ⊢
  obtain ⟨c, hc, h⟩ := Option.bind_eq_some_iff.mp h
  rw [hc, Option.bind_some]
  split at h
  · cases h
  · next hdots =>
    obtain ⟨e, hwalk, h⟩ := Option.bind_eq_some_iff.mp h
    split at h
    · next he =>
      rw [if_neg hdots, walk_of_sameButFiles hsame hwalk he, Option.bind_some,
        if_pos ((hsame e .dir hnotFile).mp he), h]
    · cases h

/-- A text that names a directory does so whatever files there are. -/
theorem entry_of_sameButFiles {fs' : FileSystem} (hsame : fs.SameButFiles fs')
    (h : fs.entry cwd t = some d) (hd : fs.obj d = some .dir) : fs'.entry cwd t = some d := by
  have hdir : fs'.obj d = some .dir := (hsame d .dir fun c hc => by cases hc).mp hd
  unfold entry at h ⊢
  cases hplace : fs.place cwd t with
  | some e =>
    rw [hplace] at h
    dsimp only at h
    split at h
    · rw [place_of_sameButFiles hsame hplace]
      obtain rfl := Option.some.inj h
      dsimp only
      rw [if_pos (by rw [hdir]; rfl)]
    · cases h
  | none =>
    rw [hplace] at h
    cases hplace' : fs'.place cwd t with
    | some e =>
      rw [place_of_sameButFiles hsame.symm hplace'] at hplace
      cases hplace
    | none => exact resolve_of_sameButFiles hsame h hd

/-- A path below a name is walked by way of that name. -/
theorem comps_child_cons {a : Str} (ha : ValidName a) (rest : Str) :
    ∃ c cs, comps (child a rest) = a :: c :: cs := by
  have hfields : fields (· = '/') (child a rest) = a :: fields (· = '/') rest := by
    rw [child, fields_append_cons (by decide), fields_eq_singleton ha.1]
    · rfl
    · intro c hc
      rw [decide_eq_false_iff_not]
      rintro rfl
      exact ha.2.1 hc
  rw [comps, hfields]
  cases hrest : fields (· = '/') rest with
  | cons c cs => exact ⟨c, cs ++ _, rfl⟩
  | nil =>
    -- all that comes is slashes
    have hlast : (child a rest).getLast? = some '/' := by
      rw [fields_eq_nil_iff] at hrest
      rw [child, List.getLast?_append_of_ne_nil _ (List.cons_ne_nil _ _)]
      rcases List.eq_nil_or_concat rest with rfl | ⟨rest', c, rfl⟩
      · rfl
      · rw [List.concat_eq_append] at hrest ⊢
        have hc : c = '/' := by simpa using hrest c (by simp)
        rw [hc, ← List.cons_append, List.getLast?_concat]
    rw [hlast, if_pos rfl]
    exact ⟨dot, [], rfl⟩

/-- Below a name that the working directory does not hold there is nothing. -/
theorem entry_of_missing {a : Str} (ha : ValidName a) (ho : fs.obj (cwd ++ [a]) = none)
    (rest : Str) : fs.entry cwd (child a rest) = none := by
  obtain ⟨c, cs, hcomps⟩ := comps_child_cons ha rest
  have hstart : start cwd (child a rest) = cwd := by
    rw [start_child_of_ne_nil ha.1, start_of_notMem ha.2.1]
  have hplace : fs.place cwd (child a rest) = none := by
    rw [place, hcomps, hstart]
    obtain ⟨l, hl⟩ :=
      Option.isSome_iff_exists.mp (List.getLast?_isSome.mpr (List.cons_ne_nil a (c :: cs)))
    rw [hl, Option.bind_some, List.dropLast_cons_cons, walk_cons_of_none ha ho]
    split
    · rfl
    · rfl
  rw [entry, hplace]
  dsimp only
  rw [resolve, if_neg (child_ne_nil a rest), hcomps, hstart, walk_cons_of_none ha ho]

end Entries

end FileSystem
end Dfuser
