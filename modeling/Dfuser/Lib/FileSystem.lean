import Dfuser.Lib.Dict
import Dfuser.Lib.Text

/-!
# File systems with symbolic links

A file system is a finite map from paths to objects in which every object but the
root lies in a directory.  A path *text* is walked component by component, symbolic
links being followed up to the limit of the kernel; what the last component names can
also be taken as it is, which is how a link itself is created and removed.

Permissions, sizes and times are not modelled.

## Main definitions

* `FileSystem`, `FileSystem.obj` — file systems and what they hold at a path.
* `FileSystem.add`, `FileSystem.remove` — a new entry, and the removal of one that is
  not a directory.
* `FileSystem.resolve` — the path a text leads to, all links followed.
* `FileSystem.place` — the directory and the name a text ends in.

## Main results

* `FileSystem.walk_induction` — the steps of a walk that ends.
* `FileSystem.walk_mono` — a walk that succeeds still succeeds when entries are added.
* `FileSystem.walk_append` — a walk can be cut in two.
* `FileSystem.obj_add`, `FileSystem.obj_remove` — both operations touch one path.
* `FileSystem.place_child` — the entries of a directory, by their texts.
-/

namespace Dfuser

/-- A path from the root, name by name. -/
abbrev Path := List Str

/-- What a path can lead to. -/
inductive Obj
  | file (content : Str)
  | dir
  | link (target : Str)
  deriving DecidableEq

/-- The object is a symbolic link. -/
def Obj.IsLink (o : Obj) : Prop := ∃ t, o = .link t

/-- `.` -/
def dot : Str := ['.']

/-- `..` -/
def dotdot : Str := ['.', '.']

/-- A name that a directory entry can have. -/
def ValidName (n : Str) : Prop := n ≠ [] ∧ '/' ∉ n ∧ n ≠ dot ∧ n ≠ dotdot

instance (n : Str) : Decidable (ValidName n) :=
  inferInstanceAs (Decidable (n ≠ [] ∧ '/' ∉ n ∧ n ≠ dot ∧ n ≠ dotdot))

/-- A file system.  The root is a directory and not itself an entry. -/
structure FileSystem where
  entries : Dict Path Obj
  root : [] ∉ entries.keys
  names : ∀ p n, p ++ [n] ∈ entries.keys → ValidName n
  parents : ∀ p n, p ++ [n] ∈ entries.keys → p ≠ [] → entries.get? p = some .dir

namespace FileSystem

/-- The object at a path. -/
def obj (fs : FileSystem) (p : Path) : Option Obj :=
  if p = [] then some .dir else fs.entries.get? p

@[simp] theorem obj_nil (fs : FileSystem) : fs.obj [] = some .dir := if_pos rfl

theorem obj_of_ne_nil (fs : FileSystem) {p : Path} (h : p ≠ []) : fs.obj p = fs.entries.get? p :=
  if_neg h

/-- The file system with nothing but the root. -/
def empty : FileSystem :=
  ⟨Dict.empty, by simp [Dict.keys, Dict.empty], fun _ _ h => by simp [Dict.keys, Dict.empty] at h,
    fun _ _ h => by simp [Dict.keys, Dict.empty] at h⟩

theorem mem_keys_iff (fs : FileSystem) (p : Path) (n : Str) :
    p ++ [n] ∈ fs.entries.keys ↔ ∃ o, fs.obj (p ++ [n]) = some o := by
  rw [obj_of_ne_nil fs (by simp)]
  exact Dict.mem_keys_iff _ _

theorem validName_of_obj {fs : FileSystem} {p : Path} {n : Str} {o : Obj}
    (h : fs.obj (p ++ [n]) = some o) : ValidName n :=
  fs.names p n ((fs.mem_keys_iff p n).mpr ⟨o, h⟩)

/-- The names in a directory. -/
def namesIn (fs : FileSystem) (d : Path) : List Str :=
  fs.entries.keys.filterMap fun q => q.getLast?.bind fun n => if q = d ++ [n] then some n else none

theorem mem_namesIn (fs : FileSystem) (d : Path) (n : Str) :
    n ∈ fs.namesIn d ↔ ∃ o, fs.obj (d ++ [n]) = some o := by
  rw [← mem_keys_iff, namesIn, List.mem_filterMap]
  constructor
  · rintro ⟨q, hq, hn⟩
    obtain ⟨m, -, hm⟩ := Option.bind_eq_some_iff.mp hn
    split at hm
    · next heq =>
      cases hm
      exact heq ▸ hq
    · cases hm
  · intro h
    exact ⟨d ++ [n], h, by simp⟩

theorem nodup_namesIn (fs : FileSystem) (d : Path) : (fs.namesIn d).Nodup := by
  apply fs.entries.nodup.filterMap
  intro p q n hp hq
  obtain ⟨m, -, hm⟩ := Option.bind_eq_some_iff.mp hp
  obtain ⟨m', -, hm'⟩ := Option.bind_eq_some_iff.mp hq
  split at hm
  · next hpm =>
    split at hm'
    · next hqm =>
      rw [hpm, hqm, Option.some.inj hm, Option.some.inj hm']
    · cases hm'
  · cases hm

/-! ### Changing one entry -/

/-- A new entry `n` of directory `d`, for a name that is still free. -/
def put (fs : FileSystem) (d : Path) (n : Str) (o : Obj) (hn : ValidName n)
    (hd : fs.obj d = some .dir) (hfree : fs.obj (d ++ [n]) = none) : FileSystem where
  entries := fs.entries.set (d ++ [n]) o
  root := by
    rw [Dict.mem_keys_set]
    rintro (h | h)
    · simp at h
    · exact fs.root h
  names := by
    intro p m h
    rcases (Dict.mem_keys_set _ _ _ _).mp h with h | h
    · rw [(List.cons.inj (List.append_inj' h rfl).2).1]
      exact hn
    · exact fs.names p m h
  parents := by
    intro p m h hp
    have hdir : fs.entries.get? p = some .dir := by
      rcases (Dict.mem_keys_set _ _ _ _).mp h with h | h
      · rw [(List.append_inj' h rfl).1, ← obj_of_ne_nil fs ((List.append_inj' h rfl).1 ▸ hp)]
        exact hd
      · exact fs.parents p m h hp
    -- the name was free, so no directory with something in it is replaced
    have hne : p ≠ d ++ [n] := by
      intro heq
      rw [obj_of_ne_nil fs (by simp), ← heq, hdir] at hfree
      cases hfree
    rw [Dict.get?_set_of_ne _ hne, hdir]

/-- Create an entry.  Nothing happens when the name is taken or there is no such
directory. -/
def add (fs : FileSystem) (d : Path) (n : Str) (o : Obj) : FileSystem :=
  if h : ValidName n ∧ fs.obj d = some .dir ∧ fs.obj (d ++ [n]) = none then
    fs.put d n o h.1 h.2.1 h.2.2
  else fs

/-- **Adding touches one path.** -/
theorem obj_add (fs : FileSystem) (d : Path) (n : Str) (o : Obj) (p : Path) :
    (fs.add d n o).obj p =
      if p = d ++ [n] ∧ ValidName n ∧ fs.obj d = some .dir ∧ fs.obj (d ++ [n]) = none then some o
      else fs.obj p := by
  unfold add
  split
  · next h =>
    by_cases hp : p = d ++ [n]
    · rw [if_pos ⟨hp, h⟩, hp, obj_of_ne_nil _ (by simp), put, Dict.get?_set_self]
    · rw [if_neg fun hc => hp hc.1]
      unfold obj put
      split
      · rfl
      · exact Dict.get?_set_of_ne _ hp _
  · next h => rw [if_neg fun hc => h hc.2]

theorem add_of_taken {fs : FileSystem} {d : Path} {n : Str} {o : Obj}
    (h : fs.obj (d ++ [n]) = some o) (o' : Obj) : fs.add d n o' = fs := by
  rw [add, dif_neg]
  rintro ⟨-, -, hfree⟩
  rw [hfree] at h
  cases h

/-- Remove what is at `p`, unless it is a directory. -/
def remove (fs : FileSystem) (p : Path) : FileSystem :=
  if h : fs.obj p = some .dir then fs
  else
    { entries := fs.entries.erase p
      root := fun hm => fs.root ((Dict.mem_keys_erase _ _ _).mp hm).2
      names := fun q n hm => fs.names q n ((Dict.mem_keys_erase _ _ _).mp hm).2
      parents := by
        intro q n hm hq
        have hdir := fs.parents q n ((Dict.mem_keys_erase _ _ _).mp hm).2 hq
        -- what holds something is a directory, and directories stay
        have hne : q ≠ p := by
          rintro rfl
          rw [obj_of_ne_nil fs hq] at h
          exact h hdir
        rw [Dict.get?_erase, if_neg hne, hdir] }

/-- **Removing touches one path**, and no directory. -/
theorem obj_remove (fs : FileSystem) (p q : Path) :
    (fs.remove p).obj q = if q = p ∧ fs.obj p ≠ some .dir then none else fs.obj q := by
  unfold remove
  split
  · next h => rw [if_neg fun hc => hc.2 h]
  · next h =>
    by_cases hq : q = p
    · rw [if_pos ⟨hq, h⟩, hq]
      have hp : p ≠ [] := by
        rintro rfl
        exact h fs.obj_nil
      rw [obj_of_ne_nil _ hp, Dict.get?_erase, if_pos rfl]
    · rw [if_neg fun hc => hq hc.1]
      unfold obj
      split
      · rfl
      · exact (Dict.get?_erase _ _ _).trans (if_neg hq)

/-! ### Walking -/

/-- The components of a path text; a trailing slash asks for a directory. -/
def comps (text : Str) : List Str :=
  fields (· = '/') text ++ if text.getLast? = some '/' then [dot] else []

/-- Where one component leads. -/
inductive Move
  | goto (p : Path)
  /-- A link, to be followed from `p` along its own components. -/
  | link (p : Path) (target : List Str)
  | missing
  /-- Not in a directory. -/
  | stuck

/-- Take one component. -/
def move (fs : FileSystem) (cur : Path) (c : Str) : Move :=
  if fs.obj cur = some .dir then
    if c = dot then .goto cur
    else if c = dotdot then .goto cur.dropLast
    else
      match fs.obj (cur ++ [c]) with
      | none => .missing
      | some (.link t) => .link (if t.head? = some '/' then [] else cur) (comps t)
      | some _ => .goto (cur ++ [c])
  else .stuck

/-- Walk along components.  `onLink` goes on from a link; `lenient` lets the last name
be missing. -/
def walkWith (fs : FileSystem) (lenient : Bool) (onLink : Path → List Str → Option Path) :
    Path → List Str → Option Path
  | cur, [] => some cur
  | cur, c :: cs =>
    match fs.move cur c with
    | .goto p => walkWith fs lenient onLink p cs
    | .link p ds => onLink p (ds ++ cs)
    | .missing => if lenient ∧ cs = [] then some (cur ++ [c]) else none
    | .stuck => none

/-- Walk along components, following at most `n` links. -/
def walk (fs : FileSystem) (lenient : Bool) : ℕ → Path → List Str → Option Path
  | 0 => walkWith fs lenient fun _ _ => none
  | n + 1 => walkWith fs lenient (walk fs lenient n)

/-- `MAXSYMLINKS`. -/
def maxLinks : ℕ := 40

/-- Where the walk along a text starts. -/
def start (cwd : Path) (text : Str) : Path := if text.head? = some '/' then [] else cwd

/-- The path a text leads to, all links followed. -/
def resolve (fs : FileSystem) (cwd : Path) (text : Str) : Option Path :=
  if text = [] then none else walk fs false maxLinks (start cwd text) (comps text)

/-- The directory and the name a text ends in; the last component is not followed. -/
def place (fs : FileSystem) (cwd : Path) (text : Str) : Option (Path × Str) :=
  (comps text).getLast?.bind fun n =>
    -- these two name no entry that could be created or removed
    if n = dot ∨ n = dotdot then none
    else
      (walk fs false maxLinks (start cwd text) (comps text).dropLast).bind fun d =>
        if fs.obj d = some .dir then some (d, n) else none

/-- The path of the entry a text names, the last component not followed. -/
def entry (fs : FileSystem) (cwd : Path) (text : Str) : Option Path :=
  match fs.place cwd text with
  | some (d, n) => if (fs.obj (d ++ [n])).isSome then some (d ++ [n]) else none
  | none => fs.resolve cwd text

/-- What a text names, the last component not followed. -/
def lstat (fs : FileSystem) (cwd : Path) (text : Str) : Option Obj :=
  (fs.entry cwd text).bind fs.obj

/-- `-e`: the text leads somewhere. -/
def pathExists (fs : FileSystem) (cwd : Path) (text : Str) : Bool := (fs.resolve cwd text).isSome

/-- `-d`: the text leads to a directory. -/
def isDir (fs : FileSystem) (cwd : Path) (text : Str) : Bool :=
  (fs.resolve cwd text).bind fs.obj = some .dir

/-- `-h`: the text names a symbolic link. -/
def isLink (fs : FileSystem) (cwd : Path) (text : Str) : Bool :=
  match fs.lstat cwd text with
  | some (.link _) => true
  | _ => false

/-- Every entry of `fs` is one of `fs'`. -/
def Le (fs fs' : FileSystem) : Prop := ∀ p o, fs.obj p = some o → fs'.obj p = some o

theorem Le.refl (fs : FileSystem) : fs.Le fs := fun _ _ h => h

theorem Le.trans {fs₁ fs₂ fs₃ : FileSystem} (h : fs₁.Le fs₂) (h' : fs₂.Le fs₃) : fs₁.Le fs₃ :=
  fun p o hp => h' p o (h p o hp)

theorem le_add (fs : FileSystem) (d : Path) (n : Str) (o : Obj) : fs.Le (fs.add d n o) := by
  intro p o' h
  rw [obj_add, if_neg]
  · exact h
  · rintro ⟨rfl, -, -, hfree⟩
    rw [hfree] at h
    cases h

theorem remove_le (fs : FileSystem) (p : Path) : (fs.remove p).Le fs := by
  intro q o h
  rw [obj_remove] at h
  split at h
  · cases h
  · exact h

/-- A component that leads somewhere still leads there when entries are added. -/
theorem move_mono {fs fs' : FileSystem} (h : fs.Le fs') {cur : Path} {c : Str}
    (hm : fs.move cur c ≠ .missing) (hs : fs.move cur c ≠ .stuck) :
    fs'.move cur c = fs.move cur c := by
  unfold move at hm hs ⊢
  by_cases hdir : fs.obj cur = some .dir
  · rw [if_pos hdir] at hm hs ⊢
    rw [if_pos (h _ _ hdir)]
    cases ho : fs.obj (cur ++ [c]) with
    | some o => rw [h _ _ ho]
    | none =>
      by_cases hdot : c = dot
      · rw [if_pos hdot, if_pos hdot]
      · by_cases hdd : c = dotdot
        · rw [if_neg hdot, if_neg hdot, if_pos hdd, if_pos hdd]
        · rw [if_neg hdot, if_neg hdd, ho] at hm
          exact absurd rfl hm
  · rw [if_neg hdir] at hs
    exact absurd rfl hs

/-! ### Walks -/

section Walk

variable {fs : FileSystem}

/-- A walk takes its first component and goes on.  Only a lenient one ends where the last
name is missing. -/
theorem walk_step (lenient : Bool) (n : ℕ) (cur : Path) (c : Str) (cs : List Str) :
    walk fs lenient n cur (c :: cs) =
      match fs.move cur c with
      | .goto p => walk fs lenient n p cs
      | .link p ds =>
        match n with
        | 0 => none
        | m + 1 => walk fs lenient m p (ds ++ cs)
      | .missing => if lenient ∧ cs = [] then some (cur ++ [c]) else none
      | .stuck => none := by
  cases n with
  | zero => cases hmove : fs.move cur c <;> simp [walk, walkWith, hmove]
  | succ n => cases hmove : fs.move cur c <;> simp [walk, walkWith, hmove]

theorem walk_cons (n : ℕ) (cur : Path) (c : Str) (cs : List Str) :
    walk fs false n cur (c :: cs) =
      match fs.move cur c with
      | .goto p => walk fs false n p cs
      | .link p ds =>
        match n with
        | 0 => none
        | m + 1 => walk fs false m p (ds ++ cs)
      | .missing => none
      | .stuck => none := by
  rw [walk_step]
  cases fs.move cur c <;> simp

@[simp] theorem walk_nil {lenient : Bool} (n : ℕ) (cur : Path) :
    walk fs lenient n cur [] = some cur := by
  cases n <;> rfl

theorem walk_cons_of_goto {n : ℕ} {cur q : Path} {c : Str} (h : fs.move cur c = .goto q)
    (cs : List Str) : walk fs false n cur (c :: cs) = walk fs false n q cs := by
  rw [walk_cons, h]

theorem walk_cons_of_move_link {n : ℕ} {cur q : Path} {c : Str} {ds : List Str}
    (h : fs.move cur c = .link q ds) (cs : List Str) :
    walk fs false (n + 1) cur (c :: cs) = walk fs false n q (ds ++ cs) := by
  rw [walk_cons, h]

/-- **The steps of a walk that ends**: over a component, or along a link, of which there is one
less to follow then. -/
theorem walk_induction {p : Path}
    {motive : ∀ n cur cs, walk fs false n cur cs = some p → Prop}
    (stop : ∀ n, motive n p [] (walk_nil n p))
    (goto : ∀ n cur c cs q (hmove : fs.move cur c = .goto q) (h : walk fs false n q cs = some p),
      motive n q cs h → motive n cur (c :: cs) ((walk_cons_of_goto hmove cs).trans h))
    (link : ∀ n cur c cs q ds (hmove : fs.move cur c = .link q ds)
      (h : walk fs false n q (ds ++ cs) = some p), motive n q (ds ++ cs) h →
      motive (n + 1) cur (c :: cs) ((walk_cons_of_move_link hmove cs).trans h))
    {n : ℕ} {cur : Path} {cs : List Str} (h : walk fs false n cur cs = some p) :
    motive n cur cs h := by
  -- at a link the outer induction, on the links left, takes over
  induction n using Nat.strong_induction_on generalizing cur cs with
  | _ n ihn =>
    induction cs generalizing cur with
    | nil =>
      have hp : cur = p := by simpa using h
      subst hp
      exact stop n
    | cons c cs ih =>
      have hstep := h
      rw [walk_cons] at hstep
      cases hmove : fs.move cur c with
      | goto q =>
        rw [hmove] at hstep
        exact goto n cur c cs q hmove hstep (ih hstep)
      | link q ds =>
        rw [hmove] at hstep
        cases n with
        | zero => cases hstep
        | succ n => exact link n cur c cs q ds hmove hstep (ihn n (Nat.lt_succ_self n) hstep)
      | missing =>
        rw [hmove] at hstep
        cases hstep
      | stuck =>
        rw [hmove] at hstep
        cases hstep

/-- **A walk that succeeds still succeeds when entries are added.** -/
theorem walk_mono {fs' : FileSystem} (h : fs.Le fs') {n : ℕ} {cur p : Path} {cs : List Str}
    (hw : walk fs false n cur cs = some p) : walk fs' false n cur cs = some p := by
  induction hw using walk_induction with
  | stop n => exact walk_nil n p
  | goto n cur c cs q hmove _ ih =>
    have hsame : fs'.move cur c = fs.move cur c := move_mono h (by simp [hmove]) (by simp [hmove])
    rw [walk_cons_of_goto (hsame.trans hmove), ih]
  | link n cur c cs q ds hmove _ ih =>
    have hsame : fs'.move cur c = fs.move cur c := move_mono h (by simp [hmove]) (by simp [hmove])
    rw [walk_cons_of_move_link (hsame.trans hmove), ih]

/-- **A walk can be cut in two**: past the first part, some of the links are used up. -/
theorem walk_append {n : ℕ} {cur p : Path} {cs : List Str}
    (hw : walk fs false n cur cs = some p) :
    ∃ m, ∀ ds, walk fs false n cur (cs ++ ds) = walk fs false m p ds := by
  induction hw using walk_induction with
  | stop n => exact ⟨n, fun ds => rfl⟩
  | goto n cur c cs q hmove _ ih =>
    obtain ⟨m, hm⟩ := ih
    exact ⟨m, fun ds => (walk_cons_of_goto hmove (cs ++ ds)).trans (hm ds)⟩
  | link n cur c cs q ds hmove _ ih =>
    obtain ⟨m, hm⟩ := ih
    refine ⟨m, fun es => (walk_cons_of_move_link hmove (cs ++ es)).trans ?_⟩
    rw [← hm, List.append_assoc]

end Walk

/-! ### An emptied directory -/

/-- The file system without what lies in `d`, its subdirectories apart. -/
def clear (fs : FileSystem) (d : Path) : FileSystem :=
  (fs.namesIn d).foldl (fun fs n => fs.remove (d ++ [n])) fs

theorem foldl_remove_le (d : Path) (ns : List Str) (fs : FileSystem) :
    (ns.foldl (fun fs n => fs.remove (d ++ [n])) fs).Le fs := by
  induction ns generalizing fs with
  | nil => exact Le.refl fs
  | cons n ns ih => exact (ih _).trans (remove_le fs _)

theorem dir_of_foldl_remove {d : Path} {n : Str} {ns : List Str} {fs : FileSystem} {o : Obj}
    (hn : n ∈ ns) (h : (ns.foldl (fun fs n => fs.remove (d ++ [n])) fs).obj (d ++ [n]) = some o) :
    o = .dir := by
  induction ns generalizing fs with
  | nil => cases hn
  | cons m ns ih =>
    rcases List.mem_cons.mp hn with rfl | hn
    · have ho := foldl_remove_le d ns (fs.remove (d ++ [n])) _ _ h
      rw [obj_remove] at ho
      split at ho
      · cases ho
      · next hdir =>
        rw [not_and_not_right] at hdir
        rw [hdir rfl] at ho
        exact (Option.some.inj ho).symm
    · exact ih hn h

theorem obj_foldl_remove_of_ne {d q : Path} {ns : List Str} {fs : FileSystem}
    (hq : ∀ n, q ≠ d ++ [n]) :
    (ns.foldl (fun fs n => fs.remove (d ++ [n])) fs).obj q = fs.obj q := by
  induction ns generalizing fs with
  | nil => rfl
  | cons n ns ih =>
    rw [List.foldl_cons, ih, obj_remove, if_neg fun h => hq n h.1]

theorem obj_clear_self (fs : FileSystem) (d : Path) : (fs.clear d).obj d = fs.obj d :=
  obj_foldl_remove_of_ne fun n h => by simpa using congrArg List.length h

theorem clear_le (fs : FileSystem) (d : Path) : (fs.clear d).Le fs := foldl_remove_le d _ fs

/-- Only directories are left in an emptied directory. -/
theorem dir_of_clear {fs : FileSystem} {d : Path} {n : Str} {o : Obj}
    (h : (fs.clear d).obj (d ++ [n]) = some o) : o = .dir :=
  dir_of_foldl_remove ((fs.mem_namesIn d n).mpr ⟨o, clear_le fs d _ _ h⟩) h

/-! ### Everything but links -/

/-- The two file systems hold the same files and directories. -/
def SameButLinks (fs fs' : FileSystem) : Prop :=
  ∀ p o, ¬ o.IsLink → (fs.obj p = some o ↔ fs'.obj p = some o)

theorem SameButLinks.refl (fs : FileSystem) : fs.SameButLinks fs := fun _ _ _ => Iff.rfl

theorem SameButLinks.trans {fs₁ fs₂ fs₃ : FileSystem} (h : fs₁.SameButLinks fs₂)
    (h' : fs₂.SameButLinks fs₃) : fs₁.SameButLinks fs₃ :=
  fun p o ho => (h p o ho).trans (h' p o ho)

/-- A new link changes no file and no directory. -/
theorem sameButLinks_add_link (fs : FileSystem) (d : Path) (n t : Str) :
    fs.SameButLinks (fs.add d n (.link t)) := by
  intro p o ho
  rw [obj_add]
  split
  · next h =>
    obtain ⟨rfl, -, -, hfree⟩ := h
    rw [hfree]
    constructor
    · intro h
      cases h
    · intro h
      exact absurd ⟨t, (Option.some.inj h).symm⟩ ho
  · exact Iff.rfl

/-- Removing what is not a file changes no file and no directory. -/
theorem sameButLinks_remove {fs : FileSystem} {p : Path} (h : ∀ c, fs.obj p ≠ some (.file c)) :
    fs.SameButLinks (fs.remove p) := by
  intro q o ho
  rw [obj_remove]
  split
  · next hq =>
    obtain ⟨rfl, hdir⟩ := hq
    constructor
    · intro hqo
      cases o with
      | file c => exact absurd hqo (h c)
      | dir => exact absurd hqo hdir
      | link t => exact absurd ⟨t, rfl⟩ ho
    · intro hnone
      cases hnone
  · exact Iff.rfl

/-! ### Entries of a directory, by text -/

/-- The text of entry `n` of the directory with text `t`. -/
def child (t n : Str) : Str := t ++ '/' :: n

/-- A text that starts a walk and does not ask for a directory at its end. -/
def IsBase (t : Str) : Prop := t ≠ [] ∧ t.getLast? ≠ some '/'

theorem getLast?_child {t n : Str} (hn : ValidName n) : (child t n).getLast? ≠ some '/' := by
  rw [child, List.getLast?_append_of_ne_nil _ (by simp)]
  obtain ⟨hne, hslash, -⟩ := hn
  rw [List.getLast?_cons, List.getLast?_eq_some_getLast hne, Option.getD_some]
  intro h
  exact hslash (Option.some.inj h ▸ List.getLast_mem hne)

theorem comps_child (t : Str) {n : Str} (hn : ValidName n) :
    comps (child t n) = fields (· = '/') t ++ [n] := by
  rw [comps, if_neg (getLast?_child hn), child, fields_append_cons (by simp), List.append_nil,
    fields_eq_singleton hn.1 fun c hc => by
      simp only [decide_eq_false_iff_not]
      rintro rfl
      exact hn.2.1 hc]

theorem comps_child_of_isBase {t n : Str} (ht : IsBase t) (hn : ValidName n) :
    comps (child t n) = comps t ++ [n] := by
  rw [comps_child t hn, comps, if_neg ht.2, List.append_nil]

theorem start_child {t : Str} (ht : IsBase t) (cwd : Path) (n : Str) :
    start cwd (child t n) = start cwd t := by
  rw [start, start, child, List.head?_append_of_ne_nil _ ht.1]

theorem child_ne_nil (t n : Str) : child t n ≠ [] := by simp [child]

theorem isBase_child (t : Str) {n : Str} (hn : ValidName n) : IsBase (child t n) :=
  ⟨child_ne_nil t n, getLast?_child hn⟩

section Child

variable {fs : FileSystem} {cwd d : Path} {t n : Str}

theorem walk_of_resolve (h : fs.resolve cwd t = some d) :
    walk fs false maxLinks (start cwd t) (comps t) = some d := by
  unfold resolve at h
  split at h
  · cases h
  · exact h

/-- The entry of a directory, from the text of the directory. -/
theorem place_child (ht : IsBase t) (hn : ValidName n) (h : fs.resolve cwd t = some d)
    (hd : fs.obj d = some .dir) : fs.place cwd (child t n) = some (d, n) := by
  rw [place, comps_child_of_isBase ht hn, List.getLast?_concat, List.dropLast_concat,
    start_child ht, walk_of_resolve h]
  simp [hn.2.2.1, hn.2.2.2, hd]

/-- What is placed is placed in a directory. -/
theorem dir_of_place (h : fs.place cwd t = some (d, n)) : fs.obj d = some .dir := by
  unfold place at h
  obtain ⟨m, -, h⟩ := Option.bind_eq_some_iff.mp h
  split at h
  · cases h
  · obtain ⟨e, -, h⟩ := Option.bind_eq_some_iff.mp h
    split at h
    · next hdir => cases h; exact hdir
    · cases h

theorem entry_of_place (h : fs.place cwd t = some (d, n)) :
    fs.entry cwd t = if (fs.obj (d ++ [n])).isSome then some (d ++ [n]) else none := by
  rw [entry, h]

theorem lstat_of_place (h : fs.place cwd t = some (d, n)) : fs.lstat cwd t = fs.obj (d ++ [n]) := by
  rw [lstat, entry_of_place h]
  cases ho : fs.obj (d ++ [n]) with
  | none => simp
  | some o => simp [ho]

theorem isLink_iff : fs.isLink cwd t = true ↔ ∃ o, fs.lstat cwd t = some o ∧ o.IsLink := by
  rw [isLink]
  cases fs.lstat cwd t with
  | none => simp
  | some o => cases o <;> simp [Obj.IsLink]

/-- A directory that a text names is where the text leads. -/
theorem resolve_of_place (h : fs.place cwd t = some (d, n)) (hdir : fs.obj (d ++ [n]) = some .dir) :
    fs.resolve cwd t = some (d ++ [n]) := by
  have hd := dir_of_place h
  unfold place at h
  obtain ⟨m, hm, h⟩ := Option.bind_eq_some_iff.mp h
  obtain ⟨cs, hcs⟩ := List.getLast?_eq_some_iff.mp hm
  have ht : t ≠ [] := by
    rintro rfl
    simp [comps] at hm
  split at h
  · cases h
  · next hdots =>
    obtain ⟨e, he, h⟩ := Option.bind_eq_some_iff.mp h
    split at h
    · cases h
      rw [hcs, List.dropLast_concat] at he
      -- the walk to the directory, and one more move that follows no link
      obtain ⟨l, hl⟩ := walk_append he
      rw [not_or] at hdots
      have hmove : fs.move d n = .goto (d ++ [n]) := by
        unfold move
        rw [if_pos hd, if_neg hdots.1, if_neg hdots.2, hdir]
      rw [resolve, if_neg ht, hcs, hl]
      cases l <;> simp [walk, walkWith, hmove]
    · cases h

/-- A name that a directory does not hold leads nowhere. -/
theorem resolve_child_of_none (ht : IsBase t) (hn : ValidName n) (h : fs.resolve cwd t = some d)
    (ho : fs.obj (d ++ [n]) = none) : fs.resolve cwd (child t n) = none := by
  obtain ⟨m, hm⟩ := walk_append (walk_of_resolve h)
  rw [resolve, if_neg (child_ne_nil t n), comps_child_of_isBase ht hn, start_child ht, hm]
  have hmove : fs.move d n = .missing ∨ fs.move d n = .stuck := by
    unfold move
    by_cases hd : fs.obj d = some .dir
    · left
      rw [if_pos hd, if_neg hn.2.2.1, if_neg hn.2.2.2, ho]
    · exact Or.inr (if_neg hd)
  cases m with
  | zero => rcases hmove with hmove | hmove <;> simp [walk, walkWith, hmove]
  | succ m => rcases hmove with hmove | hmove <;> simp [walk, walkWith, hmove]

/-! ### Names of the working directory -/

theorem comps_of_notMem (hne : n ≠ []) (hslash : '/' ∉ n) : comps n = [n] := by
  have hlast : n.getLast? ≠ some '/' := fun h => hslash (List.mem_of_getLast? h)
  rw [comps, if_neg hlast, List.append_nil]
  apply fields_eq_singleton hne
  intro c hc
  rw [decide_eq_false_iff_not]
  rintro rfl
  exact hslash hc

theorem start_of_notMem (hslash : '/' ∉ n) (cwd : Path) : start cwd n = cwd :=
  if_neg fun h => hslash (List.mem_of_head? h)

theorem place_of_validName (hn : ValidName n) (hcwd : fs.obj cwd = some .dir) :
    fs.place cwd n = some (cwd, n) := by
  rw [place, comps_of_notMem hn.1 hn.2.1, start_of_notMem hn.2.1]
  simp [hn.2.2.1, hn.2.2.2, hcwd]

/-- A text without a slash places nothing elsewhere. -/
theorem eq_of_place (hslash : '/' ∉ n) {e : Path × Str} (h : fs.place cwd n = some e) :
    e = (cwd, n) := by
  by_cases hne : n = []
  · rw [hne] at h
    cases h
  · rw [place, comps_of_notMem hne hslash, start_of_notMem hslash] at h
    obtain ⟨m, hm, h⟩ := Option.bind_eq_some_iff.mp h
    obtain rfl := Option.some.inj hm
    split at h
    · cases h
    · obtain ⟨d, hd, h⟩ := Option.bind_eq_some_iff.mp h
      obtain rfl : cwd = d := by simpa [maxLinks, walk, walkWith] using hd
      split at h
      · exact (Option.some.inj h).symm
      · cases h

theorem resolve_of_validName (hn : ValidName n) (hcwd : fs.obj cwd = some .dir)
    (ho : fs.obj (cwd ++ [n]) = none) : fs.resolve cwd n = none := by
  have hmove : fs.move cwd n = .missing := by
    unfold move
    rw [if_pos hcwd, if_neg hn.2.2.1, if_neg hn.2.2.2, ho]
  rw [resolve, if_neg hn.1, comps_of_notMem hn.1 hn.2.1, start_of_notMem hn.2.1]
  simp [maxLinks, walk, walkWith, hmove]

theorem isDir_of_file (hn : ValidName n) (hcwd : fs.obj cwd = some .dir) {c : Str}
    (ho : fs.obj (cwd ++ [n]) = some (.file c)) : fs.isDir cwd n = false := by
  have hmove : fs.move cwd n = .goto (cwd ++ [n]) := by
    unfold move
    rw [if_pos hcwd, if_neg hn.2.2.1, if_neg hn.2.2.2, ho]
  rw [isDir, resolve, if_neg hn.1, comps_of_notMem hn.1 hn.2.1, start_of_notMem hn.2.1]
  simp [maxLinks, walk, walkWith, hmove, ho]

/-- The name an entry is placed under is the last one of its text. -/
theorem name_of_place_child {m : Str} (hn : ValidName n)
    (h : fs.place cwd (child t n) = some (d, m)) : m = n := by
  rw [place, comps_child t hn, List.getLast?_concat, Option.bind_some,
    if_neg (not_or.mpr ⟨hn.2.2.1, hn.2.2.2⟩)] at h
  obtain ⟨e, -, h⟩ := Option.bind_eq_some_iff.mp h
  split at h
  · cases h
    rfl
  · cases h

theorem resolve_mono {fs' : FileSystem} (hle : fs.Le fs') (h : fs.resolve cwd t = some d) :
    fs'.resolve cwd t = some d := by
  unfold resolve at h ⊢
  split at h
  · cases h
  · next ht => rw [if_neg ht]; exact walk_mono hle h

theorem place_mono {fs' : FileSystem} (hle : fs.Le fs') {e : Path × Str}
    (h : fs.place cwd t = some e) : fs'.place cwd t = some e := by
  unfold place at h ⊢
  obtain ⟨n, hn, h⟩ := Option.bind_eq_some_iff.mp h
  rw [hn, Option.bind_some]
  split at h
  · cases h
  · next hdots =>
    obtain ⟨d, hd, h⟩ := Option.bind_eq_some_iff.mp h
    split at h
    · next hdir => rw [if_neg hdots, walk_mono hle hd, Option.bind_some, if_pos (hle _ _ hdir), h]
    · cases h

end Child

end FileSystem
end Dfuser
