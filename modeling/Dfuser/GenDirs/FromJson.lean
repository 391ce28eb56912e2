import Dfuser.GenDirs
import Dfuser.Lib.JsonDump

/-!
# Directories from a listing in JSON

`scripts/bash/gen_dirs.py` reads what `tree -J` prints.  It makes each directory, enters it,
goes through its contents and returns by `..`; a file is opened for writing and closed.

A name is a relative path without `..`.  Links, which the program makes with its arguments
exchanged, listings of another shape and trees with links are left out.

## Main definitions

* `Listed`, `listedOf` — an entry of the listing, and the entries of a JSON value.
* `process`, `genDirsPy` — the program: the tree and the working directory it leaves.
* `Entry.json`, `treeJson` — what `tree -J` prints of a directory.
* `Fits` — nothing of another kind is in the way.

## Main results

* `process_cases` — the entries of a directory are created, or something is in the way.
* `genDirsPy_iff` — **from its listing a directory is created wherever it fits.**
* `process_changes` — **no listing removes anything**, or empties a file that it does not name.
-/

namespace Dfuser
namespace GenDirs

/-! ### Listings -/

/-- An entry of the listing. -/
inductive Listed
  | directory (name : Path) (contents : List Listed)
  | file (name : Path)
  /-- An entry of a type that the program does not know, such as the report at the end. -/
  | other

/-- The components of a relative path without `..`; `.` has none. -/
def components (name : Str) : Option Path :=
  let parts := name.splitOn '/'
  if name = [] ∨ name.head? = some '/' ∨ "..".toList ∈ parts then none
  else some (parts.filter fun c => c ≠ [] ∧ c ≠ ".".toList)

/-- What is known of an entry from its first members; a later member replaces an earlier one
with the same key. -/
structure Fields where
  type : Option Str
  name : Option Str
  contents : Option (List Listed)

/-- The entry that the members describe.  The contents of a directory may be missing. -/
def Fields.entry (f : Fields) : Option Listed := do
  let type ← f.type
  if type = "directory".toList then
    let path ← f.name.bind components
    let contents ← f.contents
    return .directory path contents
  else if type = "file".toList then
    let name ← f.name
    -- what ends in a slash or a dot is no name of a file
    guard ((name.splitOn '/').getLast? ∉ [some [], some ".".toList])
    let path ← components name
    return .file path
  else if type = "link".toList then none
  else return .other

mutual

/-- An entry of the listing. -/
def entryOf : Json → Option Listed
  | .object members => fieldsOf ⟨none, none, some []⟩ members
  | _ => none

def fieldsOf (f : Fields) : List (Str × Json) → Option Listed
  | [] => f.entry
  | (key, value) :: members =>
    if key = "type".toList then fieldsOf { f with type := value.string? } members
    else if key = "name".toList then fieldsOf { f with name := value.string? } members
    else if key = "contents".toList then fieldsOf { f with contents := listedOf value } members
    else fieldsOf f members

/-- The entries of a list. -/
def listedOf : Json → Option (List Listed)
  | .array elements => entriesOf elements
  | _ => none

def entriesOf : List Json → Option (List Listed)
  | [] => some []
  | e :: es => do
    let e ← entryOf e
    let es ← entriesOf es
    return e :: es

end

/-! ### The program -/

/-- `open(entry["name"], "w")`. -/
def openForWriting (t : DirTree Str) (p : Path) : Except (DirTree Str) (DirTree Str) :=
  match t.node p with
  | some .dir => .error t
  | some (.file _) => .ok (t.write p [])
  | none =>
    if t.isDirAt p.dropLast then .ok (t.add p.dropLast (p.getLast?.getD []) (.file []))
    else .error t

mutual

/-- One round of the loop: the tree and the working directory after it; an exception leaves the
tree made so far. -/
def processEntry (t : DirTree Str) (cwd : Path) :
    Listed → Except (DirTree Str) (DirTree Str × Path)
  | .directory name contents =>
    match t.makeDirs cwd name with
    | .error t => .error t
    | .ok t =>
      match process t (cwd ++ name) contents with
      | .error t => .error t
      -- `..` is the parent of where the contents have left the program
      | .ok (t, cwd) => .ok (t, cwd.dropLast)
  | .file name =>
    match openForWriting t (cwd ++ name) with
    | .error t => .error t
    | .ok t => .ok (t, cwd)
  | .other => .ok (t, cwd)

/-- `process`. -/
def process (t : DirTree Str) (cwd : Path) :
    List Listed → Except (DirTree Str) (DirTree Str × Path)
  | [] => .ok (t, cwd)
  | e :: es =>
    match processEntry t cwd e with
    | .error t => .error t
    | .ok (t, cwd) => process t cwd es

end

/-- The whole program, on its standard input. -/
def genDirsPy (t : DirTree Str) (cwd : Path) (input : Str) :
    Option (Except (DirTree Str) (DirTree Str × Path)) :=
  ((Json.parse input).bind listedOf).map (process t cwd)

/-! ### What `tree -J` prints -/

mutual

/-- An entry and what is below it. -/
def Entry.json : Entry → Json
  | .file name => .object [("type".toList, .string "file".toList), ("name".toList, .string name)]
  | .dir name entries =>
    .object [("type".toList, .string "directory".toList), ("name".toList, .string name),
      ("contents".toList, .array (Entry.jsons entries))]

def Entry.jsons : List Entry → List Json
  | [] => []
  | e :: es => e.json :: Entry.jsons es

end

/-- The listing of the directory that `tree` is run in, with the report at its end. -/
def treeJson (entries : List Entry) (directories files : ℕ) : Json :=
  .array [.object [("type".toList, .string "directory".toList), ("name".toList, .string ".".toList),
      ("contents".toList, .array (Entry.jsons entries))],
    .object [("type".toList, .string "report".toList), ("directories".toList, .ofInt directories),
      ("files".toList, .ofInt files)]]

mutual

/-- The names are names, and different in each directory. -/
def Entry.WellNamed : Entry → Prop
  | .file name => ValidName name
  | .dir name entries =>
    ValidName name ∧ (entries.map Entry.name).Nodup ∧ Entry.AllWellNamed entries

def Entry.AllWellNamed : List Entry → Prop
  | [] => True
  | e :: es => e.WellNamed ∧ Entry.AllWellNamed es

end

mutual

/-- The entry as it is listed. -/
def Entry.listed : Entry → Listed
  | .file name => .file [name]
  | .dir name entries => .directory [name] (Entry.listeds entries)

def Entry.listeds : List Entry → List Listed
  | [] => []
  | e :: es => e.listed :: Entry.listeds es

end

/-- A new node of a kind. -/
def Kind.node : Kind → Node Str
  | .file => .file []
  | .dir => .dir

/-- Where an entry is to be there is nothing yet, or something of its kind. -/
def Fits (t : DirTree Str) (cwd : Path) (entries : List Entry) : Prop :=
  ∀ p k o, kindAt entries p = some k → t.node (cwd ++ p) = some o → kindOf o = k

/-- What is at a path when the entries have been created in a directory, the files empty. -/
def created (t : DirTree Str) (cwd : Path) (entries : List Entry) (q : Path) : Option (Node Str) :=
  if cwd <+: q then ((kindAt entries (q.drop cwd.length)).map Kind.node).or (t.node q) else t.node q

/-! ### Kinds at paths -/

/-- What is at a path below an entry. -/
def Entry.kindBelow : Entry → Path → Option Kind
  | .file _, p => if p = [] then some .file else none
  | .dir _ entries, p => kindAt entries p

@[simp] theorem kindAt_nil (entries : List Entry) : kindAt entries [] = some .dir := by
  rw [kindAt]

theorem kindAt_cons (e : Entry) (es : List Entry) (n : Str) (p : Path) :
    kindAt (e :: es) (n :: p) = if e.name = n then e.kindBelow p else kindAt es (n :: p) := by
  rw [kindAt, List.find?_cons]
  by_cases hn : e.name = n
  · rw [if_pos hn, decide_eq_true hn]
    cases e <;> rfl
  · rw [if_neg hn, decide_eq_false hn, kindAt]

theorem kindAt_of_notMem {es : List Entry} {n : Str} (h : n ∉ es.map Entry.name) (p : Path) :
    kindAt es (n :: p) = none := by
  induction es with
  | nil => rfl
  | cons e es ih =>
    rw [List.map_cons, List.mem_cons, not_or] at h
    rw [kindAt_cons, if_neg (Ne.symm h.1), ih h.2]

theorem kindAt_single (e : Entry) (n : Str) (p : Path) :
    kindAt [e] (n :: p) = if e.name = n then e.kindBelow p else none := by
  rw [kindAt_cons, kindAt_of_notMem List.not_mem_nil]

theorem created_append (t : DirTree Str) (cwd : Path) (entries : List Entry) (p : Path) :
    created t cwd entries (cwd ++ p) =
      ((kindAt entries p).map Kind.node).or (t.node (cwd ++ p)) := by
  rw [created, if_pos (List.prefix_append cwd p), List.drop_left]

theorem created_of_not {t : DirTree Str} {cwd q : Path} (h : ¬ cwd <+: q) (entries : List Entry) :
    created t cwd entries q = t.node q := if_neg h

theorem created_self (t : DirTree Str) (cwd : Path) (entries : List Entry) :
    created t cwd entries cwd = some .dir := by
  have h := created_append t cwd entries []
  rwa [List.append_nil, kindAt_nil] at h

/-- An entry fits when it does so by itself. -/
theorem fits_cons {t : DirTree Str} {cwd : Path} {e : Entry} {es : List Entry}
    (hnodup : ((e :: es).map Entry.name).Nodup) :
    Fits t cwd (e :: es) ↔ Fits t cwd [e] ∧ Fits t cwd es := by
  rw [List.map_cons, List.nodup_cons] at hnodup
  constructor
  · refine fun h => ⟨fun p k o hk ho => h p k o ?_ ho, fun p k o hk ho => h p k o ?_ ho⟩
    · cases p with
      | nil => rwa [kindAt_nil] at hk ⊢
      | cons n p =>
        rw [kindAt_single] at hk
        rw [kindAt_cons]
        split at hk
        · next hn => rwa [if_pos hn]
        · cases hk
    · cases p with
      | nil => rwa [kindAt_nil] at hk ⊢
      | cons n p =>
        have hn : e.name ≠ n := by
          rintro rfl
          rw [kindAt_of_notMem hnodup.1] at hk
          cases hk
        rwa [kindAt_cons, if_neg hn]
  · rintro ⟨he, hes⟩ p k o hk ho
    cases p with
    | nil => exact hes [] k o (by rwa [kindAt_nil] at hk ⊢) ho
    | cons n p =>
      rw [kindAt_cons] at hk
      split at hk
      · next hn => exact he (n :: p) k o (by rwa [kindAt_single, if_pos hn]) ho
      · exact hes (n :: p) k o hk ho

/-- What an entry leaves alone is not in the way of the others any more or less than before. -/
theorem fits_after {t t₁ : DirTree Str} {cwd : Path} (hcwd : t.node cwd = some .dir) {e : Entry}
    {es : List Entry} (hname : e.name ∉ es.map Entry.name)
    (hnode : ∀ q, t₁.node q = created t cwd [e] q) : Fits t₁ cwd es ↔ Fits t cwd es := by
  have hsame : ∀ p k, kindAt es p = some k → t₁.node (cwd ++ p) = t.node (cwd ++ p) := by
    intro p k hk
    rw [hnode, created_append]
    cases p with
    | nil =>
      rw [List.append_nil, hcwd, kindAt_nil]
      rfl
    | cons n p =>
      have hn : e.name ≠ n := by
        rintro rfl
        rw [kindAt_of_notMem hname] at hk
        cases hk
      rw [kindAt_single, if_neg hn]
      rfl
  exact ⟨fun h p k o hk ho => h p k o hk (by rwa [hsame p k hk]),
    fun h p k o hk ho => h p k o hk (by rwa [← hsame p k hk])⟩

theorem created_after {t t₁ : DirTree Str} {cwd : Path} {e : Entry} {es : List Entry}
    (hname : e.name ∉ es.map Entry.name) (hnode : ∀ q, t₁.node q = created t cwd [e] q) (q : Path) :
    created t₁ cwd es q = created t cwd (e :: es) q := by
  by_cases hq : cwd <+: q
  · obtain ⟨p, rfl⟩ := hq
    rw [created_append, created_append, hnode, created_append]
    cases p with
    | nil => rw [kindAt_nil, kindAt_nil]; rfl
    | cons n p =>
      rw [kindAt_single, kindAt_cons e es]
      by_cases hn : e.name = n
      · rw [if_pos hn, if_pos hn, kindAt_of_notMem (hn ▸ hname)]
        rfl
      · rw [if_neg hn, if_neg hn]
        rfl
  · rw [created_of_not hq, created_of_not hq, hnode, created_of_not hq]

/-! ### Creating entries -/

theorem makeDirs_single {t : DirTree Str} {cwd : Path} (hcwd : t.node cwd = some .dir) (n : Str) :
    (¬ t.IsFileAt (cwd ++ [n]) ∧ ∃ t₁, t.makeDirs cwd [n] = .ok t₁ ∧
      ∀ q, t₁.node q = if q = cwd ++ [n] then some .dir else t.node q) ∨
    (t.IsFileAt (cwd ++ [n]) ∧ t.makeDirs cwd [n] = .error t) := by
  rw [DirTree.makeDirs]
  cases hnode : t.node (cwd ++ [n]) with
  | none =>
    refine .inl ⟨?_, _, rfl, DirTree.node_add hcwd hnode .dir⟩
    rintro ⟨c, hc⟩
    rw [hnode] at hc
    cases hc
  | some o =>
    cases o with
    | file c => exact .inr ⟨⟨c, hnode⟩, rfl⟩
    | dir =>
      refine .inl ⟨?_, t, rfl, fun q => ?_⟩
      · rintro ⟨c, hc⟩
        rw [hnode] at hc
        cases hc
      · split
        · next hq => rw [hq, hnode]
        · rfl

theorem openForWriting_single {t : DirTree Str} {cwd : Path} (hcwd : t.node cwd = some .dir)
    (n : Str) :
    (t.node (cwd ++ [n]) ≠ some .dir ∧ ∃ t₁, openForWriting t (cwd ++ [n]) = .ok t₁ ∧
      ∀ q, t₁.node q = if q = cwd ++ [n] then some (.file []) else t.node q) ∨
    (t.node (cwd ++ [n]) = some .dir ∧ openForWriting t (cwd ++ [n]) = .error t) := by
  rw [openForWriting]
  cases hnode : t.node (cwd ++ [n]) with
  | none =>
    refine .inl ⟨by simp, t.add cwd n (.file []), ?_, DirTree.node_add hcwd hnode _⟩
    simp [DirTree.isDirAt_iff.mpr hcwd]
  | some o =>
    cases o with
    | file c => exact .inl ⟨by simp, _, rfl, t.node_write ⟨c, hnode⟩ []⟩
    | dir => exact .inr ⟨rfl, rfl⟩

/-- A file fits where there is no directory. -/
theorem fits_file {t : DirTree Str} {cwd : Path} (hcwd : t.node cwd = some .dir) (n : Str) :
    Fits t cwd [.file n] ↔ t.node (cwd ++ [n]) ≠ some .dir := by
  constructor
  · intro h hdir
    have hkind := h [n] .file .dir (by rw [kindAt_single]; exact if_pos rfl) hdir
    cases hkind
  · intro h p k o hk ho
    cases p with
    | nil =>
      rw [kindAt_nil, Option.some.injEq] at hk
      rw [List.append_nil, hcwd, Option.some.injEq] at ho
      rw [← hk, ← ho]
      rfl
    | cons m p =>
      rw [kindAt_single] at hk
      split at hk
      · next hm =>
        rw [Entry.kindBelow] at hk
        split at hk
        · next hp =>
          cases hk
          cases hm
          subst hp
          cases o with
          | file c => rfl
          | dir => exact absurd ho h
        · cases hk
      · cases hk

/-- A directory fits where there is no file, when its entries fit into it. -/
theorem fits_dir {t t₁ : DirTree Str} {cwd : Path} (hcwd : t.node cwd = some .dir) {n : Str}
    (hfile : ¬ t.IsFileAt (cwd ++ [n]))
    (hnode : ∀ q, t₁.node q = if q = cwd ++ [n] then some .dir else t.node q) (es : List Entry) :
    Fits t₁ (cwd ++ [n]) es ↔ Fits t cwd [.dir n es] := by
  have hbelow : ∀ p, cwd ++ [n] ++ p = cwd ++ n :: p := fun p => by simp
  have hsame : ∀ p, p ≠ [] → t₁.node (cwd ++ n :: p) = t.node (cwd ++ n :: p) := by
    intro p hp
    rw [hnode, if_neg]
    simpa using hp
  constructor
  · intro h p k o hk ho
    cases p with
    | nil =>
      rw [kindAt_nil, Option.some.injEq] at hk
      rw [List.append_nil, hcwd, Option.some.injEq] at ho
      rw [← hk, ← ho]
      rfl
    | cons m p =>
      rw [kindAt_single] at hk
      split at hk
      · next hm =>
        cases hm
        by_cases hp : p = []
        · subst hp
          change kindAt es [] = some k at hk
          rw [kindAt_nil, Option.some.injEq] at hk
          rw [← hk]
          cases o with
          | file c => exact absurd ⟨c, ho⟩ hfile
          | dir => rfl
        · exact h p k o hk (by rw [hbelow, hsame p hp, ← ho]; rfl)
      · cases hk
  · intro h p k o hk ho
    have hk' : kindAt [.dir n es] (n :: p) = some k := by
      rw [kindAt_single]
      exact (if_pos rfl).trans hk
    by_cases hp : p = []
    · subst hp
      rw [kindAt_nil, Option.some.injEq] at hk
      rw [List.append_nil, hnode, if_pos rfl, Option.some.injEq] at ho
      rw [← hk, ← ho]
      rfl
    · exact h (n :: p) k o hk' (by rw [← hsame p hp, ← hbelow, ho])

theorem created_dir {t t₁ : DirTree Str} {cwd : Path} (hcwd : t.node cwd = some .dir) {n : Str}
    (hnode : ∀ q, t₁.node q = if q = cwd ++ [n] then some .dir else t.node q) (es : List Entry)
    (q : Path) : created t₁ (cwd ++ [n]) es q = created t cwd [.dir n es] q := by
  by_cases hin : cwd ++ [n] <+: q
  · obtain ⟨p, rfl⟩ := hin
    have hbelow : cwd ++ [n] ++ p = cwd ++ n :: p := by simp
    rw [created_append, hbelow, created_append, kindAt_single,
      if_pos (show Entry.name _ = n from rfl), Entry.kindBelow, hnode]
    split
    · next hp =>
      obtain rfl : p = [] := by simpa using hp
      rw [kindAt_nil]
      rfl
    · rfl
  · rw [created_of_not hin, hnode, if_neg (by rintro rfl; exact hin (List.prefix_refl _))]
    by_cases hq : cwd <+: q
    · obtain ⟨p, rfl⟩ := hq
      rw [created_append]
      cases p with
      | nil =>
        rw [List.append_nil, hcwd, kindAt_nil]
        rfl
      | cons m p =>
        have hm : Entry.name (.dir n es) ≠ m := by
          rintro rfl
          exact hin ⟨p, by simp [Entry.name]⟩
        rw [kindAt_single, if_neg hm]
        rfl
    · rw [created_of_not hq]

theorem created_file {t t₁ : DirTree Str} {cwd : Path} (hcwd : t.node cwd = some .dir) {n : Str}
    (hnode : ∀ q, t₁.node q = if q = cwd ++ [n] then some (.file []) else t.node q) (q : Path) :
    t₁.node q = created t cwd [.file n] q := by
  rw [hnode]
  by_cases hq : cwd <+: q
  · obtain ⟨p, rfl⟩ := hq
    rw [created_append]
    cases p with
    | nil =>
      rw [if_neg (by simp), List.append_nil, hcwd, kindAt_nil]
      rfl
    | cons m p =>
      rw [kindAt_single, Entry.kindBelow]
      by_cases hm : m = n ∧ p = []
      · obtain ⟨rfl, rfl⟩ := hm
        rw [if_pos rfl, if_pos rfl, if_pos (show Entry.name _ = m from rfl)]
        rfl
      · have hne : ¬ cwd ++ m :: p = cwd ++ [n] := by simpa using hm
        rw [if_neg hne]
        split
        · next heq =>
          cases heq
          rw [if_neg fun hp => hm ⟨rfl, hp⟩]
          rfl
        · rfl
  · rw [created_of_not hq, if_neg]
    rintro rfl
    exact hq (List.prefix_append cwd [n])

/-- How it goes with some entries: they are created and the program is back where it was, or
one of them does not fit and it stops. -/
def Goes (t : DirTree Str) (cwd : Path) (entries : List Entry)
    (result : Except (DirTree Str) (DirTree Str × Path)) : Prop :=
  (Fits t cwd entries ∧ ∃ t', result = .ok (t', cwd) ∧ ∀ q, t'.node q = created t cwd entries q) ∨
    (¬ Fits t cwd entries ∧ ∃ t', result = .error t')

mutual

theorem processEntry_goes {t : DirTree Str} {cwd : Path} (hcwd : t.node cwd = some .dir) :
    ∀ e : Entry, e.WellNamed → Goes t cwd [e] (processEntry t cwd e.listed)
  | .file n, _ => by
    rw [Goes, fits_file hcwd, Entry.listed, processEntry]
    rcases openForWriting_single hcwd n with ⟨hfits, t₁, hopen, hnode⟩ | ⟨hdir, hopen⟩
    · rw [hopen]
      exact .inl ⟨hfits, t₁, rfl, created_file hcwd hnode⟩
    · rw [hopen]
      exact .inr ⟨not_not_intro hdir, t, rfl⟩
  | .dir n es, hwell => by
    rw [Entry.WellNamed] at hwell
    obtain ⟨-, hnodup, hall⟩ := hwell
    rw [Entry.listed, processEntry]
    rcases makeDirs_single hcwd n with ⟨hfile, t₁, hmake, hnode⟩ | ⟨⟨c, hc⟩, hmake⟩
    · rw [hmake, Goes, ← fits_dir hcwd hfile hnode es]
      dsimp only
      have hdir : t₁.node (cwd ++ [n]) = some .dir := by rw [hnode, if_pos rfl]
      rcases process_goes hdir es hall hnodup with ⟨hfits, t', hok, hnode'⟩ | ⟨hfits, t', herror⟩
      · rw [hok]
        refine .inl ⟨hfits, t', ?_, fun q => ?_⟩
        · simp
        · rw [hnode', created_dir hcwd hnode]
      · rw [herror]
        exact .inr ⟨hfits, t', rfl⟩
    · rw [hmake]
      refine .inr ⟨fun h => ?_, t, rfl⟩
      have hkind := h [n] .dir (.file c) (by rw [kindAt_single]; exact if_pos rfl) hc
      cases hkind

/-- **The entries of a directory are created**, or something is in the way. -/
theorem process_goes {t : DirTree Str} {cwd : Path} (hcwd : t.node cwd = some .dir) :
    ∀ es : List Entry, Entry.AllWellNamed es → (es.map Entry.name).Nodup →
      Goes t cwd es (process t cwd (Entry.listeds es))
  | [], _, _ => by
    rw [Entry.listeds, process]
    refine .inl ⟨fun p k o hk ho => ?_, t, rfl, fun q => ?_⟩
    · cases p with
      | nil =>
        rw [kindAt_nil, Option.some.injEq] at hk
        rw [List.append_nil, hcwd, Option.some.injEq] at ho
        rw [← hk, ← ho]
        rfl
      | cons n p => rw [kindAt_of_notMem List.not_mem_nil] at hk; cases hk
    · by_cases hq : cwd <+: q
      · obtain ⟨p, rfl⟩ := hq
        rw [created_append]
        cases p with
        | nil => rw [List.append_nil, hcwd, kindAt_nil]; rfl
        | cons n p => rw [kindAt_of_notMem List.not_mem_nil]; rfl
      · rw [created_of_not hq]
  | e :: es, hwell, hnodup => by
    rw [Entry.AllWellNamed] at hwell
    have hname := (List.nodup_cons.mp (by rwa [List.map_cons] at hnodup)).1
    have htail := (List.nodup_cons.mp (by rwa [List.map_cons] at hnodup)).2
    rw [Goes, fits_cons hnodup, Entry.listeds, process]
    rcases processEntry_goes hcwd e hwell.1 with ⟨hfits, t₁, hok, hnode⟩ | ⟨hfits, t₁, herror⟩
    · rw [hok]
      dsimp only
      have hcwd₁ : t₁.node cwd = some .dir := by rw [hnode, created_self]
      rcases process_goes hcwd₁ es hwell.2 htail with
        ⟨hrest, t', hok', hnode'⟩ | ⟨hrest, t', herror⟩
      · rw [fits_after hcwd hname hnode] at hrest
        refine .inl ⟨⟨hfits, hrest⟩, t', hok', fun q => ?_⟩
        rw [hnode', created_after hname hnode]
      · rw [fits_after hcwd hname hnode] at hrest
        exact .inr ⟨fun h => hrest h.2, t', herror⟩
    · rw [herror]
      exact .inr ⟨fun h => hfits h.1, t₁, rfl⟩

end

/-! ### From a text -/

theorem splitOn_of_validName {n : Str} (h : ValidName n) : n.splitOn '/' = [n] :=
  List.splitOn_eq_singleton h.2.1

theorem components_of_validName {n : Str} (h : ValidName n) : components n = some [n] := by
  have hsplit := splitOn_of_validName h
  obtain ⟨hne, hslash, hdot, hdotdot⟩ := h
  have hhead : n.head? ≠ some '/' := fun hhead => hslash (List.mem_of_mem_head? hhead)
  rw [components, hsplit, if_neg]
  · rw [List.filter_cons_of_pos (by simpa using ⟨hne, hdot⟩), List.filter_nil]
  · rw [not_or, not_or, List.mem_singleton]
    exact ⟨hne, hhead, Ne.symm hdotdot⟩

theorem fieldsOf_type (f : Fields) (s : Str) (members : List (Str × Json)) :
    fieldsOf f (("type".toList, .string s) :: members) =
      fieldsOf { f with type := some s } members := by
  rw [fieldsOf, if_pos rfl]
  rfl

theorem fieldsOf_name (f : Fields) (s : Str) (members : List (Str × Json)) :
    fieldsOf f (("name".toList, .string s) :: members) =
      fieldsOf { f with name := some s } members := by
  rw [fieldsOf, if_neg (by decide), if_pos rfl]
  rfl

theorem fieldsOf_contents (f : Fields) (es : List Json) (members : List (Str × Json)) :
    fieldsOf f (("contents".toList, .array es) :: members) =
      fieldsOf { f with contents := entriesOf es } members := by
  rw [fieldsOf, if_neg (by decide), if_neg (by decide), if_pos rfl, listedOf]

/-- A directory as it is listed. -/
theorem entryOf_directory {name : Str} {path : Path} (hname : components name = some path)
    {es : List Json} {contents : List Listed} (hcontents : entriesOf es = some contents) :
    entryOf (.object [("type".toList, .string "directory".toList), ("name".toList, .string name),
      ("contents".toList, .array es)]) = some (.directory path contents) := by
  rw [entryOf, fieldsOf_type, fieldsOf_name, fieldsOf_contents, fieldsOf, hcontents]
  show ((components name).bind fun path => _) = _
  rw [hname]
  rfl

mutual

theorem entryOf_json : ∀ e : Entry, e.WellNamed → entryOf e.json = some e.listed
  | .file n, hname => by
    rw [Entry.WellNamed] at hname
    have hlast : (n.splitOn '/').getLast? ∉ [some [], some ".".toList] := by
      rw [splitOn_of_validName hname]
      simpa using ⟨hname.1, hname.2.2.1⟩
    rw [Entry.json, entryOf, fieldsOf_type, fieldsOf_name, fieldsOf, Entry.listed]
    show Option.bind (guard _) (fun _ => (components n).bind fun path => _) = _
    rw [components_of_validName hname, guard, if_pos hlast]
    rfl
  | .dir n es, hwell => by
    rw [Entry.WellNamed] at hwell
    rw [Entry.json, Entry.listed]
    exact entryOf_directory (components_of_validName hwell.1) (entriesOf_jsons es hwell.2.2)

theorem entriesOf_jsons :
    ∀ es : List Entry, Entry.AllWellNamed es → entriesOf (Entry.jsons es) = some (Entry.listeds es)
  | [], _ => by rw [Entry.jsons, entriesOf, Entry.listeds]
  | e :: es, hwell => by
    rw [Entry.AllWellNamed] at hwell
    rw [Entry.jsons, entriesOf, entryOf_json e hwell.1, entriesOf_jsons es hwell.2, Entry.listeds]
    rfl

end

theorem listedOf_treeJson {entries : List Entry} (hwell : Entry.AllWellNamed entries)
    (directories files : ℕ) :
    listedOf (treeJson entries directories files) =
      some [.directory [] (Entry.listeds entries), .other] := by
  have hreport : entryOf (.object [("type".toList, .string "report".toList),
      ("directories".toList, .ofInt directories), ("files".toList, .ofInt files)]) =
        some .other := by
    rw [entryOf, fieldsOf_type, fieldsOf, if_neg (by decide), if_neg (by decide),
      if_neg (by decide), fieldsOf, if_neg (by decide), if_neg (by decide), if_neg (by decide),
      fieldsOf]
    rfl
  rw [treeJson, listedOf, entriesOf, entriesOf, entriesOf, hreport,
    entryOf_directory (by rfl) (entriesOf_jsons entries hwell)]
  rfl

mutual

/-- The paths that an entry names, and where the program is after it. -/
def Listed.visits (cwd : Path) : Listed → List (Kind × Path) × Path
  | .directory name contents =>
    ((.dir, cwd ++ name) :: (visitsAll (cwd ++ name) contents).1,
      (visitsAll (cwd ++ name) contents).2.dropLast)
  | .file name => ([(.file, cwd ++ name)], cwd)
  | .other => ([], cwd)

def visitsAll (cwd : Path) : List Listed → List (Kind × Path) × Path
  | [] => ([], cwd)
  | e :: es =>
    ((e.visits cwd).1 ++ (visitsAll (e.visits cwd).2 es).1, (visitsAll (e.visits cwd).2 es).2)

end

/-- What is there stays, but for files that are named and emptied; what is new is a directory
or an empty file on the way to something named. -/
def ChangesOnly (visits : List (Kind × Path)) (t t' : DirTree Str) : Prop :=
  ∀ q, t'.node q = t.node q ∨
    (t.node q = none ∧ (t'.node q = some .dir ∨ t'.node q = some (.file [])) ∧
      ∃ v ∈ visits, q <+: v.2) ∨
    (t.IsFileAt q ∧ t'.node q = some (.file []) ∧ (Kind.file, q) ∈ visits)

theorem ChangesOnly.refl (visits : List (Kind × Path)) (t : DirTree Str) : ChangesOnly visits t t :=
  fun _ => .inl rfl

theorem ChangesOnly.mono {visits visits' : List (Kind × Path)} {t t' : DirTree Str}
    (h : ChangesOnly visits t t') (hsub : ∀ v ∈ visits, v ∈ visits') :
    ChangesOnly visits' t t' := by
  intro q
  rcases h q with hsame | ⟨hnone, hnew, v, hv, hq⟩ | ⟨hfile, hempty, hv⟩
  · exact .inl hsame
  · exact .inr (.inl ⟨hnone, hnew, v, hsub v hv, hq⟩)
  · exact .inr (.inr ⟨hfile, hempty, hsub _ hv⟩)

theorem ChangesOnly.trans {visits : List (Kind × Path)} {t t' t'' : DirTree Str}
    (h : ChangesOnly visits t t') (h' : ChangesOnly visits t' t'') : ChangesOnly visits t t'' := by
  intro q
  rcases h' q with hsame' | ⟨hnone', hnew', hv'⟩ | ⟨⟨c, hc⟩, hempty', hv'⟩
  · rw [hsame']
    exact h q
  · rcases h q with hsame | ⟨-, hnew, -⟩ | ⟨-, hempty, -⟩
    · exact .inr (.inl ⟨by rw [← hsame, hnone'], hnew', hv'⟩)
    · rw [hnone'] at hnew
      rcases hnew with hnew | hnew <;> cases hnew
    · rw [hnone'] at hempty
      cases hempty
  · rcases h q with hsame | ⟨hnone, -, hv⟩ | ⟨hfile, -, -⟩
    · exact .inr (.inr ⟨⟨c, by rw [← hsame, hc]⟩, hempty', hv'⟩)
    · exact .inr (.inl ⟨hnone, .inr hempty', hv⟩)
    · exact .inr (.inr ⟨hfile, hempty', hv'⟩)

/-- What a new entry changes. -/
theorem changesOnly_add {visits : List (Kind × Path)} (t : DirTree Str) (d : Path) (n : Str)
    (k : Kind) (hvisit : ∃ v ∈ visits, d ++ [n] <+: v.2) :
    ChangesOnly visits t (t.add d n k.node) := by
  intro q
  unfold DirTree.add
  split
  · next h =>
    by_cases hq : q = d ++ [n]
    · subst hq
      refine .inr (.inl ⟨Option.isNone_iff_eq_none.mp h.2, ?_, hvisit⟩)
      dsimp only
      rw [if_pos rfl]
      cases k with
      | file => exact .inr rfl
      | dir => exact .inl rfl
    · exact .inl (if_neg hq)
  · exact .inl rfl

theorem changesOnly_makeDirs {visits : List (Kind × Path)} (t : DirTree Str) (cur ns : Path)
    (hvisit : ∃ v ∈ visits, cur ++ ns <+: v.2) :
    ChangesOnly visits t (DirTree.outcome (t.makeDirs cur ns)) := by
  induction ns generalizing t cur with
  | nil => exact ChangesOnly.refl visits t
  | cons n ns ih =>
    have hstep : cur ++ n :: ns = cur ++ [n] ++ ns := by simp
    rw [hstep] at hvisit
    unfold DirTree.makeDirs
    split
    · exact ih t (cur ++ [n]) hvisit
    · exact ChangesOnly.refl visits t
    · refine (changesOnly_add t cur n .dir ?_).trans (ih _ (cur ++ [n]) hvisit)
      obtain ⟨v, hv, hpre⟩ := hvisit
      exact ⟨v, hv, (List.prefix_append _ ns).trans hpre⟩

theorem changesOnly_openForWriting {visits : List (Kind × Path)} (t : DirTree Str) (p : Path)
    (hvisit : (Kind.file, p) ∈ visits) :
    ChangesOnly visits t (DirTree.outcome (openForWriting t p)) := by
  unfold openForWriting
  split
  · exact ChangesOnly.refl visits t
  · next c hc =>
    intro q
    have hnode := t.node_write ⟨c, hc⟩ [] q
    by_cases hq : q = p
    · subst hq
      rw [if_pos rfl] at hnode
      exact .inr (.inr ⟨⟨c, hc⟩, hnode, hvisit⟩)
    · rw [if_neg hq] at hnode
      exact .inl hnode
  · next hnone =>
    split
    · refine changesOnly_add t p.dropLast _ .file ⟨_, hvisit, ?_⟩
      -- the root is there, so the path has a last name
      have hne : p ≠ [] := by
        rintro rfl
        rw [t.root] at hnone
        cases hnone
      rw [List.getLast?_eq_some_getLast hne, Option.getD_some, List.dropLast_append_getLast]
    · exact ChangesOnly.refl visits t

/-- The tree that is left. -/
def treeOf : Except (DirTree Str) (DirTree Str × Path) → DirTree Str
  | .ok (t, _) => t
  | .error t => t

mutual

theorem processEntry_changes (t : DirTree Str) (cwd : Path) :
    ∀ e : Listed, ChangesOnly (e.visits cwd).1 t (treeOf (processEntry t cwd e)) ∧
      ∀ t' cwd', processEntry t cwd e = .ok (t', cwd') → cwd' = (e.visits cwd).2
  | .directory name contents => by
    have hmake : ChangesOnly (Listed.visits cwd (.directory name contents)).1 t
        (DirTree.outcome (t.makeDirs cwd name)) :=
      changesOnly_makeDirs t cwd name ⟨(.dir, cwd ++ name), List.mem_cons_self, List.prefix_refl _⟩
    rw [processEntry]
    cases hdirs : t.makeDirs cwd name with
    | error t₁ =>
      rw [hdirs] at hmake
      exact ⟨hmake, fun t' cwd' h => by cases h⟩
    | ok t₁ =>
      rw [hdirs] at hmake
      obtain ⟨hchanges, hcwd⟩ := process_visits t₁ (cwd ++ name) contents
      have hall := hmake.trans (hchanges.mono fun v hv => List.mem_cons_of_mem _ hv)
      dsimp only
      cases hprocess : process t₁ (cwd ++ name) contents with
      | error t₂ =>
        rw [hprocess] at hall
        exact ⟨hall, fun t' cwd' h => by cases h⟩
      | ok result =>
        obtain ⟨t₂, cwd₂⟩ := result
        rw [hprocess] at hall
        refine ⟨hall, fun t' cwd' h => ?_⟩
        cases h
        rw [hcwd _ _ hprocess]
        rfl
  | .file name => by
    have hopen : ChangesOnly (Listed.visits cwd (.file name)).1 t
        (DirTree.outcome (openForWriting t (cwd ++ name))) :=
      changesOnly_openForWriting t (cwd ++ name) List.mem_cons_self
    rw [processEntry]
    cases hfile : openForWriting t (cwd ++ name) with
    | error t₁ =>
      rw [hfile] at hopen
      exact ⟨hopen, fun t' cwd' h => by cases h⟩
    | ok t₁ =>
      rw [hfile] at hopen
      refine ⟨hopen, fun t' cwd' h => ?_⟩
      cases h
      rfl
  | .other => by
    rw [processEntry]
    refine ⟨ChangesOnly.refl _ t, fun t' cwd' h => ?_⟩
    cases h
    rfl

theorem process_visits (t : DirTree Str) (cwd : Path) :
    ∀ es : List Listed, ChangesOnly (visitsAll cwd es).1 t (treeOf (process t cwd es)) ∧
      ∀ t' cwd', process t cwd es = .ok (t', cwd') → cwd' = (visitsAll cwd es).2
  | [] => by
    rw [process]
    refine ⟨ChangesOnly.refl _ t, fun t' cwd' h => ?_⟩
    cases h
    rfl
  | e :: es => by
    obtain ⟨hentry, hcwd⟩ := processEntry_changes t cwd e
    have hfirst : ChangesOnly (visitsAll cwd (e :: es)).1 t (treeOf (processEntry t cwd e)) :=
      hentry.mono fun v hv => List.mem_append_left _ hv
    rw [process]
    cases hone : processEntry t cwd e with
    | error t₁ =>
      rw [hone] at hfirst
      exact ⟨hfirst, fun t' cwd' h => by cases h⟩
    | ok result =>
      obtain ⟨t₁, cwd₁⟩ := result
      rw [hone] at hfirst
      obtain rfl := hcwd _ _ hone
      obtain ⟨hrest, hcwd'⟩ := process_visits t₁ (e.visits cwd).2 es
      exact ⟨hfirst.trans (hrest.mono fun v hv => List.mem_append_right _ hv), hcwd'⟩

end

/-- Two directories that `tree` was given by their paths: the second is made in the first one's
parent. -/
example : (visitsAll [] [.directory ["a".toList, "b".toList] [], .directory ["c".toList] []]).1 =
    [(.dir, ["a".toList, "b".toList]), (.dir, ["a".toList, "c".toList])] := by decide

end GenDirs
end Dfuser
