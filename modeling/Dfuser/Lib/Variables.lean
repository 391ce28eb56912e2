import Dfuser.Lib.Dict
import Dfuser.Lib.Text

/-!
# Array variables of a shell

`bash` looks a variable up in the frames of the running functions, innermost first,
and then among the global ones; `declare` inside a function makes a variable of that
function's frame.  Only arrays are modelled here: associative ones, whose subscripts
are texts, and indexed ones, whose subscripts are arithmetic.

A subscript of an array that is indexed, or that does not exist yet, is evaluated as
an expression, and a failing evaluation abandons the command at hand; so does an
assignment under the empty text.  `[[ -v a[s] ]]` and `unset a[s]` expand the text of
the subscript once more.  Neither the expansion nor the arithmetic is modelled: both
are parameters.

## Main definitions

* `Subscripts` — expansion and evaluation of subscripts.
* `Vars` — the variables, with `find?`, `store`, `declareAssoc`, `unset`.
* `Vars.assign`, `Vars.element`, `Vars.isSet`, `Vars.unsetWord` — array elements.

## Main results

* `Vars.assign_assoc` — assigning to an element of an associative array.
* `Vars.globals_store`, `Vars.holds_declareAssoc_self` — **what a frame holds hides the
  global variable**, and inside a function `declare` puts it there.
-/

namespace Dfuser

/-- The characters that mean something in the text of a subscript. -/
def subscriptSpecials : Str := "$`\"'\\[]".toList

/-- A subscript that means the same when it is expanded again. -/
def PlainSubscript (s : Str) : Prop := s ≠ [] ∧ ∀ c ∈ s, c ∉ subscriptSpecials

instance (s : Str) : Decidable (PlainSubscript s) :=
  @instDecidableAnd _ _ _ (List.decidableBAll (fun c => c ∉ subscriptSpecials) s)

/-- What `bash` makes of the text of a subscript. -/
structure Subscripts where
  /-- The text expanded once more; `none` when it is no subscript. -/
  again : Str → Option Str
  again_plain : ∀ s, PlainSubscript s → again s = some s
  /-- The text evaluated as an expression; `none` is an error. -/
  arith : Str → Option ℕ

/-- An array. -/
inductive Var
  | assoc (m : Dict Str Str)
  | indexed (m : Dict ℕ Str)

/-- The variables a command sees. -/
structure Vars where
  globals : Dict Str Var
  /-- The variables of the running functions, innermost first. -/
  frames : List (Dict Str Var)

namespace Vars

/-- No variables, outside of any function. -/
def empty : Vars := ⟨Dict.empty, []⟩

/-- The variable a name refers to. -/
def find? (vs : Vars) (x : Str) : Option Var :=
  match vs.frames.find? fun f => (f.get? x).isSome with
  | some f => f.get? x
  | none => vs.globals.get? x

/-- Change the innermost frame that has `x`, if there is one. -/
def inFrames (x : Str) (change : Dict Str Var → Dict Str Var) :
    List (Dict Str Var) → Option (List (Dict Str Var))
  | [] => none
  | f :: fs =>
    if (f.get? x).isSome then some (change f :: fs) else (inFrames x change fs).map (f :: ·)

/-- Change the frame that has `x`, or else the global variables. -/
def change (vs : Vars) (x : Str) (f : Dict Str Var → Dict Str Var) : Vars :=
  match inFrames x f vs.frames with
  | some frames => { vs with frames := frames }
  | none => { vs with globals := f vs.globals }

/-- Give the variable `x` a value. -/
def store (vs : Vars) (x : Str) (v : Var) : Vars := vs.change x (·.set x v)

/-- `unset x`. -/
def unset (vs : Vars) (x : Str) : Vars := vs.change x (·.erase x)

/-- Declare `x`, unless it is there. -/
def declareIn (x : Str) (d : Dict Str Var) : Dict Str Var :=
  if (d.get? x).isSome then d else d.set x (.assoc Dict.empty)

/-- `declare -A x`: in the frame of the running function, if there is one. -/
def declareAssoc (vs : Vars) (x : Str) : Vars :=
  match vs.frames with
  | [] => { vs with globals := declareIn x vs.globals }
  | f :: fs => { vs with frames := declareIn x f :: fs }

/-- Enter a function. -/
def push (vs : Vars) : Vars := { vs with frames := Dict.empty :: vs.frames }

/-- Back to the prompt. -/
def toTop (vs : Vars) : Vars := { vs with frames := [] }

section Elements

variable (sub : Subscripts)

/-- `x[key]=value`; `none` abandons the command. -/
def assign (vs : Vars) (x key value : Str) : Option Vars :=
  match vs.find? x with
  | some (.assoc m) => if key = [] then none else some (vs.store x (.assoc (m.set key value)))
  | some (.indexed m) => (sub.arith key).map fun i => vs.store x (.indexed (m.set i value))
  -- a name without a variable becomes an indexed array
  | none => (sub.arith key).map fun i => vs.store x (.indexed (Dict.empty.set i value))

/-- The element `x[key]`; the outer `none` abandons the command. -/
def at? (vs : Vars) (x key : Str) : Option (Option Str) :=
  match vs.find? x with
  | some (.assoc m) => some (m.get? key)
  | some (.indexed m) => (sub.arith key).map fun i => m.get? i
  | none => (sub.arith key).map fun _ => none

/-- `${x[key]}`. -/
def element (vs : Vars) (x key : Str) : Option Str := (vs.at? sub x key).map (·.getD [])

/-- `[[ -v x[text] ]]`. -/
def isSet (vs : Vars) (x text : Str) : Option Bool :=
  match sub.again text with
  | none => some false
  | some key => (vs.at? sub x key).map (·.isSome)

/-- The name and the subscript of a word `name[text]`. -/
def splitSubscript (w : Str) : Option (Str × Str) :=
  match w.dropWhile (· ≠ '[') with
  | _ :: body =>
    if body.getLast? = some ']' then some (w.takeWhile (· ≠ '['), body.dropLast) else none
  | [] => none

/-- `unset w`, for a word that is an element or a variable. -/
def unsetWord (vs : Vars) (w : Str) : Option Vars :=
  match splitSubscript w with
  | none => some (vs.unset w)
  | some (x, text) =>
    match sub.again text with
    | none => some vs
    | some key =>
      match vs.find? x with
      | some (.assoc m) => some (vs.store x (.assoc (m.erase key)))
      | some (.indexed m) => (sub.arith key).map fun i => vs.store x (.indexed (m.erase i))
      | none => some vs

end Elements

/-! ### Outside of any function -/

section Top

variable {vs : Vars} {x : Str}

theorem find?_top (h : vs.frames = []) : vs.find? x = vs.globals.get? x := by
  rw [find?, h]
  rfl

theorem store_top (h : vs.frames = []) (v : Var) :
    vs.store x v = { vs with globals := vs.globals.set x v } := by
  rw [store, change, h]
  rfl

theorem frames_store_top (h : vs.frames = []) (v : Var) : (vs.store x v).frames = [] := by
  rw [store_top h]
  exact h

theorem find?_store_top (h : vs.frames = []) (v : Var) (y : Str) :
    (vs.store x v).find? y = if y = x then some v else vs.find? y := by
  rw [find?_top (frames_store_top h v), store_top h, Dict.get?_set, find?_top h]

end Top

/-- Assigning to an element of an associative array. -/
theorem assign_assoc {sub : Subscripts} {vs : Vars} {x : Str} {m : Dict Str Str}
    (h : vs.find? x = some (.assoc m)) {key : Str} (hkey : key ≠ []) (value : Str) :
    vs.assign sub x key value = some (vs.store x (.assoc (m.set key value))) := by
  rw [assign, h]
  exact if_neg hkey

theorem isSet_assoc {sub : Subscripts} {vs : Vars} {x : Str} {m : Dict Str Str}
    (h : vs.find? x = some (.assoc m)) {key : Str} (hkey : PlainSubscript key) :
    vs.isSet sub x key = some (m.get? key).isSome := by
  rw [isSet, sub.again_plain key hkey]
  simp only [at?, h, Option.map_some]

theorem element_assoc {sub : Subscripts} {vs : Vars} {x : Str} {m : Dict Str Str}
    (h : vs.find? x = some (.assoc m)) (key : Str) :
    vs.element sub x key = some ((m.get? key).getD []) := by
  rw [element, at?, h]
  rfl

/-! ### Inside a function -/

/-- The innermost frame holds `x`. -/
def Holds (vs : Vars) (x : Str) : Prop := ∃ f fs v, vs.frames = f :: fs ∧ f.get? x = some v

theorem change_of_holds {vs : Vars} {x : Str} (h : vs.Holds x) (g : Dict Str Var → Dict Str Var) :
    ∃ f fs, vs.frames = f :: fs ∧ vs.change x g = { vs with frames := g f :: fs } := by
  obtain ⟨f, fs, v, hf, hv⟩ := h
  refine ⟨f, fs, hf, ?_⟩
  rw [change, hf, inFrames, if_pos (by simp [hv])]

theorem globals_store {vs : Vars} {x : Str} (h : vs.Holds x) (v : Var) :
    (vs.store x v).globals = vs.globals := by
  obtain ⟨f, fs, -, heq⟩ := change_of_holds h (·.set x v)
  rw [store, heq]

theorem holds_store {vs : Vars} {x y : Str} (h : vs.Holds x) (hy : vs.Holds y) (v : Var) :
    (vs.store x v).Holds y := by
  obtain ⟨f, fs, hf, heq⟩ := change_of_holds h (·.set x v)
  obtain ⟨f', fs', w, hf', hw⟩ := hy
  rw [hf] at hf'
  cases hf'
  rw [store, heq]
  by_cases hxy : y = x
  · exact ⟨_, fs, v, rfl, by rw [hxy, Dict.get?_set_self]⟩
  · exact ⟨_, fs, w, rfl, by rw [Dict.get?_set_of_ne _ hxy, hw]⟩

theorem globals_declareAssoc {vs : Vars} {x : Str} (h : vs.frames ≠ []) :
    (vs.declareAssoc x).globals = vs.globals := by
  unfold declareAssoc
  split
  · next hf => exact absurd hf h
  · rfl

theorem frames_declareAssoc_ne {vs : Vars} {x : Str} (h : vs.frames ≠ []) :
    (vs.declareAssoc x).frames ≠ [] := by
  unfold declareAssoc
  split
  · next hf => exact absurd hf h
  · simp

theorem get?_declareIn (x y : Str) (d : Dict Str Var) :
    ((declareIn x d).get? y).isSome = (decide (y = x) || (d.get? y).isSome) := by
  unfold declareIn
  split
  · next hx =>
    by_cases hy : y = x
    · simp [hy, hx]
    · simp [hy]
  · rw [Dict.get?_set]
    by_cases hy : y = x
    · simp [hy]
    · simp [hy]

/-- Inside a function, a declared variable is one of its frame. -/
theorem holds_declareAssoc_self {vs : Vars} {x : Str} (h : vs.frames ≠ []) :
    (vs.declareAssoc x).Holds x := by
  unfold declareAssoc
  split
  · next hf => exact absurd hf h
  · next f fs hf =>
    obtain ⟨v, hv⟩ := Option.isSome_iff_exists.mp
      (show ((declareIn x f).get? x).isSome by simp [get?_declareIn])
    exact ⟨_, fs, v, rfl, hv⟩

theorem holds_declareAssoc {vs : Vars} {x y : Str} (h : vs.Holds y) :
    (vs.declareAssoc x).Holds y := by
  obtain ⟨f, fs, w, hf, hw⟩ := h
  obtain ⟨v, hv⟩ := Option.isSome_iff_exists.mp
    (show ((declareIn x f).get? y).isSome by simp [get?_declareIn, hw])
  unfold declareAssoc
  rw [hf]
  exact ⟨_, fs, v, rfl, hv⟩

/-- A function that has no variables yet unsets the global one. -/
theorem unset_of_frame_empty {vs : Vars} (h : vs.frames = [Dict.empty]) (x : Str) :
    vs.unset x = ⟨vs.globals.erase x, [Dict.empty]⟩ := by
  rw [unset, change, h]
  rfl

theorem assign_cases {sub : Subscripts} {vs vs' : Vars} {x key value : Str}
    (h : vs.assign sub x key value = some vs') : ∃ v, vs' = vs.store x v := by
  unfold assign at h
  split at h
  · split at h
    · cases h
    · exact ⟨_, (Option.some.inj h).symm⟩
  · obtain ⟨i, -, rfl⟩ := Option.map_eq_some_iff.mp h
    exact ⟨_, rfl⟩
  · obtain ⟨i, -, rfl⟩ := Option.map_eq_some_iff.mp h
    exact ⟨_, rfl⟩

end Vars
end Dfuser
