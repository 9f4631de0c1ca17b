import Stencil.Proofs.Meaning
import Stencil.Proofs.SlicedCondition
/-!
# Calls with partial operations

Four standard functions use operations that are not defined on every operand: the rest of an argument
list, a draw between bounds, a text written a number of times, and the reading of a condition. With
such operations a body is a `PartialBody`, which has no result where an operation has none. What it
has checked before it comes to the operation sees to it that there is one, so every call has the
result of the function (`partialCall_eq`). That there is room for the texts that are made is taken for
granted.
-/

namespace Stencil.Library

/-- A step that can be undefined. -/
abbrev PartialAction := ExceptT Fault (StateT ExecutionState Option)

/-- What a function does where its operations are defined. -/
abbrev PartialBody := CallContext → List Arg → PartialAction Outcome

/-- The call of a function with such a body. -/
def PartialBody.call (body : PartialBody) (ctx : CallContext) (args : List Arg)
    (s : ExecutionState) : Option (Outcome × ExecutionState) :=
  (body ctx args s).map fun answer => Body.call (fun _ _ _ => answer) ctx args s

/-- An operation that can be undefined. It leaves the state. -/
def operation {α : Type} (o : Option α) : PartialAction α := fun s => o.map fun a => (.ok a, s)

/-- A step that is defined, although it can fail. -/
def defined {α : Type} (x : Action α) : PartialAction α := fun s => some (x s)

/-- The arguments from a place on, which must be within the list or at its end. -/
def argumentsFrom? (args : List Arg) (place : Nat) : Option (List Arg) :=
  if place ≤ args.length then some (args.drop place) else none

/-- A draw, for which there must be a number between the bounds. -/
def draw? (low high : Int) (entropy : Nat) : Option Int :=
  if low ≤ high then some (drawBetween low high entropy) else none

/-- A text written a number of times, whose bytes must be counted by an integer. -/
def repeated? (t : Text) (count : Nat) : Option Text :=
  if (Text.byteLength t * count : Nat) < Numeral.integerBound then some (repeated t count) else none

/-- The product of two counts, or the largest count if it is larger. -/
def saturatingMul (a b : Nat) : Nat := min (a * b) (Numeral.countBound - 1)

def partialCheckCondition : PartialBody := fun _ args => do
  let holds ← operation (Condition.slicedEvaluate (Text.escape ((text? args 0).getD [])))
  defined (reply (if holds then "true" else "false").toList)

def partialCreateArray : PartialBody := fun _ args => do
  let name ← defined (text args 0)
  let items ← operation (argumentsFrom? args 1)
  defined do
    modify (·.setArray name (items.map (·.getD [])))
    return .nothing

/-- The draw of a name. A number is drawn only if there is none of the name yet. -/
def partialDraw (name : Text) (low high : Int) (entropy : Nat) : PartialAction Int := do
  match (← defined get).getDraw name with
  | some n => return n
  | none =>
    let n ← operation (draw? low high entropy)
    defined (modify fun s => { s with draws := s.draws.set name n })
    return n

def partialRandom : PartialBody := fun ctx args => do
  let low ← defined (integer args 0)
  let high ← defined (integer args 1)
  if high < low then defined (throw (.emptyRange low high))
  else
    match text? args 2 with
    | none => do
      let n ← operation (draw? low high ctx.entropy)
      defined (reply (Numeral.integerText n))
    | some name =>
      let n ← partialDraw name low high ctx.entropy
      defined (reply (Numeral.integerText n))

def partialRepeatText : PartialBody := fun _ args => do
  let t := (text? args 0).getD []
  let count ← defined (integer args 1)
  if count < 0 then defined (throw (.negativeCount count))
  else if maxRepeatBytes < saturatingMul (Text.byteLength t) count.toNat then
    defined (throw .tooLong)
  else do
    let repetition ← operation (repeated? t count.toNat)
    defined (reply repetition)

/-- The functions that use such operations. The others use none. -/
def partialBodies : List (Text × PartialBody) :=
  [("$checkCondition".toList, partialCheckCondition), ("$createArray".toList, partialCreateArray),
    ("$random".toList, partialRandom), ("$repeat".toList, partialRepeatText)]

/-- The call of a standard function, if the operations that it comes to are defined. -/
def partialCall (f : Function) (ctx : CallContext) (args : List Arg) (s : ExecutionState) :
    Option (Outcome × ExecutionState) :=
  match partialBodies.lookup f.name.text with
  | some body => body.call ctx args s
  | none => some (f.call ctx args s)

/-! ### They are defined -/

/-- A defined step with defined steps behind it is one defined step. -/
theorem defined_bind {α β : Type} {x : Action α} {f : α → PartialAction β} {g : α → Action β}
    (h : ∀ a, f a = defined (g a)) : (defined x >>= f) = defined (x >>= g) := by
  obtain rfl : f = fun a => defined (g a) := funext h
  funext s
  have hpartial : (defined x >>= fun a => defined (g a)) s =
      (some (x s)).bind fun r => ExceptT.bindCont (fun a => defined (g a)) r.1 r.2 := rfl
  have htotal : (x >>= g) s = (fun r : Except Fault α × ExecutionState =>
      ExceptT.bindCont g r.1 r.2) (x s) := rfl
  rw [hpartial, defined, htotal, Option.bind_some]
  rcases x s with ⟨fault | a, s'⟩ <;> rfl

theorem operation_bind {α β : Type} {o : Option α} {a : α} (ho : o = some a)
    (f : α → PartialAction β) : (operation o >>= f) = f a := by
  subst ho
  rfl

/-- Where the operations of a body are defined, its call is one of the total body. -/
theorem PartialBody.call_eq {partly : PartialBody} {body : Body}
    (h : ∀ ctx args, partly ctx args = defined (body ctx args)) (ctx : CallContext)
    (args : List Arg) (s : ExecutionState) : partly.call ctx args s = some (body.call ctx args s) := by
  rw [PartialBody.call, h]
  rfl

theorem partialCheckCondition_eq (ctx : CallContext) (args : List Arg) :
    partialCheckCondition ctx args = defined (checkCondition ctx args) :=
  operation_bind (Condition.slicedEvaluate_eq _) _

/-- A list with a text at its first place goes on from the second one, if only with nothing. -/
theorem partialCreateArray_eq (ctx : CallContext) (args : List Arg) :
    partialCreateArray ctx args = defined (createArray ctx args) := by
  unfold partialCreateArray createArray
  cases args with
  | nil => rfl
  | cons arg args =>
    exact defined_bind fun name => operation_bind (if_pos (Nat.le_add_left 1 args.length)) _

/-- The total draw finds out in one step whether there is a draw of the name. -/
theorem partialDraw_eq {low high n : Int} {entropy : Nat} (hdraw : draw? low high entropy = some n)
    (name : Text) : partialDraw name low high entropy = defined (modifyGet (·.drawOnce name n)) := by
  funext s
  have hread : partialDraw name low high entropy s = (match s.getDraw name with
      | some n => pure n
      | none => do
        let n ← operation (draw? low high entropy)
        defined (modify fun s => { s with draws := s.draws.set name n })
        pure n : PartialAction Int) s := rfl
  have hkeep : (defined (modifyGet (·.drawOnce name n)) : PartialAction Int) s =
      some (.ok (s.drawOnce name n).1, (s.drawOnce name n).2) := rfl
  rw [hread, hkeep, ExecutionState.drawOnce]
  cases s.getDraw name with
  | some kept => rfl
  | none => exact congrFun (operation_bind hdraw _) s

/-- Between bounds in their order there is a number to draw. -/
theorem partialRandom_eq (ctx : CallContext) (args : List Arg) :
    partialRandom ctx args = defined (random ctx args) := by
  refine defined_bind fun low => defined_bind fun high => ?_
  split
  · rfl
  · next hle =>
    have hdraw : draw? low high ctx.entropy = some (drawBetween low high ctx.entropy) :=
      if_pos (Int.not_lt.1 hle)
    cases text? args 2 with
    | none => exact operation_bind hdraw _
    | some name =>
      simp only [partialDraw_eq hdraw]
      exact defined_bind fun n => rfl

theorem lt_saturatingMul_iff (a b : Nat) : maxRepeatBytes < saturatingMul a b ↔
    maxRepeatBytes < a * b := by
  have hbound : maxRepeatBytes < Numeral.countBound - 1 := by decide
  rw [saturatingMul, Nat.lt_min]
  exact and_iff_left hbound

theorem partialRepeatText_eq (ctx : CallContext) (args : List Arg) :
    partialRepeatText ctx args = defined (repeatText ctx args) := by
  refine defined_bind fun count => ?_
  simp only [lt_saturatingMul_iff]
  split
  · rfl
  split
  · rfl
  · next hshort =>
    have hbound : (maxRepeatBytes : Int) < Numeral.integerBound := by decide
    exact operation_bind (if_pos (by omega)) _

theorem filter_partialBodies :
    functions.filter (fun f => (partialBodies.lookup f.name.text).isSome) =
      [standard "checkCondition" true ["condition"] checkCondition,
        standard "createArray" true ["name", "item"] createArray,
        standard "random" true ["min", "max", "name"] random,
        standard "repeat" true ["text", "count"] repeatText] := by
  rfl

/-- The call of a standard function comes to the outcome of the function. -/
theorem partialCall_eq {f : Function} (hf : f ∈ registry.functions) (ctx : CallContext)
    (args : List Arg) (s : ExecutionState) : partialCall f ctx args s = some (f.call ctx args s) := by
  rw [functions_registry] at hf
  by_cases hpartial : (partialBodies.lookup f.name.text).isSome = true
  · have hmem : f ∈ functions.filter fun f => (partialBodies.lookup f.name.text).isSome :=
      List.mem_filter.2 ⟨hf, hpartial⟩
    rw [filter_partialBodies] at hmem
    simp only [List.mem_cons, List.not_mem_nil, or_false] at hmem
    rcases hmem with rfl | rfl | rfl | rfl
    · exact PartialBody.call_eq partialCheckCondition_eq ctx args s
    · exact PartialBody.call_eq partialCreateArray_eq ctx args s
    · exact PartialBody.call_eq partialRandom_eq ctx args s
    · exact PartialBody.call_eq partialRepeatText_eq ctx args s
  · rw [Option.not_isSome_iff_eq_none] at hpartial
    rw [partialCall, hpartial]

end Stencil.Library
