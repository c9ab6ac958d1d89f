import Dsac.Container.DynamicArray

namespace Dsac.DynamicArrays

/-! The calls on plain lists, and which calls a program may make. -/

variable {ν Args A T : Type}

abbrev Lists (ν T : Type) := ν → Option (List T)

/-- The element that an argument becomes. -/
def Argument.value (types : Types Args A T) (braces : Bool) (lists : Lists ν T) : Argument ν Args → Option T
  | .args given => some (if braces then types.braced given else types.direct given)
  | .element other index | .moved other index =>
      ((lists other).bind (·[index]?)).map fun value => if braces then types.bracedCopy value else value

/-- The lists after the argument was moved out of its place. -/
def Argument.taken [DecidableEq ν] (types : Types Args A T) (lists : Lists ν T) : Argument ν Args → Lists ν T
  | .args _ | .element _ _ => lists
  | .moved other index => Function.update lists other ((lists other).map (·.modify index types.moved))

theorem Argument.taken_of_ne [DecidableEq ν] {types : Types Args A T} {lists : Lists ν T} {this : ν} {argument : Argument ν Args}
    (others : ∀ index, argument ≠ .moved this index) : argument.taken types lists this = lists this := by
  cases argument with
  | args | element => rfl
  | moved other index =>
      apply Function.update_of_ne
      rintro rfl
      exact others index rfl

namespace Lists

variable [DecidableEq ν] (types : Types Args A T) (lists : Lists ν T)

def construct (this : ν) (list : List T) : Except Exn Unit × Lists ν T :=
  if types.maxSize < list.length then (.error .badAlloc, lists) else (.ok (), Function.update lists this (some list))

def append (this : ν) (argument : Argument ν Args) : Lists ν T :=
  let taken := argument.taken types lists
  Function.update taken this ((taken this).map (· ++ (argument.value types false lists).toList))

/-- The same operations on lists whose lengths are bounded. -/
def perform : Call ν Args A T → Except Exn Unit × Lists ν T
  | .constructEmpty this _ => (.ok (), Function.update lists this (some []))
  | .constructFill this n value _ => lists.construct types this (List.replicate n value)
  | .constructList this list _ => lists.construct types this list
  | .constructCopy this other => (.ok (), Function.update lists this (lists other))
  | .constructMove this other => (.ok (), Function.update (Function.update lists other (some [])) this (lists other))
  | .pushBack this argument =>
      if (lists this).map List.length = some types.maxSize then (.error .rangeError, lists)
      else (.ok (), lists.append types this argument)
  | .reserve _ n => if types.maxSize < n then (.error .rangeError, lists) else (.ok (), lists)
  | .clear this => (.ok (), Function.update lists this (some []))
  | .copyAssign this other => (.ok (), Function.update lists this (lists other))
  | .destructor this => (.ok (), Function.update lists this none)

end Lists

/-- The elements of an array that is alive. -/
def World.elements (world : World ν A T) (this : ν) : Option (List (Option T)) :=
  (world.arrays this).bind fun array =>
    match array.start with
    | none => some []
    | some address => (world.heap.get address).map fun block => block.slots.take array.finish

def World.capacity (world : World ν A T) (this : ν) : Option Nat :=
  (world.arrays this).map (·.endOfStorage)

/-- A reference to an element that is there. -/
def Argument.Valid (world : World ν A T) : Argument ν Args → Prop
  | .args _ => True
  | .element other index | .moved other index => ∃ array ∈ world.arrays other, index < array.finish

/-- The arrays that a call uses are alive, and the one that it constructs is not. -/
def Fits (world : World ν A T) : Call ν Args A T → Prop
  | .constructEmpty this _ | .constructFill this _ _ _ | .constructList this _ _ => world.arrays this = none
  | .constructCopy this other | .constructMove this other => world.arrays this = none ∧ world.arrays other ≠ none
  | .pushBack this argument => world.arrays this ≠ none ∧ argument.Valid world
  | .reserve this _ | .clear this | .destructor this => world.arrays this ≠ none
  | .copyAssign this other => world.arrays this ≠ none ∧ world.arrays other ≠ none

instance (world : World ν A T) (argument : Argument ν Args) : Decidable (argument.Valid world) := by
  cases argument <;> unfold Argument.Valid <;> infer_instance

instance (world : World ν A T) (call : Call ν Args A T) : Decidable (Fits world call) := by
  cases call <;> unfold Fits <;> infer_instance

end Dsac.DynamicArrays
