import EasyJit.Context

/-!
# The type of a wrapper

`easy::jit` computes the parameter types of the wrapper it returns at compile time, from the
parameter types of the function and the types of the arguments. `easy/meta.h`; a `type_list` is a
list, and `τ` are the types of parameters and arguments, which are never `void`.
-/

namespace EasyJit

/-- Why a call of `easy::jit` does not compile. -/
inductive CompileError
  | staticAssert (message : String)
  | noConversion
  | noMatchingFunction
  deriving DecidableEq, Repr

/-- What `meta.h` asks about the decayed form of a type. -/
class ArgTraits (τ : Type) where
  /-- `std::is_placeholder`: the number of a placeholder, and 0 for any other type. -/
  isPlaceholder : τ → ℕ
  isOption : τ → Bool

namespace Meta

open ArgTraits

variable {τ : Type} [ArgTraits τ]

def discardOptions : List τ → List τ
  | [] => []
  | head :: tail => if isOption head then discardOptions tail else head :: discardOptions tail

/-- The greatest placeholder, or `max` if that is greater. -/
def maxPlaceholder : List τ → ℕ → ℕ
  | [], max => max
  | head :: tail, max =>
    maxPlaceholder tail (if isPlaceholder head > max then isPlaceholder head else max)

section

variable [DecidableEq τ]

/-- `map_placeholder_to_type::helper`; `void` is `none`. A placeholder is told from one that was
seen by its type as it is, references included. -/
def mapHelper (PL : List τ) (N : ℕ) : List τ → List (Option τ) → List τ → Bool →
    Except CompileError (List τ)
  | _, result, seen, true =>
    if seen.length ≠ N then .error (.staticAssert "Seen::size != N")
    else if result.length ≠ N then .error (.staticAssert "Result::size != N")
    else if none ∈ result then
      .error (.staticAssert "Void cannot appear in the resulting type")
    else .ok result.reduceOption
  | [], _, _, false => .error (.staticAssert
      "easy::jit: Invalid bind, placeholder cannot be bound to a formal argument")
  | alHead :: alTail, result, seen, false =>
    let parsePlaceholder := isPlaceholder alHead ≠ 0 ∧ alHead ∉ seen
    let resultIdx := if parsePlaceholder then isPlaceholder alHead - 1 else 0
    let argIdx := PL.length - (alHead :: alTail).length
    if PL.length < (alHead :: alTail).length then
      .error (.staticAssert "easy::jit: More parameters than arguments specified")
    else if result.length ≤ resultIdx then
      .error (.staticAssert "easy::jit: Cannot have a placeholder outside the maximum")
    else
      let newResult := if parsePlaceholder then result.set resultIdx PL[argIdx]? else result
      let newSeen := if parsePlaceholder then seen ++ [alHead] else seen
      mapHelper PL N alTail newResult newSeen (newSeen.length == N)

def mapPlaceholderToType (PL AL : List τ) : Except CompileError (List τ) :=
  let N := maxPlaceholder AL 0
  mapHelper PL N AL (List.replicate N none) [] (N == 0)

/-- `new_function_traits::parameter_list`. -/
def parameterList (PL args : List τ) : Except CompileError (List τ) :=
  mapPlaceholderToType PL (discardOptions args)

end

end Meta

end EasyJit
