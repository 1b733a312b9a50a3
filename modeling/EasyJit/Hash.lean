import EasyJit.CodeCache

/-!
# Hashes

The hashes of arguments, contexts and keys, made of those that the standard library gives for the
types of the data. `runtime/Context.h` and `runtime/Function.cpp`.
-/

namespace EasyJit

/-- `size_t` -/
abbrev HashValue := BitVec 64

/-- `std::hash` for the types of the data. Doubles that are equal, the two zeros among them, have
one hash. -/
structure StdHash where
  unsigned : ℕ → HashValue
  int64 : BitVec 64 → HashValue
  double : Double → HashValue
  pointer : Ptr → HashValue
  double_congr : ∀ x y, (x == y) = true → double x = double y

/-- Integers and addresses are their own hashes. -/
def StdHash.identity : StdHash where
  unsigned := BitVec.ofNat 64
  int64 := id
  double := fun x => if x.isZero then 0 else x.bits
  pointer := BitVec.ofNat 64
  double_congr := by
    intro x y h
    rcases Double.beq_iff.1 h with ⟨rfl, -⟩ | ⟨hx, hy, -⟩
    · rfl
    · rw [if_pos hx, if_pos hy]

/-- `std::hash<std::pair<L, R>>` -/
def pairHash {α β : Type*} (first : α → HashValue) (second : β → HashValue) (s : α × β) :
    HashValue :=
  first s.1 ^^^ second s.2

def Argument.hash (H : StdHash) : Argument → HashValue
  | .forward idx => H.unsigned idx
  | .int val => H.int64 val
  | .float val => H.double val
  | .ptr val => H.pointer val
  -- a `char` is extended to 64 bits with its sign
  | .struct data => data.foldl (fun R c => R ^^^ H.int64 (c.toBitVec.signExtend 64)) 0
  | .module fn => H.pointer fn

def Context.hash (H : StdHash) (C : Context) : HashValue :=
  C.argumentMapping.foldl (fun R Arg => R ^^^ Arg.hash H) 0
    ^^^ pairHash H.unsigned H.unsigned C.getOptLevel

def AutoKey.hash (H : StdHash) (k : AutoKey) : HashValue := pairHash H.pointer (Context.hash H) k

end EasyJit
