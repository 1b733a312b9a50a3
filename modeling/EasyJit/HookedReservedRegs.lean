import EasyJit.Lib.UnorderedMap
import EasyJit.IR

/-!
# The hook that reserves registers

The code generator asks the target which registers are reserved for a function. The hook adds those
that were asked for by name, which it looks up in a table of the target's registers that it fills
when it is first called. `runtime/Function.cpp`.
-/

namespace EasyJit

def toUpper (s : String) : String := String.ofList (s.toList.map Char.toUpper)

/-- A target's registers, by the names they have. -/
structure TargetRegisterInfo where
  names : List String
  nodup : (names.map toUpper).Nodup

/-- `g_regNameToIdx` -/
abbrev RegNameToIdx := UnorderedMap String ℕ

/-- One bit for each register. -/
abbrev BitVector := List Bool

def BitVector.setBit (bits : BitVector) (idx : ℕ) : Except Fault BitVector :=
  if idx < bits.length then .ok (bits.set idx true) else .error .assertion

section

variable (T : TargetRegisterInfo)

def fillRegNameToIdx (regNameToIdx : RegNameToIdx) : RegNameToIdx :=
  T.names.zipIdx.foldl (fun m reg => m.set (toUpper reg.1) 0 reg.2) regNameToIdx

/-- One turn of the loop over the names that were asked for. -/
def reserveReg (s : RegNameToIdx × BitVector) (reg : String) :
    Except Fault (RegNameToIdx × BitVector) := do
  let (regNameToIdx, idx) := s.1.subscript (toUpper reg) 0
  let bit ← s.2.setBit idx
  .ok (regNameToIdx, bit)

/-- What the target reserves for a function, and the names that were asked for. -/
structure HookCall where
  original : BitVector
  length_original : original.length = T.names.length
  reservedRegs : List String

variable {T}

def hookedGetReservedRegs (regNameToIdx : RegNameToIdx) (call : HookCall T) :
    Except Fault (RegNameToIdx × BitVector) :=
  let regNameToIdx :=
    if regNameToIdx.entries.isEmpty then fillRegNameToIdx T regNameToIdx else regNameToIdx
  call.reservedRegs.foldlM reserveReg (regNameToIdx, call.original)

/-- The table after some calls, from the empty one. -/
def regNameToIdxAfter (calls : List (HookCall T)) : Except Fault RegNameToIdx :=
  calls.foldlM (fun m call => (hookedGetReservedRegs m call).map (·.1)) .empty

/-- The table has the names of the registers, and nothing else. -/
def RegNameToIdx.IsTableOf (m : RegNameToIdx) (T : TargetRegisterInfo) : Prop :=
  ∀ n i, m.lookup n = some i ↔ ∃ name, T.names[i]? = some name ∧ toUpper name = n

/-- The registers that the call is to give: those that the target reserves, and those that were
asked for. -/
def HookCall.IsReserved (call : HookCall T) (i : ℕ) : Prop :=
  call.original[i]? = some true
    ∨ ∃ reg ∈ call.reservedRegs, ∃ name, T.names[i]? = some name ∧ toUpper name = toUpper reg

/-- Each call gives the registers it is to give, and leaves a table of the target's registers. -/
def ReservesExactly (calls : List (HookCall T)) : Prop :=
  ∀ pre call post, calls = pre ++ call :: post → ∃ m m' bit, regNameToIdxAfter pre = .ok m
    ∧ hookedGetReservedRegs m call = .ok (m', bit) ∧ bit.length = T.names.length
    ∧ (∀ i, bit[i]? = some true ↔ call.IsReserved i) ∧ m'.IsTableOf T

end

end EasyJit
