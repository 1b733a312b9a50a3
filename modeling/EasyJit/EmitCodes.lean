import EasyJit.IR
import EasyJit.Lib.Decimal

/-!
# The pass that emits raw bytes

The target function's stubs, which are calls of one particular inline assembly text, are given
the bytes of the context instead. `runtime/pass/EmitCodes.cpp`.
-/

namespace EasyJit

open Linker

def buildEmitString (src : List UInt8) : String :=
  String.join (src.map fun b => ".byte " ++ toString b.toNat ++ ";")

/-- The text of a stub. -/
def stubString : String := ".byte 0x90\n\t"

def emitOp (s : String) : Op → Op
  | .inlineAsm asm =>
    if asm.asmString ≠ stubString then .inlineAsm asm
    else .inlineAsm { asm with
      asmString := s
      hasSideEffects := if s.isEmpty then false else asm.hasSideEffects }
  | op => op

def emitCodes {δ : Type} (M : LModule δ) (targetName : String) (C : Context) : LModule δ :=
  match getFunction M targetName with
  | none => M
  | some F => M.mapOps F (emitOp (buildEmitString C.rawBytes.bytes))

/-- What the pass returns: whether the function has any inline assembly. -/
def emitCodesChanged {δ : Type} (M : LModule δ) (targetName : String) : Bool :=
  match getFunction M targetName with
  | none => false
  | some F => M.defs.any fun e => decide (e.1 = F) && e.2.body.any fun i => match i.op with
    | .inlineAsm _ => true
    | _ => false

/-! ## What is asked of the texts -/

/-- The bytes of a directive for one byte; a statement may also be empty. -/
def parseStatement (stmt : List Char) : Option (List UInt8) :=
  if stmt = [] then some []
  else if ".byte ".toList.isPrefixOf stmt then
    (Decimal.read (stmt.drop ".byte ".toList.length)).bind fun n =>
      if n < 256 then some [UInt8.ofNat n] else none
  else none

/-- The bytes of a text, the statements of which are separated by semicolons. -/
def parseBytes (text : String) : Option (List UInt8) :=
  ((text.toList.splitOn ';').mapM parseStatement).map List.flatten

/-- A stub has a text for the bytes in place of its own, and without bytes it may lose its side
effects; another instruction is as it was. -/
structure EmitsInto {δ : Type} (b : List UInt8) (i i' : Inst String (Option δ) Op) : Prop where
  refs : i'.refs = i.refs
  stub : ∀ asm, i.op = .inlineAsm asm → asm.asmString = stubString → ∃ text sideEffects,
    parseBytes text = some b ∧ (b ≠ [] → sideEffects = asm.hasSideEffects)
      ∧ i'.op = .inlineAsm { asm with asmString := text, hasSideEffects := sideEffects }
  other : (∀ asm, i.op = .inlineAsm asm → asm.asmString ≠ stubString) → i'.op = i.op

/-- The stubs of one definition have the bytes, and nothing else has changed. -/
structure EmitsBytes {δ : Type} (b : List UInt8) (F : Option (Sym String)) (M M' : LModule δ) :
    Prop where
  defs : List.Forall₂ (fun e e' => if F = some e.1
    then e'.1 = e.1 ∧ e'.2.info = e.2.info ∧ List.Forall₂ (EmitsInto b) e.2.body e'.2.body
    else e' = e) M.defs M'.defs
  next : M'.next = M.next
  declared : M'.declared = M.declared
  localNames : M'.localNames = M.localNames
  metadata : M'.metadata = M.metadata

end EasyJit
