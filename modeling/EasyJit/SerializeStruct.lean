import EasyJit.StructAlloc

/-!
# The functions that serialise arguments

The layout pass defines a function that copies its arguments, or the fields of a struct that is
passed by value, to a buffer, behind their size. `pass/Layout.cpp`; `serialized_arg` of
`easy/runtime/Context.h` reads it.
-/

namespace EasyJit

open LLVM Linker

/-- Where a value that is stored comes from. -/
inductive BufferSource
  /-- It is loaded from the struct that the first argument points to. -/
  | byVal (structTy : Ty) (gep : List ℕ)
  | argument (i : ℕ)

/-- A store to the buffer. -/
structure BufferStore where
  source : BufferSource
  /-- The type of the value. -/
  ty : Ty
  /-- The argument of `CreateConstGEP1_32`. -/
  offset : ℕ
  /-- The type that the pointer points to. -/
  pointee : Ty

/-- What was emitted so far, and the offset of what is stored next. -/
structure BufferWriter where
  stores : List BufferStore
  offset : ℕ

section Serialize

variable (DL : DataLayout)

def BufferWriter.createStore (W : BufferWriter) (source : BufferSource) (ty pointee : Ty) :
    BufferWriter where
  stores := W.stores ++ [⟨source, ty, W.offset, pointee⟩]
  offset := W.offset + DL.getTypeStoreSize ty

def getStructSize (tys : List Ty) : ℕ := tys.foldl (fun a ty => a + DL.getTypeStoreSize ty) 0

mutual

/-- An array is stored as a whole. The pointer is one into the buffer, which is not cast. -/
def serializeStruct (byVal : Ty) : Ty → List ℕ → BufferWriter → BufferWriter
  | .struct _ fields, gepOffset, W => serializeElements byVal fields 0 gepOffset W
  | curLevelTy, gepOffset, W => W.createStore DL (.byVal byVal gepOffset) curLevelTy (.int 8)

def serializeElements (byVal : Ty) : List Ty → ℕ → List ℕ → BufferWriter → BufferWriter
  | [], _, _, W => W
  | ty :: tys, arg, gepOffset, W =>
    serializeElements byVal tys (arg + 1) gepOffset
      (serializeStruct byVal ty (gepOffset ++ [arg]) W)

end

/-- The body that a declaration gets. -/
structure SerializeBody where
  /-- The argument of `malloc`. -/
  mallocSize : ℕ
  /-- What is stored at the start of the buffer. -/
  size : BitVec 32
  writer : BufferWriter

end Serialize

/-! ## What the function does -/

section Run

variable (DL : DataLayout)

/-- The bytes from where the value is; the first argument is given as the struct it points to. -/
def BufferSource.bytes (args : List (List UInt8)) : BufferSource → Except Fault (List UInt8)
  | .byVal structTy gep =>
    match args[0]?, DL.gepAddress structTy gep with
    | some object, some address =>
      if 0 ≤ address then .ok (object.drop address.toNat) else .error .outOfRange
    | _, _ => .error .illTyped
  | .argument i =>
    match args[i]? with
    | some bs => .ok bs
    | none => .error .illTyped

/-- The bytes that are written by a store to a buffer of a size; it must be inside of it. The
offset is an index of 32 bits, and signed. -/
def BufferStore.writes (size : ℕ) (args : List (List UInt8)) (s : BufferStore) :
    Except Fault (List (ℕ × List UInt8)) := do
  let value ← s.source.bytes DL args
  (DL.leaves s.ty 0).mapM fun l => do
    let bs ← readRaw (DL.getTypeStoreSize l.2) (value.drop l.1)
    let address := (BitVec.ofNat 32 s.offset).toInt + l.1
    if 0 ≤ address ∧ address + bs.length ≤ size then .ok (address.toNat, bs)
    else .error .outOfRange

/-- What is written behind the size. -/
def SerializeBody.writes (B : SerializeBody) (args : List (List UInt8)) :
    Except Fault (List (ℕ × List UInt8)) := do
  .ok (← B.writer.stores.mapM fun s => s.writes DL B.mallocSize args).flatten

/-- The buffer that is returned, from one as `malloc` gives it. -/
def SerializeBody.run (B : SerializeBody) (args : List (List UInt8)) (buf : List UInt8) :
    Except Fault (List UInt8) := do
  .ok (Memory.storeAll buf ((0, leBytes 4 B.size.toNat) :: (← B.writes DL args)))

end Run

end EasyJit
