import EasyJit.Lib.Except
import EasyJit.Lib.Decimal
import EasyJit.Lib.TwosComplement
import EasyJit.Lib.Double
import EasyJit.Lib.UnorderedMap
import EasyJit.Lib.Meaning
import EasyJit.Lib.Memo
import EasyJit.Lib.Linker
import EasyJit.Lib.Binding
import EasyJit.Lib.Declared
import EasyJit.Lib.Target
import EasyJit.Lib.LLVM
import EasyJit.Lib.Leaves
import EasyJit.Lib.Walk
import EasyJit.Lib.Memory
import EasyJit.Lib.Traverse
import EasyJit.Lib.Worklist
import EasyJit.Context
import EasyJit.CodeCache
import EasyJit.Hash
import EasyJit.ReservedRegs
import EasyJit.HookedReservedRegs
import EasyJit.IR
import EasyJit.BitcodeTracker
import EasyJit.HighLevelLayout
import EasyJit.InlineParametersHelper
import EasyJit.InlineParameters
import EasyJit.Image
import EasyJit.StructAlloc
import EasyJit.SerializeStruct
import EasyJit.Captured
import EasyJit.EmitCodes
import EasyJit.Function
import EasyJit.Specialise
import EasyJit.Lowering
import EasyJit.Requirements
import EasyJit.Meaning
import EasyJit.Sample
import EasyJit.Meta
import EasyJit.Param
import EasyJit.MayAliasTracer
import EasyJit.RegisterBitcode
import EasyJit.CleanModule
import EasyJit.EmbedMeaning
import EasyJit.Composition
import EasyJit.Proofs.Context
import EasyJit.Proofs.CodeCache
import EasyJit.Proofs.AutoKey
import EasyJit.Proofs.Hash
import EasyJit.Proofs.ReservedRegs
import EasyJit.Proofs.HookedReservedRegs
import EasyJit.Proofs.BitcodeTracker
import EasyJit.Proofs.Linking
import EasyJit.Proofs.Structs
import EasyJit.Proofs.Image
import EasyJit.Proofs.StructAlloc
import EasyJit.Proofs.SerializeStruct
import EasyJit.Proofs.Pointers
import EasyJit.Proofs.InlineArgs
import EasyJit.Proofs.Layout
import EasyJit.Proofs.Attributes
import EasyJit.Proofs.Wrapper
import EasyJit.Proofs.Specialise
import EasyJit.Proofs.Lowering
import EasyJit.Proofs.WellTyped
import EasyJit.Proofs.Function
import EasyJit.Proofs.Deserialize
import EasyJit.Proofs.Composition
import EasyJit.Proofs.EmitCodes
import EasyJit.Proofs.Variables
import EasyJit.Proofs.Meaning
import EasyJit.Proofs.Capture
import EasyJit.Proofs.Param
import EasyJit.Proofs.Integer
import EasyJit.Proofs.Meta
import EasyJit.Proofs.Signature
import EasyJit.Proofs.MayAliasTracer
import EasyJit.Proofs.RegisterBitcode
import EasyJit.Proofs.CleanModule
import EasyJit.Proofs.EmbedMeaning
import EasyJit.Meaning
import EasyJit.Proofs.Meaning
import EasyJit.EmbedBitcode
import EasyJit.Lib.Terminated
import EasyJit.Startup
import EasyJit.Proofs.EmbedBitcode
import EasyJit.Proofs.Startup
import EasyJit.Program
import EasyJit.Proofs.Program
import EasyJit.Proofs.Bytes
import EasyJit.Proofs.SerializeParts
import EasyJit.Proofs.Relocated
