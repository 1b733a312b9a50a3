import EasyJit.BitcodeTracker
import Mathlib.Data.Countable.Basic
import Mathlib.Logic.Equiv.List
import Mathlib.Tactic.DeriveCountable

/-!
# Bitcode made of bytes

A module is made of names, numbers and types, so that there are no more modules than strings of
bytes. Modules can be written as any strings (`exists_bitcodeFormat`).
-/

namespace EasyJit

open LLVM Linker

/-- A binary tree of numbers. -/
inductive Tree
  | leaf (n : ℕ)
  | node (l r : Tree)
  deriving Countable

namespace Tree

variable {l l' r r' : Tree}

mutual

def ofTy : Ty → Tree
  | .void => leaf 0
  | .int w => node (leaf 1) (leaf w)
  | .fp k => node (leaf 2) (leaf k.ctorIdx)
  | .ptr t => node (leaf 3) (ofTy t)
  | .vector n t => node (leaf 4) (node (leaf n) (ofTy t))
  | .array n t => node (leaf 5) (node (leaf n) (ofTy t))
  | .struct packed ts => node (leaf 6) (node (leaf packed.toNat) (ofTys ts))
  | .func t ts => node (leaf 7) (node (ofTy t) (ofTys ts))

def ofTys : List Ty → Tree
  | [] => leaf 0
  | t :: ts => node (ofTy t) (ofTys ts)

end

theorem ctorIdx_inj {j k : FpKind} : j.ctorIdx = k.ctorIdx ↔ j = k := by
  cases j <;> cases k <;> decide

theorem toNat_inj {p q : Bool} : p.toNat = q.toNat ↔ p = q := by
  cases p <;> cases q <;> decide

mutual

theorem ofTy_inj : ∀ s t : Ty, ofTy s = ofTy t ↔ s = t
  | .void, t => by cases t <;> simp [ofTy]
  | .int _, t => by cases t <;> simp [ofTy]
  | .fp _, t => by cases t <;> simp [ofTy, ctorIdx_inj]
  | .ptr s, t => by cases t <;> simp [ofTy, ofTy_inj s]
  | .vector _ s, t => by cases t <;> simp [ofTy, ofTy_inj s]
  | .array _ s, t => by cases t <;> simp [ofTy, ofTy_inj s]
  | .struct _ ss, t => by cases t <;> simp [ofTy, toNat_inj, ofTys_inj ss]
  | .func s ss, t => by cases t <;> simp [ofTy, ofTy_inj s, ofTys_inj ss]

theorem ofTys_inj : ∀ ss ts : List Ty, ofTys ss = ofTys ts ↔ ss = ts
  | [], ts => by cases ts <;> simp [ofTys]
  | s :: ss, ts => by cases ts <;> simp [ofTys, ofTy_inj s, ofTys_inj ss]

end

def ofBytes : List UInt8 → Tree
  | [] => leaf 0
  | b :: bs => node (leaf b.toNat) (ofBytes bs)

def ofLiteral : FpLiteral → Tree
  | .ofDouble x => leaf x.bits.toNat
  | .ofFloat bits => node (leaf 0) (leaf bits.toNat)

mutual

def ofConstant : Constant ℕ → Tree
  | .int bits v => node (leaf 0) (node (leaf bits) (leaf v.toNat))
  | .fp k x => node (leaf 1) (node (leaf k.ctorIdx) (ofLiteral x))
  | .splat n c => node (leaf 2) (node (leaf n) (ofConstant c))
  | .null ty => node (leaf 3) (ofTy ty)
  | .intToPtr addr ty => node (leaf 4) (node (leaf addr.toNat) (ofTy ty))
  | .bytes bs ty => node (leaf 5) (node (ofBytes bs) (ofTy ty))
  | .global s ty => node (leaf 6) (node (leaf s) (ofTy ty))
  | .pointerCast c ty => node (leaf 7) (node (ofConstant c) (ofTy ty))
  | .struct ty cs => node (leaf 8) (node (ofTy ty) (ofConstants cs))
  | .array ty cs => node (leaf 9) (node (ofTy ty) (ofConstants cs))
  | .address ty c => node (leaf 10) (node (ofTy ty) (ofConstant c))

def ofConstants : List (Constant ℕ) → Tree
  | [] => leaf 0
  | c :: cs => node (ofConstant c) (ofConstants cs)

end

theorem ofBytes_inj : ∀ bs bs' : List UInt8, ofBytes bs = ofBytes bs' ↔ bs = bs'
  | [], bs' => by cases bs' <;> simp [ofBytes]
  | _ :: bs, bs' => by cases bs' <;> simp [ofBytes, UInt8.toNat_inj, ofBytes_inj bs]

theorem ofLiteral_inj {x y : FpLiteral} : ofLiteral x = ofLiteral y ↔ x = y := by
  rcases x with ⟨⟨a⟩⟩ | a <;> rcases y with ⟨⟨b⟩⟩ | b <;> simp [ofLiteral, BitVec.toNat_inj]

theorem int_inj {m n : ℕ} {v : BitVec m} {w : BitVec n} :
    m = n ∧ v.toNat = w.toNat ↔ m = n ∧ v ≍ w := by
  constructor
  · rintro ⟨rfl, h⟩
    exact ⟨rfl, heq_of_eq (BitVec.eq_of_toNat_eq h)⟩
  · rintro ⟨rfl, h⟩
    exact ⟨rfl, by rw [eq_of_heq h]⟩

mutual

theorem ofConstant_inj : ∀ c d : Constant ℕ, ofConstant c = ofConstant d ↔ c = d
  | .int _ _, d => by cases d <;> simp [ofConstant, int_inj]
  | .fp _ _, d => by cases d <;> simp [ofConstant, ctorIdx_inj, ofLiteral_inj]
  | .splat _ c, d => by cases d <;> simp [ofConstant, ofConstant_inj c]
  | .null _, d => by cases d <;> simp [ofConstant, ofTy_inj]
  | .intToPtr _ _, d => by cases d <;> simp [ofConstant, BitVec.toNat_inj, ofTy_inj]
  | .bytes _ _, d => by cases d <;> simp [ofConstant, ofBytes_inj, ofTy_inj]
  | .global _ _, d => by cases d <;> simp [ofConstant, ofTy_inj]
  | .pointerCast c _, d => by cases d <;> simp [ofConstant, ofConstant_inj c, ofTy_inj]
  | .struct _ cs, d => by cases d <;> simp [ofConstant, ofConstants_inj cs, ofTy_inj]
  | .array _ cs, d => by cases d <;> simp [ofConstant, ofConstants_inj cs, ofTy_inj]
  | .address _ c, d => by cases d <;> simp [ofConstant, ofConstant_inj c, ofTy_inj]

theorem ofConstants_inj : ∀ cs ds : List (Constant ℕ), ofConstants cs = ofConstants ds ↔ cs = ds
  | [], ds => by cases ds <;> simp [ofConstants]
  | c :: cs, ds => by cases ds <;> simp [ofConstants, ofConstant_inj c, ofConstants_inj cs]

end

end Tree

instance countable_ty : Countable Ty :=
  Function.Injective.countable fun _ _ h => (Tree.ofTy_inj _ _).1 h

instance countable_char : Countable Char :=
  Function.Injective.countable fun _ _ h => Char.toNat_inj.1 h

instance countable_string : Countable String :=
  Function.Injective.countable fun _ _ h => String.toList_inj.1 h

instance countable_constant : Countable (Constant ℕ) :=
  Function.Injective.countable fun _ _ h => (Tree.ofConstant_inj _ _).1 h

instance countable_value : Countable (Value ℕ) := by
  let f : Value ℕ → ℕ ⊕ Constant ℕ
    | .arg i => .inl i
    | .const c => .inr c
  refine Function.Injective.countable (f := f) fun v w h => ?_
  cases v <;> cases w <;> cases h <;> rfl

deriving instance Countable for Attr, Origin, FunctionInfo, GlobalInfo, InlineAsm, Op, MDOperand,
  Linker.Sym, Ref, Inst, Def

theorem countable_module {δ : Type} [Countable δ] : Countable (LModule δ) := by
  refine Function.Injective.countable (f := fun M : LModule δ =>
    (M.defs, M.declared, M.next, M.localNames, M.metadata)) fun M M' h => ?_
  obtain ⟨defs, declared, next, localNames, metadata⟩ := M
  obtain ⟨defs', declared', next', localNames', metadata'⟩ := M'
  cases h
  rfl

/-- There is a format of bytes, which writes some modules as given strings: different ones for each,
and of bounded length. -/
theorem exists_bitcodeFormat {δ : Type} [Countable δ] (given : LModule δ → Option (List UInt8))
    {b : ℕ} (hinj : ∀ M M' bs, given M = some bs → given M' = some bs → M = M')
    (hb : ∀ M bs, given M = some bs → bs.length ≤ b) :
    ∃ F : BitcodeFormat (List UInt8) δ, ∀ M bs, given M = some bs → F.write M = bs := by
  have := countable_module (δ := δ)
  obtain ⟨f, hf⟩ := exists_injective_nat (LModule δ)
  -- the other modules are written as longer strings
  let write (M : LModule δ) : List UInt8 := (given M).getD (List.replicate (b + 1 + f M) 0)
  have hwrite {M : LModule δ} {bs : List UInt8} (h : given M = some bs) : write M = bs := by
    simp only [write, h, Option.getD_some]
  have hlength {M : LModule δ} (h : given M = none) : (write M).length = b + 1 + f M := by
    simp only [write, h, Option.getD_none, List.length_replicate]
  have hinj : Function.Injective write := by
    intro M M' heq
    have hlen := congrArg List.length heq
    cases hM : given M with
    | some bs =>
      cases hM' : given M' with
      | some bs' =>
        rw [hwrite hM, hwrite hM'] at heq
        exact hinj M M' bs hM (heq ▸ hM')
      | none =>
        have := hb M bs hM
        rw [hwrite hM, hlength hM'] at hlen
        omega
    | none =>
      cases hM' : given M' with
      | some bs' =>
        have := hb M' bs' hM'
        rw [hlength hM, hwrite hM'] at hlen
        omega
      | none =>
        rw [hlength hM, hlength hM'] at hlen
        exact hf (by omega)
  exact ⟨⟨write, Function.partialInv write, Function.partialInv_left hinj⟩, fun M bs => hwrite⟩

/-- A module can be written as any string. -/
theorem exists_bitcodeFormat_single {δ : Type} [Countable δ] (M₀ : LModule δ) (bs₀ : List UInt8) :
    ∃ F : BitcodeFormat (List UInt8) δ, F.write M₀ = bs₀ := by
  classical
  obtain ⟨F, hF⟩ := exists_bitcodeFormat
    (fun M => if M = M₀ then some bs₀ else none) (b := bs₀.length)
    (fun M M' bs h h' => by grind) (fun M bs h => by grind)
  exact ⟨F, hF M₀ bs₀ (if_pos rfl)⟩

/-- Two modules can be written as any two strings. -/
theorem exists_bitcodeFormat_pair {δ : Type} [Countable δ] {M₀ M₁ : LModule δ} (hM : M₀ ≠ M₁)
    {bs₀ bs₁ : List UInt8} (hbs : bs₀ ≠ bs₁) :
    ∃ F : BitcodeFormat (List UInt8) δ, F.write M₀ = bs₀ ∧ F.write M₁ = bs₁ := by
  classical
  obtain ⟨F, hF⟩ := exists_bitcodeFormat
    (fun M => if M = M₀ then some bs₀ else if M = M₁ then some bs₁ else none)
    (b := max bs₀.length bs₁.length)
    (fun M M' bs h h' => by grind) (fun M bs h => by grind)
  exact ⟨F, hF M₀ bs₀ (if_pos rfl), hF M₁ bs₁ (by rw [if_neg hM.symm, if_pos rfl])⟩

end EasyJit
