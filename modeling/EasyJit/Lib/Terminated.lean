import Mathlib.Algebra.Group.Nat.Defs
import Mathlib.Data.List.Basic
import Mathlib.Data.Option.Basic

/-!
# What is read from memory

A memory gives the byte at an address, if there is one. The elements of an array that ends with a
terminator are read one after the other, up to that: there is no more to be known of the memory
than where they are (`readTerminated_eq`). A string is an array of bytes that ends with zero
(`readCString_eq`).
-/

namespace Terminated

variable {α : Type*}

/-- The elements from an address on, each a stride after the one before, up to the terminator; with
so many turns at most. -/
def readTerminated (elem : ℕ → Option (Option α)) (stride : ℕ) : ℕ → ℕ → Option (List α)
  | 0, _ => none
  | n + 1, p => match elem p with
    | none => none
    | some none => some []
    | some (some a) => (readTerminated elem stride n (p + stride)).map (a :: ·)

variable {elem : ℕ → Option (Option α)} {stride : ℕ}

theorem readTerminated_eq : ∀ {as : List α} {n p : ℕ}, as.length < n →
    (∀ i (hi : i < as.length), elem (p + stride * i) = some (some as[i])) →
    elem (p + stride * as.length) = some none → readTerminated elem stride n p = some as
  | _, 0, _, hn, _, _ => absurd hn (Nat.not_lt_zero _)
  | [], n + 1, p, _, _, hend => by
    have hp : elem p = some none := by simpa using hend
    rw [readTerminated, hp]
  | a :: as, n + 1, p, hn, helem, hend => by
    have hp : elem p = some (some a) := by simpa using helem 0 (Nat.succ_pos _)
    have hrest : readTerminated elem stride n (p + stride) = some as := by
      refine readTerminated_eq (Nat.lt_of_succ_lt_succ hn) (fun i hi => ?_) ?_
      · have := helem (i + 1) (Nat.succ_lt_succ hi)
        rwa [Nat.mul_succ, Nat.add_comm _ stride, ← Nat.add_assoc] at this
      · rwa [List.length_cons, Nat.mul_succ, Nat.add_comm _ stride, ← Nat.add_assoc] at hend
    rw [readTerminated, hp, hrest]
    rfl

/-- The byte at an address. -/
abbrev ByteMemory := ℕ → Option UInt8

namespace ByteMemory

/-- The bytes are in memory, one after the other. -/
def Holds (m : ByteMemory) (p : ℕ) (bs : List UInt8) : Prop :=
  ∀ i (hi : i < bs.length), m (p + i) = some bs[i]

def readBytes (m : ByteMemory) : ℕ → ℕ → Option (List UInt8)
  | 0, _ => some []
  | n + 1, p => match m p with
    | none => none
    | some b => (readBytes m n (p + 1)).map (b :: ·)

/-- The bytes up to the first zero, in an address space of 64 bits. -/
def readCString (m : ByteMemory) (p : ℕ) : Option (List UInt8) :=
  readTerminated (fun q => (m q).map fun b => if b = 0 then none else some b) 1 (2 ^ 64) p

variable {m : ByteMemory} {p : ℕ} {bs cs : List UInt8}

theorem Holds.cons {b : UInt8} : m.Holds p (b :: bs) ↔ m p = some b ∧ m.Holds (p + 1) bs := by
  constructor
  · intro h
    refine ⟨h 0 (Nat.succ_pos _), fun i hi => ?_⟩
    rw [Nat.add_assoc, Nat.add_comm 1 i]
    exact h (i + 1) (Nat.succ_lt_succ hi)
  · rintro ⟨h₀, h⟩ i hi
    cases i with
    | zero => exact h₀
    | succ i =>
      have := h i (Nat.lt_of_succ_lt_succ hi)
      rwa [Nat.add_assoc, Nat.add_comm 1] at this

theorem Holds.append : m.Holds p (bs ++ cs) ↔ m.Holds p bs ∧ m.Holds (p + bs.length) cs := by
  induction bs generalizing p with
  | nil => simp [Holds]
  | cons b bs ih =>
    rw [List.cons_append, Holds.cons, ih, Holds.cons, and_assoc, List.length_cons, Nat.add_assoc,
      Nat.add_comm 1]

theorem Holds.readBytes (h : m.Holds p bs) : m.readBytes bs.length p = some bs := by
  induction bs generalizing p with
  | nil => rfl
  | cons b bs ih =>
    obtain ⟨hp, h⟩ := Holds.cons.1 h
    rw [List.length_cons, ByteMemory.readBytes, hp, ih h]
    rfl

/-- A string is read back, when it has no zero of its own and ends with one. -/
theorem readCString_eq (hzero : (0 : UInt8) ∉ bs) (h : m.Holds p (bs ++ [0]))
    (hlt : bs.length < 2 ^ 64) : m.readCString p = some bs := by
  obtain ⟨hbs, hend⟩ := Holds.append.1 h
  refine readTerminated_eq hlt (fun i hi => ?_) ?_
  · have hne : bs[i] ≠ 0 := fun h₀ => hzero (h₀ ▸ List.getElem_mem hi)
    rw [Nat.one_mul, hbs i hi, Option.map_some, if_neg hne]
  · have h₀ : m (p + bs.length) = some 0 := hend 0 (Nat.succ_pos _)
    rw [Nat.one_mul, h₀, Option.map_some, if_pos rfl]

end ByteMemory

end Terminated
