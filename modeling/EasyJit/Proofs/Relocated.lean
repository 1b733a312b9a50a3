import EasyJit.Proofs.Pointers

/-!
# The addresses in a constant

A byte of a constant in memory is one of the address of a symbol, or does not depend on where
symbols are (`exists_placedImage`). So a constant that is the same wherever all its symbols are
together has no address in it (`not_relocated_of_const`).
-/

namespace EasyJit.Constant

open LLVM

variable {σ τ : Type} {DL : DataLayout}

/-! ## Symbols replaced -/

section Map

variable {f : σ → τ} {addr : τ → Ptr}

theorem symbolAddress_map : ∀ c : Constant σ,
    (c.map f).symbolAddress addr = c.symbolAddress (addr ∘ f)
  | .int _ _ | .fp _ _ | .splat _ _ | .null _ | .intToPtr _ _ | .bytes _ _ | .global _ _
  | .struct _ _ | .array _ _ | .address _ _ => rfl
  | .pointerCast c _ => by rw [map, symbolAddress, symbolAddress, symbolAddress_map c]

theorem storedBytes_map : ∀ c : Constant σ, (c.map f).storedBytes DL = c.storedBytes DL
  | .int _ _ | .null _ | .intToPtr _ _ | .bytes _ _ | .global _ _ | .pointerCast _ _
  | .struct _ _ | .array _ _ | .address _ _ => by simp [map, storedBytes]
  | .fp k x => by cases k <;> cases x <;> simp [map, storedBytes]
  | .splat n c => by rw [map, storedBytes, storedBytes, storedBytes_map c]

theorem placedImage_map (c : Constant σ) :
    (c.map f).placedImage DL addr = c.placedImage DL (addr ∘ f) := by
  have hbytes (c : Constant σ) : (c.map f).placedBytes DL addr = c.placedBytes DL (addr ∘ f) := by
    rw [placedBytes, placedBytes, symbolAddress_map, storedBytes_map]
  rw [placedImage, placedImage, type_map, leaves_map, List.map_map]
  simp only [Function.comp_def, hbytes]

end Map

/-! ## The bytes of addresses -/

/-- A byte, or the number of one of the address of a symbol. -/
abbrev PlacedByte (σ : Type) := Option UInt8 ⊕ σ × ℕ

def PlacedByte.at (addr : σ → Ptr) : PlacedByte σ → Option UInt8
  | .inl b => b
  | .inr (s, k) => some (UInt8.ofNat (addr s / 256 ^ k))

theorem leBytes_eq_map : ∀ n v : ℕ,
    leBytes n v = (List.range n).map fun k => UInt8.ofNat (v / 256 ^ k)
  | 0, v => rfl
  | n + 1, v => by
    rw [leBytes, leBytes_eq_map n, List.range_succ_eq_map, List.map_cons, List.map_map, pow_zero,
      Nat.div_one]
    congr 1
    refine List.map_congr_left fun k _ => ?_
    rw [Function.comp_apply, pow_succ', Nat.div_div_eq_div_mul]

theorem exists_symbolAddress : ∀ c : Constant σ, (∀ addr, c.symbolAddress addr = none)
    ∨ ∃ s, ∀ addr, c.symbolAddress addr = some (addr s)
  | .int _ _ | .fp _ _ | .splat _ _ | .null _ | .intToPtr _ _ | .bytes _ _ | .struct _ _
  | .array _ _ | .address _ _ => .inl fun _ => rfl
  | .global s _ => .inr ⟨s, fun _ => rfl⟩
  | .pointerCast c _ => exists_symbolAddress c

theorem exists_placedBytes (DL : DataLayout) (c : Constant σ) :
    ∃ bs : List (PlacedByte σ), ∀ addr, c.placedBytes DL addr = bs.map (PlacedByte.at addr) := by
  rcases exists_symbolAddress c with h | ⟨s, h⟩
  · refine ⟨(c.storedBytes DL).map .inl, fun addr => ?_⟩
    rw [placedBytes, h, List.map_map]
    exact (List.map_id _).symm
  · refine ⟨(List.range DL.pointerSize).map fun k => .inr (s, k), fun addr => ?_⟩
    rw [placedBytes, h, List.map_map]
    dsimp only
    rw [leBytes_eq_map, List.map_map]
    rfl

/-- Each byte of a constant is one, or one of the address of a symbol. -/
theorem exists_placedImage (DL : DataLayout) (c : Constant σ) :
    ∃ bs : List (PlacedByte σ), ∀ addr, c.placedImage DL addr = bs.map (PlacedByte.at addr) := by
  choose bytes hbytes using exists_placedBytes (σ := σ) DL
  refine ⟨Memory.storeAll (List.replicate (DL.getTypeAllocSize c.type) (.inl none))
    ((c.leaves DL 0).map fun l => (l.1, bytes l.2)), fun addr => ?_⟩
  rw [← Memory.storeAll_map, List.map_replicate, List.map_map, placedImage]
  simp only [hbytes, Function.comp_def]
  rfl

/-- A constant with an address in it changes when all its symbols are somewhere else. -/
theorem not_relocated_of_const {c : Constant σ}
    (h : ∀ q q' : Ptr, c.placedImage DL (fun _ => q) = c.placedImage DL fun _ => q') :
    ¬ c.Relocated DL := by
  obtain ⟨bs, hbs⟩ := exists_placedImage DL c
  rintro ⟨addr, addr', hne⟩
  refine hne ?_
  rw [hbs, hbs]
  refine List.map_congr_left fun b hb => ?_
  cases b with
  | inl b => rfl
  | inr sk =>
    -- the byte is zero for one address, and one for the other
    have hsame := h 0 (256 ^ sk.2)
    rw [hbs, hbs, List.map_inj_left] at hsame
    have := hsame _ hb
    simp only [PlacedByte.at, Nat.zero_div, Nat.div_self (Nat.pow_pos (by decide : 0 < 256))]
      at this
    exact absurd this (by decide)

end EasyJit.Constant
