import EasyJit.Captured

/-!
# What the tracker remembers

Both tables keep the first registration they are given: the one of an address, and the one of a
name.
-/

namespace EasyJit

open UnorderedMap

namespace BitcodeTracker

section Register

variable {α β : Type} (fptr : α → Ptr) (info : α → FunctionRegistration β) (xs : List α)

theorem lookup_functions_foldl (p : Ptr) :
    (xs.foldl (fun T x => T.registerFunction (fptr x) (info x)) empty).functions.lookup p
      = (xs.find? (fptr · = p)).map info := by
  have hfold (T : BitcodeTracker β) :
      (xs.foldl (fun T x => T.registerFunction (fptr x) (info x)) T).functions
        = (xs.map fun x => (fptr x, info x)).foldl (fun m e => (m.emplace e.1 e.2).1)
          T.functions := by
    induction xs generalizing T with
    | nil => rfl
    | cons x xs ih => exact ih (T.registerFunction (fptr x) (info x))
  rw [hfold, lookup_foldl_emplace, List.find?_map, Option.map_map]
  rfl

theorem lookup_nameToAddress_foldl (n : String) :
    (xs.foldl (fun T x => T.registerFunction (fptr x) (info x)) empty).nameToAddress.lookup n
      = (xs.find? fun x => (info x).name = n).map fptr := by
  have hfold (T : BitcodeTracker β) :
      (xs.foldl (fun T x => T.registerFunction (fptr x) (info x)) T).nameToAddress
        = (xs.map fun x => ((info x).name, fptr x)).foldl (fun m e => (m.emplace e.1 e.2).1)
          T.nameToAddress := by
    induction xs generalizing T with
    | nil => rfl
    | cons x xs ih => exact ih (T.registerFunction (fptr x) (info x))
  rw [hfold, lookup_foldl_emplace, List.find?_map, Option.map_map]
  rfl

end Register

variable {β δ : Type} [BitcodeFormat β δ]

theorem lookup_functions (regs : List (Registration β δ)) (p : Ptr) :
    (registerAll regs).functions.lookup p = (regs.find? (·.fptr = p)).map (·.info) :=
  lookup_functions_foldl _ _ regs p

theorem lookup_nameToAddress (regs : List (Registration β δ)) (n : String) :
    (registerAll regs).nameToAddress.lookup n
      = (regs.find? (·.info.name = n)).map (·.fptr) :=
  lookup_nameToAddress_foldl _ _ regs n

end BitcodeTracker

namespace Process

variable {β δ : Type} [BitcodeFormat β δ] {P : Process β δ} {p : Ptr} {n : String}
  {r : Registration β δ}

theorem hasGlobalMapping_eq : P.tracker.hasGlobalMapping p = (P.registration? p).isSome := by
  rw [BitcodeTracker.hasGlobalMapping, tracker, BitcodeTracker.lookup_functions,
    Option.isSome_map, registration?]

theorem getNameAndGlobalMapping_eq : P.tracker.getNameAndGlobalMapping p
    = match P.registration? p with
      | none => .error .BitcodeNotRegistered
      | some r => .ok (r.info.name, r.info.globals) := by
  rw [BitcodeTracker.getNameAndGlobalMapping, tracker, BitcodeTracker.lookup_functions,
    registration?]
  cases P.registrations.find? (·.fptr = p) <;> rfl

theorem getModule_eq : P.tracker.getModule p
    = match P.registration? p with
      | none => .error .BitcodeNotRegistered
      | some r => match BitcodeFormat.parse (δ := δ) r.info.bitcode with
        | none => .error (.BitcodeParseError r.info.name)
        | some M => .ok M := by
  rw [BitcodeTracker.getModule, tracker, BitcodeTracker.lookup_functions, registration?]
  cases P.registrations.find? (·.fptr = p) <;> rfl

/-- A name is found exactly when a function is registered under it: no function has the null
address. -/
theorem getAddress_eq : P.tracker.getAddress n = ((P.registrationOf? n).map (·.fptr)).getD 0 := by
  rw [BitcodeTracker.getAddress, tracker, BitcodeTracker.lookup_nameToAddress, registrationOf?]

theorem exists_registration? (h : P.registrationOf? n = some r) :
    ∃ r', P.registration? r.fptr = some r' := by
  rw [← Option.isSome_iff_exists, registration?, List.find?_isSome]
  exact ⟨r, List.mem_of_find?_eq_some h, by simp⟩

end Process

end EasyJit
