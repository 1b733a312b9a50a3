import EasyJit.Proofs.Function

/-!
# Deserialising what was not serialised

`deserialize` takes for granted that a module that can be parsed has an entry node with the name of
a function, and is right for the streams of which this is so (`deserializesCleanly_iff`).
-/

namespace EasyJit

section

variable {β δ : Type} [BitcodeFormat β δ] (P : Process β δ) (B : Backend δ)
  {M : LModule δ} {name : String} {node : MDNode} {nodes : List MDNode}

/-- A node that is not passed over is found, or ends the search. -/
theorem findEntry_cons : findEntry (node :: nodes) = .ok name
    ↔ node = entryNode name ∨ IsPassedOver node ∧ findEntry nodes = .ok name := by
  match node with
  | [] | [_] | _ :: _ :: _ :: _ => simp [findEntry, IsPassedOver, entryNode]
  | [entry, n] =>
    rw [findEntry]
    cases entry <;> cases n <;>
      simp only [MDOperand.asString, bind, Except.bind]
    case string.string entry n =>
      by_cases hentry : entry = entryTag
      · simp [hentry, IsPassedOver, entryNode]
      · simp [hentry, IsPassedOver, entryNode]
    all_goals simp [IsPassedOver, entryNode]

theorem findEntry_eq_ok : ∀ {nodes : List MDNode}, findEntry nodes = .ok name
    ↔ ∃ pre post, nodes = pre ++ entryNode name :: post ∧ ∀ node ∈ pre, IsPassedOver node
  | [] => by simp [findEntry]
  | node :: nodes => by
    rw [findEntry_cons, findEntry_eq_ok]
    constructor
    · rintro (rfl | ⟨hnode, pre, post, rfl, hpre⟩)
      · exact ⟨[], nodes, rfl, fun _ h => absurd h List.not_mem_nil⟩
      · exact ⟨node :: pre, post, rfl, List.forall_mem_cons.2 ⟨hnode, hpre⟩⟩
    · rintro ⟨pre, post, hnodes, hpre⟩
      cases pre with
      | nil =>
        cases hnodes
        exact .inl rfl
      | cons node' pre =>
        cases hnodes
        obtain ⟨hnode, hpre⟩ := List.forall_mem_cons.1 hpre
        exact .inr ⟨hnode, pre, post, rfl, hpre⟩

theorem getEntryFunctionName_eq_ok : getEntryFunctionName M = .ok name
    ↔ ∃ pre post, M.metadata = some (pre ++ entryNode name :: post)
      ∧ ∀ node ∈ pre, IsPassedOver node := by
  unfold getEntryFunctionName
  cases M.metadata with
  | none => simp
  | some nodes => simp only [findEntry_eq_ok, Option.some.injEq]

/-- A stream is deserialised cleanly exactly when, if it holds a module, the first entry node of the
module comes before any that has null in it, and names a function that the module defines, and that
code can be generated for. -/
theorem deserializesCleanly_iff (stream : β) : DeserializesCleanly P B stream
    ↔ ∀ M : LModule δ, BitcodeFormat.parse stream = some M → HasDefinedEntry P B M := by
  rw [DeserializesCleanly, deserialize_eq]
  cases hparse : BitcodeFormat.parse (δ := δ) stream with
  | none => simp
  | some M =>
    simp only [reduceCtorEq, false_and, false_or, Option.some.injEq, forall_eq']
    constructor
    · rintro ⟨f, hf, ⟨nodes, hnodes, hmem⟩, hdef⟩
      obtain ⟨n, hn, hf⟩ := Except.bind_eq_ok.1 hf
      obtain ⟨f', hf', heq⟩ := Except.map_eq_ok.1 hf
      cases heq
      obtain ⟨hcan, hgen, rfl⟩ := compileAndWrap_ok hf'
      obtain ⟨pre, post, hmeta, hpre⟩ := getEntryFunctionName_eq_ok.1 hn
      rw [hmeta] at hnodes
      cases hnodes
      exact ⟨hcan, pre, n, post, hmeta, hpre, hmem, hdef, hgen⟩
    · rintro ⟨hcan, pre, n, post, hmeta, hpre, hmem, hdef, hgen⟩
      have hn : getEntryFunctionName M = .ok n :=
        getEntryFunctionName_eq_ok.2 ⟨pre, post, hmeta, hpre⟩
      refine ⟨⟨M, cString n, (P.globalsOf? n).getD []⟩, ?_, ⟨_, hmeta, hmem⟩, hdef⟩
      simp only [hn, Except.bind, compileAndWrap, hcan, hgen, if_true, Except.map]

end

section Samples

open Sample

attribute [local instance] BitcodeFormat.self

/-- A module with nothing in it has no metadata either. -/
theorem not_deserializesCleanly_empty :
    deserialize (process []) backend (.empty : LModule Unit) = .error .nullPointer
      ∧ ¬ DeserializesCleanly (process []) backend (.empty : LModule Unit) := by
  refine ⟨rfl, ?_⟩
  rintro (⟨hparse, -⟩ | ⟨f, hf, -⟩)
  · cases hparse
  · cases hf

end Samples

end EasyJit
