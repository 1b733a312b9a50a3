import EasyJit.CleanModule
import EasyJit.Lib.Except
import Mathlib.Data.List.Nodup

/-!
# What is embedded

The entry is embedded with the functions it refers to (`getReferencedFromEntry_exact`). Of what is
embedded, other modules can refer to the entry only, unless a function that it refers to is not to
be optimised (`cleanModule_exportsOnlyEntry_iff`).
-/

namespace EasyJit.Embed

open Traverse

/-! ## What an entry refers to -/

section Referenced

variable {ν : Type} (M : ModuleGraph ν)

/-- What a value puts on the stack when it is seen for the first time. -/
def pushed (U : ν) : List ν := visitUser M U []

variable {M} {U V F Entry : ν} {ops todo rest visited : List ν} {n : ℕ}

theorem pushOperands_append (todo rest : List ν) :
    pushOperands M ops (todo ++ rest) = pushOperands M ops todo ++ rest := by
  unfold pushOperands
  rw [← List.foldl_hom (· ++ rest)]
  intro todo Op
  split_ifs <;> rfl

theorem mem_pushOperands : V ∈ pushOperands M ops todo
    ↔ V ∈ ops ∧ (M.kind V).isUser = true ∨ V ∈ todo := by
  induction ops generalizing todo with
  | nil => simp [pushOperands]
  | cons Op ops ih =>
    have hcons : pushOperands M (Op :: ops) todo
        = pushOperands M ops (if (M.kind Op).isUser then Op :: todo else todo) := rfl
    rw [hcons, ih]
    by_cases hOp : (M.kind Op).isUser = true
    · rw [if_pos hOp, List.mem_cons, List.mem_cons]
      constructor
      · rintro (⟨h, hV⟩ | rfl | h)
        · exact .inl ⟨.inr h, hV⟩
        · exact .inl ⟨.inl rfl, hOp⟩
        · exact .inr h
      · rintro (⟨rfl | h, hV⟩ | h)
        · exact .inr (.inl rfl)
        · exact .inl ⟨h, hV⟩
        · exact .inr (.inr h)
    · rw [if_neg hOp, List.mem_cons]
      constructor
      · rintro (⟨h, hV⟩ | h)
        · exact .inl ⟨.inr h, hV⟩
        · exact .inr h
      · rintro (⟨rfl | h, hV⟩ | h)
        · exact absurd hV hOp
        · exact .inl ⟨h, hV⟩
        · exact .inr h

/-- What the instructions of a function put on the stack. -/
def pushInstructions (M : ModuleGraph ν) (body : List ν) (ToVisit : List ν) : List ν :=
  body.foldl (fun ToVisit I => pushOperands M (M.kind I).operands ToVisit) ToVisit

theorem pushInstructions_append (body todo rest : List ν) :
    pushInstructions M body (todo ++ rest) = pushInstructions M body todo ++ rest := by
  unfold pushInstructions
  rw [← List.foldl_hom (· ++ rest)]
  exact fun todo I => pushOperands_append todo rest

theorem mem_pushInstructions {body : List ν} : V ∈ pushInstructions M body todo
    ↔ (∃ I ∈ body, V ∈ (M.kind I).operands) ∧ (M.kind V).isUser = true ∨ V ∈ todo := by
  induction body generalizing todo with
  | nil => simp [pushInstructions]
  | cons I body ih =>
    have hcons : pushInstructions M (I :: body) todo
        = pushInstructions M body (pushOperands M (M.kind I).operands todo) := rfl
    rw [hcons, ih, mem_pushOperands, List.exists_mem_cons_iff, or_and_right, or_assoc,
      or_left_comm]

/-- What was on the stack stays below. -/
theorem visitUser_eq : visitUser M U todo = pushed M U ++ todo := by
  rw [pushed, visitUser, visitUser]
  cases M.kind U with
  | function data attrs body operands =>
    have hbody := pushInstructions_append (M := M) (body.getD []) [] todo
    exact (congrArg (pushOperands M operands) hbody).trans (pushOperands_append _ todo)
  | globalVariable data initializer =>
    cases initializer with
    | none => exact pushOperands_append [] todo
    | some init => exact pushOperands_append [init] todo
  | _ => exact pushOperands_append [] todo

/-- All that a value refers to is pushed, but what has nothing to refer to. -/
theorem mem_pushed_of_references (h : References M U V) (hV : (M.kind V).isUser = true) :
    V ∈ pushed M U := by
  rw [pushed, visitUser, mem_pushOperands]
  cases h with
  | operand h => exact .inl ⟨h, hV⟩
  | instruction h hI hVI =>
    rw [h]
    exact .inr (mem_pushInstructions.2 (.inl ⟨⟨_, hI, hVI⟩, hV⟩))
  | initializer h =>
    rw [h]
    exact .inr List.mem_cons_self

theorem references_of_mem_pushed (h : V ∈ pushed M U) : References M U V := by
  rw [pushed, visitUser, mem_pushOperands] at h
  rcases h with ⟨h, -⟩ | h
  · exact .operand h
  · cases hU : M.kind U with
    | function data attrs body operands =>
      rw [hU] at h
      cases body with
      | none => cases h
      | some body =>
        obtain ⟨⟨I, hI, hVI⟩, -⟩ := (mem_pushInstructions.1 h).resolve_right List.not_mem_nil
        exact .instruction hU hI hVI
    | globalVariable data initializer =>
      rw [hU] at h
      cases initializer with
      | none => cases h
      | some init =>
        rcases List.mem_singleton.1 h with rfl
        exact .initializer hU
    | _ =>
      rw [hU] at h
      cases h

theorem References.isUser (h : References M U V) : (M.kind U).isUser = true := by
  cases h with
  | operand h =>
    cases hU : M.kind U with
    | notUser =>
      rw [hU] at h
      cases h
    | _ => rfl
  | instruction h => rw [h]; rfl
  | initializer h => rw [h]; rfl

theorem reaches_pushed_iff (hV : (M.kind V).isUser = true) :
    Reaches (pushed M) Entry V ↔ Relation.ReflTransGen (References M) Entry V := by
  constructor
  · exact Relation.ReflTransGen.mono (fun _ _ => references_of_mem_pushed) _ _
  · intro h
    induction h with
    | refl => exact .refl
    | tail _ hUV ih => exact (ih hUV.isUser).tail (mem_pushed_of_references hUV hV)

variable [DecidableEq ν]

/-- The loop is a traversal with a work list, of which it keeps the functions. -/
theorem referencedLoop_eq : ∀ {n : ℕ} {todo visited : List ν},
    referencedLoop M n todo visited (visited.reverse.filter fun V => (M.kind V).isFunction)
      = (Worklist.run (pushed M) n todo visited).map
          fun seen => seen.reverse.filter fun V => (M.kind V).isFunction
  | 0, [], _ | _ + 1, [], _ | 0, _ :: _, _ => rfl
  | n + 1, U :: todo, visited => by
    rw [referencedLoop, Worklist.run]
    split_ifs with hU hfun
    · exact referencedLoop_eq
    · have hfilter : [U].filter (fun V => (M.kind V).isFunction) = [U] := by simp [hfun]
      rw [← referencedLoop_eq, visitUser_eq, List.reverse_cons, List.filter_append, hfilter]
    · have hfilter : [U].filter (fun V => (M.kind V).isFunction) = [] := by simp [hfun]
      rw [← referencedLoop_eq, visitUser_eq, List.reverse_cons, List.filter_append, hfilter,
        List.append_nil]

theorem referencedLoop_start (n : ℕ) : referencedLoop M n [Entry] [] []
    = (Worklist.run (pushed M) n [Entry] []).map
        fun seen => seen.reverse.filter fun V => (M.kind V).isFunction := referencedLoop_eq

theorem exists_seen (M : ModuleGraph ν) (Entry : ν) : ∃ seen,
    (∀ n, referencedBound M ≤ n → Worklist.run (pushed M) n [Entry] [] = some seen)
      ∧ getReferencedFromEntry M Entry
        = seen.reverse.filter fun V => (M.kind V).isFunction := by
  have hwork : Worklist.work (pushed M) M.nodes [Entry] [] = referencedBound M := by
    simp [Worklist.work, referencedBound, pushed]
  obtain ⟨seen, hseen⟩ := Worklist.exists_run M.mem_nodes hwork.le
  refine ⟨seen, fun n hn => Worklist.run_of_le hn hseen, ?_⟩
  rw [getReferencedFromEntry, referencedLoop_start, hseen]
  rfl

theorem mem_getReferencedFromEntry : F ∈ getReferencedFromEntry M Entry
    ↔ (M.kind F).isFunction = true ∧ Relation.ReflTransGen (References M) Entry F := by
  obtain ⟨seen, hseen, hfuns⟩ := exists_seen M Entry
  rw [hfuns, List.mem_filter, List.mem_reverse, Worklist.mem_run_iff (hseen _ le_rfl), and_comm]
  refine and_congr_right fun hF => reaches_pushed_iff ?_
  cases hkind : M.kind F with
  | notUser =>
    rw [hkind] at hF
    cases hF
  | _ => rfl

/-- The loop ends, and what it finds, each function once, is what can be reached; so what a function
found refers to is found too. -/
theorem getReferencedFromEntry_exact (M : ModuleGraph ν) (Entry : ν) :
    (∀ n, referencedBound M ≤ n →
        referencedLoop M n [Entry] [] [] = some (getReferencedFromEntry M Entry))
      ∧ (getReferencedFromEntry M Entry).Nodup
      ∧ (∀ F, F ∈ getReferencedFromEntry M Entry
        ↔ (M.kind F).isFunction = true ∧ Relation.ReflTransGen (References M) Entry F)
      ∧ ∀ F ∈ getReferencedFromEntry M Entry, ∀ G, (M.kind G).isFunction = true →
        Relation.ReflTransGen (References M) F G → G ∈ getReferencedFromEntry M Entry := by
  obtain ⟨seen, hseen, hfuns⟩ := exists_seen M Entry
  refine ⟨fun n hn => ?_, ?_, fun F => mem_getReferencedFromEntry, fun F hF G hG hFG => ?_⟩
  · rw [referencedLoop_start, hseen n hn, hfuns]
    rfl
  · rw [hfuns]
    exact List.Nodup.filter _ (List.nodup_reverse.2 (Worklist.nodup_run (hseen _ le_rfl)))
  · rw [mem_getReferencedFromEntry] at hF ⊢
    exact ⟨hG, hF.2.trans hFG⟩

end Referenced

/-! ## What other modules can refer to -/

section Cleaned

variable {ν : Type} [DecidableEq ν] {M M' : ModuleGraph ν} {passes : Passes ν} {Entry F V : ν}

/-- What a turn of `fixLinkages` does to a global value. -/
inductive Fixed (isEntry : Bool) : Node ν → Node ν → Prop
  | reserved {node data} (hdata : node.data? = some data) (h : data.isReserved = true) :
      Fixed isEntry node node
  | globalVariable {data initializer} (h : data.isReserved = false) :
      Fixed isEntry (.globalVariable data initializer) (.globalVariable { data with
        comdat := none, visibility := .defaultVisibility, linkage := .externalLinkage } none)
  | optimizeNone {data attrs body operands} (h : data.isReserved = false)
      (hattrs : .optimizeNone ∈ attrs) :
      Fixed isEntry (.function data attrs body operands)
        (.function { data with comdat := none } attrs body operands)
  | kept {data attrs body operands} (h : data.isReserved = false)
      (hbody : isEntry = true ∨ body = none) :
      Fixed isEntry (.function data attrs body operands)
        (.function { data with comdat := none } (attrs.filter (· ≠ .noInline)) body operands)
  | madePrivate {data attrs body operands} (h : data.isReserved = false)
      (hentry : isEntry = false) (hattrs : .optimizeNone ∉ attrs) :
      Fixed isEntry (.function data attrs (some body) operands)
        (.function { data with
          comdat := none, visibility := .defaultVisibility, linkage := .privateLinkage }
          (attrs.filter (· ≠ .noInline)) (some body) operands)

omit [DecidableEq ν] in
theorem fixed_of_fixLinkage {isEntry : Bool} {node node' : Node ν}
    (hnode : node.data?.isSome = true) (h : fixLinkage isEntry node = .ok node') :
    Fixed isEntry node node' := by
  obtain ⟨data, hdata⟩ := Option.isSome_iff_exists.1 hnode
  unfold fixLinkage at h
  rw [hdata, Option.any_some] at h
  by_cases hreserved : data.isReserved = true
  · rw [if_pos hreserved] at h
    cases h
    exact .reserved hdata hreserved
  rw [if_neg hreserved] at h
  rw [Bool.not_eq_true] at hreserved
  cases node with
  | globalVariable =>
    cases hdata
    cases h
    exact .globalVariable hreserved
  | function data attrs body operands =>
    cases hdata
    simp only at h
    split_ifs at h with hattrs hentry hbody
    · cases h
      exact .optimizeNone hreserved hattrs
    · cases h
      exact .kept hreserved (.inl hentry)
    · cases h
      obtain ⟨body, rfl⟩ := Option.isSome_iff_exists.1 hbody.1
      exact .madePrivate hreserved (by simpa using hentry) hattrs
    · cases h
      cases body with
      | none => exact .kept hreserved (.inr rfl)
      | some body =>
        -- it is private as it is
        obtain ⟨hvisibility, hlinkage⟩ : data.visibility = .defaultVisibility
            ∧ data.linkage = .privateLinkage := by simpa using hbody
        have hmade : Fixed isEntry (.function data attrs (some body) operands) _ :=
          .madePrivate hreserved (by simpa using hentry) hattrs
        rwa [← hvisibility, ← hlinkage] at hmade
  | _ => cases h

/-- `fixLinkages` gives each global value its turn, and leaves what is not a global value. -/
theorem fixLinkages_kind (h : fixLinkages M Entry = .ok M') (V : ν) :
    Fixed (decide (V = Entry)) (M.kind V) (M'.kind V)
      ∨ (M.kind V).data? = none ∧ M'.kind V = M.kind V := by
  obtain ⟨kind, hkind, hM'⟩ := Except.bind_eq_ok.1 h
  cases hM'
  obtain ⟨hmem, hnot⟩ := (Except.foldlM_update_eq_ok
    (g := fun V node => fixLinkage (decide (V = Entry)) node) (M.nodup_nodes.filter _)).1 hkind
  by_cases hV : (M.kind V).data?.isSome = true
  · exact .inl (fixed_of_fixLinkage hV (hmem V (List.mem_filter.2 ⟨M.mem_nodes V, hV⟩)))
  · exact .inr ⟨by simpa using hV, hnot V fun h => hV (List.mem_filter.1 h).2⟩

theorem fixLinkages_fixed (h : fixLinkages M Entry = .ok M') {data : GlobalData}
    (hV : (M.kind V).data? = some data) :
    Fixed (decide (V = Entry)) (M.kind V) (M'.kind V) := by
  rcases fixLinkages_kind h V with hfixed | ⟨hnone, -⟩
  · exact hfixed
  · rw [hnone] at hV
    cases hV

theorem fixLinkages_global (h : fixLinkages M Entry = .ok M') {data : GlobalData}
    (hV : (M'.kind V).data? = some data) :
    Fixed (decide (V = Entry)) (M.kind V) (M'.kind V) := by
  rcases fixLinkages_kind h V with hfixed | ⟨hnone, heq⟩
  · exact hfixed
  · rw [heq, hnone] at hV
    cases hV

omit [DecidableEq ν] in
/-- A function that has a turn, and is defined after it, is private, or not to be optimised. -/
theorem Fixed.function {node : Node ν} {data : GlobalData} {attrs : List FnAttr} {body : List ν}
    {operands : List ν} (h : Fixed false node (.function data attrs (some body) operands))
    (hreserved : data.isReserved = false) :
    data.linkage = .privateLinkage ∧ data.visibility = .defaultVisibility
      ∨ ∃ data₀, node = .function data₀ attrs (some body) operands ∧ data.name = data₀.name
        ∧ .optimizeNone ∈ attrs := by
  cases h with
  | reserved hdata h =>
    cases hdata
    exact absurd h (by simp [hreserved])
  | optimizeNone h hattrs => exact .inr ⟨_, rfl, rfl, hattrs⟩
  | kept h hbody => simp at hbody
  | madePrivate h hentry hattrs => exact .inl ⟨rfl, rfl⟩

omit [DecidableEq ν] in
theorem Fixed.of_optimizeNone {node' : Node ν} {data : GlobalData} {attrs : List FnAttr}
    {body : List ν} {operands : List ν}
    (h : Fixed false (.function data attrs (some body) operands) node')
    (hreserved : data.isReserved = false) (hattrs : .optimizeNone ∈ attrs) :
    node' = .function { data with comdat := none } attrs (some body) operands := by
  cases h with
  | reserved hdata h =>
    cases hdata
    exact absurd h (by simp [hreserved])
  | optimizeNone => rfl
  | kept h hbody => simp at hbody
  | madePrivate h hentry hnot => exact absurd hattrs hnot

omit [DecidableEq ν] in
/-- The entry stays as visible as it is. -/
theorem Fixed.entry {node' : Node ν} {data : GlobalData} {attrs : List FnAttr}
    {body : Option (List ν)} {operands : List ν}
    (h : Fixed true (.function data attrs body operands) node') :
    ∃ data' attrs', node' = .function data' attrs' body operands
      ∧ data'.linkage = data.linkage := by
  cases h with
  | madePrivate h hentry => cases hentry
  | _ => exact ⟨_, _, rfl, rfl⟩

/-- A symbol that other modules can refer to is the entry, or a declaration. -/
theorem ExportsOnlyEntry.linksOnlyEntry (hexports : ExportsOnlyEntry M' Entry)
    (h : fixLinkages M Entry = .ok M') : LinksOnlyEntry M' Entry := by
  intro V data hdata hreserved hlocal
  have hfixed := fixLinkages_global h hdata
  cases hV : M'.kind V with
  | function data' attrs body operands =>
    rw [hV] at hdata
    cases hdata
    cases body with
    | none => exact .inr rfl
    | some body =>
      by_contra hnot
      have hprivate := hexports.functions V data attrs body operands (fun h => hnot (.inl h)) hV
        hreserved
      rw [hprivate.1] at hlocal
      cases hlocal
  | globalVariable data' initializer =>
    rw [hV] at hdata
    cases hdata
    rw [(hexports.globalVariables V data initializer hV hreserved).1]
    exact .inr rfl
  | globalAlias | globalIFunc =>
    rw [hV] at hdata hfixed
    generalize M.kind V = node at hfixed
    cases hfixed with
    | reserved hdata' h' =>
      cases hdata'
      cases hdata
      exact absurd h' (by simp [hreserved])
  | _ =>
    rw [hV] at hdata
    cases hdata

/-- The module exports its entry only when no other function that is defined in it is left alone. -/
theorem exportsOnlyEntry_of_pruned (h : fixLinkages M Entry = .ok M')
    (hEntry : ∃ data attrs body operands, M.kind Entry = .function data attrs (some body) operands
      ∧ data.linkage = .externalLinkage)
    (hothers : ∀ F, F ≠ Entry → ∀ data attrs body operands,
      M.kind F = .function data attrs (some body) operands → data.isReserved = false →
      .optimizeNone ∉ attrs) : ExportsOnlyEntry M' Entry where
  globalVariables := by
    intro GV data initializer hGV hreserved
    have hfixed := fixLinkages_global h (congrArg Node.data? hGV)
    rw [hGV] at hfixed
    generalize M.kind GV = node at hfixed
    cases hfixed with
    | reserved hdata h =>
      cases hdata
      exact absurd h (by simp [hreserved])
    | globalVariable => exact ⟨rfl, rfl, rfl⟩
  functions := by
    intro F data attrs body operands hne hF hreserved
    have hfixed := fixLinkages_global h (congrArg Node.data? hF)
    rw [hF, decide_eq_false hne] at hfixed
    rcases hfixed.function hreserved with hprivate | ⟨data₀, hM, hname, hattrs⟩
    · exact hprivate
    · rw [GlobalData.isReserved, hname] at hreserved
      exact absurd hattrs (hothers F hne data₀ attrs body operands hM hreserved)
  entry := by
    obtain ⟨data, attrs, body, operands, hM, hlinkage⟩ := hEntry
    have hfixed := fixLinkages_fixed h (congrArg Node.data? hM)
    rw [hM, decide_eq_true rfl] at hfixed
    obtain ⟨data', attrs', hM', hlinkage'⟩ := hfixed.entry
    exact ⟨data', attrs', body, operands, hM', hlinkage'.trans hlinkage⟩

omit [DecidableEq ν] in
theorem ErasesUnreferenced.comp {pass pass' : ModuleGraph ν → ModuleGraph ν}
    (h : ErasesUnreferenced pass) (h' : ErasesUnreferenced pass') :
    ErasesUnreferenced fun M => pass' (pass M) where
  kept_or_erased := by
    intro M V
    rcases h'.kept_or_erased (pass M) V with hV | hV
    · rw [hV]
      exact h.kept_or_erased M V
    · exact .inr hV
  keeps := by
    intro M F data attrs body operands hF hlinkage
    have hkept := h.keeps M F data attrs body operands hF hlinkage
    rw [h'.keeps (pass M) F data attrs body operands (hkept.trans hF) hlinkage, hkept]

theorem Linkage.madeVisible_ne_private (linkage : Linkage) :
    linkage.madeVisible ≠ .privateLinkage := by
  cases linkage <;> exact fun h => by cases h

theorem Linkage.eq_of_isDiscardable {linkage : Linkage}
    (h : linkage.madeVisible.isDiscardableIfUnused = true) :
    linkage = .availableExternallyLinkage := by
  cases linkage <;> first | rfl | cases h

section Passes

variable {gvs : List ν} {data : GlobalData} {attrs : List FnAttr} {operands : List ν}

omit [DecidableEq ν] in
theorem Passes.Documented.dce (h : passes.Documented) : ErasesUnreferenced fun M =>
    passes.stripDeadPrototypes (passes.stripDeadDebugInfo (passes.globalDCE M)) :=
  (h.globalDCE.comp h.stripDeadDebugInfo).comp h.stripDeadPrototypes

omit [DecidableEq ν] in
/-- What the extraction keeps is there after the passes, unless it is a copy of a function that
another module defines. -/
theorem run_listed {body : Option (List ν)} (h : passes.Documented) (hF : F ∈ gvs)
    (hkind : M.kind F = .function data attrs body operands) :
    (∃ data' operands', (passes.run gvs M).kind F = .function data' attrs body operands'
        ∧ data'.name = data.name ∧ data'.linkage = data.linkage.madeVisible)
      ∨ (passes.run gvs M).kind F = .notUser
        ∧ (body.isSome = true → data.linkage = .availableExternallyLinkage) := by
  obtain ⟨data', operands', hextracted, hname, hlinkage⟩ :=
    h.gvExtraction.listed gvs M F data attrs body operands hF hkind
  rcases h.dce.kept_or_erased (passes.gvExtraction gvs M) F with hkept | herased
  · exact .inl ⟨data', operands', hkept.trans hextracted, hname, hlinkage⟩
  · refine .inr ⟨herased, fun hbody => Linkage.eq_of_isDiscardable ?_⟩
    obtain ⟨body, rfl⟩ := Option.isSome_iff_exists.1 hbody
    by_contra hdiscard
    rw [Bool.not_eq_true, ← hlinkage] at hdiscard
    have hkept := h.dce.keeps _ F data' attrs body operands' hextracted hdiscard
    rw [hextracted] at hkept
    cases hkept.symm.trans herased

omit [DecidableEq ν] in
theorem mem_of_run {body : List ν} (h : passes.Documented)
    (hkind : (passes.run gvs M).kind F = .function data attrs (some body) operands) :
    F ∈ gvs := by
  by_contra hF
  rcases h.dce.kept_or_erased (passes.gvExtraction gvs M) F with hkept | herased
  · cases h.gvExtraction.unlisted gvs M F data attrs (some body) operands hF
      (hkept.symm.trans hkind)
  · cases hkind.symm.trans herased

end Passes

section Entry

variable {data data' : GlobalData} {attrs : List FnAttr} {body : List ν} {operands : List ν}

theorem exposeEntry_eq (hEntry : M.kind Entry = .function data attrs (some body) operands) :
    exposeEntry M Entry = M.setKind Entry
      (.function { data with linkage := .externalLinkage } attrs (some body) operands) := by
  simp [exposeEntry, hEntry, Node.isFunction, Node.setLinkage]

theorem kind_exposeEntry_of_ne
    (hEntry : M.kind Entry = .function data attrs (some body) operands) (hne : F ≠ Entry) :
    (exposeEntry M Entry).kind F = M.kind F := by
  rw [exposeEntry_eq hEntry]
  exact Function.update_of_ne hne ..

theorem pruned_entry (hpasses : passes.Documented)
    (hEntry : M.kind Entry = .function data attrs (some body) operands) :
    ∃ data' attrs' body' operands', (pruneModule M passes Entry).kind Entry
      = .function data' attrs' (some body') operands' ∧ data'.linkage = .externalLinkage := by
  have hkind : (exposeEntry M Entry).kind Entry
      = .function { data with linkage := .externalLinkage } attrs (some body) operands := by
    rw [exposeEntry_eq hEntry]
    exact Function.update_self ..
  rcases run_listed hpasses (List.mem_append_right _ (List.mem_singleton_self Entry)) hkind with
    ⟨data', operands', hrun, -, hlinkage⟩ | ⟨-, hlinkage⟩
  · exact ⟨data', attrs, body, operands', hrun, hlinkage⟩
  · cases hlinkage rfl

theorem pruned_referenced {body' : Option (List ν)} {data₀ : GlobalData} {attrs₀ : List FnAttr}
    {operands₀ : List ν} (hpasses : passes.Documented)
    (hEntry : M.kind Entry = .function data attrs (some body) operands)
    (hF : F ∈ getReferencedFromEntry M Entry) (hne : F ≠ Entry)
    (hkind : M.kind F = .function data₀ attrs₀ body' operands₀) :
    (∃ data' operands', (pruneModule M passes Entry).kind F = .function data' attrs₀ body' operands'
        ∧ data'.name = data₀.name ∧ data'.linkage = data₀.linkage.madeVisible)
      ∨ (pruneModule M passes Entry).kind F = .notUser
        ∧ (body'.isSome = true → data₀.linkage = .availableExternallyLinkage) :=
  run_listed hpasses (List.mem_append_left _ hF) ((kind_exposeEntry_of_ne hEntry hne).trans hkind)

/-- The other functions that are defined after the passes are those that the entry refers to. -/
theorem referenced_of_pruned {body' : List ν} {attrs' : List FnAttr} {operands' : List ν}
    (hpasses : passes.Documented)
    (hEntry : M.kind Entry = .function data attrs (some body) operands) (hne : F ≠ Entry)
    (hkind : (pruneModule M passes Entry).kind F = .function data' attrs' (some body') operands') :
    F ∈ getReferencedFromEntry M Entry ∧ ∃ data₀ operands₀,
      M.kind F = .function data₀ attrs' (some body') operands₀ ∧ data'.name = data₀.name := by
  have hF : F ∈ getReferencedFromEntry M Entry := by
    rcases List.mem_append.1 (mem_of_run hpasses hkind) with hF | hF
    · exact hF
    · exact absurd (List.mem_singleton.1 hF) hne
  refine ⟨hF, ?_⟩
  have hfun := (mem_getReferencedFromEntry.1 hF).1
  cases hM : M.kind F with
  | function data₀ attrs₀ body₀ operands₀ =>
    rcases pruned_referenced hpasses hEntry hF hne hM with ⟨data₁, operands₁, h, hname, -⟩ | ⟨h, -⟩
    · cases h.symm.trans hkind
      exact ⟨data₀, operands₀, rfl, hname⟩
    · cases h.symm.trans hkind
  | _ =>
    rw [hM] at hfun
    cases hfun

theorem dropped_iff {data₀ : GlobalData} {attrs₀ : List FnAttr} {body₀ operands₀ : List ν}
    (hdrops : passes.DropsUnneeded (exposeEntry M Entry) (referenced M Entry))
    (hEntry : M.kind Entry = .function data attrs (some body) operands)
    (hF : F ∈ getReferencedFromEntry M Entry) (hne : F ≠ Entry)
    (hM : M.kind F = .function data₀ attrs₀ (some body₀) operands₀)
    (hlinkage : data₀.linkage = .availableExternallyLinkage) :
    (pruneModule M passes Entry).kind F = .notUser
      ↔ ¬ Needed (exposeEntry M Entry) (referenced M Entry) F :=
  hdrops F (List.mem_append_left _ hF) data₀ attrs₀ body₀ operands₀
    ((kind_exposeEntry_of_ne hEntry hne).trans hM) hlinkage

/-- Of what is embedded, other modules can refer to the entry only, exactly when the other functions
that it refers to may be optimised: one that may not stays as visible as the extraction leaves
it. -/
theorem cleanModule_exportsOnlyEntry_iff (hpasses : passes.Documented)
    (hdrops : passes.DropsUnneeded (exposeEntry M Entry) (referenced M Entry))
    (hEntry : M.kind Entry = .function data attrs (some body) operands)
    (h : cleanModule M passes Entry = .ok M') :
    ExportsOnlyEntry M' Entry ∧ LinksOnlyEntry M' Entry
      ↔ MayOptimizeReferenced M Entry := by
  have hfix : fixLinkages (pruneModule M passes Entry) Entry = .ok M' := by
    simpa [cleanModule, hEntry, Node.isFunction] using h
  constructor
  · rintro ⟨hexports, -⟩ F hF hne data₀ attrs₀ body₀ operands₀ hM hreserved hattrs
    rcases pruned_referenced hpasses hEntry hF hne hM with
      ⟨data₁, operands₁, hpruned, hname, hlinkage⟩ | ⟨hpruned, hlinkage⟩
    · have hreserved₁ : data₁.isReserved = false := by rwa [GlobalData.isReserved, hname]
      have hfixed := fixLinkages_fixed hfix (congrArg Node.data? hpruned)
      rw [hpruned, decide_eq_false hne] at hfixed
      have hkept := hfixed.of_optimizeNone hreserved₁ hattrs
      have hprivate := (hexports.functions F _ _ _ _ hne hkept hreserved₁).1
      exact absurd (hlinkage.symm.trans hprivate) (Linkage.madeVisible_ne_private _)
    · exact ⟨hlinkage rfl, (dropped_iff hdrops hEntry hF hne hM (hlinkage rfl)).1 hpruned⟩
  · intro hmay
    have hexports : ExportsOnlyEntry M' Entry := exportsOnlyEntry_of_pruned hfix
      (pruned_entry hpasses hEntry) fun F hne data₁ attrs₁ body₁ operands₁ hpruned hreserved => by
        obtain ⟨hF, data₀, operands₀, hM, hname⟩ :=
          referenced_of_pruned hpasses hEntry hne hpruned
        rw [GlobalData.isReserved, hname] at hreserved
        intro hattrs
        obtain ⟨hlinkage, hneeded⟩ :=
          hmay F hF hne data₀ attrs₁ body₁ operands₀ hM hreserved hattrs
        cases hpruned.symm.trans ((dropped_iff hdrops hEntry hF hne hM hlinkage).2 hneeded)
    exact ⟨hexports, hexports.linksOnlyEntry hfix⟩

end Entry

end Cleaned

section Samples

variable {ν : Type}

def GlobalData.makeVisible (data : GlobalData) : GlobalData :=
  if data.linkage.isLocal then
    { data with linkage := .externalLinkage, visibility := .hiddenVisibility }
  else { data with linkage := data.linkage.madeVisible }

/-- The extraction of one global value. -/
def extractGV (listed : Bool) : Node ν → Node ν
  | .function data attrs body operands =>
    if listed || body.isNone then .function data.makeVisible attrs body operands
    else .function { data with linkage := .externalLinkage, comdat := none } attrs none []
  | .globalVariable data initializer =>
    if listed || initializer.isNone then .globalVariable data.makeVisible initializer
    else .globalVariable { data with linkage := .externalLinkage, comdat := none } none
  | node => node

/-- The extraction alone, where nothing is left that could be erased. -/
def extractOnly [DecidableEq ν] : Passes ν where
  gvExtraction := fun gvs M => { M with kind := fun V => extractGV (decide (V ∈ gvs)) (M.kind V) }
  globalDCE := id
  stripDeadDebugInfo := id
  stripDeadPrototypes := id

theorem erasesUnreferenced_id : ErasesUnreferenced (id : ModuleGraph ν → ModuleGraph ν) where
  kept_or_erased := fun _ _ => .inl rfl
  keeps := fun _ _ _ _ _ _ _ _ => rfl

theorem extractOnly_documented [DecidableEq ν] : (extractOnly : Passes ν).Documented where
  gvExtraction := {
    listed := by
      intro gvs M F data attrs body operands hF hkind
      refine ⟨data.makeVisible, operands, ?_, ?_, ?_⟩
      · simp [extractOnly, hkind, extractGV, hF]
      · unfold GlobalData.makeVisible
        split_ifs <;> rfl
      · unfold GlobalData.makeVisible
        cases data.linkage <;> rfl
    unlisted := by
      intro gvs M F data attrs body operands hF hkind
      replace hkind :
          extractGV (decide (F ∈ gvs)) (M.kind F) = .function data attrs body operands := hkind
      rw [decide_eq_false hF] at hkind
      cases hM : M.kind F with
      | function data' attrs' body' operands' =>
        rw [hM] at hkind
        cases body' <;> cases hkind <;> rfl
      | globalVariable data' initializer =>
        rw [hM] at hkind
        cases initializer <;> cases hkind
      | _ =>
        rw [hM] at hkind
        cases hkind }
  globalDCE := erasesUnreferenced_id
  stripDeadDebugInfo := erasesUnreferenced_id
  stripDeadPrototypes := erasesUnreferenced_id

/-- `main` calls a static function `helper`. -/
def callsHelper (attrs : List FnAttr) : ModuleGraph (Fin 4) where
  nodes := List.finRange 4
  mem_nodes := List.mem_finRange
  nodup_nodes := List.nodup_finRange 4
  kind
    | 0 => .function { name := "main" } [] (some [2]) []
    | 1 => .function { name := "helper", linkage := .internalLinkage } attrs (some [3]) []
    | 2 => .instruction [1]
    | _ => .instruction []

example : getReferencedFromEntry (callsHelper []) 0 = [0, 1] := by decide

/-- There is no copy of a function of another module. -/
theorem callsHelper_dropsUnneeded (attrs : List FnAttr) : extractOnly.DropsUnneeded
    (exposeEntry (callsHelper attrs) 0) (referenced (callsHelper attrs) 0) := by
  intro F _ data attrs' body operands hkind hlinkage
  have hother : ∀ F, (exposeEntry (callsHelper attrs) 0).kind F
      = .function data attrs' (some body) operands → data.linkage ≠ .availableExternallyLinkage
    | 0, h | 1, h => by
      cases h
      decide
    | 2, h | 3, h => by cases h
  exact absurd hlinkage (hother F hkind)

/-- A static function that is not to be optimised ends up external, and defined. -/
theorem callsHelper_not_exportsOnlyEntry :
    let M := callsHelper [.noInline, .optimizeNone]
    (extractOnly : Passes (Fin 4)).Documented
      ∧ extractOnly.DropsUnneeded (exposeEntry M 0) (referenced M 0)
      ∧ ∃ M', cleanModule M extractOnly 0 = .ok M' ∧ ¬ ExportsOnlyEntry M' 0 := by
  refine ⟨extractOnly_documented, callsHelper_dropsUnneeded _, _, rfl, fun h => ?_⟩
  have hprivate := (h.functions 1 _ _ _ _ (by decide) rfl (by decide)).1
  cases hprivate

theorem callsHelper_mayOptimizeReferenced :
    MayOptimizeReferenced (callsHelper [.noInline]) 0 := by
  intro F _ _ data attrs body operands hkind _ hattrs
  have hnone : ∀ F, (callsHelper [.noInline]).kind F = .function data attrs (some body) operands →
      .optimizeNone ∉ attrs
    | 0, h | 1, h => by cases h; decide
    | 2, h | 3, h => by cases h
  exact absurd hattrs (hnone F hkind)

/-- One that may be optimised becomes private. -/
theorem callsHelper_exportsOnlyEntry : ∃ M',
    cleanModule (callsHelper [.noInline]) extractOnly 0 = .ok M'
      ∧ ExportsOnlyEntry M' 0 ∧ LinksOnlyEntry M' 0 := by
  have hclean : ∃ M', cleanModule (callsHelper [.noInline]) extractOnly 0 = .ok M' := ⟨_, rfl⟩
  obtain ⟨M', hM'⟩ := hclean
  have hdrops := callsHelper_dropsUnneeded [.noInline]
  exact ⟨M', hM', (cleanModule_exportsOnlyEntry_iff extractOnly_documented hdrops rfl hM').2
    callsHelper_mayOptimizeReferenced⟩

end Samples

end EasyJit.Embed
