import EgLang.Compiler.EliminationMeaning
import EgLang.Compiler.PruningSteps
import EgLang.Compiler.Solution

/-!
# Building a range

What `EnumerationOperationVisitor` builds for the nodes of a resolved type path: it derives the target
of every way down from a context, and gives up at the first way that cannot be derived.
-/

namespace EgLang.Compiler

open EgLang.Library NameResolution

set_option autoImplicit false

/-! ## Clean trees -/

namespace Instruction
variable {ε ι : Type}

theorem rejected_none (head : Head ε ι) : rejected (fun _ => false) head = false := by
  cases head <;> rfl

theorem Clean.wellNested {rejects : Operation ε ι → Bool} {t : Instruction ε ι} (h : Clean t) :
    WellNested rejects t := by
  induction h with
  | node hhead _ ih => exact .of_ordinary hhead ih

theorem allOf_eq_success {os : List Elimination} (h : ∀ o ∈ os, o = .eSuccess) :
    Elimination.allOf os = .eSuccess := by
  have hne : ∀ o : Elimination, o ≠ .eSuccess → o ∉ os := fun o ho hmem => ho (h o hmem)
  rw [Elimination.allOf, if_neg (hne _ (by decide)), if_neg (hne _ (by decide))]

theorem meaning_ordinary {head : Head ε ι} (hhead : head.transient = false)
    (cs : List (Instruction ε ι)) :
    meaning (fun _ => false) (.node head cs) = .allOf (meanings (fun _ => false) cs) := by
  simp only [Head.transient, Bool.or_eq_false_iff] at hhead
  simp [meaning, hhead, rejected_none]

theorem Clean.meaning {t : Instruction ε ι} (h : Clean t) :
    meaning (fun _ => false) t = .eSuccess := by
  induction h with
  | node hhead _ ih =>
    rw [meaning_ordinary hhead]
    refine allOf_eq_success fun o ho => ?_
    obtain ⟨c, hc, rfl⟩ := mem_meanings.mp ho
    exact ih c hc

theorem remainsAll_eq_self {rejects : Operation ε ι → Bool} {ts : List (Instruction ε ι)}
    (h : ∀ t ∈ ts, remains rejects t = [t]) : remainsAll rejects ts = ts := by
  induction ts with
  | nil => rfl
  | cons t ts ih =>
    rw [List.forall_mem_cons] at h
    rw [remainsAll, h.1, ih h.2, List.singleton_append]

theorem Clean.remains {rejects : Operation ε ι → Bool} {t : Instruction ε ι} (h : Clean t) :
    remains rejects t = [t] := by
  induction h with
  | node hhead _ ih => rw [remains_ordinary hhead, remainsAll_eq_self ih]

theorem successes_clean {ts : List (Instruction ε ι)} (h : ∀ t ∈ ts, Clean t) :
    successes (fun _ => false) ts = ts := by
  induction ts with
  | nil => rfl
  | cons t ts ih =>
    rw [List.forall_mem_cons] at h
    rw [successes, if_pos h.1.meaning, h.1.remains, ih h.2, List.singleton_append]

/-! ## Operations -/

theorem operationsOf_append (ts us : List (Instruction ε ι)) :
    operationsOf (ts ++ us) = operationsOf ts ++ operationsOf us := by
  induction ts with
  | nil => rfl
  | cons t ts ih =>
    cases t with
    | node head children => cases head <;> simp [operationsOf, ih]

theorem operationsOf_cons {head : Head ε ι} (children rest : List (Instruction ε ι))
    (h : ∀ op, head ≠ .operation op) :
    operationsOf (.node head children :: rest) = operationsOf children ++ operationsOf rest := by
  cases head with
  | operation op => exact absurd rfl (h op)
  | _ => simp [operationsOf, getOperations]

/-- Setting the return types leaves the operations as they are. -/
theorem operationsOf_setRanges (returnTypes : List ι) (iMaxRanges : ℕ) (t : Instruction ε ι) :
    (setRanges returnTypes iMaxRanges t).getOperations = t.getOperations ∧
      operationsOf [setRanges returnTypes iMaxRanges t] = operationsOf [t] := by
  induction t using tree_induction with
  | step head children ih =>
    have hall : operationsOf (setRangesOf returnTypes iMaxRanges children) = operationsOf children := by
      induction children with
      | nil => rfl
      | cons c cs ihc =>
        rw [List.forall_mem_cons] at ih
        have happ := operationsOf_append [setRanges returnTypes iMaxRanges c]
          (setRangesOf returnTypes iMaxRanges cs)
        rw [setRangesOf, ← List.singleton_append, happ, ih.1.2, ihc ih.2, ← operationsOf_append,
          List.singleton_append]
    cases head <;> simp [setRanges, getOperations, operationsOf, hall]

end Instruction

namespace Invocation
variable {ι κ : Type} (session : Session ι κ)

/-! ## Chains -/

section Chains
variable (nodes : Nodes ι κ)

/-- The nodes of some indices. -/
def nodesAt (children : List ℕ) : List (Name ι κ) := children.filterMap fun i => nodes[i]?

/-- The ways down from a node to the leaves, as far as a depth. -/
def ways : ℕ → Name ι κ → List (List (Name ι κ))
  | 0, _ => []
  | depth + 1, node =>
    if node.children = [] then [[node]]
    else ((nodesAt nodes node.children).flatMap (ways depth)).map (node :: ·)

/-- The nodes of the context. -/
def contexts : List (Name ι κ) :=
  match nodes[0]? with
  | some root => nodesAt nodes root.children
  | none => []

/-- The resolved chains of elements from a context on: no way down is longer than the vector. -/
def chains (context : Name ι κ) : List (List (Name ι κ)) :=
  ((nodesAt nodes context.children).flatMap (ways nodes nodes.length)).map (context :: ·)

/-- The operation is the range of the last element of a chain, on a variable of its type. -/
structure RangeOf (rangeType : RangeType) (op : Operation (Option κ) (Option ι))
    (chain : List (Name ι κ)) : Prop where
  type : op.type = .range rangeType
  target : ∃ leaf, chain.getLast? = some leaf ∧
    op.interfaceType = session.asContext leaf.element.first ∧ op.concreteType = leaf.element.second ∧
      op.pInstance.concreteType = leaf.element.second

variable {session nodes}

theorem RangeOf.cons {rangeType : RangeType} {op : Operation (Option κ) (Option ι)}
    {chain : List (Name ι κ)} (prev : Name ι κ) (h : RangeOf session rangeType op chain) :
    RangeOf session rangeType op (prev :: chain) := by
  obtain ⟨leaf, hleaf, hrest⟩ := h.target
  refine ⟨h.type, leaf, ?_, hrest⟩
  cases chain with
  | nil => cases hleaf
  | cons current rest => rw [List.getLast?_cons_cons, hleaf]

theorem mem_nodesAt {children : List ℕ} {next : Name ι κ} :
    next ∈ nodesAt nodes children ↔ ∃ i ∈ children, nodes[i]? = some next := List.mem_filterMap

theorem ways_start {depth : ℕ} {node : Name ι κ} {way : List (Name ι κ)}
    (h : way ∈ ways nodes depth node) : ∃ rest, way = node :: rest := by
  cases depth with
  | zero => cases h
  | succ depth =>
    unfold ways at h
    split at h
    · exact ⟨[], List.mem_singleton.mp h⟩
    · obtain ⟨rest, -, rfl⟩ := List.mem_map.mp h
      exact ⟨rest, rfl⟩

/-- The nodes below a node of a tree. -/
theorem exists_child {t : NameTree ℕ ι κ} (ht : StandsIn nodes t) {current : Name ι κ}
    (hget : nodes[t.index]? = some current) {i : ℕ} (hi : i ∈ current.children) :
    ∃ c, StandsIn nodes c ∧ c.depth < t.depth ∧ c.index = i ∧ ∃ next, nodes[i]? = some next := by
  obtain ⟨a, ha, -, hchildren⟩ := ht.get
  obtain rfl : a = current := Option.some.inj (ha.symm.trans hget)
  rw [hchildren] at hi
  obtain ⟨c, hc, rfl⟩ := List.mem_map.mp hi
  have hstands := ht.child hc
  obtain ⟨next, hnext, -⟩ := hstands.get
  refine ⟨c, hstands, ?_, rfl, next, hnext⟩
  cases t with
  | node label ts => exact RoseTree.depth_lt_of_mem hc

/-- Some way leads down from every node of a tree. -/
theorem ways_ne_nil {depth : ℕ} {t : NameTree ℕ ι κ} (ht : StandsIn nodes t) {current : Name ι κ}
    (hget : nodes[t.index]? = some current) (hdepth : t.depth ≤ depth) :
    ways nodes depth current ≠ [] := by
  induction depth generalizing t current with
  | zero =>
    cases t with
    | node label ts =>
      rw [RoseTree.depth_node] at hdepth
      omega
  | succ depth ih =>
    unfold ways
    split
    · exact List.cons_ne_nil _ _
    · rename_i hne
      obtain ⟨i, hi⟩ := List.exists_mem_of_ne_nil _ hne
      obtain ⟨c, hc, hlt, rfl, next, hnext⟩ := exists_child ht hget hi
      obtain ⟨way, hway⟩ := List.exists_mem_of_ne_nil _ (ih hc hnext (by omega))
      refine List.ne_nil_of_mem (List.mem_map.mpr ⟨way, ?_, rfl⟩)
      exact List.mem_flatMap.mpr ⟨next, mem_nodesAt.mpr ⟨_, hi, hnext⟩, hway⟩

end Chains

section Derivable
variable [DecidableEq κ]

/-- An element lies below another one, or is the same. -/
def liesBelow (prev current : Name ι κ) : Bool :=
  match current.element.second with
  | some e => prev.element.second.all fun p => p ∈ session.tree.wayUp e
  | none => false

/-- Every element of a chain lies below the one before it. -/
def descends : List (Name ι κ) → Bool
  | prev :: current :: rest => liesBelow session prev current && descends (current :: rest)
  | _ => true

/-- An action that lies below the element before it, and is no reference. -/
def derives (prev current : Name ι κ) : Bool :=
  !current.isReference && session.isAction current.element.second && liesBelow session prev current

/-- Every element of a chain but the first one is an action that lies below the one before it. -/
def derivable : List (Name ι κ) → Bool
  | prev :: current :: rest => derives session prev current && derivable (current :: rest)
  | _ => true

theorem descends_of_derivable {chain : List (Name ι κ)} (h : derivable session chain = true) :
    descends session chain = true := by
  induction chain with
  | nil => rfl
  | cons prev rest ih =>
    cases rest with
    | nil => rfl
    | cons current rest =>
      simp only [derivable, derives, Bool.and_eq_true] at h
      simp only [descends, Bool.and_eq_true]
      exact ⟨h.1.2, ih h.2⟩

end Derivable

/-! ## Derivations -/

section Derivations
variable {session}

/-- Elements on the way up from an action are actions. -/
theorem isAction_of_mem_wayUp {e a : κ} (he : (session.kind e).isAction = true)
    (ha : a ∈ session.tree.wayUp e) : (session.kind a).isAction = true := by
  induction e using session.tree.induction with
  | step e ih =>
    cases hp : session.tree.parent e with
    | none =>
      rw [(session.tree.mem_wayUp_root hp).mp ha]
      exact he
    | some p =>
      rcases (session.tree.mem_wayUp_child hp).mp ha with rfl | ha
      · exact he
      · exact ih p hp (session.parent_isAction hp) ha

theorem deriveEnum_actions {path : List κ} (h : ∀ e ∈ path, (session.kind e).isAction = true)
    (pVariable : Variable κ) (n : ℕ) :
    ∃ (heads : List (Head (Option κ) (Option ι))) (v : Variable κ) (n' : ℕ),
      deriveEnum session path pVariable n = some (heads, v, n') ∧
        (∀ head ∈ heads, ∃ pFrom pTo, head = .enumDerivation pFrom pTo) ∧
          (path = [] → v = pVariable) ∧ ∀ e, path.getLast? = some e → v.concreteType = some e := by
  induction path generalizing pVariable n with
  | nil => exact ⟨[], pVariable, n, rfl, by simp, fun _ => rfl, fun e he => by cases he⟩
  | cons pIter path ih =>
    rw [List.forall_mem_cons] at h
    obtain ⟨heads, v, n', hderive, hheads, hnil, hlast⟩ := ih h.2 ⟨n, some pIter⟩ (n + 1)
    refine ⟨.enumDerivation pVariable ⟨n, some pIter⟩ :: heads, v, n', ?_, ?_,
      fun hne => absurd hne (List.cons_ne_nil _ _), ?_⟩
    · simp only [deriveEnum, if_pos h.1, hderive, Option.map_some]
    · exact List.forall_mem_cons.mpr ⟨⟨_, _, rfl⟩, hheads⟩
    · intro e he
      cases path with
      | nil =>
        rw [hnil rfl]
        exact he
      | cons d path =>
        rw [List.getLast?_cons_cons] at he
        exact hlast e he

variable [DecidableEq κ]

/-- The target of a derivation is an action; its variable is derived from that of an element above
it. -/
theorem targetDerivation_of_liesBelow {prev current : Name ι κ} {e : κ}
    (hsecond : current.element.second = some e) (he : (session.kind e).isAction = true)
    (hbelow : liesBelow session prev current = true) {pVariable : Variable κ}
    (hvariable : ∀ a, prev.element.second = some a → (session.kind a).isAction = true →
      pVariable.concreteType = some a) (n : ℕ) :
    ∃ (heads : List (Head (Option κ) (Option ι))) (v : Variable κ) (n' : ℕ),
      targetDerivation session prev.element.second e pVariable n = some (heads, v, n') ∧
        (∀ head ∈ heads, ∃ pFrom pTo, head = .enumDerivation pFrom pTo) ∧
          v.concreteType = some e := by
  have hall : prev.element.second.all (fun p => p ∈ session.tree.wayUp e) = true := by
    rwa [liesBelow, hsecond] at hbelow
  have hactions : ∀ a ∈ (pathTo session prev.element.second (some e)).reverse,
      (session.kind a).isAction = true := by
    intro a ha
    exact isAction_of_mem_wayUp he (List.takeWhile_sublist _ |>.subset (List.mem_reverse.mp ha))
  obtain ⟨heads, v, n', hderive, hheads, hnil, hlast⟩ := deriveEnum_actions (ι := ι) hactions pVariable n
  refine ⟨heads, v, n', ?_, hheads, ?_⟩
  · rw [targetDerivation, if_pos hall]
    exact hderive
  · obtain ⟨above, habove⟩ := session.tree.exists_wayUp_eq_cons e
    by_cases hself : prev.element.second = some e
    · -- no step is needed
      have hpath : pathTo session prev.element.second (some e) = [] := by
        rw [hself, pathTo, Option.map_some, Option.getD_some, habove]
        exact List.takeWhile_cons_of_neg (by simp)
      rw [hnil (by rw [hpath]; rfl)]
      exact hvariable e hself he
    · refine hlast e ?_
      have hpath : ∃ rest, pathTo session prev.element.second (some e) = e :: rest := by
        rw [pathTo, Option.map_some, Option.getD_some, habove]
        exact ⟨_, List.takeWhile_cons_of_pos (decide_eq_true fun h => hself h.symm)⟩
      obtain ⟨rest, hpath⟩ := hpath
      rw [hpath, List.reverse_cons, List.getLast?_concat]

end Derivations

/-! ## Building -/

section Build
variable {session} {nodes : Nodes ι κ}

/-- What is built for some chains: clean trees, with the range of each chain. -/
structure Built (session : Session ι κ) (rangeType : RangeType) (chains : List (List (Name ι κ)))
    (ts : List (Tree ι κ)) : Prop where
  clean : ∀ t ∈ ts, t.Clean
  ranges : List.Forall₂ (RangeOf session rangeType) (Instruction.operationsOf ts) chains

theorem Built.ne_nil {rangeType : RangeType} {chains : List (List (Name ι κ))} {ts : List (Tree ι κ)}
    (h : Built session rangeType chains ts) (hne : chains ≠ []) : ts ≠ [] := by
  rintro rfl
  have hlength := h.ranges.length_eq
  exact hne (List.length_eq_zero_iff.mp hlength.symm)

theorem Built.append {rangeType : RangeType} {chains chains' : List (List (Name ι κ))}
    {ts us : List (Tree ι κ)} (h : Built session rangeType chains ts)
    (h' : Built session rangeType chains' us) :
    Built session rangeType (chains ++ chains') (ts ++ us) := by
  refine ⟨fun t ht => ?_, ?_⟩
  · rcases List.mem_append.mp ht with ht | ht
    · exact h.clean t ht
    · exact h'.clean t ht
  · rw [Instruction.operationsOf_append]
    exact List.rel_append h.ranges h'.ranges

theorem Built.cons {rangeType : RangeType} {chains : List (List (Name ι κ))} {ts : List (Tree ι κ)}
    (prev : Name ι κ) (h : Built session rangeType chains ts) :
    Built session rangeType (chains.map (prev :: ·)) ts := by
  refine ⟨h.clean, List.forall₂_map_right_iff.mpr (h.ranges.imp fun op chain hop => ?_)⟩
  exact hop.cons prev

/-- The instructions of a derivation above the trees that are built for some chains. -/
theorem Built.nestAll {rangeType : RangeType} {chains : List (List (Name ι κ))} {ts : List (Tree ι κ)}
    (h : Built session rangeType chains ts) {heads : List (Head (Option κ) (Option ι))}
    (hheads : ∀ head ∈ heads, ∃ pFrom pTo, head = .enumDerivation pFrom pTo) :
    Built session rangeType chains (Instruction.nestAll heads ts) := by
  induction heads with
  | nil => exact h
  | cons head heads ih =>
    rw [List.forall_mem_cons] at hheads
    obtain ⟨⟨pFrom, pTo, rfl⟩, hheads⟩ := hheads
    obtain ⟨hclean, hranges⟩ := ih hheads
    refine ⟨?_, ?_⟩
    · intro t ht
      rw [List.mem_singleton.mp ht]
      exact .node rfl hclean
    · show List.Forall₂ _ (Instruction.operationsOf [.node _ (Instruction.nestAll heads ts)]) chains
      rw [Instruction.operationsOf_cons _ _ fun op h => by cases h]
      show List.Forall₂ _ (Instruction.operationsOf (Instruction.nestAll heads ts) ++ []) chains
      rw [List.append_nil]
      exact hranges

theorem buildRanges_ok {rangeType : RangeType}
    {build : Name ι κ → ℕ → Except InvocationFault (List (Tree ι κ) × ℕ)}
    {chains : Name ι κ → List (List (Name ι κ))} {children : List ℕ}
    (h : ∀ i ∈ children, ∃ next, nodes[i]? = some next ∧
      ∀ n, ∃ ts n', build next n = .ok (ts, n') ∧ Built session rangeType (chains next) ts) (n : ℕ) :
    ∃ ts n', buildRanges nodes build children n = .ok (ts, n') ∧
      Built session rangeType ((nodesAt nodes children).flatMap chains) ts := by
  induction children generalizing n with
  | nil => exact ⟨[], n, rfl, by simp, .nil⟩
  | cons i children ih =>
    rw [List.forall_mem_cons] at h
    obtain ⟨⟨next, hnext, hbuild⟩, h⟩ := h
    obtain ⟨ts, n1, hts, hbuilt⟩ := hbuild n
    obtain ⟨us, n2, hus, hrest⟩ := ih h n1
    refine ⟨ts ++ us, n2, ?_, ?_⟩
    · rw [buildRanges, hnext]
      exact except_bind_ok.mpr ⟨_, hts, except_bind_ok.mpr ⟨_, hus, rfl⟩⟩
    · rw [nodesAt, List.filterMap_cons, hnext]
      exact hbuilt.append hrest

theorem buildRanges_inv {build : Name ι κ → ℕ → Except InvocationFault (List (Tree ι κ) × ℕ)}
    {children : List ℕ} {n : ℕ} {r : List (Tree ι κ) × ℕ}
    (h : buildRanges nodes build children n = .ok r) :
    ∀ next ∈ nodesAt nodes children, ∃ n r, build next n = .ok r := by
  induction children generalizing n r with
  | nil => simp [nodesAt]
  | cons i children ih =>
    rw [buildRanges] at h
    cases hnext : nodes[i]? with
    | none => simp only [hnext, reduceCtorEq] at h
    | some next =>
      simp only [hnext] at h
      obtain ⟨p, hp, h⟩ := except_bind_ok.mp h
      obtain ⟨q, hq, -⟩ := except_bind_ok.mp h
      rw [nodesAt, List.filterMap_cons, hnext]
      exact List.forall_mem_cons.mpr ⟨⟨n, p, hp⟩, ih hq⟩

/-- The operation of a type of range. -/
def operationOf : RangeType → OperationID
  | .eRaw => .id_Raw
  | .eRange => .id_Range

theorem buildRange_eq (rangeType : RangeType) (current : Name ι κ) (pAction : κ) (pVariable : Variable κ)
    (n : ℕ) : buildRange session (operationOf rangeType) current pAction pVariable n =
      .ok (.node (.operation ⟨n, .range rangeType, pVariable, session.asContext current.element.first,
        some pAction⟩) [], n + 1) := by
  cases rangeType <;> rfl

variable [DecidableEq κ]

/-- What the ways down from a node say of the node and of the nodes below it. -/
theorem derivable_ways {depth : ℕ} {t : NameTree ℕ ι κ} (ht : StandsIn nodes t)
    {prev current : Name ι κ} (hget : nodes[t.index]? = some current) (hdepth : t.depth ≤ depth + 1) :
    (∀ way ∈ ways nodes (depth + 1) current, derivable session (prev :: way) = true) ↔
      derives session prev current = true ∧ ∀ next ∈ nodesAt nodes current.children,
        ∀ way ∈ ways nodes depth next, derivable session (current :: way) = true := by
  have hstep : ∀ way ∈ ways nodes (depth + 1) current, derivable session (prev :: way) = true ↔
      derives session prev current = true ∧ derivable session way = true := by
    intro way hway
    obtain ⟨rest, rfl⟩ := ways_start hway
    rw [derivable, Bool.and_eq_true]
  obtain ⟨way, hway⟩ := List.exists_mem_of_ne_nil _ (ways_ne_nil ht hget hdepth)
  constructor
  · intro h
    refine ⟨((hstep way hway).mp (h way hway)).1, fun next hnext rest hrest => ?_⟩
    have hmem : current :: rest ∈ ways nodes (depth + 1) current := by
      obtain ⟨i, hi, -⟩ := mem_nodesAt.mp hnext
      rw [ways, if_neg (List.ne_nil_of_mem hi)]
      exact List.mem_map_of_mem (List.mem_flatMap.mpr ⟨next, hnext, hrest⟩)
    exact ((hstep _ hmem).mp (h _ hmem)).2
  · rintro ⟨hderives, hbelow⟩ way hway
    refine (hstep way hway).mpr ⟨hderives, ?_⟩
    unfold ways at hway
    split at hway
    · rw [List.mem_singleton.mp hway]
      rfl
    · obtain ⟨rest, hrest, rfl⟩ := List.mem_map.mp hway
      obtain ⟨next, hnext, hrest⟩ := List.mem_flatMap.mp hrest
      exact hbelow next hnext rest hrest

/-- A derivation of ways that can all be derived has a range for each of them. -/
theorem buildEnum_ok {rangeType : RangeType} {depth : ℕ} {t : NameTree ℕ ι κ} (ht : StandsIn nodes t)
    {prev current : Name ι κ} (hget : nodes[t.index]? = some current) (hdepth : t.depth ≤ depth)
    (hways : ∀ way ∈ ways nodes depth current, derivable session (prev :: way) = true)
    {pVariable : Variable κ}
    (hvariable : ∀ a, prev.element.second = some a → (session.kind a).isAction = true →
      pVariable.concreteType = some a) (n : ℕ) :
    ∃ ts n', buildEnum session (operationOf rangeType) nodes depth prev current pVariable n =
        .ok (ts, n') ∧ Built session rangeType (ways nodes depth current) ts := by
  induction depth generalizing t prev current pVariable n with
  | zero =>
    cases t with
    | node label ts =>
      rw [RoseTree.depth_node] at hdepth
      omega
  | succ depth ih =>
    obtain ⟨hderives, hbelow⟩ := (derivable_ways ht hget hdepth).mp hways
    simp only [derives, Bool.and_eq_true, Bool.not_eq_true'] at hderives
    obtain ⟨⟨hreference, haction⟩, hlies⟩ := hderives
    obtain ⟨e, hsecond⟩ : ∃ e, current.element.second = some e := by
      cases he : current.element.second with
      | none =>
        rw [he] at haction
        cases haction
      | some e => exact ⟨e, rfl⟩
    have he : (session.kind e).isAction = true := by
      rw [hsecond] at haction
      exact haction
    obtain ⟨heads, v, n1, htarget, hheads, hv⟩ :=
      targetDerivation_of_liesBelow (ι := ι) hsecond he hlies hvariable n
    have hasAction : asAction session current.element.second = some e := by
      rw [hsecond, asAction, Option.filter_some, if_pos he]
    have hnot : ¬ current.isReference = true := by
      rw [hreference]
      exact Bool.false_ne_true
    by_cases hleaf : current.children = []
    · refine ⟨Instruction.nestAll heads [.node (.operation ⟨n1, .range rangeType, v,
        session.asContext current.element.first, some e⟩) []], n1 + 1, ?_, ?_⟩
      · simp only [buildEnum, if_neg hnot, hasAction, htarget, if_pos hleaf, buildRange_eq]
        rfl
      · refine Built.nestAll ⟨?_, ?_⟩ hheads
        · intro t ht
          rw [List.mem_singleton.mp ht]
          exact .node rfl fun c hc => by cases hc
        · rw [ways, if_pos hleaf]
          exact .cons ⟨rfl, current, rfl, rfl, hsecond.symm, hv.trans hsecond.symm⟩ .nil
    · have hbuild : ∀ i ∈ current.children, ∃ next, nodes[i]? = some next ∧ ∀ n, ∃ ts n',
          buildEnum session (operationOf rangeType) nodes depth current next v n = .ok (ts, n') ∧
            Built session rangeType (ways nodes depth next) ts := by
        intro i hi
        obtain ⟨c, hc, hlt, rfl, next, hnext⟩ := exists_child ht hget hi
        refine ⟨next, hnext, fun n => ?_⟩
        refine ih hc hnext (by omega) (hbelow next (mem_nodesAt.mpr ⟨_, hi, hnext⟩)) ?_ n
        intro a ha _
        rw [hv, ← hsecond, ha]
      obtain ⟨ts, n2, hts, hbuilt⟩ := buildRanges_ok hbuild n1
      refine ⟨Instruction.nestAll heads ts, n2, ?_, ?_⟩
      · simp only [buildEnum, if_neg hnot, hasAction, htarget, if_neg hleaf, hts]
        rfl
      · rw [ways, if_neg hleaf]
        exact (hbuilt.cons current).nestAll hheads

/-- What is built has only been built if all ways can be derived. -/
theorem buildEnum_inv {operation : OperationID} {depth : ℕ} {t : NameTree ℕ ι κ}
    (ht : StandsIn nodes t) {prev current : Name ι κ} (hget : nodes[t.index]? = some current)
    (hdepth : t.depth ≤ depth) {pVariable : Variable κ} {n : ℕ} {r : List (Tree ι κ) × ℕ}
    (h : buildEnum session operation nodes depth prev current pVariable n = .ok r) :
    ∀ way ∈ ways nodes depth current, derivable session (prev :: way) = true := by
  induction depth generalizing t prev current pVariable n r with
  | zero => cases h
  | succ depth ih =>
    rw [buildEnum] at h
    by_cases hreference : current.isReference = true
    · rw [if_pos hreference] at h
      cases h
    · rw [if_neg hreference] at h
      cases hasAction : asAction session current.element.second with
      | none => simp only [hasAction, reduceCtorEq] at h
      | some e =>
        simp only [hasAction] at h
        obtain ⟨hsecond, he⟩ := Option.filter_eq_some_iff.mp hasAction
        cases htarget : targetDerivation session prev.element.second e pVariable n with
        | none => simp only [htarget, reduceCtorEq] at h
        | some p =>
          obtain ⟨heads, v, n1⟩ := p
          simp only [htarget] at h
          have hlies : liesBelow session prev current = true := by
            rw [liesBelow, hsecond]
            unfold targetDerivation at htarget
            split at htarget
            · assumption
            · cases htarget
          refine (derivable_ways ht hget hdepth).mpr ⟨?_, ?_⟩
          · rw [Bool.not_eq_true] at hreference
            rw [derives, hreference, hsecond, hlies]
            simpa [DerivationAnalysis.isAction] using he
          · intro next hnext
            obtain ⟨i, hi, hget'⟩ := mem_nodesAt.mp hnext
            obtain ⟨c, hc, hlt, rfl, -⟩ := exists_child ht hget hi
            rw [if_neg (List.ne_nil_of_mem hi)] at h
            obtain ⟨q, hq, -⟩ := except_bind_ok.mp h
            obtain ⟨n', r', hr'⟩ := buildRanges_inv hq next hnext
            exact ih hc hget' (by omega) hr'

/-! ## Cases -/

/-- The instructions of a context, before elimination. -/
def caseTree (head : Head (Option κ) (Option ι)) (pInstance : Variable κ) (ts : List (Tree ι κ)) :
    Tree ι κ :=
  .node head [.node (.enumeration pInstance [] 1) [.node .prune ts]]

/-- The tree has the ranges of the chains of a context. -/
structure IsCase (session : Session ι κ) (rangeType : RangeType) (nodes : Nodes ι κ)
    (context : Name ι κ) (head : Head (Option κ) (Option ι)) (pInstance : Variable κ)
    (ts : List (Tree ι κ)) : Prop where
  ordinary : head.transient = false
  not_operation : ∀ op, head ≠ .operation op
  built : Built session rangeType (chains nodes context) ts
  empty : chains nodes context = [] → ts = []

omit [DecidableEq κ] in
theorem chains_eq_nil (hforest : IsForest nodes) {t : NameTree ℕ ι κ} (ht : StandsIn nodes t)
    {context : Name ι κ} (hget : nodes[t.index]? = some context) :
    chains nodes context = [] ↔ context.children = [] := by
  rw [chains, List.map_eq_nil_iff]
  constructor
  · intro h
    by_contra hne
    obtain ⟨i, hi⟩ := List.exists_mem_of_ne_nil _ hne
    obtain ⟨c, hc, -, rfl, next, hnext⟩ := exists_child ht hget hi
    have hdepth := hc.index_add_depth_le hforest
    refine ways_ne_nil hc hnext (show c.depth ≤ nodes.length by omega) ?_
    exact List.flatMap_eq_nil_iff.mp h next (mem_nodesAt.mpr ⟨_, hi, hnext⟩)
  · intro h
    rw [h]
    rfl

theorem buildEnumeration_ok (hforest : IsForest nodes) {rangeType : RangeType} {t : NameTree ℕ ι κ}
    (ht : StandsIn nodes t) {context : Name ι κ} (hget : nodes[t.index]? = some context)
    (hchains : ∀ chain ∈ chains nodes context, derivable session chain = true)
    {head : ReferenceVariable (Option κ) → Variable κ → Head (Option κ) (Option ι)}
    (hordinary : ∀ v w, (head v w).transient = false) (hop : ∀ v w op, head v w ≠ .operation op)
    (pVariable : ReferenceVariable (Option κ)) (n : ℕ) :
    ∃ tree n', buildEnumeration session (operationOf rangeType) nodes head pVariable context n =
      .ok (tree, n') ∧ ∃ h pInstance ts, tree = caseTree h pInstance ts ∧
        IsCase session rangeType nodes context h pInstance ts := by
  have hbuild : ∀ i ∈ context.children, ∃ next, nodes[i]? = some next ∧ ∀ n', ∃ ts n'',
      buildEnum session (operationOf rangeType) nodes nodes.length context next
        ⟨n, asAction session context.element.second⟩ n' = .ok (ts, n'') ∧
          Built session rangeType (ways nodes nodes.length next) ts := by
    intro i hi
    obtain ⟨c, hc, -, rfl, next, hnext⟩ := exists_child ht hget hi
    have hdepth := hc.index_add_depth_le hforest
    refine ⟨next, hnext, fun n' => buildEnum_ok hc hnext (by omega) (fun way hway => ?_) ?_ n'⟩
    · refine hchains _ (List.mem_map_of_mem (List.mem_flatMap.mpr ⟨next, ?_, hway⟩))
      exact mem_nodesAt.mpr ⟨_, hi, hnext⟩
    · intro a ha haction
      rw [ha, asAction, Option.filter_some, if_pos haction]
  obtain ⟨ts, n1, hts, hbuilt⟩ := buildRanges_ok hbuild (n + 1)
  refine ⟨_, n1, except_bind_ok.mpr ⟨_, hts, rfl⟩, _, _, ts, rfl, hordinary _ _, hop _ _,
    hbuilt.cons context, fun hnil => ?_⟩
  rw [(chains_eq_nil hforest ht hget).mp hnil] at hts
  exact (Prod.mk.inj (Except.ok.inj hts)).1.symm

theorem buildEnumeration_inv (hforest : IsForest nodes) {operation : OperationID} {t : NameTree ℕ ι κ}
    (ht : StandsIn nodes t) {context : Name ι κ} (hget : nodes[t.index]? = some context)
    {head : ReferenceVariable (Option κ) → Variable κ → Head (Option κ) (Option ι)}
    {pVariable : ReferenceVariable (Option κ)} {n : ℕ} {r : Tree ι κ × ℕ}
    (h : buildEnumeration session operation nodes head pVariable context n = .ok r) :
    ∀ chain ∈ chains nodes context, derivable session chain = true := by
  intro chain hchain
  obtain ⟨p, hp, -⟩ := except_bind_ok.mp h
  obtain ⟨way, hway, rfl⟩ := List.mem_map.mp hchain
  obtain ⟨next, hnext, hway⟩ := List.mem_flatMap.mp hway
  obtain ⟨i, hi, hget'⟩ := mem_nodesAt.mp hnext
  obtain ⟨c, hc, -, rfl, -⟩ := exists_child ht hget hi
  have hdepth := hc.index_add_depth_le hforest
  obtain ⟨n', r', hr'⟩ := buildRanges_inv hp next hnext
  exact buildEnum_inv hc hget' (by omega) hr' way hway

omit [DecidableEq κ] in
theorem buildEach_ok {build : Name ι κ → ℕ → Except InvocationFault (Tree ι κ × ℕ)}
    {P : Name ι κ → Tree ι κ → Prop} {children : List ℕ}
    (h : ∀ i ∈ children, ∃ next, nodes[i]? = some next ∧
      ∀ n, ∃ t n', build next n = .ok (t, n') ∧ P next t) (n : ℕ) :
    ∃ ts n', buildEach nodes build children n = .ok (ts, n') ∧
      List.Forall₂ P (nodesAt nodes children) ts := by
  induction children generalizing n with
  | nil => exact ⟨[], n, rfl, .nil⟩
  | cons i children ih =>
    rw [List.forall_mem_cons] at h
    obtain ⟨⟨next, hnext, hbuild⟩, h⟩ := h
    obtain ⟨t, n1, ht, hP⟩ := hbuild n
    obtain ⟨ts, n2, hts, hrest⟩ := ih h n1
    refine ⟨t :: ts, n2, ?_, ?_⟩
    · rw [buildEach, hnext]
      exact except_bind_ok.mpr ⟨_, ht, except_bind_ok.mpr ⟨_, hts, rfl⟩⟩
    · rw [nodesAt, List.filterMap_cons, hnext]
      exact .cons hP hrest

omit [DecidableEq κ] in
theorem buildEach_inv {build : Name ι κ → ℕ → Except InvocationFault (Tree ι κ × ℕ)}
    {children : List ℕ} {n : ℕ} {r : List (Tree ι κ) × ℕ}
    (h : buildEach nodes build children n = .ok r) :
    ∀ next ∈ nodesAt nodes children, ∃ n r, build next n = .ok r := by
  induction children generalizing n r with
  | nil => simp [nodesAt]
  | cons i children ih =>
    rw [buildEach] at h
    cases hnext : nodes[i]? with
    | none => simp only [hnext, reduceCtorEq] at h
    | some next =>
      simp only [hnext] at h
      obtain ⟨p, hp, h⟩ := except_bind_ok.mp h
      obtain ⟨q, hq, -⟩ := except_bind_ok.mp h
      rw [nodesAt, List.filterMap_cons, hnext]
      exact List.forall_mem_cons.mpr ⟨⟨n, p, hp⟩, ih hq⟩

end Build
end Invocation
end EgLang.Compiler
