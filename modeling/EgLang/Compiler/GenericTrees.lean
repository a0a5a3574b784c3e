import EgLang.Compiler.RangeBuilding
import EgLang.Compiler.Route
import Mathlib.Order.Interval.Multiset

/-!
# The trees of generic invocations

What `GenericOperationVisitor` builds, as a relation between a tree of resolved names and a tree of
instructions, which knows neither the indices of names nor the addresses of operations.
-/

namespace EgLang.Compiler

open EgLang.Library NameResolution

set_option autoImplicit false

namespace Invocation
variable {ι κ : Type} (session : Session ι κ) (operation : OperationID)

/-! ## Operations -/

/-- The operation on an element, and the element that a variable is derived for. -/
def operationOn (e : κ) : Except InvocationFault (OperationType × Option κ) :=
  match session.kind e with
  | .action _ =>
    (actionOperation operation).map fun r => (r.1, if r.2 then session.getParent e else some e)
  | .userDimension _ => (dimensionOperation session e operation).map fun type => (type, some e)
  | .generatedDimension => .error .invalidTarget

/-- The interface type of the operation on an element. -/
def interfaceOf (e : κ) (first : Option ι) : Option ι :=
  match session.kind e with
  | .action _ => session.asContext first
  | _ => asDimension session first

variable {session operation} [DecidableEq κ]

theorem buildOperation_ok {prev current : Name ι κ} {v : Variable κ} {n : ℕ} {r : Tree ι κ × ℕ}
    (h : buildOperation session operation prev current v n = .ok r) :
    ∃ e type pTo heads w m, current.element.second = some e ∧
      operationOn session operation e = .ok (type, pTo) ∧
      commonRootDerivation session prev.element.second pTo v n = .ok (heads, w, m) ∧
      r = (.nest heads (.node (.operation
        ⟨m, type, w, interfaceOf session e current.element.first, some e⟩) []), m + 1) := by
  rw [buildOperation] at h
  split at h
  · cases h
  · rename_i e he
    cases hkind : session.kind e with
    | action context =>
      simp only [hkind] at h
      obtain ⟨⟨type, onParent⟩, htype, h⟩ := except_bind_ok.mp h
      obtain ⟨⟨heads, w, m⟩, hderive, h⟩ := except_bind_ok.mp h
      refine ⟨e, type, _, heads, w, m, he, ?_, hderive, ?_⟩
      · rw [operationOn, hkind]
        show (actionOperation operation).map _ = _
        rw [htype]
        rfl
      · rw [interfaceOf, hkind]
        exact (Except.ok.inj h).symm
    | userDimension contextTypes =>
      simp only [hkind] at h
      obtain ⟨⟨heads, w, m⟩, hderive, h⟩ := except_bind_ok.mp h
      obtain ⟨type, htype, h⟩ := except_bind_ok.mp h
      refine ⟨e, type, _, heads, w, m, he, ?_, hderive, ?_⟩
      · rw [operationOn, hkind]
        show (dimensionOperation session e operation).map _ = _
        rw [htype]
        rfl
      · rw [interfaceOf, hkind]
        exact (Except.ok.inj h).symm
    | generatedDimension =>
      simp only [hkind, reduceCtorEq] at h

/-! ## Trees -/

/-- How a name is come to: as a member of what a variable holds, as what a reference refers to, or, once
its variable has been derived, for what stands below it. -/
inductive Stage
  | member
  | referent
  | below
deriving DecidableEq

/-- What is built for a name after the element `prev`, from a variable on. -/
inductive GenericTree (session : Session ι κ) (operation : OperationID) :
    Stage → Option κ → NameTree ℕ ι κ → Variable κ → Tree ι κ → Prop
  | operation {stage : Stage} {prev pTo : Option κ} {a : ℕ × Mark ι κ} {e : κ} {type : OperationType}
      {v w : Variable κ} {n m : ℕ} {heads : List (Head (Option κ) (Option ι))}
      (hstage : stage ≠ .below) (he : a.2.element.second = some e)
      (htype : operationOn session operation e = .ok (type, pTo))
      (hderive : commonRootDerivation session prev pTo v n = .ok (heads, w, m)) :
      GenericTree session operation stage prev (.node a []) v (.nest heads (.node (.operation
        ⟨m, type, w, interfaceOf session e a.2.element.first, some e⟩) []))
  | referent {prev : Option κ} {a : ℕ × Mark ι κ} {ts : List (NameTree ℕ ι κ)} {v : Variable κ}
      {t : Tree ι κ} (h : GenericTree session operation .below none (.node a ts) v t) :
      GenericTree session operation .referent prev (.node a ts) v t
  | member {prev : Option κ} {a : ℕ × Mark ι κ} {ts : List (NameTree ℕ ι κ)} {v w : Variable κ}
      {n m : ℕ} {heads : List (Head (Option κ) (Option ι))} {t : Tree ι κ}
      (hreference : a.2.isReference = false)
      (hderive : commonRootDerivation session prev a.2.element.second v n = .ok (heads, w, m))
      (h : GenericTree session operation .below none (.node a ts) w t) :
      GenericTree session operation .member prev (.node a ts) v (.nest heads t)
  | mono {prev : Option κ} {a : ℕ × Mark ι κ} {c : NameTree ℕ ι κ} {v w : Variable κ} {n m i : ℕ}
      {heads : List (Head (Option κ) (Option ι))} {t : Tree ι κ} (hreference : a.2.isReference = true)
      (hderive : commonRootDerivation session prev a.2.element.second v n = .ok (heads, w, m))
      (h : GenericTree session operation .referent a.2.element.second c
        ⟨i, asAction session c.label.2.element.second⟩ t) :
      GenericTree session operation .member prev (.node a [c]) v (.nest heads
        (.node (.dimensionReferenceRead w ⟨m, [c.label.2.element.second]⟩
          (asDimensionElement session a.2.element.second))
          [.node (.monoReference ⟨m, [c.label.2.element.second]⟩
            ⟨i, asAction session c.label.2.element.second⟩) [t]]))
  | poly {prev : Option κ} {a : ℕ × Mark ι κ} {v w : Variable κ} {n m : ℕ}
      {heads : List (Head (Option κ) (Option ι))}
      {cases : List (NameTree ℕ ι κ × Variable κ × Tree ι κ)} (hreference : a.2.isReference = true)
      (hderive : commonRootDerivation session prev a.2.element.second v n = .ok (heads, w, m))
      (hlength : 1 < cases.length)
      (hvariable : ∀ c ∈ cases, c.2.1.concreteType = asAction session c.1.label.2.element.second)
      (h : ∀ c ∈ cases, GenericTree session operation .referent a.2.element.second c.1 c.2.1 c.2.2) :
      GenericTree session operation .member prev (.node a (cases.map Prod.fst)) v (.nest heads
        (.node (.dimensionReferenceRead w ⟨m, cases.map fun c => c.1.label.2.element.second⟩
          (asDimensionElement session a.2.element.second))
          [.node (.polyReference ⟨m, cases.map fun c => c.1.label.2.element.second⟩)
            (cases.map fun c => .node
              (.polyCase ⟨m, cases.map fun c => c.1.label.2.element.second⟩ c.2.1) [c.2.2])]))
  | single {a : ℕ × Mark ι κ} {c : NameTree ℕ ι κ} {v : Variable κ} {t : Tree ι κ}
      (h : GenericTree session operation .member a.2.element.second c v t) :
      GenericTree session operation .below none (.node a [c]) v t
  | group {a : ℕ × Mark ι κ} {v : Variable κ} {alternatives : List (NameTree ℕ ι κ × Tree ι κ)}
      (hlength : 1 < alternatives.length)
      (h : ∀ c ∈ alternatives, GenericTree session operation .member a.2.element.second c.1 v c.2) :
      GenericTree session operation .below none (.node a (alternatives.map Prod.fst)) v
        (.node .elimination (alternatives.map Prod.snd))

/-- The children of the root instruction, for the names of the contexts. -/
inductive GenericRoot (session : Session ι κ) (operation : OperationID)
    (pVariable : ReferenceVariable (Option κ)) : NameTree ℕ ι κ → List (Tree ι κ) → Prop
  | mono {a : ℕ × Mark ι κ} {c : NameTree ℕ ι κ} {i : ℕ} {t : Tree ι κ}
      (h : GenericTree session operation .referent a.2.element.second c
        ⟨i, asAction session c.label.2.element.second⟩ t) :
      GenericRoot session operation pVariable (.node a [c])
        [.node (.monoReference pVariable ⟨i, asAction session c.label.2.element.second⟩) [t]]
  | poly {a : ℕ × Mark ι κ} {cases : List (NameTree ℕ ι κ × Variable κ × Tree ι κ)}
      (hvariable : ∀ c ∈ cases, c.2.1.concreteType = asAction session c.1.label.2.element.second)
      (h : ∀ c ∈ cases, GenericTree session operation .referent a.2.element.second c.1 c.2.1 c.2.2) :
      GenericRoot session operation pVariable (.node a (cases.map Prod.fst))
        [.node (.polyReference pVariable) (cases.map fun c =>
          .node (.polyCase pVariable c.2.1) [c.2.2])]

/-! ## Addresses -/

/-- The variables of some trees have addresses from `n` on and below `k`, each its own. -/
def Fresh (n k : ℕ) (bound : Multiset ℕ) : Prop := n ≤ k ∧ bound ≤ Multiset.Ico n k

theorem Fresh.nil (n : ℕ) : Fresh n n 0 := ⟨le_rfl, Multiset.zero_le _⟩

theorem Fresh.single (n : ℕ) : Fresh n (n + 1) {n} := by
  refine ⟨Nat.le_succ n, ?_⟩
  rw [Multiset.singleton_le, Multiset.mem_Ico]
  omega

theorem Fresh.append {n m k : ℕ} {b b' : Multiset ℕ} (h : Fresh n m b) (h' : Fresh m k b') :
    Fresh n k (b + b') := by
  refine ⟨h.1.trans h'.1, ?_⟩
  rw [← Multiset.Ico_add_Ico_eq_Ico h.1 h'.1]
  exact add_le_add h.2 h'.2

theorem Fresh.nodup {n k : ℕ} {b : Multiset ℕ} (h : Fresh n k b) : b.Nodup :=
  Multiset.nodup_of_le h.2 (Multiset.nodup_Ico ..)

omit [DecidableEq κ] in
/-- The variables of a derivation come before those of the tree below it. -/
theorem fresh_derive {steps : List (Step κ)} {v w : Variable κ} {n m k : ℕ}
    {heads : List (Head (Option κ) (Option ι))} (h : derive steps v n = (heads, w, m)) {t : Tree ι κ}
    (ht : Fresh m k t.bound) : Fresh n k (Instruction.nest heads t).bound := by
  induction steps generalizing v n heads with
  | nil =>
    cases h
    exact ht
  | cons step steps ih =>
    cases step with
    | parent pParent =>
      obtain ⟨rest, hrest⟩ : ∃ rest, derive (ι := ι) steps ⟨n, pParent⟩ (n + 1) = rest := ⟨_, rfl⟩
      obtain ⟨heads', w', m'⟩ := rest
      rw [derive, hrest] at h
      cases h
      have hbelow := (Fresh.single n).append (ih hrest)
      simpa [Instruction.nest, Head.binds, Head.isClosed] using hbelow
    | child pAction =>
      obtain ⟨rest, hrest⟩ : ∃ rest, derive (ι := ι) steps ⟨n, some pAction⟩ (n + 1) = rest :=
        ⟨_, rfl⟩
      obtain ⟨heads', w', m'⟩ := rest
      rw [derive, hrest] at h
      cases h
      have hbelow := (Fresh.single n).append (ih hrest)
      simpa [Instruction.nest, Head.binds, Head.isClosed] using hbelow
    | failure =>
      cases h
      refine ⟨ht.1, ?_⟩
      simp [Instruction.nest, Head.binds, Head.isClosed]

theorem fresh_commonRootDerivation {prev pTo : Option κ} {v w : Variable κ} {n m k : ℕ}
    {heads : List (Head (Option κ) (Option ι))}
    (h : commonRootDerivation session prev pTo v n = .ok (heads, w, m)) {t : Tree ι κ}
    (ht : Fresh m k t.bound) : Fresh n k (Instruction.nest heads t).bound := by
  rw [commonRootDerivation] at h
  cases hsteps : commonRootSteps session prev pTo with
  | error e =>
    rw [hsteps] at h
    cases h
  | ok steps =>
    rw [hsteps] at h
    exact fresh_derive (Except.ok.inj h) ht

/-! ## Building -/

variable {nodes : Nodes ι κ}

omit [DecidableEq κ] in
/-- What the loop over the children of a node builds for their names. -/
theorem buildEach_generic {build : Name ι κ → ℕ → Except InvocationFault (Tree ι κ × ℕ)}
    {R : NameTree ℕ ι κ → Tree ι κ → Prop} {binds : Tree ι κ → Multiset ℕ}
    {ts : List (NameTree ℕ ι κ)}
    (h : ∀ c ∈ ts, ∃ next, nodes[c.index]? = some next ∧ ∀ n r, build next n = .ok r →
      R c r.1 ∧ Fresh n r.2 (binds r.1)) {n : ℕ} {r : List (Tree ι κ) × ℕ}
    (hr : buildEach nodes build (ts.map RoseTree.index) n = .ok r) :
    List.Forall₂ R ts r.1 ∧ Fresh n r.2 (r.1.map binds).sum := by
  induction ts generalizing n r with
  | nil =>
    obtain rfl := Except.ok.inj hr
    exact ⟨.nil, .nil n⟩
  | cons c ts ih =>
    rw [List.forall_mem_cons] at h
    obtain ⟨⟨next, hnext, hbuild⟩, h⟩ := h
    rw [List.map_cons, buildEach, hnext] at hr
    obtain ⟨p, hp, hr⟩ := except_bind_ok.mp hr
    obtain ⟨q, hq, hr⟩ := except_bind_ok.mp hr
    obtain rfl := Except.ok.inj hr
    obtain ⟨hR, hfresh⟩ := hbuild n p hp
    obtain ⟨hRs, hfreshs⟩ := ih h hq
    refine ⟨.cons hR hRs, ?_⟩
    rw [List.map_cons, List.sum_cons]
    exact hfresh.append hfreshs

/-- Related lists, as one list of pairs. -/
theorem exists_pairs {α β : Type} {R : α → β → Prop} {as : List α} {bs : List β}
    (h : List.Forall₂ R as bs) :
    ∃ pairs : List (α × β), as = pairs.map Prod.fst ∧ bs = pairs.map Prod.snd ∧
      ∀ p ∈ pairs, R p.1 p.2 := by
  induction h with
  | nil => exact ⟨[], rfl, rfl, by simp⟩
  | @cons a b as bs hab _ ih =>
    obtain ⟨pairs, rfl, rfl, hpairs⟩ := ih
    exact ⟨(a, b) :: pairs, rfl, rfl, List.forall_mem_cons.mpr ⟨hab, hpairs⟩⟩

omit [DecidableEq κ] in
/-- What a name says in the vector it says in the tree. -/
theorem stands_mark {t : NameTree ℕ ι κ} (ht : StandsIn nodes t) {current : Name ι κ}
    (hget : nodes[t.index]? = some current) :
    current.mark = t.label.2 ∧ current.children = t.children.map RoseTree.index := by
  obtain ⟨a, ha, hmark, hchildren⟩ := ht.get
  obtain rfl : a = current := Option.some.inj (ha.symm.trans hget)
  exact ⟨hmark, hchildren⟩

omit [DecidableEq κ] in
/-- The names below a name. -/
theorem exists_next {t : NameTree ℕ ι κ} (ht : StandsIn nodes t) {c : NameTree ℕ ι κ}
    (hc : c ∈ t.children) :
    StandsIn nodes c ∧ c.depth < t.depth ∧ ∃ next, nodes[c.index]? = some next := by
  have hstands := ht.child hc
  obtain ⟨next, hnext, -⟩ := hstands.get
  refine ⟨hstands, ?_, next, hnext⟩
  cases t with
  | node label ts => exact RoseTree.depth_lt_of_mem hc

/-- The builder of names, down to a depth, builds generic trees of fresh variables. -/
def Builds (session : Session ι κ) (operation : OperationID) (nodes : Nodes ι κ) (bound : ℕ)
    (build : Name ι κ → Name ι κ → Variable κ → ℕ → Except InvocationFault (Tree ι κ × ℕ)) : Prop :=
  ∀ ⦃t : NameTree ℕ ι κ⦄, StandsIn nodes t → t.depth ≤ bound → ∀ ⦃prev current : Name ι κ⦄,
    nodes[t.index]? = some current → ∀ ⦃v : Variable κ⦄ ⦃n : ℕ⦄ ⦃r : Tree ι κ × ℕ⦄,
      build prev current v n = .ok r →
        GenericTree session operation .member prev.element.second t v r.1 ∧ Fresh n r.2 r.1.bound

/-- What stands below a name. -/
theorem buildAlternatives_generic {bound : ℕ}
    {build : Name ι κ → Name ι κ → Variable κ → ℕ → Except InvocationFault (Tree ι κ × ℕ)}
    (hbuild : Builds session operation nodes bound build) {t : NameTree ℕ ι κ} (ht : StandsIn nodes t)
    (hdepth : t.depth ≤ bound + 1) {current : Name ι κ} (hget : nodes[t.index]? = some current)
    (hne : current.children ≠ []) {v : Variable κ} {n : ℕ} {r : List (Tree ι κ) × ℕ}
    (h : buildAlternatives nodes (fun next n => build current next v n) current n = .ok r) :
    ∃ u, r.1 = [u] ∧ GenericTree session operation .below none t v u ∧ Fresh n r.2 u.bound := by
  obtain ⟨hmark, hchildren⟩ := stands_mark ht hget
  have hsecond : current.element.second = t.label.2.element.second := by rw [← hmark]; rfl
  have heach : ∀ c ∈ t.children, ∃ next, nodes[c.index]? = some next ∧ ∀ n r,
      build current next v n = .ok r →
        GenericTree session operation .member t.label.2.element.second c v r.1 ∧
          Fresh n r.2 r.1.bound := by
    intro c hc
    obtain ⟨hstands, hlt, next, hnext⟩ := exists_next ht hc
    refine ⟨next, hnext, fun n r hr => ?_⟩
    rw [← hsecond]
    exact hbuild hstands (by omega) hnext hr
  obtain ⟨⟨us, k⟩, hus, h⟩ := except_bind_ok.mp h
  rw [hchildren] at hus
  obtain ⟨hall, hfresh⟩ := buildEach_generic heach hus
  have hlength : current.children.length = t.children.length := by rw [hchildren, List.length_map]
  dsimp only at hall hfresh h
  rw [hlength] at h
  cases t with
  | node a ts =>
    obtain ⟨pairs, hts, rfl, hbuilt⟩ := exists_pairs hall
    rw [RoseTree.children_node] at hts hchildren h
    subst hts
    by_cases hmany : (pairs.map Prod.fst).length > 1
    · rw [if_pos hmany] at h
      obtain rfl := Except.ok.inj h
      refine ⟨_, rfl, .group (by rwa [List.length_map] at hmany) hbuilt, ?_⟩
      rw [← Instruction.boundAll_eq] at hfresh
      simpa [Head.binds, Head.isClosed] using hfresh
    · rw [if_neg hmany] at h
      obtain rfl := Except.ok.inj h
      rcases pairs with _ | ⟨p, _ | ⟨q, rest⟩⟩
      · exact absurd hchildren hne
      · exact ⟨p.2, rfl, .single (hbuilt p List.mem_cons_self), by simpa using hfresh⟩
      · exact absurd (by simp) hmany

/-- What is built for a name that a reference refers to, the variable of which is made here. -/
theorem buildDereference_generic {bound : ℕ}
    {build : Name ι κ → Name ι κ → Variable κ → ℕ → Except InvocationFault (Tree ι κ × ℕ)}
    (hbuild : Builds session operation nodes bound build) {t : NameTree ℕ ι κ} (ht : StandsIn nodes t)
    (hdepth : t.depth ≤ bound + 1) {prev current : Name ι κ} (hget : nodes[t.index]? = some current)
    {head : ReferenceVariable (Option κ) → Variable κ → Head (Option κ) (Option ι)}
    {pVariable : ReferenceVariable (Option κ)} {n : ℕ} {r : Tree ι κ × ℕ}
    (h : buildDereference session operation nodes build head pVariable prev current n = .ok r) :
    ∃ u, r.1 = .node (head pVariable ⟨n, asAction session t.label.2.element.second⟩) [u] ∧
      GenericTree session operation .referent prev.element.second t
        ⟨n, asAction session t.label.2.element.second⟩ u ∧ Fresh n r.2 ({n} + u.bound) := by
  obtain ⟨hmark, hchildren⟩ := stands_mark ht hget
  have helement : current.element = t.label.2.element := by rw [← hmark]; rfl
  simp only [buildDereference] at h
  rw [helement] at h
  by_cases hleaf : current.children = []
  · rw [if_pos hleaf] at h
    obtain ⟨⟨u, k⟩, hu, h⟩ := except_bind_ok.mp h
    obtain rfl := Except.ok.inj h
    obtain ⟨e, type, pTo, heads, w, m, he, htype, hderive, hr⟩ := buildOperation_ok hu
    obtain ⟨rfl, rfl⟩ := Prod.mk.inj hr
    refine ⟨_, rfl, ?_, (Fresh.single n).append (fresh_commonRootDerivation hderive ?_)⟩
    · rw [helement] at he
      cases t with
      | node a ts =>
        rw [hchildren] at hleaf
        obtain rfl : ts = [] := List.map_eq_nil_iff.mp hleaf
        rw [helement]
        exact .operation (by decide) he htype hderive
    · exact ⟨Nat.le_succ m, by simp [Head.binds, Head.isClosed, Instruction.boundAll]⟩
  · rw [if_neg hleaf] at h
    obtain ⟨⟨us, k⟩, hus, h⟩ := except_bind_ok.mp h
    obtain rfl := Except.ok.inj h
    obtain ⟨u, hu, hbelow, hfresh⟩ := buildAlternatives_generic hbuild ht hdepth hget hleaf hus
    dsimp only at hu hfresh
    subst hu
    refine ⟨u, rfl, ?_, (Fresh.single n).append hfresh⟩
    cases t with
    | node a ts => exact .referent hbelow

/-- A tree is that of a name that a reference refers to. -/
def IsReferent (session : Session ι κ) (operation : OperationID)
    (head : Variable κ → Head (Option κ) (Option ι)) (prev : Option κ) (c : NameTree ℕ ι κ)
    (t : Tree ι κ) : Prop :=
  ∃ x u, t = .node (head x) [u] ∧ x.concreteType = asAction session c.label.2.element.second ∧
    GenericTree session operation .referent prev c x u

/-- The trees of some names, as one list of names with their variables and trees. -/
theorem exists_cases {head : Variable κ → Head (Option κ) (Option ι)} {prev : Option κ}
    {ts : List (NameTree ℕ ι κ)} {us : List (Tree ι κ)}
    (h : List.Forall₂ (IsReferent session operation head prev) ts us) :
    ∃ cases : List (NameTree ℕ ι κ × Variable κ × Tree ι κ), ts = cases.map Prod.fst ∧
      us = (cases.map fun c => .node (head c.2.1) [c.2.2]) ∧
      (∀ c ∈ cases, c.2.1.concreteType = asAction session c.1.label.2.element.second) ∧
      ∀ c ∈ cases, GenericTree session operation .referent prev c.1 c.2.1 c.2.2 := by
  induction h with
  | nil => exact ⟨[], rfl, rfl, by simp, by simp⟩
  | @cons c t ts us hc _ ih =>
    obtain ⟨x, u, rfl, hx, hu⟩ := hc
    obtain ⟨cases, rfl, rfl, hvariable, htrees⟩ := ih
    exact ⟨(c, x, u) :: cases, rfl, rfl, List.forall_mem_cons.mpr ⟨hx, hvariable⟩,
      List.forall_mem_cons.mpr ⟨hu, htrees⟩⟩

/-- What is built for a reference dimension, once the variable of its action has been derived. -/
theorem buildDimensionReference_generic {bound : ℕ}
    {build : Name ι κ → Name ι κ → Variable κ → ℕ → Except InvocationFault (Tree ι κ × ℕ)}
    (hbuild : Builds session operation nodes bound build) {a : ℕ × Mark ι κ}
    {ts : List (NameTree ℕ ι κ)} (ht : StandsIn nodes (.node a ts))
    (hdepth : (RoseTree.node a ts).depth ≤ bound + 2) {current : Name ι κ}
    (hget : nodes[(RoseTree.node a ts).index]? = some current) (hne : current.children ≠ [])
    (hreference : current.isReference = true) {prev : Option κ} {v w : Variable κ} {n m : ℕ}
    {heads : List (Head (Option κ) (Option ι))}
    (hderive : commonRootDerivation session prev a.2.element.second v n = .ok (heads, w, m))
    {r : Tree ι κ × ℕ} (h : buildDimensionReference session operation nodes build current w m = .ok r) :
    GenericTree session operation .member prev (.node a ts) v (.nest heads r.1) ∧
      Fresh m r.2 r.1.bound := by
  obtain ⟨hmark, hchildren⟩ := stands_mark ht hget
  rw [RoseTree.children_node] at hchildren
  have hreference' : a.2.isReference = true := by
    have hown : current.mark.isReference = a.2.isReference := congrArg Mark.isReference hmark
    exact hown.symm.trans hreference
  have hsecond : current.element.second = a.2.element.second := congrArg (·.element.second) hmark
  have htypes : ∀ us : List (NameTree ℕ ι κ), (∀ c ∈ us, StandsIn nodes c) →
      (us.map RoseTree.index).map (fun index => nodes[index]?.bind fun next => next.element.second) =
        us.map fun c => c.label.2.element.second := by
    intro us hus
    rw [List.map_map]
    refine List.map_congr_left fun c hc => ?_
    obtain ⟨next, hnext, hmark', -⟩ := (hus c hc).get
    show nodes[c.index]?.bind _ = _
    rw [hnext, ← hmark']
    rfl
  have hown := htypes ts fun c hc => ht.child hc
  have heach : ∀ (head : ReferenceVariable (Option κ) → Variable κ → Head (Option κ) (Option ι))
      (pReference : ReferenceVariable (Option κ)), (∀ v, (head pReference v).binds = {v.address}) →
      (∀ v, (head pReference v).isClosed = false) →
      ∀ c ∈ ts, ∃ next, nodes[c.index]? = some next ∧ ∀ n r,
        buildDereference session operation nodes build head pReference current next n = .ok r →
          IsReferent session operation (head pReference) a.2.element.second c r.1 ∧
            Fresh n r.2 r.1.bound := by
    intro head pReference hbinds hclosed c hc
    obtain ⟨hstands, hlt, next, hnext⟩ := exists_next ht (c := c) hc
    refine ⟨next, hnext, fun n r hr => ?_⟩
    obtain ⟨u, hu, htree, hfresh⟩ := buildDereference_generic hbuild hstands (by omega) hnext hr
    rw [hsecond] at htree
    refine ⟨⟨_, u, hu, rfl, htree⟩, ?_⟩
    rw [hu]
    simpa [hbinds, hclosed] using hfresh
  rw [buildDimensionReference] at h
  simp only [hchildren, hown, hsecond] at h
  by_cases hmany : (ts.map fun c => c.label.2.element.second).length > 1
  · rw [if_pos hmany] at h
    unfold buildPolymorphicCase at h
    obtain ⟨⟨us, k⟩, hus, h⟩ := except_bind_ok.mp h
    obtain rfl := Except.ok.inj h
    obtain ⟨hall, hfresh⟩ := buildEach_generic
      (heach .polyCase ⟨m, ts.map fun c => c.label.2.element.second⟩ (fun v => rfl) fun v => rfl) hus
    dsimp only at hall hfresh
    obtain ⟨cases, rfl, rfl, hvariable, htrees⟩ := exists_cases hall
    have hreferents : (cases.map Prod.fst).map (fun c => c.label.2.element.second) =
        cases.map fun c => c.1.label.2.element.second := List.map_map
    rw [← Instruction.boundAll_eq] at hfresh
    rw [hreferents] at hmany hfresh ⊢
    refine ⟨.poly hreference' hderive (by rwa [List.length_map] at hmany) hvariable htrees, ?_⟩
    simpa [Head.binds, Head.isClosed] using (Fresh.single m).append hfresh
  · rw [if_neg hmany] at h
    unfold buildMonoDereference at h
    obtain ⟨⟨us, k⟩, hus, h⟩ := except_bind_ok.mp h
    obtain rfl := Except.ok.inj h
    obtain ⟨hall, hfresh⟩ := buildEach_generic
      (heach .monoReference ⟨m, ts.map fun c => c.label.2.element.second⟩ (fun v => rfl)
        fun v => rfl) hus
    dsimp only at hall hfresh
    rcases ts with _ | ⟨c, _ | ⟨d, rest⟩⟩
    · exact absurd hchildren hne
    · cases hall with
      | cons hone hnone =>
        cases hnone
        obtain ⟨⟨i, type⟩, u, rfl, hx, htree⟩ := hone
        dsimp only at hx
        subst hx
        refine ⟨.mono hreference' hderive htree, ?_⟩
        simpa [Head.binds, Head.isClosed] using (Fresh.single m).append hfresh
    · exact absurd (by simp) hmany

/-- **The builder of names** builds generic trees. -/
theorem buildGenerateName_generic (depth : ℕ) :
    Builds session operation nodes depth (buildGenerateName session operation nodes depth) := by
  induction depth with
  | zero =>
    intro t _ hdepth
    cases t with
    | node a ts =>
      rw [RoseTree.depth_node] at hdepth
      omega
  | succ depth ih =>
    intro t ht hdepth prev current hget v n r h
    obtain ⟨hmark, hchildren⟩ := stands_mark ht hget
    have helement : current.element = t.label.2.element := by rw [← hmark]; rfl
    rw [buildGenerateName] at h
    by_cases hleaf : current.children = []
    · rw [if_pos hleaf] at h
      obtain ⟨e, type, pTo, heads, w, m, he, htype, hderive, rfl⟩ := buildOperation_ok h
      rw [helement] at he
      refine ⟨?_, fresh_commonRootDerivation hderive ⟨Nat.le_succ m, ?_⟩⟩
      · cases t with
        | node a ts =>
          rw [hchildren] at hleaf
          obtain rfl : ts = [] := List.map_eq_nil_iff.mp hleaf
          rw [helement]
          exact .operation (by decide) he htype hderive
      · simp [Head.binds, Head.isClosed, Instruction.boundAll]
    · rw [if_neg hleaf] at h
      obtain ⟨⟨heads, w, m⟩, hderive, h⟩ := except_bind_ok.mp h
      rw [helement] at hderive
      cases t with
      | node a ts =>
        by_cases hreference : current.isReference = true
        · simp only [hreference, if_true] at h
          obtain ⟨⟨u, k⟩, hu, h⟩ := except_bind_ok.mp h
          obtain rfl := Except.ok.inj h
          obtain ⟨htree, hfresh⟩ := buildDimensionReference_generic ih ht (by omega) hget hleaf
            hreference hderive hu
          exact ⟨htree, fresh_commonRootDerivation hderive hfresh⟩
        · simp only [hreference, Bool.false_eq_true, if_false] at h
          obtain ⟨⟨us, k⟩, hus, h⟩ := except_bind_ok.mp h
          obtain ⟨u, hu, hbelow, hfresh⟩ := buildAlternatives_generic ih ht hdepth hget hleaf hus
          dsimp only at hu hfresh
          subst hu
          obtain rfl := Except.ok.inj h
          refine ⟨.member ?_ hderive hbelow, fresh_commonRootDerivation hderive hfresh⟩
          have hown : current.mark.isReference = a.2.isReference := congrArg Mark.isReference hmark
          rw [← hown]
          exact Bool.eq_false_iff.mpr hreference

/-- **The visitor** builds generic trees for the names of the contexts. -/
theorem buildGeneric_generic (hforest : IsForest nodes) {t : NameTree ℕ ι κ} (ht : StandsIn nodes t)
    (hi : t.index = 0) (hne : t.children ≠ []) {pVariable : ReferenceVariable (Option κ)}
    (htypes : pVariable.types = t.children.map fun c => c.label.2.element.second) {n : ℕ}
    {r : List (Tree ι κ) × ℕ} (h : buildGeneric session operation nodes pVariable n = .ok r) :
    GenericRoot session operation pVariable t r.1 ∧ Fresh n r.2 (Instruction.boundAll r.1) := by
  obtain ⟨current, hget, hmark, hchildren⟩ := ht.get
  have hbuild : Builds session operation nodes nodes.length
      (buildGenerateName session operation nodes nodes.length) :=
    buildGenerateName_generic nodes.length
  have hdepth := ht.index_add_depth_le hforest
  have heach : ∀ (head : ReferenceVariable (Option κ) → Variable κ → Head (Option κ) (Option ι)),
      (∀ v, (head pVariable v).binds = {v.address}) → (∀ v, (head pVariable v).isClosed = false) →
      ∀ c ∈ t.children, ∃ next, nodes[c.index]? = some next ∧ ∀ n r,
        buildDereference session operation nodes
            (buildGenerateName session operation nodes nodes.length) head pVariable current next n =
          .ok r →
          IsReferent session operation (head pVariable) t.label.2.element.second c r.1 ∧
            Fresh n r.2 r.1.bound := by
    intro head hbinds hclosed c hc
    obtain ⟨hstands, hlt, next, hnext⟩ := exists_next ht hc
    refine ⟨next, hnext, fun n r hr => ?_⟩
    obtain ⟨u, hu, htree, hfresh⟩ := buildDereference_generic hbuild hstands (by omega) hnext hr
    have hsecond : current.element.second = t.label.2.element.second := by rw [← hmark]; rfl
    rw [hsecond] at htree
    refine ⟨⟨_, u, hu, rfl, htree⟩, ?_⟩
    rw [hu]
    simpa [hbinds, hclosed] using hfresh
  rw [hi] at hget
  rw [buildGeneric, hget] at h
  simp only [htypes, hchildren] at h
  cases t with
  | node a ts =>
    rw [RoseTree.children_node] at hne h
    by_cases hmany : (ts.map fun c => c.label.2.element.second).length > 1
    · rw [if_pos hmany] at h
      unfold buildPolymorphicCase at h
      obtain ⟨⟨us, k⟩, hus, h⟩ := except_bind_ok.mp h
      obtain rfl := Except.ok.inj h
      obtain ⟨hall, hfresh⟩ := buildEach_generic
        (heach .polyCase (fun v => rfl) fun v => rfl) hus
      dsimp only at hall hfresh
      obtain ⟨cases, hts, rfl, hvariable, htrees⟩ := exists_cases hall
      rw [RoseTree.children_node] at hts
      subst hts
      refine ⟨.poly hvariable htrees, ?_⟩
      rw [← Instruction.boundAll_eq] at hfresh
      simpa [Head.binds, Head.isClosed] using hfresh
    · rw [if_neg hmany] at h
      unfold buildMonoDereference at h
      obtain ⟨hall, hfresh⟩ := buildEach_generic
        (heach .monoReference (fun v => rfl) fun v => rfl) h
      rw [← Instruction.boundAll_eq] at hfresh
      rcases ts with _ | ⟨c, _ | ⟨d, rest⟩⟩
      · exact absurd rfl hne
      · rw [RoseTree.children_node] at hall
        generalize r.1 = us at hall hfresh ⊢
        cases hall with
        | cons hone hnone =>
          cases hnone
          obtain ⟨⟨i, type⟩, u, rfl, hx, htree⟩ := hone
          dsimp only at hx
          subst hx
          exact ⟨.mono htree, hfresh⟩
      · exact absurd (by simp) hmany

end Invocation
end EgLang.Compiler
