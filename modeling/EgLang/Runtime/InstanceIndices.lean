import EgLang.Runtime.Allocators
import EgLang.Runtime.BufferPlacement

/-! # Instance indices

The arithmetic that the generated starters and stoppers and the derivations of an invocation do on the index
of an instance. From an instance that there is, they get to instances that there are, so that no buffer is
accessed beyond its size.
-/

namespace EgLang.Runtime
open Library
set_option autoImplicit false

/-! ## Allocators -/

/-- `bGenerate` of `chooseAllocator`. -/
def bGenerate (pParent pChild : Element) : Bool :=
  match pChild, pParent with
  | .action _ (.root rootType) _, _ => Program.rootGenerates rootType
  | _, .action _ (.root rootType) _ => Program.rootGenerates rootType
  | _, _ => true

/-- `chooseAllocator`. -/
def chooseAllocator (pParent pChild : Element) : Program.Allocator :=
  if bGenerate pParent pChild then
    if pChild.size = 1 then .singleton else .range
  else .nothing

/-- `hasUserDimensions`. -/
def hasUserDimensions (pAction : ElementTree) : Bool :=
  pAction.children.any fun c =>
    match c.label with
    | .dimensionUser .. => true
    | _ => false

/-- The allocator that `constructAllocator` makes for a child. -/
def getAllocator (pParent pChild : ElementTree) : Program.Allocator :=
  match pChild.label with
  | .action _ .event _ =>
    if hasUserDimensions pChild then .nothing else chooseAllocator pParent.label pChild.label
  | .action _ .function _ => .nothing
  | _ => chooseAllocator pParent.label pChild.label

/-! ## Indices -/

/-- An instance: the action at a place, and the index. -/
abbrev Instance := List ℕ × ℕ

/-- What computes the index of another instance from that of one. -/
inductive IndexRequest
  /-- the starter of a child of the action, with the free index of its allocator -/
  | start (i : ℕ) (freeIndex : ℕ)
  /-- the stopper, for the allocator in the parent -/
  | stop
  /-- the stopper, for the instances of a child -/
  | stopChild (i : ℕ) (childIndex : ℕ)
  | parentDerivation
  | childDerivation (i : ℕ)
deriving DecidableEq, Repr

namespace InstanceTree
variable (p : InstanceTree)

/-- The action that is a child of another one, with its allocator. -/
def getChildAction (pAction : List ℕ) (i : ℕ) : Option Program.Allocator :=
  match p.root.get? pAction, p.root.get? (pAction ++ [i]) with
  | some pParent, some pChild =>
    if pChild.label.isAction then some (getAllocator pParent pChild) else none
  | _, _ => none

/-- `generateExecutableActionStarter`: `newInstance`, or the parent's index for a singleton. -/
def startIndex (pChild : List ℕ) (allocator : Program.Allocator) (parentId freeIndex : ℕ) :
    Option ℕ :=
  match allocator with
  | .nothing => none
  | .singleton => some parentId
  | .range =>
    if freeIndex < p.getLocalDomainSize pChild then
      some (parentId * p.getLocalDomainSize pChild + freeIndex)
    else none

/-- `generateSubTreeStop`: one of the indices that are stopped. -/
def stopChildIndex (pChild : List ℕ) (allocator : Program.Allocator) (gid childIndex : ℕ) :
    Option ℕ :=
  match allocator with
  | .nothing => none
  | .singleton => some gid
  | .range =>
    if gid * p.getLocalDomainSize pChild ≤ childIndex ∧
        childIndex < (gid + 1) * p.getLocalDomainSize pChild then some childIndex
    else none

/-- `_parentIndex`, and what `ParentDerivationInstruction` evaluates to. -/
def parentIndex (pAction : List ℕ) (gid : ℕ) : ℕ := gid / p.getLocalDomainSize pAction

/-- The instance that is computed; none when the text has no such computation. -/
def computeIndex (x : Instance) : IndexRequest → Except Unit Instance
  | .start i freeIndex =>
    match (p.getChildAction x.1 i).bind fun allocator =>
      p.startIndex (x.1 ++ [i]) allocator x.2 freeIndex with
    | some gid => .ok (x.1 ++ [i], gid)
    | none => .error ()
  | .stopChild i childIndex =>
    match (p.getChildAction x.1 i).bind fun allocator =>
      p.stopChildIndex (x.1 ++ [i]) allocator x.2 childIndex with
    | some gid => .ok (x.1 ++ [i], gid)
    | none => .error ()
  | .stop | .parentDerivation =>
    if x.1 = [] then .error () else .ok (x.1.dropLast, p.parentIndex x.1 x.2)
  | .childDerivation i =>
    match p.getChildAction x.1 i with
    | some _ => .ok (x.1 ++ [i], x.2)
    | none => .error ()

/-- The instance is one of the action's. -/
def Valid (x : Instance) : Prop :=
  (∃ s, p.root.get? x.1 = some s ∧ s.label.isAction = true) ∧ x.2 < p.getTotalDomainSize x.1

variable {p} {k : List ℕ} {i gid : ℕ}

theorem getChildAction_eq_some {allocator : Program.Allocator}
    (h : p.getChildAction k i = some allocator) :
    ∃ s t, p.root.get? k = some s ∧ p.root.get? (k ++ [i]) = some t ∧ t.label.isAction = true ∧
      allocator = getAllocator s t := by
  rw [getChildAction] at h
  split at h
  · rename_i s t hs ht
    split at h
    · rename_i haction
      exact ⟨s, t, hs, ht, haction, (Option.some.inj h).symm⟩
    · cases h
  · cases h

theorem localDomainSize_pos {s : ElementTree} (hk : p.root.get? k = some s)
    (haction : s.label.isAction = true) : 0 < p.getLocalDomainSize k := by
  rw [getLocalDomainSize_of_get? hk]
  exact p.size_pos s (subtree_of_get? hk) haction

/-- Below an instance of the parent stands a block of instances of the child. -/
theorem lt_getTotalDomainSize_concat {parentId j : ℕ} (hparent : parentId < p.getTotalDomainSize k)
    (hj : j < (parentId + 1) * p.getLocalDomainSize (k ++ [i])) :
    j < p.getTotalDomainSize (k ++ [i]) := by
  rw [getTotalDomainSize_concat]
  exact hj.trans_le (Nat.mul_le_mul_right _ hparent)

theorem parentIndex_lt (h : gid < p.getTotalDomainSize (k ++ [i])) :
    p.parentIndex (k ++ [i]) gid < p.getTotalDomainSize k := by
  rw [getTotalDomainSize_concat, Nat.mul_comm] at h
  exact Nat.div_lt_of_lt_mul h

/-- One computation. -/
theorem valid_computeIndex {x y : Instance} {request : IndexRequest} (hx : p.Valid x)
    (h : p.computeIndex x request = .ok y) : p.Valid y := by
  obtain ⟨k, gid⟩ := x
  obtain ⟨⟨s, hs, haction⟩, hgid⟩ := hx
  -- a child's index within the block of its parent's instance
  have hchild : ∀ {i j allocator}, p.getChildAction k i = some allocator →
      j < (gid + 1) * p.getLocalDomainSize (k ++ [i]) → p.Valid (k ++ [i], j) := by
    intro i j allocator hallocator hj
    obtain ⟨-, t, -, ht, haction, -⟩ := getChildAction_eq_some hallocator
    exact ⟨⟨t, ht, haction⟩, lt_getTotalDomainSize_concat hgid hj⟩
  have hself : ∀ {i allocator}, p.getChildAction k i = some allocator →
      gid < (gid + 1) * p.getLocalDomainSize (k ++ [i]) := by
    intro i allocator hallocator
    obtain ⟨-, t, -, ht, haction, -⟩ := getChildAction_eq_some hallocator
    exact Nat.lt_of_lt_of_le gid.lt_succ_self
      (Nat.le_mul_of_pos_right _ (localDomainSize_pos ht haction))
  have hparent : (if k = [] then (.error () : Except Unit Instance)
      else .ok (k.dropLast, p.parentIndex k gid)) = .ok y → p.Valid y := by
    intro h
    split at h
    · cases h
    · rename_i hne
      obtain rfl := Except.ok.inj h
      obtain ⟨q, i, rfl⟩ := List.eq_nil_or_concat k |>.resolve_left hne
      rw [List.concat_eq_append] at *
      rw [List.dropLast_concat]
      rw [RoseTree.get?_concat, Option.bind_eq_some_iff] at hs
      obtain ⟨t, ht, hts⟩ := hs
      refine ⟨⟨t, ht, ?_⟩, parentIndex_lt hgid⟩
      by_contra hdimension
      rw [leaf_of_dimension ht (by simpa using hdimension)] at hts
      cases hts
  cases request with
  | start i freeIndex =>
    rw [computeIndex] at h
    split at h
    · rename_i j hj
      obtain rfl := Except.ok.inj h
      obtain ⟨allocator, hallocator, hj⟩ := Option.bind_eq_some_iff.mp hj
      refine hchild hallocator ?_
      unfold startIndex at hj
      split at hj
      · cases hj
      · obtain rfl := Option.some.inj hj
        exact hself hallocator
      · split at hj
        · rename_i hfree
          obtain rfl := Option.some.inj hj
          rw [Nat.add_mul, Nat.one_mul]
          exact Nat.add_lt_add_left hfree _
        · cases hj
    · cases h
  | stopChild i childIndex =>
    rw [computeIndex] at h
    split at h
    · rename_i j hj
      obtain rfl := Except.ok.inj h
      obtain ⟨allocator, hallocator, hj⟩ := Option.bind_eq_some_iff.mp hj
      refine hchild hallocator ?_
      unfold stopChildIndex at hj
      split at hj
      · cases hj
      · obtain rfl := Option.some.inj hj
        exact hself hallocator
      · split at hj
        · rename_i hrange
          obtain rfl := Option.some.inj hj
          exact hrange.2
        · cases hj
    · cases h
  | stop => exact hparent h
  | parentDerivation => exact hparent h
  | childDerivation i =>
    rw [computeIndex] at h
    split at h
    · rename_i allocator hallocator
      obtain rfl := Except.ok.inj h
      exact hchild hallocator (hself hallocator)
    · cases h

/-- **The layout is total and in bounds.** The analysis fails only when a root above the projects has a
dimension. A layout has one data member for every dimension; the size of a buffer is the product of the local
domain sizes down to its action; and every index that starters, stoppers and derivations compute, one from
another, is below the size of the buffers that it indexes. -/
theorem layout_total_inBounds (p : InstanceTree) :
    ((∃ layout, p.fullProgramAnalysis = .ok layout) ↔ UpperRootsEmpty p.root) ∧
      ∀ layout, p.fullProgramAnalysis = .ok layout → p.Total layout ∧
        (∀ b ∈ layout.buffers, b.size = (b.context.inits.map p.getLocalDomainSize).prod ∧
          b.size = p.getTotalDomainSize b.context) ∧
        ∀ x y, p.Valid x → Reaches p.computeIndex (fun _ _ => True) x y →
          ∀ b ∈ layout.buffers, b.context = y.1 → y.2 < b.size := by
  refine ⟨exists_fullProgramAnalysis_iff, fun layout h => ?_⟩
  have htotal := total_of_fullProgramAnalysis h
  have hsize : ∀ b ∈ layout.buffers, b.size = p.getTotalDomainSize b.context :=
    fun b hb => (htotal.buffers b hb).size
  refine ⟨htotal, fun b hb => ⟨?_, hsize b hb⟩, fun x y hx hreaches b hb hcontext => ?_⟩
  · rw [hsize b hb, getTotalDomainSize_eq_prod]
  · have hy : p.Valid y := Steps.invariant p.Valid hreaches hx fun s i t hs _ hok =>
      valid_computeIndex hs hok
    rw [hsize b hb, hcontext]
    exact hy.2

end InstanceTree

/-! ## A tree with a coordinator -/

/-- An action with two instances, each with an object of three, below a root. -/
def nested (rootType : RootType) : ElementTree :=
  .node (.action "" (.root .interfaceRoot) 1)
    [.node (.action "C" (.root rootType) 1)
      [.node (.dimensionUser "m_x" true) [],
        .node (.action "A" .action 2) [.node (.dimensionGenerated .eActionState) [],
          .node (.action "B" .object 3) [.node (.dimensionUser "m_y" false) []]]]]

/-- A checked tree. -/
def InstanceTree.ofTree (t : ElementTree)
    (h : t.label.isAction = true ∧ (∀ s ∈ t.subtrees, s.label.isAction = false → s.children = []) ∧
      (∀ s ∈ t.subtrees, s.label.isAction = true → 0 < s.label.size) ∧
      ∀ s ∈ t.subtrees, ∀ strBaseVariable,
        ∃ name, dataMemberName strBaseVariable s.label = .ok name) : InstanceTree where
  root := t
  root_action := h.1
  dimension_leaf := h.2.1
  size_pos := h.2.2.1
  generated_ok := h.2.2.2

theorem nested_ok (rootType : RootType) : (nested rootType).label.isAction = true ∧
    (∀ s ∈ (nested rootType).subtrees, s.label.isAction = false → s.children = []) ∧
    (∀ s ∈ (nested rootType).subtrees, s.label.isAction = true → 0 < s.label.size) ∧
    ∀ s ∈ (nested rootType).subtrees, ∀ strBaseVariable,
      ∃ name, dataMemberName strBaseVariable s.label = .ok name := by
  refine ⟨rfl, ?_, ?_, ?_⟩ <;>
    simp [nested, RoseTree.subtrees, RoseTree.subtrees.subtreesAll, Element.isAction, Element.size,
      dataMemberName]

/-- A dimension of a coordinator gets no data member. -/
theorem coordinator_rejected :
    ∃ p : InstanceTree, p.root = nested .coordinator ∧
      p.fullProgramAnalysis = .error (.rootDataMembers ["m_m_x"]) :=
  ⟨.ofTree _ (nested_ok .coordinator), rfl, by decide +kernel⟩

end EgLang.Runtime
