import Mathlib.Data.List.Basic
import Mathlib.Tactic.DeriveFintype

/-!
# Instruction trees

The tree the compiler builds for an invocation: variables, operations and the instructions that
derive one variable from another. `ε` stands for the concrete elements of a program and `ι` for its
interface elements; variables and operations are known by the address of their object.
-/

namespace EgLang.Compiler

set_option autoImplicit false

/-- `InstanceVariable`: holds an instance of one concrete type. -/
structure InstanceVariable (ε : Type) where
  address : ℕ
  concreteType : ε
deriving DecidableEq, Repr

/-- `ReferenceVariable`, with its two kinds `ContextVariable` and `DimensionReferenceVariable`: holds
a reference to an instance of one of several concrete types. -/
structure ReferenceVariable (ε : Type) where
  address : ℕ
  types : List ε
deriving DecidableEq, Repr

/-- The type of a `RangeOperation`. -/
inductive RangeType
  | eRaw
  | eRange
deriving DecidableEq, Repr

/-- The class of an `Operation`. -/
inductive OperationType
  | call
  | start
  | stop
  | pause
  | resume
  | done
  | waitAction
  | waitDimension
  | getAction
  | getDimension
  | read
  | write
  | writeLink
  | range (rangeType : RangeType)
deriving DecidableEq, Repr

/-- `Operation`: what is done, on which variable, and the target as interface and as concrete
element. -/
structure Operation (ε ι : Type) where
  address : ℕ
  type : OperationType
  pInstance : InstanceVariable ε
  interfaceType : ι
  concreteType : ε
deriving DecidableEq, Repr

/-- An instruction without its children. -/
inductive Head (ε ι : Type)
  | root (pContext : ReferenceVariable ε)
  | parentDerivation (pFrom pTo : InstanceVariable ε)
  | childDerivation (pFrom pTo : InstanceVariable ε)
  | enumDerivation (pFrom pTo : InstanceVariable ε)
  | enumeration (pContext : InstanceVariable ε) (returnTypes : List ι) (iMaxRanges : ℕ)
  | failure
  | elimination
  | prune
  | dimensionReferenceRead (pInstance : InstanceVariable ε) (pReference : ReferenceVariable ε)
      (pDimension : ε)
  | monoReference (pFrom : ReferenceVariable ε) (pInstance : InstanceVariable ε)
  | polyReference (pFrom : ReferenceVariable ε)
  | polyCase (pReference : ReferenceVariable ε) (pTo : InstanceVariable ε)
  | operation (op : Operation ε ι)
deriving DecidableEq, Repr

/-- `Instruction`: a head and `m_children`. -/
inductive Instruction (ε ι : Type)
  | node (head : Head ε ι) (children : List (Instruction ε ι))

variable {ε ι : Type}

namespace Head

/-- `dynamic_cast< FailureInstruction* >`. -/
def isFailure : Head ε ι → Bool
  | .failure => true
  | _ => false

/-- `dynamic_cast< EliminationInstruction* >`. -/
def isElimination : Head ε ι → Bool
  | .elimination => true
  | _ => false

/-- `dynamic_cast< PruneInstruction* >`. -/
def isPrune : Head ε ι → Bool
  | .prune => true
  | _ => false

/-- The nodes that elimination is to remove. -/
def transient (head : Head ε ι) : Bool :=
  head.isFailure || head.isElimination || head.isPrune

theorem kind_cases (head : Head ε ι) :
    head = .elimination ∨ head = .failure ∨ head = .prune ∨ head.transient = false := by
  cases head <;> simp [transient, isFailure, isElimination, isPrune]

end Head

namespace Instruction

def head : Instruction ε ι → Head ε ι
  | .node head _ => head

def children : Instruction ε ι → List (Instruction ε ι)
  | .node _ children => children

@[simp] theorem head_node (h : Head ε ι) (cs : List (Instruction ε ι)) : (node h cs).head = h := rfl

/-- Induction over a tree, with the hypothesis for every child. -/
theorem tree_induction {P : Instruction ε ι → Prop}
    (step : ∀ head children, (∀ c ∈ children, P c) → P (.node head children)) (t) : P t :=
  @Instruction.rec ε ι P (fun cs => ∀ c ∈ cs, P c) step (fun _ h => absurd h List.not_mem_nil)
    (fun _ _ h hs c hc => (List.mem_cons.mp hc).elim (fun heq => heq ▸ h) (hs c)) t

/-- Every node of the tree, its root included, satisfies `P`. -/
inductive Every (P : Head ε ι → Prop) : Instruction ε ι → Prop
  | node {head : Head ε ι} {children : List (Instruction ε ι)} (hhead : P head)
      (hchildren : ∀ c ∈ children, Every P c) : Every P (.node head children)

end Instruction
end EgLang.Compiler
