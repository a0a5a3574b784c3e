import EgLang.Compiler.Evaluation

/-!
# The code of an enumeration

What `InstructionCodeGenerator` emits for the derivation of a parent and for an enumeration: the begin
and the end of one range, or the arrays of iterators of several ones.
-/

namespace EgLang.Compiler

set_option autoImplicit false

/-- A line of emitted text: its code, and the comment that ends it. -/
structure Line where
  code : String
  comment : Option String
deriving DecidableEq, Repr

/-- A line without a comment. -/
def Line.plain (code : String) : Line := ⟨code, none⟩

namespace Codegen

/-! ## Expressions of instances -/

/-- The expression of an instance variable: the instance of the context, or that of a parent. -/
inductive InstanceExpr
  | context
  | quotient (expr : InstanceExpr) (localDomainSize : ℕ)
deriving DecidableEq, Repr

namespace InstanceExpr

/-- What `getVarExpr` returns. -/
def text : InstanceExpr → String
  | context => "context.data.instance"
  | quotient expr localDomainSize => "( " ++ expr.text ++ " ) / " ++ toString localDomainSize

/-- What the text means, for an instance of the context. -/
def value : InstanceExpr → ℕ → ℕ
  | context, i => i
  | quotient expr localDomainSize, i => expr.value i / localDomainSize

end InstanceExpr

/-- `generate( const ParentDerivationInstruction& )`: the expression of the variable that it makes. -/
def parentDerivation (localDomainSize : ℕ) (expr : InstanceExpr) : InstanceExpr :=
  if localDomainSize > 1 then .quotient expr localDomainSize else expr

theorem value_parentDerivation {localDomainSize : ℕ} (h : 0 < localDomainSize) (expr : InstanceExpr)
    (i : ℕ) : (parentDerivation localDomainSize expr).value i = expr.value i / localDomainSize := by
  unfold parentDerivation
  split
  · rfl
  · obtain rfl : localDomainSize = 1 := by omega
    rw [Nat.div_one]

/-! ## Ranges -/

/-- What the code of a range names: the target with its index, and the number of its instances in one
instance of the enumerating action. -/
structure RangeTarget where
  szDomainMultiplier : ℕ
  index : ℤ
  friendlyName : String
deriving DecidableEq, Repr

/-- `iBegin`, of 32 bits, for an instance of the context. -/
def RangeTarget.iBegin (target : RangeTarget) (expr : InstanceExpr) (i : ℕ) : ℕ :=
  expr.value i * target.szDomainMultiplier % 2 ^ 32

/-- `iEnd`, of 32 bits, for an instance of the context. -/
def RangeTarget.iEnd (target : RangeTarget) (expr : InstanceExpr) (i : ℕ) : ℕ :=
  (expr.value i + 1) * target.szDomainMultiplier % 2 ^ 32

/-- The spaces in front of a line. -/
def indent (strIndent : ℕ) : String := String.ofList (List.replicate strIndent ' ')

/-- The types that a range may return, as one type. -/
def returnType : List String → String
  | [type] => type
  | types => "__eg_variant< " ++ ", ".intercalate types ++ " >"

/-- `osIterType`. -/
def iterType (raw : Bool) (types : List String) : String :=
  (if raw then "__eg_ReferenceRawIterator" else "__eg_ReferenceIterator") ++ "< " ++ returnType types ++
    " >"

/-- The code of one range. -/
def singleRange (strIndent : ℕ) (raw : Bool) (types : List String) (expr : InstanceExpr)
    (target : RangeTarget) : List Line :=
  let type := iterType raw types
  [.plain (indent strIndent ++ "const eg::Instance iBegin = " ++ expr.text ++ " * " ++
      toString target.szDomainMultiplier ++ ";"),
    .plain (indent strIndent ++ "const eg::Instance iEnd = ( " ++ expr.text ++ " + 1 ) * " ++
      toString target.szDomainMultiplier ++ ";"),
    ⟨indent strIndent ++ type ++ " begin( iBegin - 1, iEnd, " ++ toString target.index ++ " ); ",
      some target.friendlyName⟩,
    .plain (indent strIndent ++ "++begin;"),
    .plain (indent strIndent ++ type ++ " end( iEnd, iEnd, " ++ toString target.index ++ " );"),
    .plain (indent strIndent ++ "return __eg_Range< " ++ type ++ " >( begin, end );")]

/-- The begin iterator of a range, before it is incremented. -/
def beginIterator (expr : InstanceExpr) (target : RangeTarget) : String :=
  "IterType( ( " ++ expr.text ++ " * " ++ toString target.szDomainMultiplier ++ " ) - 1U, ( " ++
    expr.text ++ " + 1 ) * " ++ toString target.szDomainMultiplier ++ ", static_cast< eg::TypeID >( " ++
      toString target.index ++ " ) )"

/-- The end iterator of a range. -/
def endIterator (expr : InstanceExpr) (target : RangeTarget) : String :=
  "IterType( ( " ++ expr.text ++ " + 1 ) * " ++ toString target.szDomainMultiplier ++ ", ( " ++
    expr.text ++ " + 1 ) * " ++ toString target.szDomainMultiplier ++ ", static_cast< eg::TypeID >( " ++
      toString target.index ++ " ) )"

/-- The line of an empty range, as it is printed. -/
def padding (strIndent : ℕ) : Line := .plain (indent strIndent ++ "    IterType( 0, 0, 0 ) ),")

/-- The braces of an array of iterators, with what stands between them. -/
def iteratorArray (strIndent iMaxRanges : ℕ) (iterator : RangeTarget → String)
    (targets : List RangeTarget) : List Line :=
  .plain (indent strIndent ++ "\x7b") ::
    targets.map (fun target =>
      ⟨indent strIndent ++ "    " ++ iterator target ++ ", ", some target.friendlyName⟩) ++
    List.replicate (iMaxRanges - targets.length) (padding strIndent) ++
    [.plain (indent strIndent ++ "\x7d;")]

/-- The text of `MultiIterType`, `IterType` being spelled out. -/
def multiIterType (iMaxRanges : ℕ) (type : String) : String :=
  "__eg_MultiIterator< " ++ type ++ ", " ++ toString iMaxRanges ++ " >"

/-- The types of the iterators of several ranges, and the declaration of the first array. -/
def iteratorTypes (strIndent iMaxRanges : ℕ) (raw : Bool) (types : List String) : List Line :=
  [.plain (indent strIndent ++ "using IterType = " ++ iterType raw types ++ ";"),
    .plain (indent strIndent ++ "using MultiIterType = " ++ multiIterType iMaxRanges "IterType" ++ ";"),
    .plain (indent strIndent ++ "MultiIterType::IteratorArray iterators_begin = ")]

/-- The increments of the iterators of the operations, and the declaration of the second array. -/
def increments (strIndent operations : ℕ) : List Line :=
  (List.range operations).map (fun szIndex =>
    .plain (indent strIndent ++ "++iterators_begin[ " ++ toString szIndex ++ " ];")) ++
  [.plain (indent strIndent ++ "MultiIterType::IteratorArray iterators_end = ")]

/-- The code of several ranges. -/
def multipleRanges (strIndent iMaxRanges : ℕ) (raw : Bool) (types : List String) (expr : InstanceExpr)
    (targets : List RangeTarget) : List Line :=
  iteratorTypes strIndent iMaxRanges raw types ++
  iteratorArray strIndent iMaxRanges (beginIterator expr) targets ++
  increments strIndent targets.length ++
  iteratorArray strIndent iMaxRanges (endIterator expr) targets ++
  [.plain (indent strIndent ++ "return __eg_Range< MultiIterType >( " ++
    "MultiIterType( iterators_begin ), MultiIterType( iterators_end ) );")]

/-! ## Enumerations -/

section Enumeration
variable {ι κ : Type} [DecidableEq κ] (session : Session ι κ) (getStaticType : ι → String)
  (getFriendlyName : κ → String)

/-- An `EnumerationInstruction`: its variable, what `setReturnTypes` and `setMaxRanges` have set, and the
operations below it. -/
structure Enumeration (ι κ : Type) where
  pContext : Variable κ
  m_returnTypes : List (Option ι)
  m_iMaxRanges : ℕ
  operations : List (Operation (Option κ) (Option ι))

/-- The target of a range operation. -/
def rangeTarget (pEnumerationAction : κ) (op : Operation (Option κ) (Option ι)) :
    Except EvaluationFault RangeTarget := do
  let _ ← Evaluation.rangeType op
  let pTarget ← Evaluation.pointee op.concreteType
  let szDomainMultiplier ← Evaluation.domainMultiplier session pEnumerationAction pTarget
  return ⟨szDomainMultiplier, session.getIndex pTarget, getFriendlyName pTarget⟩

/-- The targets of the operations of an enumeration. -/
def rangeTargets (pEnumerationAction : κ) :
    List (Operation (Option κ) (Option ι)) → Except EvaluationFault (List RangeTarget)
  | [] => .ok []
  | op :: operations => do
    let target ← rangeTarget session getFriendlyName pEnumerationAction op
    let targets ← rangeTargets pEnumerationAction operations
    return target :: targets

/-- The static types that an enumeration returns. -/
def returnTypes (ins : Enumeration ι κ) : List String :=
  (ins.m_returnTypes.filterMap session.asContext).map getStaticType

/-- The type of the iterators of an enumeration. -/
def iteratorType (ins : Enumeration ι κ) : Except EvaluationFault String :=
  (Evaluation.isRaw ins.operations).map fun raw =>
    let type := iterType raw (returnTypes session getStaticType ins)
    if ins.m_iMaxRanges = 1 then type else multiIterType ins.m_iMaxRanges type

/-- `generate( const EnumerationInstruction& )`, with the `ASSERT`s as faults. -/
def generate (strIndent : ℕ) (expr : InstanceExpr) (ins : Enumeration ι κ) :
    Except EvaluationFault (List Line) :=
  let types := returnTypes session getStaticType ins
  if ins.m_returnTypes = [] ∨ ins.operations = [] then .error .verify
  else do
    let pEnumerationAction ← Evaluation.pointee ins.pContext.concreteType
    let raw ← Evaluation.isRaw ins.operations
    let targets ← rangeTargets session getFriendlyName pEnumerationAction ins.operations
    if ins.m_iMaxRanges = 1 then
      match targets with
      | [target] => .ok (singleRange strIndent raw types expr target)
      | _ => .error .verify
    else .ok (multipleRanges strIndent ins.m_iMaxRanges raw types expr targets)

end Enumeration
end Codegen

/-! ## The enumerations of a tree -/

namespace Instruction
variable {ι κ : Type}

mutual

/-- The enumerations of a tree. -/
def enumerations : Instruction (Option κ) (Option ι) → List (Codegen.Enumeration ι κ)
  | .node head children =>
    match head with
    | .enumeration pContext returnTypes iMaxRanges =>
      [⟨pContext, returnTypes, iMaxRanges, operationsOf children⟩]
    | _ => enumerationsOf children

def enumerationsOf : List (Instruction (Option κ) (Option ι)) → List (Codegen.Enumeration ι κ)
  | [] => []
  | c :: cs => enumerations c ++ enumerationsOf cs

end

end Instruction
end EgLang.Compiler
