import EgLang.Compiler.RangeCode

/-!
# The code of an invocation

`InstructionCodeGenerator`: the statements that are generated for an instruction tree, as a syntax of their
own, and what executing them does.
-/

namespace EgLang.Compiler.Codegen

set_option autoImplicit false

/-! ## Expressions -/

/-- What is in `VariableExprMap`: `context`, `expr.data.instance`, `( expr ) / localDomainSize` or
`buffer[ expr ].member`. -/
inductive VarExpr (κ : Type)
  | context
  | dataInstance (expr : VarExpr κ)
  | quotient (expr : VarExpr κ) (localDomainSize : ℕ)
  | read (pDimension : κ) (expr : VarExpr κ)
deriving DecidableEq, Repr

/-- A value of generated code. -/
inductive Value
  | inst (i : ℕ)
  | ref (r : Reference)
deriving DecidableEq, Repr

def Value.asInst : Value → Option ℕ
  | .inst i => some i
  | .ref _ => none

def Value.asRef : Value → Option Reference
  | .inst _ => none
  | .ref r => some r

section Expressions
variable {κ : Type} (content : κ → ℕ → Reference) (context : Reference)

/-- The value of an expression, with what the data members hold for every instance; it has none if its
types do not fit. -/
def VarExpr.value : VarExpr κ → Option Value
  | .context => some (.ref context)
  | .dataInstance expr => (expr.value.bind Value.asRef).map fun r => .inst r.inst
  | .quotient expr localDomainSize =>
    (expr.value.bind Value.asInst).map fun i => .inst (i / localDomainSize)
  | .read pDimension expr => (expr.value.bind Value.asInst).map fun i => .ref (content pDimension i)

end Expressions

/-! ## Statements -/

/-- The class of a `concrete::Allocator`. -/
inductive AllocatorClass
  | nothing
  | singleton
  | range
deriving DecidableEq, Repr

/-- The class of the interface context of an action, as far as a call tells them apart. -/
inductive ContextClass
  | abstract
  | event
  | function
  | action
  | object
  | link
  | other
deriving DecidableEq, Repr

/-- What is generated for an operation on a target. -/
inductive OperationCode (κ : Type)
  /-- A reference is made and signalled. -/
  | signal
  /-- The target is started, signalled and stopped. -/
  | signalStarted
  /-- `return ref( args... )` -/
  | invoke
  /-- The target is started, and handed to `Scheduler::call`, or else to `Scheduler::allocated_ref`. -/
  | start (hasDefinition : Bool)
  | stop (pReference : κ)
  | pause (pReference : κ)
  | resume (pReference : κ)
  /-- The tests that the children of the target are stopped. -/
  | done (tests : List (κ × AllocatorClass))
  | getAction (pReference : κ)
  | getDimension
  | read
  | write (pReference : Option κ)
  /-- The cases of the new base. -/
  | writeLink (pReference : κ) (targets : List κ)
deriving DecidableEq, Repr

/-- The operation that a code is of. -/
def OperationCode.type {κ : Type} : OperationCode κ → OperationType
  | .signal => .call
  | .signalStarted => .call
  | .invoke => .call
  | .start _ => .call
  | .stop _ => .stop
  | .pause _ => .pause
  | .resume _ => .resume
  | .done _ => .done
  | .getAction _ => .getAction
  | .getDimension => .getDimension
  | .read => .read
  | .write _ => .write
  | .writeLink .. => .writeLink

/-- The code ends with a `return`. -/
def OperationCode.returns {κ : Type} : OperationCode κ → Bool
  | .stop _ => false
  | .pause _ => false
  | .resume _ => false
  | _ => true

/-- A generated statement. A switch is on the type of a reference, and throws by default; a case ends
with a `break`. -/
inductive Statement (κ : Type)
  | operation (code : OperationCode κ) (pTarget : κ) (expr : VarExpr κ)
  | ranges (raw : Bool) (iMaxRanges : ℕ) (targets : List RangeTarget) (expr : VarExpr κ)
  | switchType (expr : VarExpr κ) (body : List (Statement κ))
  | case (index : ℤ) (body : List (Statement κ))

/-! ## Generation -/

/-- What generation throws. -/
inductive GenerationFault
  /-- `VERIFY_RTE` of the variables. -/
  | verify
  /-- `VERIFY_RTE` of what an operation needs of its target. -/
  | missing
  /-- "Invalid attempt to invoke abstract" -/
  | invokesAbstract
  /-- "Unknown abstract type" -/
  | unknownType
  /-- "TODO" -/
  | todo
  /-- "Invalid instruction type" -/
  | invalidInstruction
  /-- An `ASSERT`, or a pointer that leads nowhere. -/
  | undefined
deriving DecidableEq, Repr

/-- A target of a link group: its object, and the dimensions that its back reference and the count of the
object are in. -/
structure LinkTarget (κ : Type) where
  pTargetType : κ
  pObject : Option κ
  isMainExecutable : Bool
  pLinkBackReference : Option κ
  pLinkRefCount : Option κ

/-- What generation asks of concrete elements. -/
structure Elements (κ : Type) where
  /-- The allocator of the parent for an action. -/
  getAllocator : κ → Option AllocatorClass
  getContext : κ → Option ContextClass
  hasDefinition : κ → Bool
  getReference : κ → Option κ
  getAllocators : κ → List (κ × AllocatorClass)
  /-- The targets of the link group of a dimension. -/
  getTargets : κ → Option (List (LinkTarget κ))

/-- `VariableExprMap`. -/
abbrev VariableExprMap (κ : Type) := ℕ → Option (VarExpr κ)

section Variables
variable {κ : Type}

/-- `getVarExpr`. -/
def getVarExpr (m_variables : VariableExprMap κ) (pVariable : ℕ) :
    Except GenerationFault (VarExpr κ) :=
  match m_variables pVariable with
  | some expr => .ok expr
  | none => .error .verify

/-- `setVarExpr`. -/
def setVarExpr (m_variables : VariableExprMap κ) (pVariable : ℕ) (expr : VarExpr κ) :
    Except GenerationFault (VariableExprMap κ) :=
  match m_variables pVariable with
  | some _ => .error .verify
  | none => .ok (Function.update m_variables pVariable (some expr))

/-- A pointer, with what is thrown if it is null. -/
def required {α : Type} (fault : GenerationFault) (p : Option α) : Except GenerationFault α :=
  match p with
  | some a => .ok a
  | none => .error fault

end Variables

section Generation
variable {ι κ : Type} (session : Session ι κ) (elements : Elements κ)

/-- `generate( const CallOperation& )`. -/
def callCode (pType : κ) : Except GenerationFault (OperationCode κ) := do
  let _ ← required .missing (session.getParent pType)
  let pAllocator ← required .missing (elements.getAllocator pType)
  let pStaticType ← required .missing (elements.getContext pType)
  match pStaticType with
  | .abstract => .error .invokesAbstract
  | .event =>
    match pAllocator with
    | .nothing => return .signal
    | .singleton => return .signalStarted
    | .range => return .signalStarted
  | .function => if pAllocator = .nothing then return .invoke else .error .missing
  | .action => return .start (elements.hasDefinition pType)
  | .object => return .start (elements.hasDefinition pType)
  | .link => return .start (elements.hasDefinition pType)
  | .other => .error .unknownType

/-- The cases of the targets that have an object. -/
def linkCases : List (LinkTarget κ) → Except GenerationFault (List κ)
  | [] => .ok []
  | target :: targets => do
    match target.pObject with
    | none => linkCases targets
    | some _ =>
      let _ ← required .missing target.pLinkBackReference
      if target.isMainExecutable then pure () else
        let _ ← required .missing target.pLinkRefCount
      return target.pTargetType :: (← linkCases targets)

/-- `generate( const WriteLinkOperation& )`. -/
def writeLinkCode (pType pReturnType : κ) : Except GenerationFault (OperationCode κ) := do
  let pLink ← required .missing (session.getParent pType)
  let _ ← required .missing (elements.getReference pLink)
  let pLinkGroup ← required .undefined (elements.getTargets pType)
  let targets ← linkCases pLinkGroup
  let pReference ← required .missing (elements.getReference pReturnType)
  return .writeLink pReference targets

/-- The `generate` of an operation that is no range, on its target. -/
def operationCode (op : Operation (Option κ) (Option ι)) (pType : κ) :
    Except GenerationFault (OperationCode κ) :=
  let reference := required .missing (elements.getReference pType)
  match op.type with
  | .call => callCode session elements pType
  | .start => .error .todo
  | .stop => .stop <$> reference
  | .pause => .pause <$> reference
  | .resume => .resume <$> reference
  | .done => .ok (.done ((elements.getAllocators pType).filter fun child => child.2 ≠ .nothing))
  | .waitAction => .error .todo
  | .waitDimension => .error .todo
  | .getAction => .getAction <$> reference
  | .getDimension => .ok .getDimension
  | .read => .ok .read
  | .write => do
    let pReturnType ← required .undefined op.pInstance.concreteType
    return .write (elements.getReference pReturnType)
  | .writeLink => do
    let pReturnType ← required .undefined op.pInstance.concreteType
    writeLinkCode session elements pType pReturnType
  | .range _ => .error .undefined

variable [DecidableEq κ] (getFriendlyName : κ → String)

/-- `generate( const EnumerationInstruction& )`. -/
def enumerationCode (ins : Enumeration ι κ) (m_variables : VariableExprMap κ) :
    Except GenerationFault (List (Statement κ)) :=
  let ranges : Except EvaluationFault (Bool × List RangeTarget) := do
    let pEnumerationAction ← Evaluation.pointee ins.pContext.concreteType
    let raw ← Evaluation.isRaw ins.operations
    let targets ← rangeTargets session getFriendlyName pEnumerationAction ins.operations
    return (raw, targets)
  if ins.m_returnTypes = [] ∨ ins.operations = [] ∨
      (ins.m_iMaxRanges = 1 ∧ ins.operations.length ≠ 1) then .error .undefined
  else do
    let expr ← getVarExpr m_variables ins.pContext.address
    match ranges with
    | .ok (raw, targets) => return [.ranges raw ins.m_iMaxRanges targets expr]
    | .error _ => .error .undefined

mutual

/-- `InstructionCodeGenerator::generate`. -/
def generateCode : Tree ι κ → VariableExprMap κ →
    Except GenerationFault (List (Statement κ) × VariableExprMap κ)
  | .node head children, m_variables =>
    match head with
    | .root _ => .error .invalidInstruction
    | .parentDerivation pFrom pTo => do
      let pType ← required .undefined pFrom.concreteType
      let expr ← getVarExpr m_variables pFrom.address
      let size := session.getLocalDomainSize pType
      let m_variables ← setVarExpr m_variables pTo.address
        (if size > 1 then .quotient expr size else expr)
      generateAll children m_variables
    | .childDerivation pFrom pTo => do
      let expr ← getVarExpr m_variables pFrom.address
      let m_variables ← setVarExpr m_variables pTo.address expr
      generateAll children m_variables
    | .enumDerivation _ _ => generateAll children m_variables
    | .enumeration pContext returnTypes iMaxRanges => do
      let code ← enumerationCode session getFriendlyName
        ⟨pContext, returnTypes, iMaxRanges, Instruction.operationsOf children⟩ m_variables
      return (code, m_variables)
    | .failure => .error .invalidInstruction
    | .elimination => .error .invalidInstruction
    | .prune => .error .invalidInstruction
    | .dimensionReferenceRead pInstance pReference pDimension => do
      let pDimension ← required .missing pDimension
      let expr ← getVarExpr m_variables pInstance.address
      let m_variables ← setVarExpr m_variables pReference.address (.read pDimension expr)
      generateAll children m_variables
    | .monoReference pFrom pInstance => do
      let expr ← getVarExpr m_variables pFrom.address
      let m_variables ← setVarExpr m_variables pInstance.address (.dataInstance expr)
      generateAll children m_variables
    | .polyReference pFrom => do
      let expr ← getVarExpr m_variables pFrom.address
      let (body, m_variables) ← generateAll children m_variables
      return ([.switchType expr body], m_variables)
    | .polyCase pReference pTo => do
      let expr ← getVarExpr m_variables pReference.address
      let m_variables ← setVarExpr m_variables pTo.address (.dataInstance expr)
      let pType ← required .undefined pTo.concreteType
      let (body, m_variables) ← generateAll children m_variables
      return ([.case (session.getIndex pType) body], m_variables)
    | .operation op =>
      match op.type with
      | .range _ => .ok ([], m_variables)
      | _ => do
        let pType ← required .undefined op.concreteType
        let code ← operationCode session elements op pType
        let expr ← getVarExpr m_variables op.pInstance.address
        return ([.operation code pType expr], m_variables)

/-- The code of the children of an instruction, one after the other. -/
def generateAll : List (Tree ι κ) → VariableExprMap κ →
    Except GenerationFault (List (Statement κ) × VariableExprMap κ)
  | [], m_variables => .ok ([], m_variables)
  | pChild :: children, m_variables => do
    let (code, m_variables) ← generateCode pChild m_variables
    let (rest, m_variables) ← generateAll children m_variables
    return (code ++ rest, m_variables)

end

/-- No code is generated for what was to be eliminated. -/
theorem generateCode_failure (children : List (Tree ι κ)) (m_variables : VariableExprMap κ) :
    generateCode session elements getFriendlyName (.node .failure children) m_variables =
      .error .invalidInstruction := by
  rw [generateCode]

/-- `generateInstructions`, the root instruction being that of a solution. -/
def generateInstructions (solution : InvocationSolution ι κ) :
    Except GenerationFault (List (Statement κ)) :=
  match solution.m_pRoot with
  | .node (.root pContext) children => do
    let m_variables ← setVarExpr (fun _ => none) pContext.address .context
    let (code, _) ← generateAll session elements getFriendlyName children m_variables
    return code
  | _ => .error .undefined

end Generation

/-! ## Execution -/

/-- Why generated code does not run to its end. -/
inductive ExecutionFault
  /-- "runtime type error" -/
  | typeError
  /-- It does not compile. -/
  | malformed
deriving DecidableEq, Repr

/-- What generated code does: an operation on a target at an instance, or the return of a range. -/
inductive Action (κ : Type)
  | operation (type : OperationType) (pTarget : κ) (inst : ℕ)
  | range (description : RangeDescription)
deriving DecidableEq, Repr

/-- What has been done, and whether the code has returned. -/
structure Execution (κ : Type) where
  actions : List (Action κ)
  returned : Bool
deriving DecidableEq, Repr

section Execution
variable {κ : Type} (content : κ → ℕ → Reference) (context : Reference)

/-- The instance that an expression is of. -/
def instOf (expr : VarExpr κ) : Except ExecutionFault ℕ :=
  match (expr.value content context).bind Value.asInst with
  | some i => .ok i
  | none => .error .malformed

/-- The reference that an expression is of. -/
def refOf (expr : VarExpr κ) : Except ExecutionFault Reference :=
  match (expr.value content context).bind Value.asRef with
  | some r => .ok r
  | none => .error .malformed

/-- The range of a target, in the 32 bits of an instance. -/
def targetRange (i : ℕ) (target : RangeTarget) : SubRange :=
  ⟨target.index, i * target.szDomainMultiplier % 2 ^ 32, (i + 1) * target.szDomainMultiplier % 2 ^ 32⟩

mutual

/-- The execution of a statement. -/
def execute : Statement κ → Except ExecutionFault (Execution κ)
  | .operation code pTarget expr => do
    let i ← instOf content context expr
    return ⟨[.operation code.type pTarget i], code.returns⟩
  | .ranges raw iMaxRanges targets expr => do
    let i ← instOf content context expr
    -- the text of the padding has a bracket too many
    if targets.length < iMaxRanges then .error .malformed
    else return ⟨[.range ⟨targets.map (targetRange i), raw⟩], true⟩
  | .switchType expr body => do
    let r ← refOf content context expr
    executeCase r.type body
  | .case _ _ => .error .malformed

/-- The execution of statements, up to a `return`. -/
def executeAll : List (Statement κ) → Except ExecutionFault (Execution κ)
  | [] => .ok ⟨[], false⟩
  | statement :: rest => do
    let execution ← execute statement
    if execution.returned then return execution
    else
      let execution' ← executeAll rest
      return ⟨execution.actions ++ execution'.actions, execution'.returned⟩

/-- The case of a type, up to its `break`. -/
def executeCase (type : ℤ) : List (Statement κ) → Except ExecutionFault (Execution κ)
  | [] => .error .typeError
  | .case index body :: rest => if index = type then executeAll body else executeCase type rest
  | _ :: rest => executeCase type rest

end

end Execution
end EgLang.Compiler.Codegen
