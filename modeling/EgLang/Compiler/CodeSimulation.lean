import EgLang.Compiler.BuiltRoutes
import EgLang.Compiler.InstructionCode

/-!
# Generated code does what evaluation does

Generating the code of a way through a tree never finds a variable unset, or set twice. Executing it does
the operation that evaluation does, on the same instance, and throws where evaluation finds no case.
-/

namespace EgLang.Compiler.Codegen

open EgLang.Library Invocation Evaluation

set_option autoImplicit false

variable {ι κ : Type} [DecidableEq κ] {session : Session ι κ} {elements : Elements κ}
  {getFriendlyName : κ → String}

/-! ## Variables -/

section Variables
variable {m_variables m_variables' : VariableExprMap κ} {n : ℕ} {expr : VarExpr κ}

omit [DecidableEq κ] in
theorem getVarExpr_ok : getVarExpr m_variables n = .ok expr ↔ m_variables n = some expr := by
  unfold getVarExpr
  cases m_variables n <;> simp

omit [DecidableEq κ] in
theorem setVarExpr_ok : setVarExpr m_variables n expr = .ok m_variables' ↔
    m_variables n = none ∧ Function.update m_variables n (some expr) = m_variables' := by
  unfold setVarExpr
  cases m_variables n <;> simp

omit [DecidableEq κ] in
theorem required_ok {α : Type} {fault : GenerationFault} {p : Option α} {a : α} :
    required fault p = .ok a ↔ p = some a := by
  unfold required
  cases p <;> simp

end Variables

/-! ## What generation leaves alone -/

section Frame
variable {m_variables m_variables' : VariableExprMap κ} {code : List (Statement κ)}

theorem generateAll_cons {c : Tree ι κ} {cs : List (Tree ι κ)} :
    generateAll session elements getFriendlyName (c :: cs) m_variables = .ok (code, m_variables') ↔
      ∃ code₁ m_variables₁ code₂,
        generateCode session elements getFriendlyName c m_variables = .ok (code₁, m_variables₁) ∧
        generateAll session elements getFriendlyName cs m_variables₁ = .ok (code₂, m_variables') ∧
        code = code₁ ++ code₂ := by
  rw [generateAll]
  constructor
  · intro h
    obtain ⟨⟨code₁, m_variables₁⟩, h₁, h⟩ := except_bind_ok.mp h
    obtain ⟨⟨code₂, m_variables₂⟩, h₂, h⟩ := except_bind_ok.mp h
    obtain ⟨rfl, rfl⟩ := Prod.mk.inj (Except.ok.inj h)
    exact ⟨code₁, m_variables₁, code₂, h₁, h₂, rfl⟩
  · rintro ⟨code₁, m_variables₁, code₂, h₁, h₂, rfl⟩
    rw [h₁]
    show (generateAll session elements getFriendlyName cs m_variables₁ >>= fun r =>
      .ok (code₁ ++ r.1, r.2)) = _
    rw [h₂]
    rfl

theorem generateAll_singleton {t : Tree ι κ} :
    generateAll session elements getFriendlyName [t] m_variables =
      generateCode session elements getFriendlyName t m_variables := by
  rw [generateAll]
  cases generateCode session elements getFriendlyName t m_variables with
  | error fault => rfl
  | ok r =>
    obtain ⟨code, m_variables'⟩ := r
    show (generateAll session elements getFriendlyName [] m_variables' >>= fun r =>
      .ok (code ++ r.1, r.2)) = _
    rw [generateAll]
    show Except.ok (code ++ [], m_variables') = _
    rw [List.append_nil]

/-- Generation sets no variable that a tree does not make. -/
def Keeps (session : Session ι κ) (elements : Elements κ) (getFriendlyName : κ → String)
    (t : Tree ι κ) : Prop :=
  ∀ {m_variables m_variables' : VariableExprMap κ} {code : List (Statement κ)},
    generateCode session elements getFriendlyName t m_variables = .ok (code, m_variables') →
      ∀ k ∉ t.bound, m_variables' k = m_variables k

theorem keeps_all {cs : List (Tree ι κ)}
    (hcs : ∀ c ∈ cs, Keeps session elements getFriendlyName c)
    (h : generateAll session elements getFriendlyName cs m_variables = .ok (code, m_variables')) :
    ∀ k ∉ Instruction.boundAll cs, m_variables' k = m_variables k := by
  induction cs generalizing m_variables code with
  | nil =>
    obtain ⟨-, rfl⟩ := Prod.mk.inj (Except.ok.inj h)
    exact fun k _ => rfl
  | cons c cs ih =>
    rw [List.forall_mem_cons] at hcs
    obtain ⟨code₁, m_variables₁, code₂, h₁, h₂, -⟩ := generateAll_cons.mp h
    intro k hk
    rw [Instruction.boundAll_cons, Multiset.mem_add, not_or] at hk
    rw [ih hcs.2 h₂ k hk.2, hcs.1 h₁ k hk.1]

/-- The children of an instruction that makes a variable. -/
theorem keeps_set {n : ℕ} {expr : VarExpr κ} {m_variables₁ : VariableExprMap κ} {cs : List (Tree ι κ)}
    (hset : setVarExpr m_variables n expr = .ok m_variables₁)
    (hcs : ∀ c ∈ cs, Keeps session elements getFriendlyName c)
    (h : generateAll session elements getFriendlyName cs m_variables₁ = .ok (code, m_variables'))
    (k : ℕ) (hk : k ∉ ({n} + Instruction.boundAll cs : Multiset ℕ)) :
    m_variables' k = m_variables k := by
  obtain ⟨-, rfl⟩ := setVarExpr_ok.mp hset
  rw [Multiset.mem_add, Multiset.mem_singleton, not_or] at hk
  rw [keeps_all hcs h k hk.2, Function.update_of_ne hk.1]

variable (session elements getFriendlyName) in
theorem keeps (t : Tree ι κ) : Keeps session elements getFriendlyName t := by
  induction t using Instruction.tree_induction with
  | step head children ih =>
    intro m_variables m_variables' code h k hk
    cases head with
    | parentDerivation pFrom pTo =>
      rw [generateCode] at h
      obtain ⟨pType, -, h⟩ := except_bind_ok.mp h
      obtain ⟨expr, -, h⟩ := except_bind_ok.mp h
      obtain ⟨m_variables₁, hset, h⟩ := except_bind_ok.mp h
      exact keeps_set hset ih h k (by simpa [Head.binds, Head.isClosed] using hk)
    | childDerivation pFrom pTo =>
      rw [generateCode] at h
      obtain ⟨expr, -, h⟩ := except_bind_ok.mp h
      obtain ⟨m_variables₁, hset, h⟩ := except_bind_ok.mp h
      exact keeps_set hset ih h k (by simpa [Head.binds, Head.isClosed] using hk)
    | enumDerivation pFrom pTo =>
      rw [generateCode] at h
      exact keeps_all ih h k (by simpa [Head.binds, Head.isClosed] using hk)
    | enumeration pContext returnTypes iMaxRanges =>
      rw [generateCode] at h
      obtain ⟨code', -, h⟩ := except_bind_ok.mp h
      obtain ⟨-, rfl⟩ := Prod.mk.inj (Except.ok.inj h)
      rfl
    | dimensionReferenceRead pInstance pReference pDimension =>
      rw [generateCode] at h
      obtain ⟨d, -, h⟩ := except_bind_ok.mp h
      obtain ⟨expr, -, h⟩ := except_bind_ok.mp h
      obtain ⟨m_variables₁, hset, h⟩ := except_bind_ok.mp h
      exact keeps_set hset ih h k (by simpa [Head.binds, Head.isClosed] using hk)
    | monoReference pFrom pInstance =>
      rw [generateCode] at h
      obtain ⟨expr, -, h⟩ := except_bind_ok.mp h
      obtain ⟨m_variables₁, hset, h⟩ := except_bind_ok.mp h
      exact keeps_set hset ih h k (by simpa [Head.binds, Head.isClosed] using hk)
    | polyReference pFrom =>
      rw [generateCode] at h
      obtain ⟨expr, -, h⟩ := except_bind_ok.mp h
      obtain ⟨⟨body, m_variables₁⟩, hbody, h⟩ := except_bind_ok.mp h
      obtain ⟨-, rfl⟩ := Prod.mk.inj (Except.ok.inj h)
      exact keeps_all ih hbody k (by simpa [Head.binds, Head.isClosed] using hk)
    | polyCase pReference pTo =>
      rw [generateCode] at h
      obtain ⟨expr, -, h⟩ := except_bind_ok.mp h
      obtain ⟨m_variables₁, hset, h⟩ := except_bind_ok.mp h
      obtain ⟨pType, -, h⟩ := except_bind_ok.mp h
      obtain ⟨⟨body, m_variables₂⟩, hbody, h⟩ := except_bind_ok.mp h
      obtain ⟨-, rfl⟩ := Prod.mk.inj (Except.ok.inj h)
      exact keeps_set hset ih hbody k (by simpa [Head.binds, Head.isClosed] using hk)
    | operation op =>
      rw [generateCode] at h
      split at h
      · obtain ⟨-, rfl⟩ := Prod.mk.inj (Except.ok.inj h)
        rfl
      · obtain ⟨pType, -, h⟩ := except_bind_ok.mp h
        obtain ⟨code', -, h⟩ := except_bind_ok.mp h
        obtain ⟨expr, -, h⟩ := except_bind_ok.mp h
        obtain ⟨-, rfl⟩ := Prod.mk.inj (Except.ok.inj h)
        rfl
    | root =>
      rw [generateCode] at h
      cases h
    | failure =>
      rw [generateCode_failure] at h
      cases h
    | elimination =>
      rw [generateCode] at h
      cases h
    | prune =>
      rw [generateCode] at h
      cases h

end Frame

/-! ## The code of one operation -/

/-- The operations that generated code returns from. -/
def returns : OperationType → Bool
  | .stop => false
  | .pause => false
  | .resume => false
  | _ => true

omit [DecidableEq κ] in
theorem callCode_type {pType : κ} {code : OperationCode κ}
    (h : callCode session elements pType = .ok code) : code.type = .call ∧ code.returns = true := by
  rw [callCode] at h
  obtain ⟨_, -, h⟩ := except_bind_ok.mp h
  obtain ⟨pAllocator, -, h⟩ := except_bind_ok.mp h
  obtain ⟨pStaticType, -, h⟩ := except_bind_ok.mp h
  cases pStaticType with
  | abstract => cases h
  | event => cases pAllocator <;> cases h <;> exact ⟨rfl, rfl⟩
  | function =>
    dsimp only at h
    split at h <;> cases h
    exact ⟨rfl, rfl⟩
  | action => cases h; exact ⟨rfl, rfl⟩
  | object => cases h; exact ⟨rfl, rfl⟩
  | link => cases h; exact ⟨rfl, rfl⟩
  | other => cases h

omit [DecidableEq κ] in
theorem writeLinkCode_type {pType pReturnType : κ} {code : OperationCode κ}
    (h : writeLinkCode session elements pType pReturnType = .ok code) :
    code.type = .writeLink ∧ code.returns = true := by
  rw [writeLinkCode] at h
  obtain ⟨_, -, h⟩ := except_bind_ok.mp h
  obtain ⟨_, -, h⟩ := except_bind_ok.mp h
  obtain ⟨_, -, h⟩ := except_bind_ok.mp h
  obtain ⟨_, -, h⟩ := except_bind_ok.mp h
  obtain ⟨_, -, h⟩ := except_bind_ok.mp h
  cases h
  exact ⟨rfl, rfl⟩

omit [DecidableEq κ] in
/-- The code of an operation is of its type. -/
theorem operationCode_type {op : Operation (Option κ) (Option ι)} {pType : κ}
    {code : OperationCode κ} (h : operationCode session elements op pType = .ok code) :
    code.type = op.type ∧ code.returns = returns op.type := by
  have hmap : ∀ {f : κ → OperationCode κ} {r : Except GenerationFault κ},
      f <$> r = .ok code → ∃ a, f a = code := fun {f r} hr => by
    cases r with
    | error fault => cases hr
    | ok a => exact ⟨a, Except.ok.inj hr⟩
  rw [operationCode] at h
  cases htype : op.type with
  | call =>
    rw [htype] at h
    exact callCode_type h
  | writeLink =>
    rw [htype] at h
    obtain ⟨pReturnType, -, h⟩ := except_bind_ok.mp h
    exact writeLinkCode_type h
  | write =>
    rw [htype] at h
    obtain ⟨pReturnType, -, h⟩ := except_bind_ok.mp h
    cases h
    exact ⟨rfl, rfl⟩
  | stop | pause | resume | getAction =>
    rw [htype] at h
    obtain ⟨a, rfl⟩ := hmap h
    exact ⟨rfl, rfl⟩
  | done | getDimension | read =>
    rw [htype] at h
    cases h
    exact ⟨rfl, rfl⟩
  | start | waitAction | waitDimension | range =>
    rw [htype] at h
    cases h

/-! ## What generation does -/

section Inversion
variable {exprs exprs' : VariableExprMap κ} {code : List (Statement κ)} {t : Tree ι κ}
  {v w : Variable κ} {r : ReferenceVariable (Option κ)}

/-- The expression of the instance of a parent. -/
def parentExpr (session : Session ι κ) (pType : κ) (expr : VarExpr κ) : VarExpr κ :=
  if session.getLocalDomainSize pType > 1 then .quotient expr (session.getLocalDomainSize pType)
  else expr

theorem generate_parent (h : generateCode session elements getFriendlyName
    (.node (.parentDerivation v w) [t]) exprs = .ok (code, exprs')) :
    ∃ pType expr, v.concreteType = some pType ∧ exprs v.address = some expr ∧
      generateCode session elements getFriendlyName t
        (Function.update exprs w.address (some (parentExpr session pType expr))) =
          .ok (code, exprs') := by
  rw [generateCode] at h
  obtain ⟨pType, htype, h⟩ := except_bind_ok.mp h
  obtain ⟨expr, hexpr, h⟩ := except_bind_ok.mp h
  obtain ⟨exprs₁, hset, h⟩ := except_bind_ok.mp h
  obtain ⟨-, rfl⟩ := setVarExpr_ok.mp hset
  rw [generateAll_singleton] at h
  exact ⟨pType, expr, required_ok.mp htype, getVarExpr_ok.mp hexpr, h⟩

theorem generate_child (h : generateCode session elements getFriendlyName
    (.node (.childDerivation v w) [t]) exprs = .ok (code, exprs')) :
    ∃ expr, exprs v.address = some expr ∧ generateCode session elements getFriendlyName t
      (Function.update exprs w.address (some expr)) = .ok (code, exprs') := by
  rw [generateCode] at h
  obtain ⟨expr, hexpr, h⟩ := except_bind_ok.mp h
  obtain ⟨exprs₁, hset, h⟩ := except_bind_ok.mp h
  obtain ⟨-, rfl⟩ := setVarExpr_ok.mp hset
  rw [generateAll_singleton] at h
  exact ⟨expr, getVarExpr_ok.mp hexpr, h⟩

theorem generate_read {d : Option κ} (h : generateCode session elements getFriendlyName
    (.node (.dimensionReferenceRead v r d) [t]) exprs = .ok (code, exprs')) :
    ∃ pDimension expr, d = some pDimension ∧ exprs v.address = some expr ∧
      generateCode session elements getFriendlyName t
        (Function.update exprs r.address (some (.read pDimension expr))) = .ok (code, exprs') := by
  rw [generateCode] at h
  obtain ⟨pDimension, hdimension, h⟩ := except_bind_ok.mp h
  obtain ⟨expr, hexpr, h⟩ := except_bind_ok.mp h
  obtain ⟨exprs₁, hset, h⟩ := except_bind_ok.mp h
  obtain ⟨-, rfl⟩ := setVarExpr_ok.mp hset
  rw [generateAll_singleton] at h
  exact ⟨pDimension, expr, required_ok.mp hdimension, getVarExpr_ok.mp hexpr, h⟩

theorem generate_mono (h : generateCode session elements getFriendlyName
    (.node (.monoReference r w) [t]) exprs = .ok (code, exprs')) :
    ∃ expr, exprs r.address = some expr ∧ generateCode session elements getFriendlyName t
      (Function.update exprs w.address (some (.dataInstance expr))) = .ok (code, exprs') := by
  rw [generateCode] at h
  obtain ⟨expr, hexpr, h⟩ := except_bind_ok.mp h
  obtain ⟨exprs₁, hset, h⟩ := except_bind_ok.mp h
  obtain ⟨-, rfl⟩ := setVarExpr_ok.mp hset
  rw [generateAll_singleton] at h
  exact ⟨expr, getVarExpr_ok.mp hexpr, h⟩

theorem generate_poly {children : List (Tree ι κ)} (h : generateCode session elements getFriendlyName
    (.node (.polyReference r) children) exprs = .ok (code, exprs')) :
    ∃ expr body, exprs r.address = some expr ∧ code = [.switchType expr body] ∧
      generateAll session elements getFriendlyName children exprs = .ok (body, exprs') := by
  rw [generateCode] at h
  obtain ⟨expr, hexpr, h⟩ := except_bind_ok.mp h
  obtain ⟨⟨body, exprs₁⟩, hbody, h⟩ := except_bind_ok.mp h
  obtain ⟨rfl, rfl⟩ := Prod.mk.inj (Except.ok.inj h)
  exact ⟨expr, body, getVarExpr_ok.mp hexpr, rfl, hbody⟩

theorem generate_case (h : generateCode session elements getFriendlyName
    (.node (.polyCase r w) [t]) exprs = .ok (code, exprs')) :
    ∃ expr pType body, exprs r.address = some expr ∧ w.concreteType = some pType ∧
      code = [.case (session.getIndex pType) body] ∧
      generateCode session elements getFriendlyName t
        (Function.update exprs w.address (some (.dataInstance expr))) = .ok (body, exprs') := by
  rw [generateCode] at h
  obtain ⟨expr, hexpr, h⟩ := except_bind_ok.mp h
  obtain ⟨exprs₁, hset, h⟩ := except_bind_ok.mp h
  obtain ⟨-, rfl⟩ := setVarExpr_ok.mp hset
  obtain ⟨pType, htype, h⟩ := except_bind_ok.mp h
  obtain ⟨⟨body, exprs₂⟩, hbody, h⟩ := except_bind_ok.mp h
  obtain ⟨rfl, rfl⟩ := Prod.mk.inj (Except.ok.inj h)
  rw [generateAll_singleton] at hbody
  exact ⟨expr, pType, body, getVarExpr_ok.mp hexpr, required_ok.mp htype, rfl, hbody⟩

/-- The code of a case, whose variable has been given its expression. -/
def CaseCode (session : Session ι κ) (elements : Elements κ) (getFriendlyName : κ → String)
    (expr : VarExpr κ) (c : Variable κ × Tree ι κ) (b : ℤ × List (Statement κ)) : Prop :=
  (∃ pType, c.1.concreteType = some pType ∧ session.getIndex pType = b.1) ∧
    ∃ exprs exprs', exprs c.1.address = some (.dataInstance expr) ∧ Free exprs c.2.bound ∧
      generateCode session elements getFriendlyName c.2 exprs = .ok (b.2, exprs')

/-- The cases of a reference: what the ones before have made stays out of the way of those after. -/
theorem generate_cases {cases : List (Variable κ × Tree ι κ)} {expr : VarExpr κ}
    {body : List (Statement κ)} (hexpr : exprs r.address = some expr)
    (hexprs : Free exprs (Instruction.boundAll (cases.map fun c => .node (.polyCase r c.1) [c.2])))
    (h : generateAll session elements getFriendlyName
      (cases.map fun c => .node (.polyCase r c.1) [c.2]) exprs = .ok (body, exprs')) :
    ∃ bodies : List (ℤ × List (Statement κ)), body = bodies.map (fun b => .case b.1 b.2) ∧
      List.Forall₂ (CaseCode session elements getFriendlyName expr) cases bodies := by
  induction cases generalizing exprs body with
  | nil =>
    obtain ⟨rfl, -⟩ := Prod.mk.inj (Except.ok.inj h)
    exact ⟨[], rfl, .nil⟩
  | cons c cases ih =>
    obtain ⟨code₁, exprs₁, code₂, h₁, h₂, rfl⟩ := generateAll_cons.mp h
    rw [List.map_cons, Instruction.boundAll_cons] at hexprs
    have hkeeps := keeps session elements getFriendlyName _ h₁
    have hr : r.address ∉ (Instruction.node (.polyCase r c.1) [c.2] : Tree ι κ).bound := fun hmem => by
      have hnone := hexprs.1 _ (Multiset.mem_add.mpr (.inl hmem))
      rw [hexpr] at hnone
      cases hnone
    have hrest : Free exprs₁
        (Instruction.boundAll (cases.map fun c => .node (.polyCase r c.1) [c.2])) := by
      refine ⟨fun k hk => ?_, (Multiset.nodup_add.mp hexprs.2).2.1⟩
      have hdisjoint := Multiset.disjoint_right.mp (Multiset.nodup_add.mp hexprs.2).2.2 hk
      rw [hkeeps k hdisjoint]
      exact hexprs.1 k (Multiset.mem_add.mpr (.inr hk))
    obtain ⟨bodies, rfl, hbodies⟩ := ih ((hkeeps _ hr).trans hexpr) hrest h₂
    obtain ⟨expr', pType, body, hexpr', htype, rfl, hcode⟩ := generate_case h₁
    obtain rfl := Option.some.inj (hexpr.symm.trans hexpr')
    have hcase := ((hexprs.mono (Multiset.le_add_right _ _)).below rfl rfl).update
      (VarExpr.dataInstance expr)
    exact ⟨(session.getIndex pType, body) :: bodies, rfl,
      .cons ⟨⟨pType, htype, rfl⟩, _, exprs₁, Function.update_self .., hcase.2, hcode⟩ hbodies⟩

/-- The code of an operation is of its type, for its target. -/
theorem generate_operation {op : Operation (Option κ) (Option ι)}
    (hrange : ∀ rangeType, op.type ≠ .range rangeType)
    (h : generateCode session elements getFriendlyName (.node (.operation op) []) exprs =
      .ok (code, exprs')) :
    ∃ expr pType opCode, exprs op.pInstance.address = some expr ∧ op.concreteType = some pType ∧
      code = [.operation opCode pType expr] ∧ opCode.type = op.type ∧
      opCode.returns = returns op.type := by
  rw [generateCode] at h
  split at h
  · rename_i rangeType hop
    exact absurd hop (hrange rangeType)
  · obtain ⟨pType, htype, h⟩ := except_bind_ok.mp h
    obtain ⟨opCode, hoperation, h⟩ := except_bind_ok.mp h
    obtain ⟨expr, hexpr, h⟩ := except_bind_ok.mp h
    obtain ⟨rfl, -⟩ := Prod.mk.inj (Except.ok.inj h)
    obtain ⟨hopType, hreturns⟩ := operationCode_type hoperation
    exact ⟨expr, pType, opCode, getVarExpr_ok.mp hexpr, required_ok.mp htype, rfl, hopType, hreturns⟩

end Inversion

/-! ## Simulation -/

section Simulation
variable {content : κ → ℕ → Reference} {context : Reference}
  {dereferenceDimension : Reference → ℤ → Reference}

/-- The evaluator reads from a dimension what its data members hold. -/
def ReadsContent (session : Session ι κ) (content : κ → ℕ → Reference)
    (dereferenceDimension : Reference → ℤ → Reference) : Head (Option κ) (Option ι) → Prop
  | .dimensionReferenceRead _ _ (some d) =>
    ∀ x : Reference, dereferenceDimension x (session.getIndex d) = content d x.inst
  | _ => True

/-- The expression of the variable that a route has come to is of the value that evaluation has. -/
def Tracks (content : κ → ℕ → Reference) (context : Reference) (m_variables : Variables)
    (exprs : VariableExprMap κ) : Place (Option κ) → Prop
  | .start => False
  | .inst v => ∃ x expr, m_variables v.address = some x ∧ exprs v.address = some expr ∧
      expr.value content context = some (.inst x.inst)
  | .ref r => ∃ x expr, m_variables r.address = some x ∧ exprs r.address = some expr ∧
      expr.value content context = some (.ref x)

/-- Execution does what evaluation does. Where evaluation follows a null pointer nothing is said. -/
inductive Agrees (session : Session ι κ) :
    Except EvaluationFault Effect → Except ExecutionFault (Execution κ) → Prop
  | performs {type : OperationType} {e : κ} {y : Reference} :
      Agrees session (.ok (effectOf session type e y)) (.ok ⟨[.operation type e y.inst], returns type⟩)
  | noCase : Agrees session (.error .noCase) (.error .typeError)
  | undefined {r : Except ExecutionFault (Execution κ)} : Agrees session (.error .undefined) r

/-- Execution does what evaluation does, or it writes a link, which evaluation refuses to. -/
inductive Simulates (session : Session ι κ) :
    Except EvaluationFault Effect → Except ExecutionFault (Execution κ) → Prop
  | agrees {evaluated : Except EvaluationFault Effect} {executed : Except ExecutionFault (Execution κ)}
      (h : Agrees session evaluated executed) : Simulates session evaluated executed
  | writesLink {e : κ} {i : ℕ} :
      Simulates session (.error .todo) (.ok ⟨[.operation .writeLink e i], returns .writeLink⟩)

section Simulates
omit [DecidableEq κ]
variable {session : Session ι κ} {evaluated : Except EvaluationFault Effect}
  {executed : Except ExecutionFault (Execution κ)}

theorem Simulates.agrees_of_ne_todo (h : Simulates session evaluated executed)
    (htodo : evaluated ≠ .error .todo) : Agrees session evaluated executed := by
  cases h with
  | agrees h => exact h
  | writesLink => exact absurd rfl htodo

theorem Simulates.exists_writesLink (h : Simulates session evaluated executed)
    (htodo : evaluated = .error .todo) :
    ∃ e i, executed = .ok ⟨[.operation .writeLink e i], returns .writeLink⟩ := by
  cases h with
  | agrees h =>
    rw [htodo] at h
    cases h
  | writesLink => exact ⟨_, _, rfl⟩

/-- An operation on the instance that evaluation has come to. -/
theorem simulates_operation {op : Operation (Option κ) (Option ι)} {e : κ} {y : Reference}
    (he : op.concreteType = some e) (hrange : ∀ rangeType, op.type ≠ .range rangeType) :
    Simulates session (perform session op y) (.ok ⟨[.operation op.type e y.inst], returns op.type⟩) := by
  by_cases hlink : op.type = .writeLink
  · have htodo : perform session op y = .error .todo := by
      rw [perform, performWith, hlink]
    rw [htodo, hlink]
    exact .writesLink
  · rw [perform_eq session he hlink hrange y]
    exact .agrees .performs

end Simulates

omit [DecidableEq κ] in
@[simp] theorem executeAll_singleton (statement : Statement κ) :
    executeAll content context [statement] = execute content context statement := by
  rw [executeAll]
  cases execute content context statement with
  | error fault => rfl
  | ok execution =>
    obtain ⟨actions, returned⟩ := execution
    cases returned with
    | true => rfl
    | false =>
      show (Except.ok ⟨actions ++ [], false⟩ : Except ExecutionFault (Execution κ)) = _
      rw [List.append_nil]

omit [DecidableEq κ] in
theorem instOf_eq {expr : VarExpr κ} {i : ℕ} (h : expr.value content context = some (.inst i)) :
    instOf content context expr = .ok i := by
  rw [instOf, h]
  rfl

omit [DecidableEq κ] in
theorem refOf_eq {expr : VarExpr κ} {r : Reference} (h : expr.value content context = some (.ref r)) :
    refOf content context expr = .ok r := by
  rw [refOf, h]
  rfl

omit [DecidableEq κ] in
theorem value_parentExpr (session : Session ι κ) {pType : κ} {expr : VarExpr κ} {i : ℕ}
    (h : expr.value content context = some (.inst i)) :
    (parentExpr session pType expr).value content context =
      some (.inst (i / session.getLocalDomainSize pType)) := by
  have hpos := session.localDomainSize_pos pType
  unfold parentExpr
  split
  · rw [VarExpr.value, h]
    rfl
  · have hone : session.getLocalDomainSize pType = 1 := by omega
    rw [h, hone, Nat.div_one]

omit [DecidableEq κ] in
theorem value_dataInstance {expr : VarExpr κ} {x : Reference}
    (h : expr.value content context = some (.ref x)) :
    (VarExpr.dataInstance expr).value content context = some (.inst x.inst) := by
  rw [VarExpr.value, h]
  rfl

omit [DecidableEq κ] in
theorem value_read {pDimension : κ} {expr : VarExpr κ} {i : ℕ}
    (h : expr.value content context = some (.inst i)) :
    (VarExpr.read pDimension expr).value content context = some (.ref (content pDimension i)) := by
  rw [VarExpr.value, h]
  rfl

omit [DecidableEq κ] in
theorem execute_operation {opCode : OperationCode κ} {pType : κ} {expr : VarExpr κ} {i : ℕ}
    (h : expr.value content context = some (.inst i)) :
    executeAll content context [.operation opCode pType expr] =
      .ok ⟨[.operation opCode.type pType i], opCode.returns⟩ := by
  rw [executeAll_singleton, execute, instOf_eq h]
  rfl

variable {m_variables : Variables} {exprs exprs' : VariableExprMap κ}

variable (session dereferenceDimension) in
/-- A variable is made on both sides. -/
theorem set_both {n : ℕ} {t : Tree ι κ} (hfree : Free m_variables ({n} + t.bound))
    (hexprs : Free exprs ({n} + t.bound)) (x : Reference) (expr : VarExpr κ) :
    (Evaluation.setVarValue m_variables n x >>= fun m_variables =>
          evaluateFront session dereferenceDimension [t] m_variables) =
        evaluate session dereferenceDimension t (Function.update m_variables n (some x)) ∧
      Free (Function.update m_variables n (some x)) t.bound ∧
      Free (Function.update exprs n (some expr)) t.bound := by
  obtain ⟨hset, hfree⟩ := setVarValue_free hfree x
  refine ⟨?_, hfree, (hexprs.update expr).2⟩
  rw [hset]
  rfl

omit [DecidableEq κ] in
/-- The tree below an instruction. -/
theorem every_below {P : Head (Option κ) (Option ι) → Prop} {head : Head (Option κ) (Option ι)}
    {t : Tree ι κ} (h : (Instruction.node head [t]).Every P) : P head ∧ t.Every P := by
  cases h with
  | node hhead hchildren => exact ⟨hhead, hchildren t List.mem_cons_self⟩

/-- The case of a reference is the same on both sides. -/
theorem cases_agree {r : ReferenceVariable (Option κ)} {x : Reference} {expr : VarExpr κ}
    {cases : List (Variable κ × Tree ι κ)} {bodies : List (ℤ × List (Statement κ))}
    (hx : m_variables r.address = some x) (hvalue : expr.value content context = some (.ref x))
    (hfree : ∀ c ∈ cases, Free m_variables ({c.1.address} + c.2.bound))
    (h : List.Forall₂ (CaseCode session elements getFriendlyName expr) cases bodies)
    (ih : ∀ c ∈ cases, ∀ {m_variables : Variables} {exprs exprs' : VariableExprMap κ}
      {code : List (Statement κ)}, Tracks content context m_variables exprs (.inst c.1) →
        Free m_variables c.2.bound → Free exprs c.2.bound →
        generateCode session elements getFriendlyName c.2 exprs = .ok (code, exprs') →
        Simulates session (evaluate session dereferenceDimension c.2 m_variables)
          (executeAll content context code)) :
    Simulates session (evaluateBranch session dereferenceDimension x
        (cases.map fun c => .node (.polyCase r c.1) [c.2]) m_variables)
      (executeCase content context x.type (bodies.map fun b => .case b.1 b.2)) := by
  induction h with
  | nil => exact .agrees .noCase
  | @cons c b cases bodies hc _ ihcases =>
    obtain ⟨⟨pType, htype, hindex⟩, exprs, exprs', hexpr, hexprs, hcode⟩ := hc
    rw [List.forall_mem_cons] at hfree
    rw [List.map_cons, evaluateBranch]
    simp only [Instruction.head_node, htype, pointee, List.map_cons]
    rw [executeCase, ← hindex]
    show Simulates session (if session.getIndex pType = x.type then _ else _) _
    split
    · obtain ⟨hset, hfree'⟩ := setVarValue_free hfree.1 x
      rw [evaluate]
      simp only [getVarValue, hx]
      show Simulates session (Evaluation.setVarValue m_variables c.1.address x >>= _) _
      rw [hset]
      exact ih c List.mem_cons_self
        ⟨x, _, Function.update_self .., hexpr, value_dataInstance hvalue⟩ hfree' hexprs hcode
    · exact ihcases hfree.2 fun c' hc' => ih c' (List.mem_cons_of_mem c hc')

variable {ok : Head (Option κ) (Option ι) → Prop} {strict : Prop} {p : Place (Option κ)}

/-- **Simulation.** The code of a way without groups does what evaluation does. -/
theorem execute_simulates {t : Tree ι κ} (h : Route (Cleaned ok strict) strict p t)
    (hok : ∀ head, ok head → Generic head)
    (hreads : t.Every (ReadsContent session content dereferenceDimension))
    (htracks : Tracks content context m_variables exprs p) (hfree : Free m_variables t.bound)
    (hexprs : Free exprs t.bound) {code : List (Statement κ)}
    (hcode : generateCode session elements getFriendlyName t exprs = .ok (code, exprs')) :
    Simulates session (evaluate session dereferenceDimension t m_variables)
      (executeAll content context code) := by
  induction h generalizing m_variables exprs exprs' code with
  | root => exact absurd htracks id
  | @parentDerivation v w t _ ht ih =>
    obtain ⟨x, expr, hx, hexpr, hvalue⟩ := htracks
    obtain ⟨pType, expr', htype, hexpr', hcode⟩ := generate_parent hcode
    obtain rfl := Option.some.inj (hexpr.symm.trans hexpr')
    rw [evaluate]
    simp only [getVarValue, hx, htype, pointee]
    cases hw : w.concreteType with
    | none => exact .agrees .undefined
    | some d =>
      obtain ⟨heq, hfree', hexprs'⟩ := set_both session dereferenceDimension
        (hfree.below rfl rfl) (hexprs.below rfl rfl)
        ⟨x.inst / session.getLocalDomainSize pType, session.getIndex d, x.timestamp⟩
        (parentExpr session pType expr)
      show Simulates session (Evaluation.setVarValue m_variables w.address _ >>= _) _
      rw [heq]
      exact ih (every_below hreads).2 ⟨_, _, Function.update_self .., Function.update_self ..,
        value_parentExpr session hvalue⟩ hfree' hexprs' hcode
  | @childDerivation v w t _ ht ih =>
    obtain ⟨x, expr, hx, hexpr, hvalue⟩ := htracks
    obtain ⟨expr', hexpr', hcode⟩ := generate_child hcode
    obtain rfl := Option.some.inj (hexpr.symm.trans hexpr')
    rw [evaluate]
    simp only [getVarValue, hx, pointee]
    cases hw : w.concreteType with
    | none => exact .agrees .undefined
    | some d =>
      obtain ⟨heq, hfree', hexprs'⟩ := set_both session dereferenceDimension
        (hfree.below rfl rfl) (hexprs.below rfl rfl)
        ⟨x.inst, session.getIndex d, x.timestamp⟩ expr
      show Simulates session (Evaluation.setVarValue m_variables w.address _ >>= _) _
      rw [heq]
      exact ih (every_below hreads).2 ⟨⟨x.inst, session.getIndex d, x.timestamp⟩, expr,
        Function.update_self .., Function.update_self .., hvalue⟩ hfree' hexprs' hcode
  | @read v r d t _ ht ih =>
    obtain ⟨x, expr, hx, hexpr, hvalue⟩ := htracks
    obtain ⟨pDimension, expr', rfl, hexpr', hcode⟩ := generate_read hcode
    obtain rfl := Option.some.inj (hexpr.symm.trans hexpr')
    obtain ⟨hread, hbelow⟩ := every_below hreads
    obtain ⟨heq, hfree', hexprs'⟩ := set_both session dereferenceDimension
      (hfree.below rfl rfl) (hexprs.below rfl rfl)
      (dereferenceDimension x (session.getIndex pDimension)) (.read pDimension expr)
    have hcontent : (VarExpr.read pDimension expr).value content context =
        some (.ref (dereferenceDimension x (session.getIndex pDimension))) := by
      rw [value_read hvalue, hread x]
    rw [evaluate]
    simp only [getVarValue, hx, pointee]
    show Simulates session (Evaluation.setVarValue m_variables r.address _ >>= _) _
    rw [heq]
    exact ih hbelow ⟨_, _, Function.update_self .., Function.update_self .., hcontent⟩ hfree' hexprs'
      hcode
  | @monoReference w r t _ ht ih =>
    obtain ⟨x, expr, hx, hexpr, hvalue⟩ := htracks
    obtain ⟨expr', hexpr', hcode⟩ := generate_mono hcode
    obtain rfl := Option.some.inj (hexpr.symm.trans hexpr')
    obtain ⟨heq, hfree', hexprs'⟩ := set_both session dereferenceDimension
      (hfree.below rfl rfl) (hexprs.below rfl rfl)
      x (.dataInstance expr)
    rw [evaluate]
    simp only [getVarValue, hx]
    show Simulates session (Evaluation.setVarValue m_variables w.address _ >>= _) _
    rw [heq]
    exact ih (every_below hreads).2 ⟨_, _, Function.update_self .., Function.update_self ..,
      value_dataInstance hvalue⟩ hfree' hexprs' hcode
  | @polyReference r cases _ htypes hcases ht ih =>
    obtain ⟨x, expr, hx, hexpr, hvalue⟩ := htracks
    obtain ⟨expr', body, hexpr', rfl, hbody⟩ := generate_poly hcode
    obtain rfl := Option.some.inj (hexpr.symm.trans hexpr')
    have hbelow : ∀ c ∈ cases, c.2.Every (ReadsContent session content dereferenceDimension) :=
      fun c hc => by
        cases hreads with
        | node hhead hchildren => exact (every_below (hchildren _ (List.mem_map_of_mem hc))).2
    obtain ⟨bodies, rfl, hbodies⟩ :=
      generate_cases hexpr (by simpa [Head.binds, Head.isClosed] using hexprs) hbody
    have hcasefree : ∀ c ∈ cases, Free m_variables ({c.1.address} + c.2.bound) := fun c hc => by
      have hle := bound_le_boundAll (List.mem_map_of_mem (f := fun c : Variable κ × Tree ι κ =>
        (.node (.polyCase r c.1) [c.2] : Tree ι κ)) hc)
      exact (hfree.mono (by simpa [Head.binds, Head.isClosed] using hle))
    rw [evaluate, executeAll_singleton, execute]
    simp only [getVarValue, hx, refOf_eq hvalue]
    refine cases_agree hx hvalue hcasefree hbodies fun c hc => ?_
    intro m_variables exprs exprs' code htracks hfree hexprs hcode
    exact ih c hc (hbelow c hc) htracks hfree hexprs hcode
  | elimination hok' => exact absurd rfl hok'.2.1
  | failure =>
    rw [generateCode_failure] at hcode
    cases hcode
  | @operation v op hv hok' =>
    subst hv
    obtain ⟨x, expr, hx, hexpr, hvalue⟩ := htracks
    obtain ⟨expr', pType, opCode, hexpr', htype, rfl, hopType, hreturns⟩ :=
      generate_operation (hok _ hok'.1) hcode
    obtain rfl := Option.some.inj (hexpr.symm.trans hexpr')
    rw [evaluate, getVarValue, hx, execute_operation hvalue, hopType, hreturns]
    exact simulates_operation htype (hok _ hok'.1)

end Simulation
end EgLang.Compiler.Codegen
