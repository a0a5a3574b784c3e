import EgLang.Compiler.CodeSimulation
import EgLang.Compiler.InvocationWalks

/-!
# The code of a solution

From a solution of a generic invocation, code is generated unless an operation has none. It compiles, and
does what evaluation does; where the names stay in step, it does the operation on the instance that a walk
along the type path comes to.
-/

namespace EgLang.Compiler.Codegen

open EgLang.Library Invocation Evaluation NameResolution

set_option autoImplicit false

variable {ι κ : Type}

/-! ## Compiling -/

/-- The labels of every switch are different, and everything in it is a case. -/
inductive Compiles : Statement κ → Prop
  | operation {code : OperationCode κ} {pTarget : κ} {expr : VarExpr κ} :
      Compiles (.operation code pTarget expr)
  | switchType {expr : VarExpr κ} {cases : List (ℤ × List (Statement κ))}
      (hlabels : (cases.map Prod.fst).Nodup) (hbodies : ∀ c ∈ cases, ∀ s ∈ c.2, Compiles s) :
      Compiles (.switchType expr (cases.map fun c => .case c.1 c.2))

/-- What a member of the second of two related lists is related to. -/
theorem exists_forall₂ {α β : Type} {R : α → β → Prop} {as : List α} {bs : List β}
    (h : List.Forall₂ R as bs) {b : β} (hb : b ∈ bs) : ∃ a ∈ as, R a b := by
  induction h with
  | nil => cases hb
  | @cons a b' as bs hab _ ih =>
    rcases List.mem_cons.mp hb with rfl | hb
    · exact ⟨a, List.mem_cons_self, hab⟩
    · obtain ⟨a', ha', hR⟩ := ih hb
      exact ⟨a', List.mem_cons_of_mem a ha', hR⟩

section Ways
variable [DecidableEq κ] {session : Session ι κ} {elements : Elements κ}
  {getFriendlyName : κ → String} {ok : Head (Option κ) (Option ι) → Prop} {strict : Prop}
  {p : Place (Option κ)} {exprs exprs' : VariableExprMap κ} {code : List (Statement κ)}

/-- The labels of cases of different types are different. -/
theorem nodup_labels {expr : VarExpr κ} {cases : List (Variable κ × Tree ι κ)}
    {bodies : List (ℤ × List (Statement κ))}
    (h : List.Forall₂ (CaseCode session elements getFriendlyName expr) cases bodies)
    (hnodup : (cases.map fun c => c.1.concreteType).Nodup) : (bodies.map Prod.fst).Nodup := by
  have hlabels : (bodies.map Prod.fst).map some =
      (cases.map fun c => c.1.concreteType).map (Option.map session.getIndex) := by
    clear hnodup
    induction h with
    | nil => rfl
    | cons hc _ ih =>
      obtain ⟨⟨pType, htype, hindex⟩, -⟩ := hc
      simp only [List.map_cons, ih, htype, Option.map_some, hindex]
  have hmapped := hnodup.map (Option.map_injective session.index_injective)
  rw [← hlabels] at hmapped
  exact hmapped.of_map some

/-- The code of a way without groups compiles. -/
theorem compiles_route {t : Tree ι κ} (h : Route (Cleaned ok strict) strict p t)
    (hok : ∀ head, ok head → Generic head) (hset : IsSet exprs p) (hexprs : Free exprs t.bound)
    (hcode : generateCode session elements getFriendlyName t exprs = .ok (code, exprs')) :
    ∀ s ∈ code, Compiles s := by
  induction h generalizing exprs exprs' code with
  | root => exact absurd hset id
  | parentDerivation _ _ ih =>
    obtain ⟨pType, expr, -, -, hcode⟩ := generate_parent hcode
    exact ih ⟨_, Function.update_self ..⟩ ((hexprs.below rfl rfl).update _).2 hcode
  | childDerivation _ _ ih =>
    obtain ⟨expr, -, hcode⟩ := generate_child hcode
    exact ih ⟨_, Function.update_self ..⟩ ((hexprs.below rfl rfl).update _).2 hcode
  | read _ _ ih =>
    obtain ⟨pDimension, expr, -, -, hcode⟩ := generate_read hcode
    exact ih ⟨_, Function.update_self ..⟩ ((hexprs.below rfl rfl).update _).2 hcode
  | monoReference _ _ ih =>
    obtain ⟨expr, -, hcode⟩ := generate_mono hcode
    exact ih ⟨_, Function.update_self ..⟩ ((hexprs.below rfl rfl).update _).2 hcode
  | @polyReference r cases hok' htypes hcases ht ih =>
    obtain ⟨expr, body, hexpr, rfl, hbody⟩ := generate_poly hcode
    obtain ⟨bodies, rfl, hbodies⟩ :=
      generate_cases hexpr (by simpa [Head.binds, Head.isClosed] using hexprs) hbody
    have hnodup : (cases.map fun c => c.1.concreteType).Nodup := by
      rw [htypes]
      exact hok _ hok'.1
    refine List.forall_mem_singleton.mpr (.switchType (nodup_labels hbodies hnodup) fun b hb => ?_)
    obtain ⟨c, hc, -, exprs, exprs', hexpr, hexprs, hcode⟩ := exists_forall₂ hbodies hb
    exact ih c hc ⟨_, hexpr⟩ hexprs hcode
  | elimination hok' => exact absurd rfl hok'.2.1
  | failure =>
    rw [generateCode] at hcode
    cases hcode
  | operation _ hok' =>
    obtain ⟨expr, pType, opCode, -, -, rfl, -⟩ := generate_operation (hok _ hok'.1) hcode
    exact List.forall_mem_singleton.mpr .operation

/-! ## What is not generated -/

/-- What an instruction has no code for, whatever its variables. -/
def Refuses (session : Session ι κ) (elements : Elements κ) (fault : GenerationFault) :
    Head (Option κ) (Option ι) → Prop
  | .parentDerivation pFrom _ => pFrom.concreteType = none ∧ fault = .undefined
  | .dimensionReferenceRead _ _ pDimension => pDimension = none ∧ fault = .missing
  | .polyCase _ pTo => pTo.concreteType = none ∧ fault = .undefined
  | .elimination => fault = .invalidInstruction
  | .failure => fault = .invalidInstruction
  | .operation op => op.concreteType = none ∧ fault = .undefined ∨
      ∃ pType, op.concreteType = some pType ∧ operationCode session elements op pType = .error fault
  | _ => False

omit [DecidableEq κ] in
theorem required_ne_error {α : Type} {fault fault' : GenerationFault} {p : Option α}
    (h : ¬ (p = none ∧ fault = fault')) : required fault' p ≠ .error fault := by
  cases p with
  | none => exact fun heq => h ⟨rfl, (Except.error.inj heq).symm⟩
  | some a => exact fun heq => by cases heq

omit [DecidableEq κ] in
theorem getVarExpr_ne_error {fault : GenerationFault} {n : ℕ} (h : ∃ expr, exprs n = some expr) :
    getVarExpr exprs n ≠ .error fault := by
  obtain ⟨expr, hexpr⟩ := h
  rw [getVarExpr_ok.mpr hexpr]
  exact fun heq => by cases heq

/-- Going on from a variable that is made. -/
theorem setVarExpr_ne_error {fault : GenerationFault} {n : ℕ} {t : Tree ι κ}
    (h : Free exprs ({n} + t.bound)) (expr : VarExpr κ)
    (ht : ∀ {exprs : VariableExprMap κ}, (∃ expr, exprs n = some expr) → Free exprs t.bound →
      generateCode session elements getFriendlyName t exprs ≠ .error fault) :
    (setVarExpr exprs n expr >>= fun exprs =>
      generateAll session elements getFriendlyName [t] exprs) ≠ .error fault := by
  obtain ⟨hnone, hfree⟩ := h.update expr
  rw [setVarExpr_ok.mpr ⟨hnone, rfl⟩]
  show generateAll session elements getFriendlyName [t] _ ≠ _
  rw [generateAll_singleton]
  exact ht ⟨expr, Function.update_self ..⟩ hfree

theorem generateAll_ne_error {fault : GenerationFault} {n : ℕ} {cs : List (Tree ι κ)}
    (hset : ∃ expr, exprs n = some expr) (hfree : Free exprs (Instruction.boundAll cs))
    (h : ∀ c ∈ cs, ∀ {exprs : VariableExprMap κ}, (∃ expr, exprs n = some expr) →
      Free exprs c.bound → generateCode session elements getFriendlyName c exprs ≠ .error fault) :
    generateAll session elements getFriendlyName cs exprs ≠ .error fault := by
  induction cs generalizing exprs with
  | nil =>
    rw [generateAll]
    exact fun heq => by cases heq
  | cons c cs ih =>
    rw [List.forall_mem_cons] at h
    rw [Instruction.boundAll_cons] at hfree
    rw [generateAll]
    refine bind_ne_error (h.1 hset (hfree.mono (Multiset.le_add_right _ _))) fun r hr => ?_
    obtain ⟨expr, hexpr⟩ := hset
    have hkeeps := keeps session elements getFriendlyName _ hr
    have hn : n ∉ c.bound := fun hmem => by
      have hnone := hfree.1 _ (Multiset.mem_add.mpr (.inl hmem))
      rw [hexpr] at hnone
      cases hnone
    refine bind_ne_error (ih ⟨expr, (hkeeps n hn).trans hexpr⟩ ?_ h.2) fun _ _ heq => by cases heq
    refine ⟨fun k hk => ?_, (Multiset.nodup_add.mp hfree.2).2.1⟩
    have hdisjoint := Multiset.disjoint_right.mp (Multiset.nodup_add.mp hfree.2).2.2 hk
    rw [hkeeps k hdisjoint]
    exact hfree.1 k (Multiset.mem_add.mpr (.inr hk))

/-- **Generation** throws nothing on a way but what one of its instructions has no code for. -/
theorem generate_ne_error {fault : GenerationFault} {t : Tree ι κ} (h : Route ok strict p t)
    (hset : IsSet exprs p) (hexprs : Free exprs t.bound)
    (hno : t.Every fun head => ¬ Refuses session elements fault head) :
    generateCode session elements getFriendlyName t exprs ≠ .error fault := by
  induction h generalizing exprs with
  | root => exact absurd hset id
  | parentDerivation _ _ ih =>
    obtain ⟨hhead, hbelow⟩ := every_below hno
    rw [generateCode]
    refine bind_ne_error (required_ne_error hhead) fun _ _ => ?_
    refine bind_ne_error (getVarExpr_ne_error hset) fun _ _ => ?_
    exact setVarExpr_ne_error (hexprs.below rfl rfl) _ fun hset hfree => ih hset hfree hbelow
  | childDerivation _ _ ih =>
    obtain ⟨hhead, hbelow⟩ := every_below hno
    rw [generateCode]
    refine bind_ne_error (getVarExpr_ne_error hset) fun _ _ => ?_
    exact setVarExpr_ne_error (hexprs.below rfl rfl) _ fun hset hfree => ih hset hfree hbelow
  | read _ _ ih =>
    obtain ⟨hhead, hbelow⟩ := every_below hno
    rw [generateCode]
    refine bind_ne_error (required_ne_error hhead) fun _ _ => ?_
    refine bind_ne_error (getVarExpr_ne_error hset) fun _ _ => ?_
    exact setVarExpr_ne_error (hexprs.below rfl rfl) _ fun hset hfree => ih hset hfree hbelow
  | monoReference _ _ ih =>
    obtain ⟨hhead, hbelow⟩ := every_below hno
    rw [generateCode]
    refine bind_ne_error (getVarExpr_ne_error hset) fun _ _ => ?_
    exact setVarExpr_ne_error (hexprs.below rfl rfl) _ fun hset hfree => ih hset hfree hbelow
  | @polyReference r cases _ _ _ _ ih =>
    obtain ⟨hhead, hchildren⟩ := hno
    rw [generateCode]
    refine bind_ne_error (getVarExpr_ne_error hset) fun _ _ => ?_
    refine bind_ne_error (generateAll_ne_error (n := r.address) hset
      (by simpa [Head.binds, Head.isClosed] using hexprs) fun u hu => ?_) fun _ _ heq => by cases heq
    intro exprs hset hfree
    obtain ⟨c, hc, rfl⟩ := List.mem_map.mp hu
    obtain ⟨hcase, hbelow⟩ := every_below (hchildren _ hu)
    rw [generateCode]
    refine bind_ne_error (getVarExpr_ne_error hset) fun expr _ => ?_
    obtain ⟨hnone, hfree⟩ := (hfree.below rfl rfl).update (VarExpr.dataInstance expr)
    rw [setVarExpr_ok.mpr ⟨hnone, rfl⟩]
    refine bind_ne_error (fun heq => by cases heq) fun exprs' heq => ?_
    obtain rfl := Except.ok.inj heq
    refine bind_ne_error (required_ne_error hcase) fun _ _ => ?_
    rw [generateAll_singleton]
    refine bind_ne_error (ih c hc ⟨_, Function.update_self ..⟩ hfree hbelow) fun _ _ heq => ?_
    cases heq
  | elimination =>
    obtain ⟨hhead, -⟩ := hno
    rw [generateCode]
    exact fun heq => hhead (Except.error.inj heq).symm
  | failure =>
    obtain ⟨hhead, -⟩ := hno
    rw [generateCode]
    exact fun heq => hhead (Except.error.inj heq).symm
  | @operation v op hv _ =>
    subst hv
    obtain ⟨hhead, -⟩ := hno
    rw [generateCode]
    split
    · exact fun heq => by cases heq
    · refine bind_ne_error (required_ne_error fun h => hhead (.inl h)) fun pType htype => ?_
      have hcode : operationCode session elements op pType ≠ .error fault := fun h =>
        hhead (.inr ⟨pType, required_ok.mp htype, h⟩)
      refine bind_ne_error hcode fun _ _ => ?_
      exact bind_ne_error (getVarExpr_ne_error hset) fun _ _ heq => by cases heq

omit [DecidableEq κ] in
theorem required_ne_verify {α : Type} {fault : GenerationFault} (p : Option α)
    (h : fault ≠ .verify) : required fault p ≠ .error .verify :=
  required_ne_error fun hp => h hp.2.symm

omit [DecidableEq κ] in
theorem linkCases_ne_verify (targets : List (LinkTarget κ)) : linkCases targets ≠ .error .verify := by
  induction targets with
  | nil => exact fun heq => by cases heq
  | cons target targets ih =>
    rw [linkCases]
    split
    · exact ih
    · refine bind_ne_error (required_ne_verify _ (by decide)) fun _ _ => ?_
      split
      · exact bind_ne_error ih fun _ _ heq => by cases heq
      · refine bind_ne_error (required_ne_verify _ (by decide)) fun _ _ => ?_
        exact bind_ne_error ih fun _ _ heq => by cases heq

omit [DecidableEq κ] in
/-- The code of an operation looks no variable up. -/
theorem operationCode_ne_verify (op : Operation (Option κ) (Option ι)) (pType : κ) :
    operationCode session elements op pType ≠ .error .verify := by
  have hreference : ∀ f : κ → OperationCode κ,
      f <$> required .missing (elements.getReference pType) ≠ .error .verify := fun f => by
    cases elements.getReference pType <;> exact fun heq => by cases heq
  rw [operationCode]
  split
  · rw [callCode]
    refine bind_ne_error (required_ne_verify _ (by decide)) fun _ _ => ?_
    refine bind_ne_error (required_ne_verify _ (by decide)) fun pAllocator _ => ?_
    refine bind_ne_error (required_ne_verify _ (by decide)) fun pStaticType _ => ?_
    cases pStaticType with
    | event => cases pAllocator <;> exact fun heq => by cases heq
    | function =>
      dsimp only
      split <;> exact fun heq => by cases heq
    | _ => exact fun heq => by cases heq
  all_goals try exact hreference _
  all_goals try exact fun heq => by cases heq
  · exact bind_ne_error (required_ne_verify _ (by decide)) fun _ _ heq => by cases heq
  · refine bind_ne_error (required_ne_verify _ (by decide)) fun _ _ => ?_
    rw [writeLinkCode]
    refine bind_ne_error (required_ne_verify _ (by decide)) fun _ _ => ?_
    refine bind_ne_error (required_ne_verify _ (by decide)) fun _ _ => ?_
    refine bind_ne_error (required_ne_verify _ (by decide)) fun _ _ => ?_
    refine bind_ne_error (linkCases_ne_verify _) fun _ _ => ?_
    exact bind_ne_error (required_ne_verify _ (by decide)) fun _ _ heq => by cases heq

omit [DecidableEq κ] in
theorem not_refuses_verify (head : Head (Option κ) (Option ι)) :
    ¬ Refuses session elements .verify head := by
  intro h
  cases head with
  | operation op =>
    rcases h with ⟨-, heq⟩ | ⟨pType, -, heq⟩
    · cases heq
    · exact operationCode_ne_verify op pType heq
  | parentDerivation | dimensionReferenceRead | polyCase => cases h.2
  | elimination | failure => cases h
  | _ => exact h

/-- A condition on all instructions of a tree. -/
theorem every_of_forall {ε ι : Type} {P : Head ε ι → Prop} (h : ∀ head, P head)
    (t : Instruction ε ι) : t.Every P := by
  induction t using Instruction.tree_induction with
  | step head children ih => exact .node (h head) ih

/-! ## Runs -/

section Runs
variable {content : κ → ℕ → Reference} {context : Reference}
  {dereferenceDimension : Reference → ℤ → Reference}

/-- The expression of the variable that a route has come to is of a value. -/
def Spells (content : κ → ℕ → Reference) (context : Reference) (exprs : VariableExprMap κ)
    (x : Reference) : Place (Option κ) → Prop
  | .start => False
  | .inst v => ∃ expr, exprs v.address = some expr ∧
      expr.value content context = some (.inst x.inst)
  | .ref r => ∃ expr, exprs r.address = some expr ∧ expr.value content context = some (.ref x)

omit [DecidableEq κ] in
/-- The case of a type is found where the labels are different. -/
theorem executeCase_mem {bodies : List (ℤ × List (Statement κ))} {b : ℤ × List (Statement κ)}
    (hb : b ∈ bodies) (hnodup : (bodies.map Prod.fst).Nodup) :
    executeCase content context b.1 (bodies.map fun b => .case b.1 b.2) =
      executeAll content context b.2 := by
  induction bodies with
  | nil => cases hb
  | cons b' bodies ih =>
    rw [List.map_cons, List.nodup_cons] at hnodup
    rw [List.map_cons, executeCase]
    rcases List.mem_cons.mp hb with rfl | hb
    · rw [if_pos rfl]
    · have hne : b'.1 ≠ b.1 := fun heq => hnodup.1 (heq ▸ List.mem_map_of_mem hb)
      rw [if_neg hne, ih hb hnodup.2]

/-- What a member of the first of two related lists is related to. -/
theorem forall₂_exists {α β : Type} {R : α → β → Prop} {as : List α} {bs : List β}
    (h : List.Forall₂ R as bs) {a : α} (ha : a ∈ as) : ∃ b ∈ bs, R a b :=
  exists_forall₂ h.flip ha

/-- **Execution** does the operation that a run of the tree comes to. -/
theorem execute_run {t : Tree ι κ} (h : Route (Cleaned ok strict) strict p t)
    (hok : ∀ head, ok head → Generic head)
    (hreads : t.Every (ReadsContent session content dereferenceDimension)) {x y : Reference}
    {op : Operation (Option κ) (Option ι)} (hx : Spells content context exprs x p)
    (hexprs : Free exprs t.bound)
    (hcode : generateCode session elements getFriendlyName t exprs = .ok (code, exprs'))
    (hrun : Run (reading session dereferenceDimension) t x op y) :
    ∃ e, op.concreteType = some e ∧ executeAll content context code =
      .ok ⟨[.operation op.type e y.inst], returns op.type⟩ := by
  induction h generalizing x exprs exprs' code with
  | root => exact absurd hx id
  | @parentDerivation v w t _ ht ih =>
    obtain ⟨expr, hexpr, hvalue⟩ := hx
    obtain ⟨pType, expr', htype, hexpr', hcode⟩ := generate_parent hcode
    obtain rfl := Option.some.inj (hexpr.symm.trans hexpr')
    cases hrun with
    | parentDerivation hrun =>
      refine ih (every_below hreads).2 ⟨_, Function.update_self .., ?_⟩
        ((hexprs.below rfl rfl).update _).2 hcode hrun
      rw [value_parentExpr session hvalue, htype]
      rfl
  | @childDerivation v w t _ ht ih =>
    obtain ⟨expr, hexpr, hvalue⟩ := hx
    obtain ⟨expr', hexpr', hcode⟩ := generate_child hcode
    obtain rfl := Option.some.inj (hexpr.symm.trans hexpr')
    cases hrun with
    | childDerivation hrun =>
      refine ih (every_below hreads).2 ?_ ((hexprs.below rfl rfl).update _).2 hcode hrun
      exact ⟨expr, Function.update_self .., hvalue⟩
  | @read v r d t _ ht ih =>
    obtain ⟨expr, hexpr, hvalue⟩ := hx
    obtain ⟨pDimension, expr', rfl, hexpr', hcode⟩ := generate_read hcode
    obtain rfl := Option.some.inj (hexpr.symm.trans hexpr')
    obtain ⟨hread, hbelow⟩ := every_below hreads
    cases hrun with
    | read hrun =>
      refine ih hbelow ⟨_, Function.update_self .., ?_⟩ ((hexprs.below rfl rfl).update _).2 hcode hrun
      rw [value_read hvalue, ← hread x]
      rfl
  | @monoReference w r t _ ht ih =>
    obtain ⟨expr, hexpr, hvalue⟩ := hx
    obtain ⟨expr', hexpr', hcode⟩ := generate_mono hcode
    obtain rfl := Option.some.inj (hexpr.symm.trans hexpr')
    cases hrun with
    | monoReference _ hrun =>
      exact ih (every_below hreads).2 ⟨_, Function.update_self .., value_dataInstance hvalue⟩
        ((hexprs.below rfl rfl).update _).2 hcode hrun
  | @polyReference r cases hok' htypes hcases ht ih =>
    obtain ⟨expr, hexpr, hvalue⟩ := hx
    obtain ⟨expr', body, hexpr', rfl, hbody⟩ := generate_poly hcode
    obtain rfl := Option.some.inj (hexpr.symm.trans hexpr')
    obtain ⟨bodies, rfl, hbodies⟩ :=
      generate_cases hexpr (by simpa [Head.binds, Head.isClosed] using hexprs) hbody
    have hnodup : (cases.map fun c => c.1.concreteType).Nodup := by
      rw [htypes]
      exact hok _ hok'.1
    cases hrun with
    | polyReference hmem htype hrun =>
      have hbelow : ∀ c ∈ cases, c.2.Every (ReadsContent session content dereferenceDimension) :=
        fun c hc => by
          cases hreads with
          | node hhead hchildren => exact (every_below (hchildren _ (List.mem_map_of_mem hc))).2
      obtain ⟨c, hc, heq⟩ := List.mem_map.mp hmem
      cases heq
      obtain ⟨b, hb, ⟨pType, hpType, hindex⟩, exprs₁, exprs₁', hexpr₁, hfree, hcode⟩ :=
        forall₂_exists hbodies hc
      obtain ⟨e, he, hexecute⟩ := ih c hc (hbelow c hc) ⟨_, hexpr₁, value_dataInstance hvalue⟩ hfree
        hcode hrun
      refine ⟨e, he, ?_⟩
      have hlabel : x.type = b.1 := by
        rw [← htype, hpType, ← hindex]
        rfl
      rw [executeAll_singleton, execute, refOf_eq hvalue]
      show executeCase content context x.type _ = _
      rw [hlabel, executeCase_mem hb (nodup_labels hbodies hnodup), hexecute]
  | elimination hok' => exact absurd rfl hok'.2.1
  | failure =>
    rw [generateCode] at hcode
    cases hcode
  | @operation v op' hv hok' =>
    subst hv
    obtain ⟨expr, hexpr, hvalue⟩ := hx
    cases hrun with
    | operation =>
      obtain ⟨expr', pType, opCode, hexpr', htype, rfl, hopType, hreturns⟩ :=
        generate_operation (hok _ hok'.1) hcode
      obtain rfl := Option.some.inj (hexpr.symm.trans hexpr')
      refine ⟨pType, htype, ?_⟩
      rw [execute_operation hvalue, hopType, hreturns]

end Runs
end Ways

/-! ## Solutions -/

section Solutions
variable [LinearOrder ι] [LinearOrder κ] {session : Session ι κ} {invocationID : InvocationID ι}
  {fuel : ℕ} {context : List (ElementPair ι κ)} {typePath : List (List (ElementPair ι κ))}
  {nodes : Nodes ι κ} {solution : InvocationSolution ι κ} {elements : Elements κ}
  {getFriendlyName : κ → String} {code : List (Statement κ)}

/-- The code of a solution has different labels in every switch and, on what the data members hold, does
what evaluation does. Evaluation refuses to write a link, and the code writes it. -/
structure DoesAsEvaluated (session : Session ι κ) (solution : InvocationSolution ι κ)
    (code : List (Statement κ)) : Prop where
  compiles : ∀ s ∈ code, Compiles s
  agrees : ∀ {content : κ → ℕ → Reference} {dereferenceDimension : Reference → ℤ → Reference},
    solution.m_pRoot.Every (ReadsContent session content dereferenceDimension) → ∀ x : Reference,
      evaluateSolution session dereferenceDimension solution x ≠ .error .todo →
        Agrees session (evaluateSolution session dereferenceDimension solution x)
          (executeAll content x code)
  writesLink : ∀ {content : κ → ℕ → Reference} {dereferenceDimension : Reference → ℤ → Reference},
    solution.m_pRoot.Every (ReadsContent session content dereferenceDimension) → ∀ x : Reference,
      evaluateSolution session dereferenceDimension solution x = .error .todo →
        ∃ e i, executeAll content x code = .ok ⟨[.operation .writeLink e i], returns .writeLink⟩

omit [LinearOrder ι] in
/-- The code of a solution is that of the tree below its root. -/
theorem generateInstructions_rooted {ok : Head (Option κ) (Option ι) → Prop} {strict : Prop}
    {u : Tree ι κ} (h : Rooted ok strict context solution u) :
    generateInstructions session elements getFriendlyName solution =
      (generateCode session elements getFriendlyName u (Function.update (fun _ => none)
        (contextVariable context).address (some .context))).map Prod.fst := by
  rw [generateInstructions, h.root]
  show (generateAll session elements getFriendlyName [u] _ >>= fun r => .ok r.1) = _
  rw [generateAll_singleton]
  cases generateCode session elements getFriendlyName u _ <;> rfl

omit [LinearOrder ι] in
theorem generateInstructions_ok {ok : Head (Option κ) (Option ι) → Prop} {strict : Prop}
    {u : Tree ι κ} (h : Rooted ok strict context solution u)
    (hcode : generateInstructions session elements getFriendlyName solution = .ok code) :
    ∃ exprs', generateCode session elements getFriendlyName u (Function.update (fun _ => none)
      (contextVariable context).address (some .context)) = .ok (code, exprs') := by
  rw [generateInstructions_rooted h] at hcode
  cases hgenerate : generateCode session elements getFriendlyName u (Function.update (fun _ => none)
      (contextVariable context).address (some .context)) with
  | error fault =>
    rw [hgenerate] at hcode
    cases hcode
  | ok r =>
    rw [hgenerate] at hcode
    obtain rfl := Except.ok.inj hcode
    exact ⟨r.2, rfl⟩

omit [LinearOrder ι] in
/-- The code of a solution does what evaluation does, or writes a link. -/
theorem instructions_simulate {u : Tree ι κ} (h : Rooted Generic False context solution u)
    (hcode : generateInstructions session elements getFriendlyName solution = .ok code)
    {content : κ → ℕ → Reference} {dereferenceDimension : Reference → ℤ → Reference}
    (hreads : solution.m_pRoot.Every (ReadsContent session content dereferenceDimension))
    (x : Reference) : Simulates session (evaluateSolution session dereferenceDimension solution x)
      (executeAll content x code) := by
  obtain ⟨exprs', hcode⟩ := generateInstructions_ok h hcode
  have htracks : Tracks content x (Function.update (fun _ => none) (contextVariable context).address
      (some x)) (Function.update (fun _ => none) (contextVariable context).address (some .context))
      (.ref (contextVariable context)) :=
    ⟨x, .context, Function.update_self .., Function.update_self .., rfl⟩
  have hfree := free_update h.nodup h.notMem x
  have hexprs := free_update h.nodup h.notMem (.context : VarExpr κ)
  rw [h.root] at hreads
  have hsimulates :=
    execute_simulates h.route (fun _ h => h) (every_below hreads).2 htracks hfree hexprs hcode
  rw [evaluateSolution, h.root]
  exact hsimulates

/-- **Main result.** Generating the code of a solution looks no variable up that is not set and sets none
twice, and the code does what evaluation does, or writes a link that evaluation does not. -/
theorem code_doesAsEvaluated (hgeneric : isOperationEnumeration invocationID.operation = false)
    (hconstruct : constructInvocation session invocationID = .ok (context, typePath))
    (hcontext : ∀ p ∈ context, session.isAction p.second = true)
    (hresolve : nameResolution session.toDerivationAnalysis fuel invocationID.operation context
      typePath = some (.ok nodes))
    (hbuild : build session invocationID.operation context typePath nodes = .ok solution) :
    generateInstructions session elements getFriendlyName solution ≠ .error .verify ∧
      ∀ code, generateInstructions session elements getFriendlyName solution = .ok code →
        DoesAsEvaluated session solution code := by
  obtain ⟨u, hrooted⟩ := generic_rooted hgeneric hconstruct hcontext hresolve hbuild
  have hset : IsSet (Function.update (fun _ => none) (contextVariable context).address
      (some (.context : VarExpr κ))) (.ref (contextVariable context)) := ⟨_, Function.update_self ..⟩
  have hexprs := free_update hrooted.nodup hrooted.notMem (.context : VarExpr κ)
  have hok : ∀ head : Head (Option κ) (Option ι), Generic head → Generic head := fun _ h => h
  constructor
  · rw [generateInstructions_rooted hrooted]
    have hverifies : generateCode session elements getFriendlyName u (Function.update (fun _ => none)
        (contextVariable context).address (some .context)) ≠ .error .verify :=
      generate_ne_error hrooted.route hset hexprs (every_of_forall not_refuses_verify u)
    intro heq
    cases hgenerate : generateCode session elements getFriendlyName u (Function.update (fun _ => none)
        (contextVariable context).address (some .context)) with
    | ok r =>
      rw [hgenerate] at heq
      cases heq
    | error fault =>
      rw [hgenerate] at heq hverifies
      exact hverifies (congrArg Except.error (Except.error.inj heq))
  · intro code hcode
    obtain ⟨exprs', hcode'⟩ := generateInstructions_ok hrooted hcode
    exact ⟨compiles_route hrooted.route hok hset hexprs hcode',
      fun hreads x htodo => (instructions_simulate hrooted hcode hreads x).agrees_of_ne_todo htodo,
      fun hreads x htodo => (instructions_simulate hrooted hcode hreads x).exists_writesLink htodo⟩

/-- Code is generated for an operation. -/
def HasCode (session : Session ι κ) (elements : Elements κ) (op : Operation (Option κ) (Option ι)) :
    Prop :=
  ∃ pType code, op.concreteType = some pType ∧ operationCode session elements op pType = .ok code

/-- A well typed instruction has code, if it is no operation without. -/
theorem not_refuses {fault : GenerationFault} {head : Head (Option κ) (Option ι)}
    (h : Cleaned (Instructs session) True head)
    (hcode : ∀ op, head = .operation op → HasCode session elements op) :
    ¬ Refuses session elements fault head := by
  intro hrefuses
  cases head with
  | parentDerivation pFrom pTo =>
    obtain ⟨e, q, he, -⟩ := h.1
    exact absurd (he.symm.trans hrefuses.1) (Option.some_ne_none e)
  | dimensionReferenceRead pInstance pReference pDimension =>
    obtain ⟨d, o, hd, -⟩ := h.1
    exact absurd (hd.symm.trans hrefuses.1) (Option.some_ne_none d)
  | polyCase pReference pTo => exact h.1 hrefuses.1
  | elimination => exact h.2.1 rfl
  | failure => exact h.2.2 trivial rfl
  | operation op =>
    obtain ⟨pType, code, htype, hcode⟩ := hcode op rfl
    rcases hrefuses with ⟨hnone, -⟩ | ⟨pType', htype', herror⟩
    · exact absurd (htype.symm.trans hnone) (Option.some_ne_none pType)
    · obtain rfl := Option.some.inj (htype.symm.trans htype')
      rw [hcode] at herror
      cases herror
  | _ => exact hrefuses

omit [LinearOrder ι] [LinearOrder κ] in
theorem operationsOf_node {head : Head (Option κ) (Option ι)} {children : List (Tree ι κ)}
    (h : ∀ op, head ≠ .operation op) :
    Instruction.operationsOf [.node head children] = Instruction.operationsOf children := by
  cases head with
  | operation op => exact absurd rfl (h op)
  | _ => simp [Instruction.operationsOf, Instruction.getOperations]

omit [LinearOrder ι] [LinearOrder κ] in
theorem mem_operationsOf {c : Tree ι κ} {cs : List (Tree ι κ)} (hc : c ∈ cs)
    {op : Operation (Option κ) (Option ι)} (hop : op ∈ Instruction.operationsOf [c]) :
    op ∈ Instruction.operationsOf cs := by
  induction cs with
  | nil => cases hc
  | cons c' cs ih =>
    have hcons : Instruction.operationsOf (c' :: cs) =
        Instruction.operationsOf [c'] ++ Instruction.operationsOf cs := by
      obtain ⟨head, children⟩ := c'
      cases head <;> simp [Instruction.operationsOf]
    rw [hcons]
    rcases List.mem_cons.mp hc with rfl | hc
    · exact List.mem_append_left _ hop
    · exact List.mem_append_right _ (ih hc)

/-- On a well typed way all of whose operations have code, no instruction is without. -/
theorem every_not_refuses {fault : GenerationFault} {p : Place (Option κ)} {u : Tree ι κ}
    (h : Route (Cleaned (Instructs session) True) True p u)
    (hcodes : ∀ op ∈ Instruction.operationsOf [u], HasCode session elements op) :
    u.Every fun head => ¬ Refuses session elements fault head := by
  induction h with
  | polyReference hok _ hcases _ ih =>
    rw [operationsOf_node (by simp)] at hcodes
    refine .node (not_refuses hok (by simp)) fun v hv => ?_
    have hbelow := fun op hop => hcodes op (mem_operationsOf hv hop)
    obtain ⟨c, hc, rfl⟩ := List.mem_map.mp hv
    rw [operationsOf_node (by simp)] at hbelow
    exact .node (not_refuses (hcases c hc) (by simp)) (List.forall_mem_singleton.mpr (ih c hc hbelow))
  | elimination hok => exact absurd rfl hok.2.1
  | failure hok => exact absurd rfl (hok.2.2 trivial)
  | operation _ hok =>
    refine .node (not_refuses hok fun op hop => ?_) (by simp)
    obtain rfl := Head.operation.inj hop
    exact hcodes _ (by simp [Instruction.operationsOf])
  | root hok _ ih | parentDerivation hok _ ih | childDerivation hok _ ih | read hok _ ih
    | monoReference hok _ ih =>
    rw [operationsOf_node (by simp)] at hcodes
    exact .node (not_refuses hok (by simp)) (List.forall_mem_singleton.mpr (ih hcodes))

/-- Executing the code on a reference to a context does an operation that a walk along the type path
comes to, at the instance that it comes to. -/
def WalksInCode (session : Session ι κ) (operation : OperationID) (context : List (ElementPair ι κ))
    (typePath : List (List (ElementPair ι κ))) (code : List (Statement κ)) : Prop :=
  ∀ {content : κ → ℕ → Reference} {dereferenceDimension : Reference → ℤ → Reference},
    (∀ (d : κ) (x : Reference), dereferenceDimension x (session.getIndex d) = content d x.inst) →
    Stores session dereferenceDimension → ∀ {x : Reference} {p : ElementPair ι κ} {c : κ},
      p ∈ context → p.second = some c → session.getIndex c = x.type →
      ∃ type e y, Walk session operation dereferenceDimension typePath c x type e y ∧
        executeAll content x code = .ok ⟨[.operation type e y.inst], returns type⟩

/-- **Main result.** Where the names of a generic invocation stay in step and its operations have code,
its solution has code, and the code takes walks along the type path. -/
theorem code_walks_of_inStep (hgeneric : isOperationEnumeration invocationID.operation = false)
    (hconstruct : constructInvocation session invocationID = .ok (context, typePath))
    (hcontext : ∀ p ∈ context, session.isAction p.second = true)
    (hresolve : nameResolution session.toDerivationAnalysis fuel invocationID.operation context
      typePath = some (.ok nodes))
    (hbuild : build session invocationID.operation context typePath nodes = .ok solution)
    (hstep : InStepAt session invocationID.operation nodes)
    (hcodes : ∀ op ∈ solution.m_pRoot.getOperations, HasCode session elements op) :
    ∃ code, generateInstructions session elements getFriendlyName solution = .ok code ∧
      WalksInCode session invocationID.operation context typePath code := by
  obtain ⟨t, hvisited⟩ := exists_visited hgeneric hconstruct hresolve
  obtain ⟨t', ht', hi', hstep⟩ := hstep
  obtain rfl := hvisited.stands.unique ht' (hvisited.index.trans hi'.symm)
  obtain ⟨u, children, hrooted, hroot, hruns⟩ := exists_rooted hgeneric hvisited hbuild
    fun children hroot => (hroot.sound hvisited.follows hcontext hstep).1
  obtain ⟨u', hplaced⟩ := generic_rooted hgeneric hconstruct hcontext hresolve hbuild
  obtain rfl : u = u' := by
    have heq := hrooted.root.symm.trans hplaced.root
    simpa using heq
  have hset : IsSet (Function.update (fun _ => none) (contextVariable context).address
      (some (.context : VarExpr κ))) (.ref (contextVariable context)) := ⟨_, Function.update_self ..⟩
  have hexprs := free_update hrooted.nodup hrooted.notMem (.context : VarExpr κ)
  rw [hrooted.root, Instruction.getOperations] at hcodes
  cases hgenerate : generateCode session elements getFriendlyName u (Function.update (fun _ => none)
      (contextVariable context).address (some .context)) with
  | error fault =>
    exact absurd hgenerate
      (generate_ne_error hrooted.route hset hexprs (every_not_refuses hrooted.route hcodes))
  | ok r =>
    refine ⟨r.1, by rw [generateInstructions_rooted hrooted, hgenerate]; rfl, ?_⟩
    intro content dereferenceDimension hcontent hstores x p c hp hc hx
    have hholds : HoldsAt session (Function.update (fun _ => none) 0 (some x)) x
        (.ref (contextVariable context)) := by
      refine ⟨Function.update_self .., c, ?_, hx⟩
      rw [← hc]
      exact List.mem_map_of_mem hp
    obtain ⟨op, y, hrun, -⟩ := evaluate_route hstores hrooted.route hholds
      (free_update hrooted.nodup hrooted.notMem x)
    have hrun' : Run (reading session dereferenceDimension) solution.m_pRoot x op y := by
      rw [hrooted.root]
      exact .root hrun
    obtain ⟨c', e, hindex, he, hwalk⟩ :=
      (hroot.sound hvisited.follows hcontext hstep).2 (hruns hrun')
    obtain rfl := session.index_injective (hindex.trans hx.symm)
    have hreads : ∀ head : Head (Option κ) (Option ι),
        ReadsContent session content dereferenceDimension head := fun head => by
      cases head with
      | dimensionReferenceRead pInstance pReference pDimension =>
        cases pDimension with
        | none => trivial
        | some d => exact hcontent d
      | _ => trivial
    have hspells : Spells content x (Function.update (fun _ => none)
        (contextVariable context).address (some .context)) x (.ref (contextVariable context)) :=
      ⟨.context, Function.update_self .., rfl⟩
    obtain ⟨e', he', hexecute⟩ := execute_run hplaced.route (fun _ h => h)
      (every_of_forall hreads u) hspells hexprs hgenerate hrun
    obtain rfl := Option.some.inj (he.symm.trans he')
    exact ⟨op.type, e, y, hwalk, hexecute⟩

end Solutions

/-! ## The code of the reference on the way -/

/-- All actions have an allocator of one instance. -/
def linkedElements : Elements (Fin 8) where
  getAllocator _ := some .singleton
  getContext _ := some .action
  hasDefinition _ := true
  getReference _ := none
  getAllocators _ := []
  getTargets _ := none

theorem linked_operations : (build linked .id_Get linkedContext linkedPath linkedNodes).map
    (fun solution => solution.m_pRoot.getOperations.map fun op => (op.type, op.concreteType)) =
      .ok [(.getDimension, some 4), (.getDimension, some 6)] := by
  decide +kernel

theorem linked_hasCode {solution : InvocationSolution (Fin 8) (Fin 8)}
    (hbuild : build linked .id_Get linkedContext linkedPath linkedNodes = .ok solution) :
    ∀ op ∈ solution.m_pRoot.getOperations, HasCode linked linkedElements op := by
  have hoperations := linked_operations
  rw [hbuild] at hoperations
  have hoperations := Except.ok.inj hoperations
  intro op hop
  have hmem : (op.type, op.concreteType) ∈ [(OperationType.getDimension, some (4 : Fin 8)),
      (.getDimension, some 6)] := hoperations ▸ List.mem_map_of_mem hop
  rcases List.mem_cons.mp hmem with heq | hmem
  · obtain ⟨htype, hconcrete⟩ := Prod.mk.inj heq
    exact ⟨4, .getDimension, hconcrete, by rw [operationCode, htype]⟩
  · obtain ⟨htype, hconcrete⟩ := Prod.mk.inj (List.mem_singleton.mp hmem)
    exact ⟨6, .getDimension, hconcrete, by rw [operationCode, htype]⟩

theorem linked_code_walks : ∃ solution code,
    build linked .id_Get linkedContext linkedPath linkedNodes = .ok solution ∧
      generateInstructions linked linkedElements toString solution = .ok code ∧
      WalksInCode linked .id_Get linkedContext linkedPath code := by
  obtain ⟨solution, hbuild⟩ := linked_built
  have hgeneric : isOperationEnumeration linkedID.operation = false := rfl
  obtain ⟨code, hcode, hwalks⟩ := code_walks_of_inStep hgeneric linked_resolved.1 (by decide)
    linked_resolved.2 hbuild linked_inStep (linked_hasCode hbuild)
  exact ⟨solution, code, hbuild, hcode, hwalks⟩

-- the switch is on the type of what `2` refers to, and its second case goes up to the parent of `7`
example : (build linked .id_Get linkedContext linkedPath linkedNodes).map
    (generateInstructions linked linkedElements toString) =
      let ref := .read 2 (.dataInstance .context)
      .ok (.ok [.switchType ref
        [.case 3 [.operation .getDimension 4 (.dataInstance ref)],
          .case 7 [.operation .getDimension 6 (.quotient (.dataInstance ref) 2)]]]) := by
  rfl

theorem linked_doesAsEvaluated : ∃ solution,
    build linked .id_Get linkedContext linkedPath linkedNodes = .ok solution ∧
      generateInstructions linked linkedElements toString solution ≠ .error .verify ∧
      ∀ code, generateInstructions linked linkedElements toString solution = .ok code →
        DoesAsEvaluated linked solution code := by
  obtain ⟨solution, hbuild⟩ := linked_built
  have hgeneric : isOperationEnumeration linkedID.operation = false := rfl
  exact ⟨solution, hbuild, code_doesAsEvaluated hgeneric linked_resolved.1 (by decide)
    linked_resolved.2 hbuild⟩

end EgLang.Compiler.Codegen
