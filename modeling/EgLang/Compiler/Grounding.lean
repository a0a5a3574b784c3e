import EgLang.Compiler.ConcreteTree

/-!
# When the instance analysis ends

Nothing keeps a context from inheriting from itself, or from being a member of an instance of itself.
Where no context that is instantiated does, the analysis ends.
-/

namespace EgLang.Compiler

open Library Relation

set_option autoImplicit false

namespace Interface
variable {ι : Type} (I : Interface ι)

/-- A context has another one next to it in its inheritance tree. -/
def Inherits (c b : ι) : Prop := b ∈ I.inherited c

variable {I} {objects cs cs' : List ι} {fuel : ℕ} {c d root : ι} {t : ConcreteTree ι}

theorem mem_members_of_firstDeclaration {bs : List ι} {k : MemberKind} {s : String}
    (h : I.firstDeclaration bs k s = some d) : ∃ b, d ∈ I.members k b ∧ I.getIdentifier d = s := by
  obtain ⟨b, -, hb⟩ := List.mem_flatMap.mp (List.mem_of_find?_eq_some h)
  exact ⟨b, hb, by simpa using List.find?_some h⟩

theorem mem_objects_of_inherits {b : ι} (h : I.Inherits c b) : b ∈ I.objects := by
  rw [Inherits, inherited] at h
  split at h
  · cases h
  · exact I.base_mem h

variable [DecidableEq ι] (I)

/-- An instance of `c` has a child action that is made from `d`: a hoisted object, or the first
declaration of an identifier in the inheritance tree, unless a hoisted object has that identifier. -/
def Instantiates (objects : List ι) (c d : ι) : Prop :=
  d ∈ I.hoisted objects c ∨
    (∀ o ∈ I.hoisted objects c, I.getIdentifier o ≠ I.getIdentifier d) ∧
      ∃ t, Unfolds I.inherited t ∧ t.label = c ∧
        I.firstDeclaration t.labels .action (I.getIdentifier d) = some d

/-- **The condition**: of the contexts that get instances, none inherits from itself, directly or through
others, and none gets an instance below an instance of itself. -/
structure Grounded (objects : List ι) (root : ι) : Prop where
  inherits : ∀ c, ReflTransGen (I.Instantiates objects) root c → AcyclicFrom I.Inherits c
  instantiates : AcyclicFrom (I.Instantiates objects) root

variable {I}

/-! ## The children of an instance -/

/-- The overrides have a child action for every context that is instantiated, and for no other. -/
theorem mem_children_iff (hobjects : ∀ o ∈ objects, I.getType o = .eAbstractObject)
    {inheritance : RoseTree ι} {st : Overrides ι} {nodes : RoseTree (InheritanceNode ι)}
    (hunfolds : Unfolds I.inherited inheritance) (hlabel : inheritance.label = c)
    (h : I.collateOverrides (I.hoisted objects c) inheritance ⟨[], fun _ _ => none, cs⟩ =
      .ok (st, nodes)) :
    d ∈ st.children ∧ I.memberKind d = .action ↔ I.Instantiates objects c d := by
  have hempty : Overrides.Collated I [] ⟨[], fun _ _ => none, cs⟩ := by
    constructor <;> simp
  obtain ⟨hcollated, -⟩ := collateOverrides_spec
    (fun e he => type_of_mem_hoisted hobjects he) hempty h
  have hne : inheritance.labels ≠ [] := by
    intro hnil
    have hmem := RoseTree.label_mem_labels inheritance
    rw [hnil] at hmem
    cases hmem
  have hobject : ∀ o ∈ I.hoisted objects c, I.Asks .action (I.getIdentifier o) o = true := by
    intro o ho
    rw [Asks, memberKind, type_of_mem_hoisted hobjects ho]
    simp [ElementType.isContext]
  constructor
  · rintro ⟨hd, hkind⟩
    obtain ⟨i, hi⟩ := List.mem_iff_getElem?.mp hd
    rcases hcollated.child hi with hi' | htype
    · obtain ⟨e, he, hfind⟩ := hcollated.found hi'
      obtain rfl : d = e := Option.some.inj (hi.symm.trans he)
      rw [find?_declarations hne, hkind] at hfind
      cases ho : (I.hoisted objects c).find? (I.Asks .action (I.getIdentifier d)) with
      | some o =>
        rw [ho, Option.some_or, Option.some.injEq] at hfind
        subst hfind
        exact .inl (List.mem_of_find?_eq_some ho)
      | none =>
        rw [ho, Option.none_or] at hfind
        refine .inr ⟨fun o' ho' heq => ?_, inheritance, hunfolds, hlabel, hfind⟩
        refine List.find?_eq_none.mp ho o' ho' ?_
        rw [← heq]
        exact hobject o' ho'
    · obtain ⟨b, -, hb⟩ := List.mem_flatMap.mp (hcollated.mem hd)
      rcases List.mem_append.mp hb with hb | hb
      · exact .inl hb
      · obtain ⟨k, hk⟩ := mem_entries.mp hb
        exact absurd htype (not_object_of_mem hk)
  · rintro (hd | ⟨hfree, t, ht, rfl, hfirst⟩)
    · have htype := type_of_mem_hoisted hobjects hd
      refine ⟨hcollated.object ?_ htype, by rw [memberKind, htype]; rfl⟩
      exact List.mem_flatMap.mpr ⟨_, RoseTree.label_mem_labels inheritance,
        List.mem_append_left _ hd⟩
    · obtain rfl := ht.unique hunfolds hlabel.symm
      obtain ⟨b, hb, -⟩ := mem_members_of_firstDeclaration hfirst
      have hkind := memberKind_of_mem hb
      have hnone : (I.hoisted objects t.label).find? (I.Asks .action (I.getIdentifier d)) = none := by
        rw [List.find?_eq_none]
        intro o ho hask
        rw [Asks, decide_eq_true_eq] at hask
        exact hfree o ho hask.2
      have hfind := @find?_declarations _ I .action (I.getIdentifier d)
        (I.hoisted objects t.label) _ hne
      rw [hnone, Option.none_or, hfirst] at hfind
      cases hi : st.instances .action (I.getIdentifier d) with
      | none =>
        rw [hcollated.missing hi] at hfind
        cases hfind
      | some i =>
        obtain ⟨e, he, hfind'⟩ := hcollated.found hi
        obtain rfl : e = d := Option.some.inj (hfind'.symm.trans hfind)
        exact ⟨List.mem_of_getElem? he, hkind⟩

theorem mem_objects_of_instantiates
    (h : I.Instantiates (I.allObjects root) c d) : d ∈ I.objects := by
  rcases h with h | ⟨-, t, -, -, h⟩
  · rw [hoisted] at h
    split at h
    · exact List.mem_of_mem_filter (List.mem_of_mem_filter h)
    · cases h
  · obtain ⟨b, hb, -⟩ := mem_members_of_firstDeclaration h
    rw [members, collateActions] at hb
    exact I.child_mem (List.mem_of_mem_filter (List.mem_of_mem_filter hb))

/-! ## The errors of a call -/

/-- More fuel changes a call only where the fuel ran out. -/
theorem constructInstance_improves (fuel : ℕ) (cs : List ι) (c : ι) :
    Improves .unfinished (I.constructInstance objects fuel cs c)
      (I.constructInstance objects (fuel + 1) cs c) := by
  induction fuel generalizing cs c with
  | zero => exact .inl rfl
  | succ fuel ih =>
    rw [constructInstance, constructInstance, constructInheritanceTree_eq,
      constructInheritanceTree_eq]
    refine (unfold_improves _ _).bind fun t => (Improves.refl _).bind fun r => ?_
    refine (Improves.threadM (fun e _ cs => ?_) _).bind fun _ => .refl _
    rw [constructChild, constructChild]
    split
    · exact ih cs e
    · exact .refl _

theorem collateNode_error {st : Overrides ι} {e : InstanceFault}
    (h : I.collateNode objects st c = .error e) : e = .constructedTwice ∧ objects ≠ [] := by
  have hmember : ∀ {k : MemberKind} {m : ι} {st : Overrides ι},
      I.constructMember k st m ≠ .error e := by
    intro k m st hm
    rw [constructMember] at hm
    split at hm <;> cases hm
  rw [collateNode] at h
  simp only [except_bind_error, except_pure_error, or_false, and_false, exists_false] at h
  rcases h with h | ⟨r, -, h | ⟨r', -, h⟩⟩
  · obtain ⟨o, hmem, st, ho⟩ := threadM_error h
    rw [constructObject] at ho
    split at ho
    · exact ⟨(Except.error.inj ho).symm, List.ne_nil_of_mem hmem⟩
    · cases ho
  · obtain ⟨m, -, st, hm⟩ := threadM_error h
    exact absurd hm hmember
  · obtain ⟨m, -, st, hm⟩ := threadM_error h
    exact absurd hm hmember

theorem collateOverrides_error {inheritance : RoseTree ι} {st : Overrides ι} {e : InstanceFault}
    (h : I.collateOverrides objects inheritance st = .error e) :
    e = .constructedTwice ∧ objects ≠ [] := by
  induction inheritance using RoseTree.tree_induction generalizing st with
  | step c ts ih =>
    rw [collateOverrides, RoseTree.fold_node] at h
    simp only [except_bind_error, except_pure_error, and_false, exists_false, or_false] at h
    rcases h with h | ⟨r, -, h⟩
    · exact collateNode_error h
    · obtain ⟨f, hf, st', hfail⟩ := threadM_error h
      obtain ⟨t, ht, rfl⟩ := List.mem_map.mp hf
      exact ih t ht hfail

/-- Where a call fails: in the inheritance tree, in the overrides, or in the call for a child. -/
theorem constructInstance_succ_error {e : InstanceFault}
    (h : I.constructInstance objects (fuel + 1) cs c = .error e) :
    unfold .unfinished I.inherited (fuel + 1) c = .error e ∨
      (e = .constructedTwice ∧ objects ≠ []) ∨
      ∃ inheritance st nodes, unfold InstanceFault.unfinished I.inherited (fuel + 1) c =
          .ok inheritance ∧
        I.collateOverrides (I.hoisted objects c) inheritance ⟨[], fun _ _ => none, cs⟩ =
          .ok (st, nodes) ∧
        ∃ d ∈ st.children, I.memberKind d = .action ∧
          ∃ cs', I.constructInstance objects fuel cs' d = .error e := by
  rw [constructInstance, constructInheritanceTree_eq] at h
  simp only [except_bind_error, except_pure_error, and_false, exists_false, or_false] at h
  rcases h with h | ⟨t, ht, h | ⟨r, hr, h⟩⟩
  · exact .inl h
  · obtain ⟨he, hne⟩ := collateOverrides_error h
    refine .inr (.inl ⟨he, fun hnil => hne ?_⟩)
    rw [hoisted, hnil, List.filter_nil, ite_self]
  · obtain ⟨d, hd, cs', hfail⟩ := threadM_error h
    rw [constructChild] at hfail
    split at hfail
    · rename_i hcontext
      exact .inr (.inr ⟨t, r.1, r.2, ht, hr, d, hd, by rw [memberKind, if_pos hcontext], cs', hfail⟩)
    · cases hfail

/-- A call fails because the fuel ran out or an object was constructed before. -/
theorem constructInstance_error {e : InstanceFault}
    (h : I.constructInstance objects fuel cs c = .error e) :
    e = .unfinished ∨ e = .constructedTwice ∧ objects ≠ [] := by
  induction fuel generalizing cs c with
  | zero => exact .inl (Except.error.inj h).symm
  | succ fuel ih =>
    rcases constructInstance_succ_error h with h | h | ⟨_, _, _, -, -, d, -, -, cs', h⟩
    · rcases @unfold_ok_or _ _ InstanceFault.unfinished I.inherited (fuel + 1) c with
        ⟨t, ht⟩ | herr
      · rw [ht] at h
        cases h
      · rw [herr] at h
        exact .inl (Except.error.inj h).symm
    · exact .inr h
    · exact ih h

/-! ## Enough fuel -/

/-- Where the ways down from a context end, so does the call for it. -/
theorem exists_fuel_constructInstance
    (h : Acc (fun d c => I.Instantiates (I.allObjects root) c d) c)
    (hinherits : ∀ d, ReflTransGen (I.Instantiates (I.allObjects root)) c d →
      AcyclicFrom I.Inherits d) :
    ∃ n, ∀ cs, I.constructInstance (I.allObjects root) n cs c ≠ .error .unfinished := by
  induction h with
  | intro c _ ih =>
    obtain ⟨n, inheritance, hn⟩ := (exists_unfold_iff (e := InstanceFault.unfinished)).mpr
      ((hinherits c .refl).acc mem_objects_of_inherits)
    let P : ℕ → ι → Prop := fun m d => I.Instantiates (I.allObjects root) c d →
      ∀ cs, I.constructInstance (I.allObjects root) m cs d ≠ .error .unfinished
    have hmono : ∀ {m m' : ℕ} {d : ι}, m ≤ m' → P m d → P m' d := fun hle hm hd cs =>
      (improves_of_le (fun m => constructInstance_improves m cs _) hle).ne_error (hm hd cs)
    have hchildren : ∀ d ∈ I.objects, ∃ m, P m d := by
      intro d _
      by_cases hd : I.Instantiates (I.allObjects root) c d
      · obtain ⟨m, hm⟩ := ih d hd fun d' hd' => hinherits d' (.head hd hd')
        exact ⟨m, fun _ => hm⟩
      · exact ⟨0, fun hd' => absurd hd' hd⟩
    obtain ⟨m, hm⟩ := exists_common_fuel (P := P) hmono hchildren
    have hunfold : ∀ k, n ≤ k → unfold InstanceFault.unfinished I.inherited k c = .ok inheritance := by
      intro k hk
      rw [(improves_of_le (fun n => unfold_improves n c) hk).eq (by rw [hn]; simp), hn]
    refine ⟨max n m + 1, fun cs herr => ?_⟩
    rcases constructInstance_succ_error herr with h | ⟨h, -⟩ | ⟨t, st, nodes, ht, hst, d, hd, hkind, cs', h⟩
    · rw [hunfold _ (by omega)] at h
      cases h
    · cases h
    · have hinst : I.Instantiates (I.allObjects root) c d :=
        (mem_children_iff (fun o => type_of_mem_allObjects) (unfolds_of_unfold ht)
          (label_of_unfold ht) hst).mp ⟨hd, hkind⟩
      exact hmono (le_max_right n m) (hm d (mem_objects_of_instantiates hinst)) hinst cs' h

/-- A call that builds a tree has built one for every context that is instantiated. -/
theorem constructInstance_of_instantiates
    (h : I.constructInstance (I.allObjects root) (fuel + 1) cs c = .ok (cs', t))
    (hd : I.Instantiates (I.allObjects root) c d) :
    ∃ cs cs' t, I.constructInstance (I.allObjects root) fuel cs d = .ok (cs', t) := by
  obtain ⟨inheritance, st, nodes, ts, hinh, hst, hts, -⟩ := constructInstance_succ h
  obtain ⟨hmem, hkind⟩ := (mem_children_iff (fun o => type_of_mem_allObjects)
    (unfolds_of_unfold hinh) (label_of_unfold hinh) hst).mpr hd
  obtain ⟨cs₁, cs₂, s, hs⟩ := exists_round_of_mem hts hmem
  rw [constructChild] at hs
  rw [memberKind] at hkind
  split at hs
  · exact ⟨cs₁, cs₂, s, hs⟩
  · rename_i hcontext
    rw [if_neg hcontext] at hkind
    cases hkind

theorem grounded_of_constructInstance
    (h : I.constructInstance (I.allObjects root) fuel cs root = .ok (cs', t)) :
    I.Grounded (I.allObjects root) root := by
  let P : ℕ → ι → Prop := fun n c =>
    ∃ cs cs' t, I.constructInstance (I.allObjects root) n cs c = .ok (cs', t)
  have hzero : ∀ c, ¬ P 0 c := by
    rintro c ⟨cs, cs', t, h⟩
    cases h
  have hsucc : ∀ {n c d}, P (n + 1) c → I.Instantiates (I.allObjects root) c d → P n d := by
    rintro n c d ⟨cs, cs', t, h⟩ hd
    exact constructInstance_of_instantiates h hd
  refine ⟨fun c hc => ?_, acyclicFrom_of_acc (acc_of_fuel hzero hsucc ⟨cs, cs', t, h⟩)⟩
  have hreached : ∃ n, P n c := by
    induction hc with
    | refl => exact ⟨fuel, cs, cs', t, h⟩
    | tail _ hd ih =>
      obtain ⟨n, hn⟩ := ih
      cases n with
      | zero => exact absurd hn (hzero _)
      | succ n => exact ⟨n, hsucc hn hd⟩
  obtain ⟨n, cs₁, cs₂, s, hs⟩ := hreached
  cases n with
  | zero => cases hs
  | succ n =>
    obtain ⟨inheritance, _, _, _, hinh, -⟩ := constructInstance_succ hs
    exact acyclicFrom_of_acc (exists_unfold_iff.mp ⟨n + 1, inheritance, hinh⟩)

/-! ## The analysis -/

theorem instanceAnalysis_unfinished :
    I.instanceAnalysis root fuel = .error .unfinished ↔
      I.constructInstance (I.allObjects root) fuel [] root = .error .unfinished := by
  rw [instanceAnalysis, except_bind_error]
  refine or_iff_left ?_
  rintro ⟨r, -, h⟩
  split at h <;> cases h

/-- **The instance analysis ends**, with a tree or with an error, when no context that is instantiated
inherits from itself or lies below an instance of itself. Where one does, the analysis ends in no other
way than by an object that would be constructed twice. -/
theorem instanceAnalysis_ends (I : Interface ι) (root : ι) :
    (I.Grounded (I.allObjects root) root →
      ∃ n, ∀ fuel, n ≤ fuel → I.instanceAnalysis root fuel ≠ .error .unfinished) ∧
    (¬ I.Grounded (I.allObjects root) root →
      ∀ fuel, I.instanceAnalysis root fuel = .error .unfinished ∨
        I.instanceAnalysis root fuel = .error .constructedTwice) := by
  constructor
  · intro h
    obtain ⟨n, hn⟩ := exists_fuel_constructInstance
      (h.instantiates.acc mem_objects_of_instantiates) h.inherits
    refine ⟨n, fun fuel hle herr => ?_⟩
    exact (improves_of_le (fun n => constructInstance_improves n [] root) hle).ne_error (hn [])
      (instanceAnalysis_unfinished.mp herr)
  · intro h fuel
    cases hcall : I.constructInstance (I.allObjects root) fuel [] root with
    | ok r => exact absurd (@grounded_of_constructInstance _ _ _ r.1 _ _ r.2 _ hcall) h
    | error e =>
      rw [instanceAnalysis, hcall]
      rcases constructInstance_error hcall with rfl | ⟨rfl, -⟩
      · exact .inl rfl
      · exact .inr rfl

/-- Without objects an analysis that is not grounded never ends. -/
theorem unfinished_of_not_grounded (hobjects : I.allObjects root = [])
    (h : ¬ I.Grounded (I.allObjects root) root) (fuel : ℕ) :
    I.instanceAnalysis root fuel = .error .unfinished := by
  rw [instanceAnalysis_unfinished]
  cases hcall : I.constructInstance (I.allObjects root) fuel [] root with
  | ok r => exact absurd (@grounded_of_constructInstance _ _ _ r.1 _ _ r.2 _ hcall) h
  | error e =>
    rcases constructInstance_error hcall with rfl | ⟨-, hne⟩
    · rfl
    · exact absurd hobjects hne

theorem instantiates_of_first (hobjects : I.allObjects root = []) (fuel : ℕ)
    (h : (unfold InstanceFault.unfinished I.inherited fuel c).toOption.any (fun t =>
      decide (I.firstDeclaration t.labels .action (I.getIdentifier d) = some d)) = true) :
    I.Instantiates (I.allObjects root) c d := by
  obtain ⟨t, ht, hfirst⟩ := exists_ok h
  refine .inr ⟨fun o ho => ?_, t, unfolds_of_unfold ht, label_of_unfold ht, hfirst⟩
  rw [hobjects, hoisted, List.filter_nil, ite_self] at ho
  cases ho

end Interface

/-! ## Contexts that lie below themselves -/

/-- `action A : A;`. -/
def selfInheriting : Interface ℕ :=
  .ofDeclarations
    [⟨.eAbstractRoot .eInterfaceRoot, "", none, []⟩, ⟨.eAbstractRoot .eFileRoot, "root", some 0, []⟩,
      ⟨.eAbstractAction, "A", some 1, [2]⟩] (by decide)

/-- `action A { action B : A; }`. -/
def selfContaining : Interface ℕ :=
  .ofDeclarations
    [⟨.eAbstractRoot .eInterfaceRoot, "", none, []⟩, ⟨.eAbstractRoot .eFileRoot, "root", some 0, []⟩,
      ⟨.eAbstractAction, "A", some 1, []⟩, ⟨.eAbstractAction, "B", some 2, [2]⟩] (by decide)

/-- The analysis of neither ends, with whatever fuel. -/
theorem self_unfinished :
    (∀ fuel, selfInheriting.instanceAnalysis 0 fuel = .error .unfinished) ∧
      ∀ fuel, selfContaining.instanceAnalysis 0 fuel = .error .unfinished := by
  refine ⟨fun fuel => ?_, fun fuel => ?_⟩
  · have hnone : selfInheriting.allObjects 0 = [] := by decide +kernel
    have hroot : selfInheriting.Instantiates (selfInheriting.allObjects 0) 0 1 :=
      Interface.instantiates_of_first hnone 2 (by decide +kernel)
    have hA : selfInheriting.Instantiates (selfInheriting.allObjects 0) 1 2 :=
      Interface.instantiates_of_first hnone 2 (by decide +kernel)
    have hself : 2 ∈ selfInheriting.inherited 2 := by decide +kernel
    refine Interface.unfinished_of_not_grounded hnone (fun h => ?_) fuel
    exact h.inherits 2 (.tail (.single hroot) hA) 2 .refl (.single hself)
  · have hnone : selfContaining.allObjects 0 = [] := by decide +kernel
    have hroot : selfContaining.Instantiates (selfContaining.allObjects 0) 0 1 :=
      Interface.instantiates_of_first hnone 2 (by decide +kernel)
    have hA : selfContaining.Instantiates (selfContaining.allObjects 0) 1 2 :=
      Interface.instantiates_of_first hnone 2 (by decide +kernel)
    have hB : selfContaining.Instantiates (selfContaining.allObjects 0) 2 3 :=
      Interface.instantiates_of_first hnone 2 (by decide +kernel)
    have hself : selfContaining.Instantiates (selfContaining.allObjects 0) 3 3 :=
      Interface.instantiates_of_first hnone 3 (by decide +kernel)
    refine Interface.unfinished_of_not_grounded hnone (fun h => ?_) fuel
    exact h.instantiates 3 (.tail (.tail (.single hroot) hA) hB) (.single hself)

end EgLang.Compiler
