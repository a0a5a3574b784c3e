import EgLang.Compiler.LoadedElements

/-!
# Instructions are read back

What the serialiser has written for an element is read as an element of the same class, whose pointers
lead to what has been loaded for the elements that were pointed to.
-/

namespace EgLang.Compiler.Archive

open EgLang.Library

set_option autoImplicit false

variable {κ : Type} {files : ObjectFiles κ} {elements : List Element}

section Element
variable {storePointer : Option Address → StoringAST Unit} {loadPointer : LoadingAST (Option Address)}
variable {bound : ℕ} {w : World elements}

/-- Pointers to elements are read back. -/
def ReadsPointers (elements : List Element) (bound : ℕ)
    (storePointer : Option Address → StoringAST Unit) (loadPointer : LoadingAST (Option Address)) :
    Prop :=
  ∀ (p : Option Address) (w : World elements), ReadsBack World.Agrees bound w (storePointer p) loadPointer
    fun w' q => Option.Rel w'.Linked p q

theorem readsBack_as (h : ReadsPointers elements bound storePointer loadPointer)
    {is : ASTElementType → Bool} {p : Option Address} (hp : Refers elements is p) (w : World elements) :
    ReadsBack World.Agrees bound w (storePointer p) (loadAs loadPointer is)
      fun w' q => Option.Rel w'.Linked p q := by
  refine ReadsBack.last (h p w) fun q w' _ hq => ?_
  cases hq with
  | none => exact .pure .none
  | @some a a' hlinked =>
    intro vs s s' r hag hend _
    obtain ⟨-, rfl, rfl⟩ := Storing.ends_pure.mp hend
    refine ⟨w', some a', r, le_rfl, hag, .some hlinked, fun rest => ?_⟩
    obtain ⟨e, he, hclass⟩ := hp a rfl
    obtain ⟨e₀, e', he₀, he', htype⟩ := w'.sameType _ hlinked
    rw [he] at he₀
    obtain rfl := Option.some.inj he₀
    have hcast : (r.elements[a']?.map fun e => is e.getType) = some true := by
      rw [hag.2.2, he', Option.map_some, htype, hclass]
    change (if (r.elements[a']?.map fun e => is e.getType) = some true then pure (some a')
      else Loading.fail .notAnElement : LoadingAST _) (rest, r) = _
    rw [if_pos hcast]
    rfl

theorem readsBack_child (h : ReadsPointers elements bound storePointer loadPointer) {c : Address}
    (hc : Refers elements ASTElementType.isInstruction (some c)) (w : World elements) :
    ReadsBack World.Agrees bound w (storePointer (some c)) (loadChild loadPointer)
      fun w' c' => w'.Linked c c' := by
  refine ReadsBack.last (readsBack_as h hc w) fun q w' _ hq => ?_
  cases hq with
  | some hlinked => exact .pure hlinked

theorem readsBack_instruction (h : ReadsPointers elements bound storePointer loadPointer)
    {cs : List Address} (hcs : Children elements cs) (w : World elements) :
    ReadsBack World.Agrees bound w (storeInstruction storePointer cs) (loadInstruction loadPointer [])
      fun w' cs' => List.Forall₂ w'.Linked cs cs' := by
  refine ReadsBack.last (readsBack_vector (R := fun w' c c' => w'.Linked c c')
    (fun hle => World.Grows.linked hle) fun c hc w => readsBack_child h (hcs c hc) w) ?_
  exact fun cs' w' _ hcs' => .pure hcs'

theorem create_derivation (kind : Derivation) (cs : List Address) (p q : Option Address) :
    Element.create (Element.derivation kind cs p q).getType = some (.derivation kind [] none none) := by
  cases kind <;> rfl

theorem create_transient (kind : Transient) (cs : List Address) :
    Element.create (Element.transient kind cs).getType = none := by cases kind <;> rfl

theorem create_actionOperation (kind : ActionOperation) (cs : List Address) (p : Option Address)
    (i t : Option IndexedObject) : Element.create (Element.actionOperation kind cs p i t).getType =
      some (.actionOperation kind [] none none none) := by cases kind <;> rfl

theorem create_dimensionOperation (kind : DimensionOperation) (cs : List Address) (p : Option Address)
    (i t : Option IndexedObject) : Element.create (Element.dimensionOperation kind cs p i t).getType =
      some (.dimensionOperation kind [] none none none) := by cases kind <;> rfl

theorem getType_create {type : ASTElementType} {new : Element} (h : Element.create type = some new) :
    new.getType = type := by
  cases type <;> cases h <;> rfl

/-- The fields of an element are read back. -/
theorem readsBack_element (h : ReadsPointers elements bound storePointer loadPointer)
    {e new : Element} (htyped : e.Typed files elements) (hnew : Element.create e.getType = some new)
    (w : World elements) :
    ReadsBack World.Agrees bound w (e.store storePointer) (new.load files loadPointer)
      fun w' e' => e.archived.Same w'.Linked e' := by
  cases e with
  | instanceVariable p t =>
    cases hnew
    refine ReadsBack.bind (readsBack_as h htyped.1 w) fun p' w₁ _ hp => ?_
    refine ReadsBack.last (readsBack_objectRef htyped.2) fun t' w₂ h₁₂ ht => .pure ?_
    subst ht
    exact .instanceVariable (rel_imp (fun _ _ => h₁₂.linked) hp)
  | referenceVariable p ts =>
    cases hnew
    refine ReadsBack.bind (readsBack_as h htyped.1 w) fun p' w₁ _ hp => ?_
    refine ReadsBack.last (readsBack_objectVector htyped.2) fun ts' w₂ h₁₂ hts => .pure ?_
    subst hts
    exact .referenceVariable (rel_imp (fun _ _ => h₁₂.linked) hp)
  | dimensionReferenceVariable p ts =>
    cases hnew
    refine ReadsBack.last (readsBack_as h htyped.1 w) fun p' w₁ _ hp => ?_
    exact .pure (.dimensionReferenceVariable hp)
  | contextVariable p ts =>
    cases hnew
    refine ReadsBack.last (readsBack_as h htyped.1 w) fun p' w₁ _ hp => ?_
    exact .pure (.contextVariable hp)
  | derivation kind cs p q =>
    rw [create_derivation] at hnew
    cases hnew
    refine ReadsBack.bind (readsBack_instruction h htyped.1 w) fun cs' w₁ _ hcs => ?_
    refine ReadsBack.bind (readsBack_as h htyped.2.1 w₁) fun p' w₂ h₁₂ hp => ?_
    refine ReadsBack.last (readsBack_as h htyped.2.2 w₂) fun q' w₃ h₂₃ hq => .pure ?_
    exact .derivation (hcs.imp fun _ _ => (h₁₂.trans h₂₃).linked)
      (rel_imp (fun _ _ => h₂₃.linked) hp) hq
  | enumeration cs p ts n =>
    cases hnew
    refine ReadsBack.bind (readsBack_instruction h htyped.1 w) fun cs' w₁ _ hcs => ?_
    refine ReadsBack.bind (readsBack_as h htyped.2.1 w₁) fun p' w₂ h₁₂ hp => ?_
    refine ReadsBack.bind (readsBack_objectVector htyped.2.2) fun ts' w₃ h₂₃ hts => ?_
    refine ReadsBack.last (readsBack_value rfl) fun n' w₄ h₃₄ hn => .pure ?_
    subst hts hn
    have h₂₄ := h₂₃.trans h₃₄
    exact .enumeration (hcs.imp fun _ _ => (h₁₂.trans h₂₄).linked) (rel_imp (fun _ _ => h₂₄.linked) hp)
  | transient kind cs =>
    rw [create_transient] at hnew
    cases hnew
  | dimensionReferenceRead cs p q d =>
    cases hnew
    refine ReadsBack.bind (readsBack_instruction h htyped.1 w) fun cs' w₁ _ hcs => ?_
    refine ReadsBack.bind (readsBack_as h htyped.2.1 w₁) fun p' w₂ h₁₂ hp => ?_
    refine ReadsBack.bind (readsBack_as h htyped.2.2.1 w₂) fun q' w₃ h₂₃ hq => ?_
    refine ReadsBack.last (readsBack_objectRef htyped.2.2.2) fun d' w₄ h₃₄ hd => .pure ?_
    subst hd
    have h₂₄ := h₂₃.trans h₃₄
    exact .dimensionReferenceRead (hcs.imp fun _ _ => (h₁₂.trans h₂₄).linked)
      (rel_imp (fun _ _ => h₂₄.linked) hp) (rel_imp (fun _ _ => h₃₄.linked) hq)
  | monoReference cs p q =>
    cases hnew
    refine ReadsBack.bind (readsBack_instruction h htyped.1 w) fun cs' w₁ _ hcs => ?_
    refine ReadsBack.bind (readsBack_as h htyped.2.1 w₁) fun p' w₂ h₁₂ hp => ?_
    refine ReadsBack.last (readsBack_as h htyped.2.2 w₂) fun q' w₃ h₂₃ hq => .pure ?_
    exact .monoReference (hcs.imp fun _ _ => (h₁₂.trans h₂₃).linked)
      (rel_imp (fun _ _ => h₂₃.linked) hp) hq
  | polyReference cs p =>
    cases hnew
    refine ReadsBack.bind (readsBack_instruction h htyped.1 w) fun cs' w₁ _ hcs => ?_
    refine ReadsBack.last (readsBack_as h htyped.2 w₁) fun p' w₂ h₁₂ hp => .pure ?_
    exact .polyReference (hcs.imp fun _ _ => h₁₂.linked) hp
  | polyCase cs p q =>
    cases hnew
    refine ReadsBack.bind (readsBack_instruction h htyped.1 w) fun cs' w₁ _ hcs => ?_
    refine ReadsBack.bind (readsBack_as h htyped.2.1 w₁) fun p' w₂ h₁₂ hp => ?_
    refine ReadsBack.last (readsBack_as h htyped.2.2 w₂) fun q' w₃ h₂₃ hq => .pure ?_
    exact .polyCase (hcs.imp fun _ _ => (h₁₂.trans h₂₃).linked)
      (rel_imp (fun _ _ => h₂₃.linked) hp) hq
  | actionOperation kind cs p i t =>
    rw [create_actionOperation] at hnew
    cases hnew
    refine ReadsBack.bind (readsBack_instruction h htyped.1 w) fun cs' w₁ _ hcs => ?_
    refine ReadsBack.bind (readsBack_as h htyped.2.1 w₁) fun p' w₂ h₁₂ hp => ?_
    refine ReadsBack.bind (readsBack_objectRef htyped.2.2.1) fun i' w₃ h₂₃ hi => ?_
    refine ReadsBack.last (readsBack_objectRef htyped.2.2.2) fun t' w₄ h₃₄ ht => .pure ?_
    subst hi ht
    have h₂₄ := h₂₃.trans h₃₄
    exact .actionOperation (hcs.imp fun _ _ => (h₁₂.trans h₂₄).linked)
      (rel_imp (fun _ _ => h₂₄.linked) hp)
  | dimensionOperation kind cs p i t =>
    rw [create_dimensionOperation] at hnew
    cases hnew
    refine ReadsBack.bind (readsBack_instruction h htyped.1 w) fun cs' w₁ _ hcs => ?_
    refine ReadsBack.bind (readsBack_as h htyped.2.1 w₁) fun p' w₂ h₁₂ hp => ?_
    refine ReadsBack.bind (readsBack_objectRef htyped.2.2.1) fun i' w₃ h₂₃ hi => ?_
    refine ReadsBack.last (readsBack_objectRef htyped.2.2.2) fun t' w₄ h₃₄ ht => .pure ?_
    subst hi ht
    have h₂₄ := h₂₃.trans h₃₄
    exact .dimensionOperation (hcs.imp fun _ _ => (h₁₂.trans h₂₄).linked)
      (rel_imp (fun _ _ => h₂₄.linked) hp)
  | writeLinkOperation cs p i t g =>
    cases hnew
    refine ReadsBack.bind (readsBack_instruction h htyped.1 w) fun cs' w₁ _ hcs => ?_
    refine ReadsBack.bind (readsBack_as h htyped.2.1 w₁) fun p' w₂ h₁₂ hp => ?_
    refine ReadsBack.bind (readsBack_objectRef htyped.2.2.1) fun i' w₃ h₂₃ hi => ?_
    refine ReadsBack.bind (readsBack_objectRef htyped.2.2.2.1) fun t' w₄ h₃₄ ht => ?_
    refine ReadsBack.last (readsBack_objectRef htyped.2.2.2.2) fun g' w₅ h₄₅ hg => .pure ?_
    subst hi ht hg
    have h₂₅ := (h₂₃.trans h₃₄).trans h₄₅
    exact .writeLinkOperation (hcs.imp fun _ _ => (h₁₂.trans h₂₅).linked)
      (rel_imp (fun _ _ => h₂₅.linked) hp)
  | rangeOperation cs p i t r =>
    cases hnew
    refine ReadsBack.bind (readsBack_instruction h htyped.1 w) fun cs' w₁ _ hcs => ?_
    refine ReadsBack.bind (readsBack_as h htyped.2.1 w₁) fun p' w₂ h₁₂ hp => ?_
    refine ReadsBack.bind (readsBack_objectRef htyped.2.2.1) fun i' w₃ h₂₃ hi => ?_
    refine ReadsBack.bind (readsBack_objectRef htyped.2.2.2) fun t' w₄ h₃₄ ht => ?_
    refine ReadsBack.last (readsBack_value rfl) fun r' w₅ h₄₅ hr => .pure ?_
    subst hi ht hr
    have h₂₅ := (h₂₃.trans h₃₄).trans h₄₅
    exact .rangeOperation (hcs.imp fun _ _ => (h₁₂.trans h₂₅).linked)
      (rel_imp (fun _ _ => h₂₅.linked) hp)

end Element

/-! ## Pointers -/

section Pointer
variable {storePointer : Option Address → StoringAST Unit} {loadPointer : LoadingAST (Option Address)}

theorem loadElement_null (vs : List Value) (state : LoadState) :
    ASTSerialiser.loadElement files loadPointer (.bool true :: vs, state) = .ok (none, vs, state) := rfl

theorem loadElement_met {szIndex : ℕ} {state : LoadState} {a : Address}
    (hlookup : state.serialiser.m_addressMapBack.lookup szIndex = some a) (vs : List Value) :
    ASTSerialiser.loadElement files loadPointer (.bool false :: .size szIndex :: vs, state) =
      .ok (some a, vs, state) := by
  refine (Loading.bind_of_ok (a := false) (q := (.size szIndex :: vs, state)) rfl).trans ?_
  refine (Loading.bind_of_ok (a := szIndex) (q := (vs, state)) rfl).trans ?_
  refine (Loading.bind_of_ok (a := (vs, state)) (q := (vs, state)) rfl).trans ?_
  simp only [hlookup]
  rfl

theorem loadElement_new {szIndex : ℕ} {state state' : LoadState} {type : ASTElementType}
    {new e : Element} {vs vs' : List Value}
    (hlookup : state.serialiser.m_addressMapBack.lookup szIndex = none)
    (hcreate : Element.create type = some new)
    (hload : new.load files loadPointer (vs, state.insert szIndex new) = .ok (e, vs', state')) :
    ASTSerialiser.loadElement files loadPointer
        (.bool false :: .size szIndex :: .elementType type :: vs, state) =
      .ok (some state.elements.length, vs', state'.setElement state.elements.length e) := by
  refine (Loading.bind_of_ok (a := false) (q := (.size szIndex :: .elementType type :: vs, state))
    rfl).trans ?_
  refine (Loading.bind_of_ok (a := szIndex) (q := (.elementType type :: vs, state)) rfl).trans ?_
  refine (Loading.bind_of_ok (a := (.elementType type :: vs, state))
    (q := (.elementType type :: vs, state)) rfl).trans ?_
  simp only [hlookup]
  refine (Loading.bind_of_ok (a := type) (q := (vs, state)) rfl).trans ?_
  simp only [hcreate]
  refine (Loading.bind_of_ok (q := (vs, state.insert szIndex new)) (a := ()) rfl).trans ?_
  exact (Loading.bind_of_ok hload).trans rfl

theorem isTransient_of_create {e new : Element} (h : Element.create e.getType = some new) :
    e.isTransient = false := by
  cases e with
  | transient kind cs =>
    rw [create_transient] at h
    cases h
  | _ => rfl

/-- An element that has been stored is of a class that is loaded. -/
theorem exists_create {e : Element} {s s' : ASTSerialiser} {vs : List Value}
    (h : (e.store storePointer).Ends s vs () s') : ∃ new, Element.create e.getType = some new := by
  cases e with
  | transient kind cs =>
    obtain ⟨_, _, _, _, -, hfail, -⟩ := Storing.ends_bind.mp h
    exact absurd hfail Storing.not_ends_fail
  | derivation kind cs p q => exact ⟨_, create_derivation kind cs p q⟩
  | actionOperation kind cs p i t => exact ⟨_, create_actionOperation kind cs p i t⟩
  | dimensionOperation kind cs p i t => exact ⟨_, create_dimensionOperation kind cs p i t⟩
  | _ => exact ⟨_, rfl⟩

/-- A pointer is read back, if the pointers of the elements below are. -/
theorem ReadsPointers.step {bound : ℕ} (htyped : Typed files elements)
    (h : ReadsPointers elements bound storePointer loadPointer) :
    ReadsPointers elements (bound + 1) (ASTSerialiser.storeElement elements storePointer)
      (ASTSerialiser.loadElement files loadPointer) := by
  intro p w vs s s' r hag hend hlen
  cases p with
  | none =>
    obtain ⟨rfl, rfl⟩ := Storing.ends_write.mp hend
    exact ⟨w, none, r, le_rfl, hag, .none, fun rest => loadElement_null rest r⟩
  | some a =>
    obtain ⟨vs₁, rfl, hend₁⟩ := Storing.ends_write_bind.mp hend
    have hend₂ := Storing.ends_get_bind.mp hend₁
    cases hlookup : s.m_addressMap.lookup a with
    | some szIndex =>
      rw [hlookup] at hend₂
      obtain ⟨rfl, rfl⟩ := Storing.ends_write.mp hend₂
      obtain ⟨a', hlinked, hback⟩ := hag.exists_of_lookup hlookup
      exact ⟨w, some a', r, le_rfl, hag, .some hlinked, fun rest => loadElement_met hback rest⟩
    | none =>
      rw [hlookup] at hend₂
      obtain ⟨vs₂, rfl, hend₃⟩ := Storing.ends_write_bind.mp hend₂
      have hend₄ := Storing.ends_set_bind.mp hend₃
      cases he : elements[a]? with
      | none =>
        rw [he] at hend₄
        exact absurd hend₄ Storing.not_ends_fail
      | some e =>
        rw [he] at hend₄
        obtain ⟨vs₃, rfl, hend₅⟩ := Storing.ends_write_bind.mp hend₄
        obtain ⟨new, hcreate⟩ := exists_create hend₅
        have htype := getType_create hcreate
        have hnew := hag.not_linked hlookup
        simp only [List.length_cons] at hlen
        -- the element is met before its fields are read, and is done with them
        obtain ⟨w₁, e', r₁, hle, hag₁, hsame, hrun⟩ :=
          readsBack_element h (htyped a e he) hcreate (w.insert he htype hnew)
            (hag.insert he htype hnew) hend₅ (by omega)
        have hlinked : w₁.Linked a w.loaded.length := hle.linked World.linked_insert
        have htype' : e'.getType = e.getType := hsame.getType_eq.trans (Element.getType_archived e)
        refine ⟨w₁.setElement hlinked he htype', some w.loaded.length, r₁.setElement w.loaded.length e',
          hle.insert_setElement (isTransient_of_create hcreate) hsame,
          hag₁.setElement hlinked he htype', .some hlinked, fun rest => ?_⟩
        rw [← hag.2.2]
        exact loadElement_new hag.lookup_length hcreate (hrun rest)

end Pointer

theorem not_ends_nil {storePointer : Option Address → StoringAST Unit} {p : Option Address}
    {s s' : ASTSerialiser} :
    ¬ (ASTSerialiser.storeElement elements storePointer p).Ends s [] () s' := by
  intro hend
  cases p with
  | none => exact absurd (Storing.ends_write.mp hend).1 (by simp)
  | some a =>
    obtain ⟨vs, hvs, -⟩ := Storing.ends_write_bind.mp hend
    exact absurd hvs (by simp)

/-- What the serialiser has written for a pointer is read back as a pointer to what has been loaded
for the element. -/
theorem readsPointers (htyped : Typed files elements) (depth bound : ℕ) :
    ReadsPointers elements bound (ASTSerialiser.store elements depth) (ASTSerialiser.load files bound) := by
  induction depth generalizing bound with
  | zero => exact fun p w => ReadsBack.fail
  | succ depth ih =>
    cases bound with
    | zero =>
      intro p w vs s s' r _ hend hlen
      obtain rfl := List.length_eq_zero_iff.mp (Nat.le_zero.mp hlen)
      exact absurd hend not_ends_nil
    | succ bound => exact (ih bound).step htyped

/-! ## Solutions -/

/-- The pointers in the fields of a solution are to objects of the declared classes. -/
structure InvocationFields.Typed (files : ObjectFiles κ) (fields : InvocationFields) : Prop where
  context : ∀ p ∈ fields.context, files.Holds .interfaceElement p
  typePath : ∀ ps ∈ fields.typePath, ∀ p ∈ ps, files.Holds .interfaceElement p
  pair : ∀ pair ∈ fields.m_context,
    files.Holds .interfaceElement pair.1 ∧ files.Holds .concreteElement pair.2
  pairs : ∀ pairs ∈ fields.m_typePath, ∀ pair ∈ pairs,
    files.Holds .interfaceElement pair.1 ∧ files.Holds .concreteElement pair.2
  returnTypes : ∀ p ∈ fields.m_returnTypes, files.Holds .interfaceElement p
  parameterTypes : ∀ p ∈ fields.m_parameterTypes, files.Holds .interfaceElement p

section Solution
variable {bound : ℕ} {w : World elements}

theorem readsBack_pair {pair : ElementPair}
    (h : files.Holds .interfaceElement pair.1 ∧ files.Holds .concreteElement pair.2)
    (w : World elements) :
    ReadsBack World.Agrees bound w (storePair pair) (loadPair files) fun _ q => q = pair := by
  refine ReadsBack.bind (readsBack_objectRef h.1) fun p w₁ _ hp => ?_
  refine ReadsBack.last (readsBack_objectRef h.2) fun q w₂ _ hq => .pure ?_
  rw [hp, hq]

theorem readsBack_fields {fields : InvocationFields} (h : fields.Typed files) :
    ReadsBack World.Agrees bound w fields.store (InvocationFields.load files)
      fun _ loaded => loaded = fields := by
  refine ReadsBack.bind (readsBack_objectVector h.context) fun _ w _ h₁ => ?_
  refine ReadsBack.bind (readsBack_objectVectorVector h.typePath) fun _ w _ h₂ => ?_
  refine ReadsBack.bind (readsBack_value rfl) fun _ w _ h₃ => ?_
  refine ReadsBack.bind (readsBack_value rfl) fun _ w _ h₄ => ?_
  refine ReadsBack.bind (readsBack_vector_eq fun pair hpair => readsBack_pair (h.pair pair hpair))
    fun _ w _ h₅ => ?_
  refine ReadsBack.bind (readsBack_vector_eq fun pairs hpairs w => readsBack_vector_eq
    fun pair hpair => readsBack_pair (h.pairs pairs hpairs pair hpair)) fun _ w _ h₆ => ?_
  refine ReadsBack.bind (readsBack_objectVector h.returnTypes) fun _ w _ h₇ => ?_
  refine ReadsBack.bind (readsBack_objectVector h.parameterTypes) fun _ w _ h₈ => ?_
  refine ReadsBack.bind (readsBack_value rfl) fun _ w _ h₉ => ?_
  refine ReadsBack.bind (readsBack_value rfl) fun _ w _ h₁₀ => ?_
  refine ReadsBack.last (readsBack_value rfl) fun _ w _ h₁₁ => .pure ?_
  subst h₁ h₂ h₃ h₄ h₅ h₆ h₇ h₈ h₉ h₁₀ h₁₁
  rfl

/-- Two root instructions have the same values, and what they point to is related. -/
def RootInstruction.Same (φ : Address → Address → Prop) (root root' : RootInstruction) : Prop :=
  List.Forall₂ φ root.m_children root'.m_children ∧ Option.Rel φ root.m_pContext root'.m_pContext ∧
    root'.m_iMaxRanges = root.m_iMaxRanges

theorem readsBack_root {storePointer : Option Address → StoringAST Unit}
    {loadPointer : LoadingAST (Option Address)} {root : RootInstruction}
    (h : ReadsPointers elements bound storePointer loadPointer) (hcs : Children elements root.m_children)
    (hcontext : Refers elements ASTElementType.isContextVariable root.m_pContext) :
    ReadsBack World.Agrees bound w (root.store storePointer) (RootInstruction.load loadPointer)
      fun w' root' => root.Same w'.Linked root' := by
  refine ReadsBack.bind (readsBack_instruction h hcs w) fun cs' w₁ _ hcs' => ?_
  refine ReadsBack.bind (readsBack_as h hcontext w₁) fun p' w₂ h₁₂ hp => ?_
  refine ReadsBack.last (readsBack_value rfl) fun n w₃ h₂₃ hn => .pure ?_
  exact ⟨hcs'.imp fun _ _ => (h₁₂.trans h₂₃).linked, rel_imp (fun _ _ => h₂₃.linked) hp, hn⟩

end Solution

end EgLang.Compiler.Archive
