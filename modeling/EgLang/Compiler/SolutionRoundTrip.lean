import EgLang.Compiler.InstructionReading

/-!
# Solutions stored and loaded

A solution that has been stored is loaded as an equal one exactly when none of the instructions that
it leads to is one that elimination was to remove, and neither its context variable nor any dimension
reference variable that it leads to has types: `ContextVariable` and `DimensionReferenceVariable` store
what a `Variable` stores, and not what a `ReferenceVariable` does.
-/

namespace EgLang.Compiler.Archive

open EgLang.Library

set_option autoImplicit false

namespace InvocationSolution
variable {κ : Type} (files : ObjectFiles κ) (solution : InvocationSolution)

/-! ## Equal solutions -/

/-- The pointers in a solution are as they are declared. -/
structure Typed : Prop where
  fields : solution.fields.Typed files
  children : Children solution.elements solution.m_pRoot.m_children
  context : Refers solution.elements ASTElementType.isContextVariable solution.m_pRoot.m_pContext
  elements : Archive.Typed files solution.elements

/-- The elements that a solution leads to. -/
inductive Leads : Address → Prop
  | child {a : Address} (ha : a ∈ solution.m_pRoot.m_children) : Leads a
  | context {a : Address} (ha : a ∈ solution.m_pRoot.m_pContext) : Leads a
  | step {a b : Address} {e : Element} (ha : Leads a) (he : solution.elements[a]? = some e)
      (hb : b ∈ e.pointers) : Leads b

/-- Related elements are the same on both sides, or different on both. -/
def OneToOne (φ : Address → Address → Prop) : Prop :=
  ∀ {a a' b b'}, φ a a' → φ b b' → (a = b ↔ a' = b')

/-- Two solutions have the same fields, and the instructions of one are those of the other, but for
where they are: of the same class, with the same values and the same children in the same order, two
pointers to one element being two pointers to one element. -/
def Equal (solution' : InvocationSolution) : Prop :=
  solution'.fields = solution.fields ∧ ∃ φ : Address → Address → Prop, OneToOne φ ∧
    solution.m_pRoot.Same φ solution'.m_pRoot ∧ ∀ a a', φ a a' →
      ∃ e e', solution.elements[a]? = some e ∧ solution'.elements[a']? = some e' ∧ e.Same φ e'

/-- The solution is stored, and an equal one is loaded from what has been written, whatever comes
after it in the archive. -/
def RoundTrips : Prop :=
  ∃ archive, solution.store = .ok archive ∧ ∀ rest, ∃ solution',
    load files (archive ++ rest) = .ok (solution', rest) ∧ solution.Equal solution'

variable {files solution}

/-! ## What is loaded -/

/-- No element has been met. -/
def noElements (elements : List Element) : World elements :=
  ⟨[], [], .nil, .nil, fun _ hp => absurd hp List.not_mem_nil⟩

theorem load_of_run {archive vs : List Value} {fields : InvocationFields} {root : RootInstruction}
    {state : LoadState}
    (h : loading files archive.length (archive, ⟨⟨[], []⟩, []⟩) = .ok ((fields, root), vs, state)) :
    load files archive = .ok (⟨fields, root, state.elements⟩, vs) := by
  change (loading files archive.length (archive, ⟨⟨[], []⟩, []⟩) >>= fun _ => _) = _
  rw [h]
  rfl

theorem store_eq_ok_iff {archive : List Value} :
    solution.store = .ok archive ↔ ∃ s', solution.storing.Ends ⟨[], []⟩ archive () s' := by
  change ((solution.storing ⟨[], []⟩).run >>= fun p => pure p.2) = _ ↔ _
  unfold Storing.Ends
  cases hrun : (solution.storing ⟨[], []⟩).run with
  | error e => exact ⟨fun h => absurd h (by nofun), fun ⟨_, h⟩ => absurd h (by nofun)⟩
  | ok p =>
    obtain ⟨⟨⟨⟩, s'⟩, vs⟩ := p
    constructor
    · intro h
      cases h
      exact ⟨s', rfl⟩
    · rintro ⟨s'', h⟩
      cases h
      rfl

/-- What has been stored is loaded as the same elements, without the types that are lost. -/
theorem loaded_of_store (htyped : solution.Typed files) {archive : List Value}
    (hstore : solution.store = .ok archive) (rest : List Value) :
    ∃ solution', load files (archive ++ rest) = .ok (solution', rest) ∧
      solution'.fields = solution.fields ∧ ∃ φ : Address → Address → Prop, OneToOne φ ∧
        solution.m_pRoot.Same φ solution'.m_pRoot ∧ ∀ a a', φ a a' →
          ∃ e e', solution.elements[a]? = some e ∧ e.isTransient = false ∧
            solution'.elements[a']? = some e' ∧ e.archived.Same φ e' := by
  obtain ⟨s', hend⟩ := store_eq_ok_iff.mp hstore
  have hpointers := readsPointers htyped.elements (solution.elements.length + 1)
    (archive ++ rest).length
  have hreads := ReadsBack.bind (w := noElements solution.elements) (readsBack_fields htyped.fields)
    fun fields w _ hfields => ReadsBack.last (readsBack_root hpointers htyped.children htyped.context)
      fun root w' _ hroot => ReadsBack.pure (a := (fields, root))
        (V := fun (w' : World _) p => p.1 = solution.fields ∧ solution.m_pRoot.Same w'.Linked p.2) ⟨hfields, hroot⟩
  obtain ⟨w, ⟨fields, root⟩, state, hle, hag, ⟨hfields, hroot⟩, hrun⟩ :=
    hreads (r := ⟨⟨[], []⟩, []⟩) ⟨rfl, rfl, rfl⟩ hend (by simp)
  refine ⟨⟨fields, root, state.elements⟩, load_of_run (hrun rest), hfields, w.Linked,
    World.linked_unique, hroot, fun a a' hlinked => ?_⟩
  obtain ⟨e, e', he, htransient, he', hsame⟩ := hle.done _ hlinked List.not_mem_nil
  exact ⟨e, e', he, htransient, hag.2.2 ▸ he', hsame⟩

/-! ## Storing does not fail -/

section Room
variable {elements : List Element} {I : ASTSerialiser → Prop}
variable {storePointer : Option Address → StoringAST Unit}

/-- At most `n` elements have not been met. -/
structure Room (elements : List Element) (n : ℕ) (s : ASTSerialiser) : Prop where
  nodup : (s.m_addressMap.map Prod.fst).Nodup
  lt_length : ∀ p ∈ s.m_addressMap, p.1 < elements.length
  length_le : elements.length ≤ s.m_addressMap.length + n

theorem keeps_objectRef (p : Option IndexedObject) : Storing.Keeps I (storeObjectRef p) := by
  cases p with
  | none => exact .write _
  | some o => exact (Storing.Keeps.write _).bind (.write _)

theorem keeps_vector {α : Type} {store : α → StoringAST Unit} {as : List α}
    (h : ∀ a ∈ as, Storing.Keeps I (store a)) : Storing.Keeps I (storeVector store as) :=
  (Storing.Keeps.write _).bind (.storeEach h)

theorem keeps_objectVector (ps : List (Option IndexedObject)) : Storing.Keeps I (storeObjectVector ps) :=
  keeps_vector fun p _ => keeps_objectRef p

theorem keeps_element {e : Element} (htransient : e.isTransient = false)
    (h : ∀ p : Option Address, (∀ a ∈ p, a ∈ e.pointers) → Storing.Keeps I (storePointer p)) :
    Storing.Keeps I (e.store storePointer) := by
  have hpointer {p : Option Address} (hp : ∀ a ∈ p.toList, a ∈ e.pointers) :
      Storing.Keeps I (storePointer p) := h p fun a ha => hp a (Option.mem_toList.mpr ha)
  have hinstruction {cs : List Address} (hcs : ∀ c ∈ cs, c ∈ e.pointers) :
      Storing.Keeps I (storeInstruction storePointer cs) :=
    keeps_vector fun c hc => hpointer fun a ha => by
      rw [Option.toList_some, List.mem_singleton] at ha
      exact ha ▸ hcs c hc
  cases e <;> simp only [Element.pointers, List.mem_append] at hpointer hinstruction
  case instanceVariable => exact (hpointer fun _ => id).bind (keeps_objectRef _)
  case referenceVariable => exact (hpointer fun _ => id).bind (keeps_objectVector _)
  case dimensionReferenceVariable => exact hpointer fun _ => id
  case contextVariable => exact hpointer fun _ => id
  case transient => exact absurd htransient (by simp [Element.isTransient])
  case derivation | monoReference | polyCase =>
    exact (hinstruction fun _ h => .inl (.inl h)).bind
      ((hpointer fun _ h => .inl (.inr h)).bind (hpointer fun _ h => .inr h))
  case dimensionReferenceRead =>
    exact (hinstruction fun _ h => .inl (.inl h)).bind ((hpointer fun _ h => .inl (.inr h)).bind
      ((hpointer fun _ h => .inr h).bind (keeps_objectRef _)))
  case polyReference =>
    exact (hinstruction fun _ h => .inl h).bind (hpointer fun _ h => .inr h)
  case enumeration =>
    exact (hinstruction fun _ h => .inl h).bind ((hpointer fun _ h => .inr h).bind
      ((keeps_objectVector _).bind (.write _)))
  case actionOperation | dimensionOperation =>
    exact (hinstruction fun _ h => .inl h).bind ((hpointer fun _ h => .inr h).bind
      ((keeps_objectRef _).bind (keeps_objectRef _)))
  case writeLinkOperation =>
    exact (hinstruction fun _ h => .inl h).bind ((hpointer fun _ h => .inr h).bind
      ((keeps_objectRef _).bind ((keeps_objectRef _).bind (keeps_objectRef _))))
  case rangeOperation =>
    exact (hinstruction fun _ h => .inl h).bind ((hpointer fun _ h => .inr h).bind
      ((keeps_objectRef _).bind ((keeps_objectRef _).bind (.write _))))

theorem Room.insert {n : ℕ} {s : ASTSerialiser} (h : Room elements (n + 1) s) {a szIndex : ℕ}
    (ha : a < elements.length) (hnew : s.m_addressMap.lookup a = none) :
    Room elements n (s.insert a szIndex) := by
  refine ⟨?_, fun p hp => ?_, ?_⟩
  · rw [ASTSerialiser.insert, List.map_append, List.nodup_append]
    refine ⟨h.nodup, List.nodup_singleton _, fun b hb c hc hbc => ?_⟩
    obtain ⟨p, hp, rfl⟩ := List.mem_map.mp hb
    rw [List.map_singleton, List.mem_singleton] at hc
    exact absurd (List.lookup_eq_none_iff.mp hnew p hp) (by simp [hbc, hc])
  · rcases List.mem_append.mp hp with hp | hp
    · exact h.lt_length p hp
    · rw [List.mem_singleton] at hp
      exact hp ▸ ha
  · have hlen := h.length_le
    rw [ASTSerialiser.insert, List.length_append, List.length_singleton]
    omega

/-- There is room for an element that has not been met. -/
theorem Room.pos {n : ℕ} {s : ASTSerialiser} (h : Room elements n s) {a : ℕ}
    (ha : a < elements.length) (hnew : s.m_addressMap.lookup a = none) : 0 < n := by
  have hnodup : (a :: s.m_addressMap.map Prod.fst).Nodup := by
    refine List.nodup_cons.mpr ⟨fun hmem => ?_, h.nodup⟩
    obtain ⟨p, hp, hpa⟩ := List.mem_map.mp hmem
    exact absurd (List.lookup_eq_none_iff.mp hnew p hp) (by simp [hpa])
  have hsub : a :: s.m_addressMap.map Prod.fst ⊆ List.range elements.length := by
    refine List.cons_subset.mpr ⟨List.mem_range.mpr ha, fun b hb => ?_⟩
    obtain ⟨p, hp, rfl⟩ := List.mem_map.mp hb
    exact List.mem_range.mpr (h.lt_length p hp)
  have hle := (hnodup.subperm hsub).length_le
  rw [List.length_cons, List.length_map, List.length_range] at hle
  have hlen := h.length_le
  omega

theorem Room.succ {n : ℕ} {s : ASTSerialiser} (h : Room elements n s) : Room elements (n + 1) s :=
  ⟨h.nodup, h.lt_length, h.length_le.trans (Nat.le_succ _)⟩

section Good
variable {good : Address → Prop} {n : ℕ} {p : Option Address}
variable (hgood : ∀ a, good a → ∃ e, elements[a]? = some e ∧ e.isTransient = false ∧
  ∀ b ∈ e.pointers, good b)
include hgood

theorem keeps_storeElement (hp : ∀ a ∈ p, good a)
    (hbelow : ∀ m, n = m + 1 → ∀ q : Option Address, (∀ b ∈ q, good b) →
      Storing.Keeps (Room elements m) (storePointer q)) :
    Storing.Keeps (Room elements n) (ASTSerialiser.storeElement elements storePointer p) := by
  intro s hs
  cases p with
  | none => exact Storing.Keeps.write _ s hs
  | some a =>
    obtain ⟨e, he, htransient, hnext⟩ := hgood a (hp a rfl)
    cases hlookup : s.m_addressMap.lookup a with
    | some szIndex =>
      refine ⟨[.bool false, .size szIndex], s, Storing.ends_write_bind.mpr ⟨_, rfl, ?_⟩, hs⟩
      rw [Storing.ends_get_bind, hlookup]
      exact Storing.ends_write.mpr ⟨rfl, rfl⟩
    | none =>
      have hlt : a < elements.length := (List.getElem?_eq_some_iff.mp he).choose
      obtain ⟨m, rfl⟩ := Nat.exists_eq_succ_of_ne_zero (hs.pos hlt hlookup).ne'
      have hfields : Storing.Keeps (Room elements m) (e.store storePointer) :=
        keeps_element htransient fun q hq => hbelow m rfl q fun b hb => hnext b (hq b hb)
      have hroom : Room elements m (s.insert a s.m_addressMap.length) := hs.insert hlt hlookup
      obtain ⟨vs, s', hend, hs'⟩ := hfields _ hroom
      refine ⟨.bool false :: .size s.m_addressMap.length :: .elementType e.getType :: vs, s',
        Storing.ends_write_bind.mpr ⟨_, rfl, ?_⟩, hs'.succ⟩
      rw [Storing.ends_get_bind, hlookup]
      refine Storing.ends_write_bind.mpr ⟨_, rfl, ?_⟩
      rw [Storing.ends_set_bind, he]
      exact Storing.ends_write_bind.mpr ⟨vs, rfl, hend⟩

/-- Where no instruction is one that elimination was to remove, every pointer is stored. -/
theorem keeps_store (hp : ∀ a ∈ p, good a) :
    Storing.Keeps (Room elements n) (ASTSerialiser.store elements (n + 1) p) := by
  induction n generalizing p with
  | zero => exact keeps_storeElement hgood hp fun m hm => absurd hm (by omega)
  | succ n ih =>
    refine keeps_storeElement hgood hp fun m hm q hq => ?_
    obtain rfl := Nat.succ.inj hm
    exact ih hq

end Good

end Room

/-! ## Which solutions come back -/

/-- An element that a solution leads to is there. -/
theorem Typed.exists_of_leads (h : solution.Typed files) {a : Address} (ha : solution.Leads a) :
    ∃ e, solution.elements[a]? = some e := by
  cases ha with
  | child ha => exact h.children.exists_of_mem ha
  | context ha => exact h.context.exists_of_mem (Option.mem_toList.mpr ha)
  | step _ he hb => exact (h.elements _ _ he).exists_of_mem hb

theorem Typed.exists_store (h : solution.Typed files)
    (hstorable : ∀ a e, solution.Leads a → solution.elements[a]? = some e → e.isTransient = false) :
    ∃ archive, solution.store = .ok archive := by
  have hgood (a : Address) (ha : solution.Leads a) : ∃ e, solution.elements[a]? = some e ∧
      e.isTransient = false ∧ ∀ b ∈ e.pointers, solution.Leads b := by
    obtain ⟨e, he⟩ := h.exists_of_leads ha
    exact ⟨e, he, hstorable a e ha he, fun b hb => .step ha he hb⟩
  have hpointer {p : Option Address} (hp : ∀ a ∈ p, solution.Leads a) :=
    keeps_store (n := solution.elements.length) hgood hp
  have hfields {I : ASTSerialiser → Prop} : Storing.Keeps I solution.fields.store := by
    have hpair (pair : ElementPair) : Storing.Keeps I (storePair pair) :=
      (keeps_objectRef _).bind (keeps_objectRef _)
    refine (keeps_objectVector _).bind ((keeps_vector fun ps _ => keeps_objectVector ps).bind ?_)
    refine (Storing.Keeps.write _).bind ((Storing.Keeps.write _).bind ?_)
    refine (keeps_vector fun pair _ => hpair pair).bind ?_
    refine (keeps_vector fun pairs _ => keeps_vector fun pair _ => hpair pair).bind ?_
    refine (keeps_objectVector _).bind ((keeps_objectVector _).bind ?_)
    exact (Storing.Keeps.write _).bind ((Storing.Keeps.write _).bind (.write _))
  have hroot : Storing.Keeps (Room solution.elements solution.elements.length) (solution.m_pRoot.store
      (ASTSerialiser.store solution.elements (solution.elements.length + 1))) := by
    refine (keeps_vector fun c hc => hpointer fun a ha => ?_).bind ?_
    · cases ha
      exact .child hc
    · exact (hpointer fun a ha => .context ha).bind (.write _)
  obtain ⟨archive, s', hend, -⟩ := hfields.bind hroot ⟨[], []⟩ ⟨.nil, by simp, by simp⟩
  exact ⟨archive, store_eq_ok_iff.mpr ⟨s', hend⟩⟩

/-- What a solution leads to has a counterpart, if it has been loaded and what has been loaded is
equal to it. -/
theorem exists_of_leads {solution' : InvocationSolution} {φ ψ : Address → Address → Prop}
    (hφroot : solution.m_pRoot.Same φ solution'.m_pRoot)
    (hφ : ∀ a a', φ a a' → ∃ e e', solution.elements[a]? = some e ∧ e.isTransient = false ∧
      solution'.elements[a']? = some e' ∧ e.archived.Same φ e')
    (hψroot : solution.m_pRoot.Same ψ solution'.m_pRoot)
    (hψ : ∀ a a', ψ a a' → ∃ e e', solution.elements[a]? = some e ∧
      solution'.elements[a']? = some e' ∧ e.Same ψ e') {a : Address} (ha : solution.Leads a) :
    ∃ a', φ a a' ∧ ψ a a' := by
  have both : ∀ a a', φ a a' → ψ a a' → φ a a' ∧ ψ a a' := fun _ _ => And.intro
  induction ha with
  | child ha => exact exists_of_mem_forall₂ (hφroot.1.mp both hψroot.1) ha
  | context ha =>
    exact exists_of_mem_rel (rel_mp both hφroot.2.1 hψroot.2.1) (Option.mem_toList.mpr ha)
  | step _ he hb ih =>
    obtain ⟨a', hφa, hψa⟩ := ih
    obtain ⟨e₁, e₁', he₁, -, he₁', hsame₁⟩ := hφ _ _ hφa
    obtain ⟨e₂, e₂', he₂, he₂', hsame₂⟩ := hψ _ _ hψa
    rw [he] at he₁ he₂
    rw [he₁'] at he₂'
    obtain rfl := Option.some.inj he₁
    obtain rfl := Option.some.inj he₂
    obtain rfl := Option.some.inj he₂'
    exact (hsame₁.and_archived hsame₂).2.exists_of_mem hb

/-- A solution that comes back has lost nothing that it leads to. -/
theorem RoundTrips.kept (hround : solution.RoundTrips files) (htyped : solution.Typed files)
    {a : Address} {e : Element} (ha : solution.Leads a) (he : solution.elements[a]? = some e) :
    e.isTransient = false ∧ e.archived = e := by
  obtain ⟨archive, hstore, hload⟩ := hround
  obtain ⟨solution', hloaded, -, φ, -, hφroot, hφ⟩ := loaded_of_store htyped hstore []
  obtain ⟨solution'', hloaded', -, ψ, -, hψroot, hψ⟩ := hload []
  rw [hloaded] at hloaded'
  cases hloaded'
  obtain ⟨a', hφa, hψa⟩ := exists_of_leads hφroot hφ hψroot hψ ha
  obtain ⟨e₁, e₁', he₁, htransient, he₁', hsame₁⟩ := hφ _ _ hφa
  obtain ⟨e₂, e₂', he₂, he₂', hsame₂⟩ := hψ _ _ hψa
  rw [he] at he₁ he₂
  rw [he₁'] at he₂'
  obtain rfl := Option.some.inj he₁
  obtain rfl := Option.some.inj he₂
  obtain rfl := Option.some.inj he₂'
  exact ⟨htransient, (hsame₁.and_archived hsame₂).1⟩

/-- A solution that loses nothing comes back. -/
theorem roundTrips_of_kept (htyped : solution.Typed files)
    (hall : ∀ a e, solution.Leads a → solution.elements[a]? = some e →
      e.isTransient = false ∧ e.archived = e) : solution.RoundTrips files := by
  obtain ⟨archive, hstore⟩ := htyped.exists_store fun a e ha he => (hall a e ha he).1
  refine ⟨archive, hstore, fun rest => ?_⟩
  obtain ⟨solution', hloaded, hfields, φ, honeToOne, hroot, hφ⟩ := loaded_of_store htyped hstore rest
  -- only what the solution leads to is compared
  refine ⟨solution', hloaded, hfields, fun a a' => φ a a' ∧ solution.Leads a,
    fun ha hb => honeToOne ha.1 hb.1, ⟨?_, ?_, hroot.2.2⟩, fun a a' ha => ?_⟩
  · exact forall₂_imp_of_mem (fun a ha _ hφa => ⟨hφa, .child ha⟩) hroot.1
  · exact rel_imp_of_mem (fun a ha _ hφa => ⟨hφa, .context (Option.mem_toList.mp ha)⟩) hroot.2.1
  · obtain ⟨e, e', he, -, he', hsame⟩ := hφ a a' ha.1
    rw [(hall a e ha.2 he).2] at hsame
    exact ⟨e, e', he, he', hsame.imp_of_mem fun b hb _ hφb => ⟨hφb, .step ha.2 he hb⟩⟩

/-- An element loses nothing exactly when it is no context variable and no dimension reference variable,
or has no types. -/
theorem archived_eq_iff (e : Element) : e.archived = e ↔
    (∀ p ts, e = .contextVariable p ts → ts = []) ∧
      ∀ p ts, e = .dimensionReferenceVariable p ts → ts = [] := by
  cases e <;> simp [Element.archived, eq_comm]

/-- **Round trips.** A solution is stored and loaded as an equal one exactly when it leads to no
instruction that elimination was to remove, and to no context variable or dimension reference variable
that has types. -/
theorem roundTrips_iff (htyped : solution.Typed files) :
    solution.RoundTrips files ↔ ∀ a e, solution.Leads a → solution.elements[a]? = some e →
      e.isTransient = false ∧ (∀ p ts, e = .contextVariable p ts → ts = []) ∧
        ∀ p ts, e = .dimensionReferenceVariable p ts → ts = [] := by
  simp only [← archived_eq_iff]
  exact ⟨fun h a e ha he => h.kept htyped ha he, roundTrips_of_kept htyped⟩

/-- A solution whose context variable has types does not come back. -/
theorem not_roundTrips_of_context (htyped : solution.Typed files) {a : Address} {p : Option Address}
    {ts : List (Option IndexedObject)} (ha : solution.m_pRoot.m_pContext = some a)
    (he : solution.elements[a]? = some (.contextVariable p ts)) (hts : ts ≠ []) :
    ¬ solution.RoundTrips files := by
  intro hround
  have hkept := (hround.kept htyped (.context ha) he).2
  exact hts ((archived_eq_iff _).mp hkept |>.1 p ts rfl)

/-! ## An action that stops itself -/

/-- Object 0 of file 1 is an action of the interface, object 1 its instance. -/
def sampleFiles : ObjectFiles (List ObjectClass) where
  m_files fileID :=
    if fileID = 1 then some [some [.interfaceElement, .interfaceContext],
      some [.concreteElement, .concreteAction]]
    else none
  isA k T := T ∈ k

def sampleInterface : Option IndexedObject := some ⟨1, 0, by decide⟩

def sampleConcrete : Option IndexedObject := some ⟨1, 1, by decide⟩

/-- The context variable, the dereference of it, the stop of the action, and the instance variable. -/
def sampleStop : InvocationSolution where
  fields :=
    { context := [sampleInterface], typePath := [], operation := .id_Stop, m_implicitTypePath := [],
      m_context := [(sampleInterface, sampleConcrete)], m_typePath := [],
      m_returnTypes := [sampleInterface], m_parameterTypes := [], m_bDimensions := false,
      m_bHomogeneousDimensions := false, m_explicitOperation := .id_exp_Stop }
  m_pRoot := ⟨[1], some 0, 1⟩
  elements := [.contextVariable none [sampleConcrete], .monoReference [2] (some 0) (some 3),
    .actionOperation .stop [] (some 3) sampleInterface sampleConcrete,
    .instanceVariable (some 0) sampleConcrete]

theorem holds_sampleInterface {T : ObjectClass} (hT : T ∈ [ObjectClass.interfaceElement, .interfaceContext]) :
    sampleFiles.Holds T sampleInterface := by
  intro o ho
  cases ho
  exact ⟨_, _, rfl, by decide, rfl, decide_eq_true hT⟩

theorem holds_sampleConcrete {T : ObjectClass} (hT : T ∈ [ObjectClass.concreteElement, .concreteAction]) :
    sampleFiles.Holds T sampleConcrete := by
  intro o ho
  cases ho
  exact ⟨_, _, rfl, by decide, rfl, decide_eq_true hT⟩

theorem sampleStop_refers {is : ASTElementType → Bool} {a : Address}
    (h : (sampleStop.elements[a]?.map fun e => is e.getType) = some true) :
    Refers sampleStop.elements is (some a) := by
  intro b hb
  cases hb
  obtain ⟨e, he, hclass⟩ := Option.map_eq_some_iff.mp h
  exact ⟨e, he, hclass⟩

theorem sampleStop_typed : sampleStop.Typed sampleFiles := by
  have hinterface := holds_sampleInterface (T := .interfaceElement) (by decide)
  have haction := holds_sampleConcrete (T := .concreteAction) (by decide)
  have hconcrete := holds_sampleConcrete (T := .concreteElement) (by decide)
  refine ⟨⟨?_, ?_, ?_, ?_, ?_, ?_⟩, ?_, ?_, ?_⟩
  · simpa [sampleStop] using hinterface
  · simp [sampleStop]
  · simpa [sampleStop] using ⟨hinterface, hconcrete⟩
  · simp [sampleStop]
  · simpa [sampleStop] using hinterface
  · simp [sampleStop]
  · intro c hc
    obtain rfl := List.mem_singleton.mp hc
    exact sampleStop_refers (by decide)
  · exact sampleStop_refers (by decide)
  · intro a e he
    match a, he with
    | 0, he =>
      cases he
      exact ⟨nofun, by simpa using hconcrete⟩
    | 1, he =>
      cases he
      refine ⟨fun c hc => ?_, sampleStop_refers (by decide), sampleStop_refers (by decide)⟩
      obtain rfl := List.mem_singleton.mp hc
      exact sampleStop_refers (by decide)
    | 2, he =>
      cases he
      exact ⟨nofun, sampleStop_refers (by decide), holds_sampleInterface (by decide), haction⟩
    | 3, he =>
      cases he
      exact ⟨sampleStop_refers (by decide), haction⟩

/-- The context variable comes back without its type. -/
theorem sampleStop_not_roundTrips :
    sampleStop.Typed sampleFiles ∧ ¬ sampleStop.RoundTrips sampleFiles :=
  ⟨sampleStop_typed, not_roundTrips_of_context sampleStop_typed rfl rfl (by decide)⟩

theorem sampleStop_roundTrips_iff : sampleStop.RoundTrips sampleFiles ↔
    ∀ a e, sampleStop.Leads a → sampleStop.elements[a]? = some e →
      e.isTransient = false ∧ (∀ p ts, e = .contextVariable p ts → ts = []) ∧
        ∀ p ts, e = .dimensionReferenceVariable p ts → ts = [] :=
  roundTrips_iff sampleStop_typed

end InvocationSolution
end EgLang.Compiler.Archive
