import EgLang.Compiler.InvocationCache

/-!
# Coherence of the invocation cache

The key of a request keeps the elements of its context and, of its type path, the identifiers that it
spells: whether an id is that of an identifier or that of a declaration is lost, and so is an id that
names nothing. The solutions of a session answer all its requests for what they are exactly when what
is lost tells no two requests apart.
-/

namespace EgLang.Compiler

open EgLang.Library

set_option autoImplicit false

/-! ## What a key keeps -/

namespace Objects
variable {ι : Type} (O : Objects ι)

/-- The identifier that an id of a type path spells, if it has elements. -/
def spelled (id : TypeID) : Option String :=
  if isOperationType id then none
  else (O.element id.natAbs).bind fun e =>
    if O.named (O.getIdentifier e) = [] then none else some (O.getIdentifier e)

/-- The ids of a context are those of different elements. -/
structure NamesElements (contextTypes : List TypeID) : Prop where
  nodup : contextTypes.Nodup
  element : ∀ id ∈ contextTypes, 0 ≤ id ∧ (O.element id.natAbs).isSome = true

variable {O}

theorem fromEGTypeID_decl (id : TypeID) :
    O.fromEGTypeID id true = ((O.spelled id).map O.named).getD [] := by
  unfold fromEGTypeID spelled
  by_cases hop : isOperationType id = true
  · rw [if_pos hop, if_pos hop]
    rfl
  · rw [if_neg hop, if_neg hop, if_pos rfl]
    cases he : O.element id.natAbs with
    | none => simp
    | some e =>
      simp only [getGroupBack_eq, getGroup_eq, ite_self, Option.bind_some]
      split
      · rename_i hnil
        rw [hnil]
        rfl
      · rfl

theorem named_ne_nil_of_spelled {id : TypeID} {name : String} (h : O.spelled id = some name) :
    O.named name ≠ [] := by
  unfold spelled at h
  split at h
  · cases h
  · obtain ⟨e, -, h⟩ := Option.bind_eq_some_iff.mp h
    split at h
    · cases h
    · rename_i hne
      rw [← Option.some.inj h]
      exact hne

/-- A group has one identifier. -/
theorem named_injective {name name' : String} (hne : O.named name ≠ [])
    (h : O.named name = O.named name') : name = name' := by
  obtain ⟨e, he⟩ := List.exists_mem_of_ne_nil _ hne
  rw [← (mem_named.mp he).2]
  rw [h] at he
  exact (mem_named.mp he).2

theorem mem_objects_of_fromEGTypeID {id : TypeID} {b : Bool} {e : ι}
    (he : e ∈ O.fromEGTypeID id b) : some e ∈ O.objects := by
  have hnamed : ∀ name, e ∈ O.named name → some e ∈ O.objects := fun name h =>
    (mem_identified.mp (mem_named.mp h).1).1
  unfold fromEGTypeID at he
  cases hid : O.element id.natAbs with
  | none => simp [hid] at he
  | some d =>
    simp only [hid, getGroupBack_eq, getGroup_eq] at he
    split at he
    · cases he
    · split at he
      · exact hnamed _ he
      · split at he
        · exact hnamed _ he
        · rw [Option.toList_some, List.mem_singleton] at he
          rw [he]
          exact mem_objects_of_element hid

theorem getIndex_injective {e d : ι} (he : some e ∈ O.objects) (hd : some d ∈ O.objects)
    (h : O.getIndex e = O.getIndex d) : e = d := by
  have h1 := element_getIndex he
  rw [h, element_getIndex hd] at h1
  exact (Option.some.inj h1).symm

/-- The id of an element, as a context names it. -/
theorem fromEGTypeID_element {id : TypeID} (hid : 0 ≤ id) {e : ι} (he : O.element id.natAbs = some e) :
    O.fromEGTypeID id false = [e] ∧ (O.getIndex e : TypeID) = id := by
  have hop : ¬ isOperationType id = true := by
    have hlow : HIGHEST_OPERATION_TYPE ≤ id := le_trans (by decide) hid
    rw [isOperationType, decide_eq_true_eq]
    exact not_lt.mpr hlow
  constructor
  · rw [fromEGTypeID, if_neg hop, if_neg (not_lt.mpr hid), if_neg Bool.false_ne_true, he]
    rfl
  · rw [O.index_eq (element_eq_some.mp he)]
    exact Int.natAbs_of_nonneg hid

theorem groups_eq (path : List TypeID) : O.groups path = (path.filterMap O.spelled).map O.named := by
  induction path with
  | nil => rfl
  | cons id path ih =>
    unfold groups at ih ⊢
    rw [List.map_cons, List.filter_cons, ih, fromEGTypeID_decl, List.filterMap_cons]
    cases hid : O.spelled id with
    | none => simp
    | some name => simp [named_ne_nil_of_spelled hid]

theorem groups_eq_iff {path path' : List TypeID} :
    O.groups path = O.groups path' ↔ path.filterMap O.spelled = path'.filterMap O.spelled := by
  rw [groups_eq, groups_eq]
  constructor
  · have key : ∀ names names' : List String, (∀ n ∈ names, O.named n ≠ []) →
        names.map O.named = names'.map O.named → names = names' := by
      intro names
      induction names with
      | nil =>
        intro names' _ h
        exact (List.map_eq_nil_iff.mp h.symm).symm
      | cons n names ih =>
        intro names' hne h
        cases names' with
        | nil => cases h
        | cons n' names' =>
          rw [List.forall_mem_cons] at hne
          rw [List.map_cons, List.map_cons] at h
          obtain ⟨hhead, htail⟩ := List.cons.inj h
          rw [named_injective hne.1 hhead, ih names' hne.2 htail]
    refine key _ _ fun n hn => ?_
    obtain ⟨id, -, hid⟩ := List.mem_filterMap.mp hn
    exact named_ne_nil_of_spelled hid
  · intro h
    rw [h]

variable [DecidableEq ι]

theorem mem_objects_of_contextElements {ids : List TypeID} {e : ι} (he : e ∈ O.contextElements ids) :
    some e ∈ O.objects := by
  obtain ⟨id, -, hid⟩ := List.mem_flatMap.mp (mem_uniquify.mp he)
  exact mem_objects_of_fromEGTypeID hid

/-- The elements of a context have the ids of the context exactly when these are the ids of different
elements. -/
theorem index_contextElements_iff {ids : List TypeID} :
    (O.contextElements ids).map (fun e => (O.getIndex e : TypeID)) = ids ↔ O.NamesElements ids := by
  constructor
  · intro h
    have hnodup := nodup_uniquify (ids.flatMap fun typeID => O.fromEGTypeID typeID false)
    refine ⟨?_, ?_⟩
    · rw [← h]
      refine hnodup.map_on fun e he d hd hindex => ?_
      exact getIndex_injective (mem_objects_of_contextElements he) (mem_objects_of_contextElements hd)
        (Int.natCast_inj.mp hindex)
    · intro id hid
      rw [← h] at hid
      obtain ⟨e, he, rfl⟩ := List.mem_map.mp hid
      refine ⟨Int.natCast_nonneg _, ?_⟩
      rw [Int.natAbs_natCast, element_getIndex (mem_objects_of_contextElements he)]
      rfl
  · intro h
    have key : ∀ ids : List TypeID,
        (∀ id ∈ ids, 0 ≤ id ∧ (O.element id.natAbs).isSome = true) →
          (ids.flatMap fun typeID => O.fromEGTypeID typeID false).map
            (fun e => (O.getIndex e : TypeID)) = ids := by
      intro ids hids
      induction ids with
      | nil => rfl
      | cons id ids ih =>
        rw [List.forall_mem_cons] at hids
        obtain ⟨e, he⟩ := Option.isSome_iff_exists.mp hids.1.2
        obtain ⟨hfrom, hindex⟩ := fromEGTypeID_element hids.1.1 he
        rw [List.flatMap_cons, List.map_append, ih hids.2, hfrom, List.map_singleton, hindex]
        rfl
    have hmap := key ids h.element
    have hnodup : (ids.flatMap fun typeID => O.fromEGTypeID typeID false).Nodup := by
      refine List.Nodup.of_map (fun e => (O.getIndex e : TypeID)) ?_
      rw [hmap]
      exact h.nodup
    rw [contextElements, uniquify_of_nodup hnodup]
    exact hmap

/-- Ids of different elements are told apart by the elements. -/
theorem contextElements_inj {ids ids' : List TypeID} (h : O.NamesElements ids)
    (h' : O.NamesElements ids') : O.contextElements ids = O.contextElements ids' ↔ ids = ids' := by
  constructor
  · intro heq
    rw [← index_contextElements_iff.mpr h, heq, index_contextElements_iff.mpr h']
  · intro heq
    rw [heq]

/-- Requests have one key exactly when they agree in what it keeps. -/
theorem invocationIDFromTypeIDs_eq_iff {r r' : Request} :
    O.invocationIDFromTypeIDs r = O.invocationIDFromTypeIDs r' ↔
      O.contextElements r.contextTypes = O.contextElements r'.contextTypes ∧
        r.typePathTypes.filterMap O.spelled = r'.typePathTypes.filterMap O.spelled ∧
          r.operationTypeID = r'.operationTypeID := by
  rw [← groups_eq_iff, invocationIDFromTypeIDs, invocationIDFromTypeIDs, InvocationID.mk.injEq]

end Objects

/-! ## Coherence -/

section Coherence
variable {ι κ : Type} (O : Objects ι)

/-- The solutions returned for some requests are those of the requests. -/
structure Coherent (requests : List Request) (answers : List ℕ)
    (m_invocations : MemoTable.Table (InvocationID ι) (CachedInvocation ι κ)) : Prop where
  /-- A solution has the context, the type path and the operation of every request it answers. -/
  returned : ∀ p ∈ requests.zip answers, ∃ invocationID invocation,
    m_invocations[p.2]? = some (invocationID, invocation) ∧
      invocation.m_invocationID.context.map (fun e => (O.getIndex e : TypeID)) = p.1.contextTypes ∧
        invocation.m_implicitTypePath = p.1.typePathTypes ∧
          invocation.m_invocationID.operation = p.1.operationTypeID
  /-- The specialisation of every request is generated. -/
  generated : ∀ r ∈ requests, O.wrapper r ∈ m_invocations.map fun e => O.generateInvocation e.2
  /-- Requests for different specialisations get different solutions. -/
  apart : ∀ p ∈ requests.zip answers, ∀ q ∈ requests.zip answers,
    O.wrapper p.1 ≠ O.wrapper q.1 → p.2 ≠ q.2

/-- Every context is given by the ids of different elements, and the ids of two type paths that spell
the same identifiers, for one context and one operation, are the same. -/
structure Distinguished (requests : List Request) : Prop where
  contexts : ∀ r ∈ requests, O.NamesElements r.contextTypes
  paths : ∀ r ∈ requests, ∀ r' ∈ requests, r.contextTypes = r'.contextTypes →
    r.operationTypeID = r'.operationTypeID →
      r.typePathTypes.filterMap O.spelled = r'.typePathTypes.filterMap O.spelled →
        r.typePathTypes = r'.typePathTypes

variable {O}

/-- What is generated for a solution that has what a request asks for is the request's own wrapper. -/
theorem generateInvocation_eq {invocation : CachedInvocation ι κ} {r : Request}
    (helements : ∀ e ∈ invocation.m_invocationID.context, some e ∈ O.objects)
    (hcontext : invocation.m_invocationID.context.map (fun e => (O.getIndex e : TypeID)) =
      r.contextTypes)
    (hpath : invocation.m_implicitTypePath = r.typePathTypes)
    (hop : invocation.m_invocationID.operation = r.operationTypeID) :
    O.generateInvocation invocation = O.wrapper r := by
  have hstatic : ∀ e ∈ invocation.m_invocationID.context,
      (some (.static e) : Option (TypeName ι)) = O.printType (O.getIndex e : TypeID) := by
    intro e he
    have hlow : HIGHEST_OPERATION_TYPE ≤ (O.getIndex e : TypeID) :=
      le_trans (by decide) (Int.natCast_nonneg _)
    have hnop : ¬ isOperationType (O.getIndex e : TypeID) = true := by
      rw [isOperationType, decide_eq_true_eq]
      exact not_lt.mpr hlow
    rw [Objects.printType, if_neg hnop, if_neg (not_lt.mpr (Int.natCast_nonneg _)),
      Int.natAbs_natCast, Objects.element_getIndex (helements e he)]
    rfl
  rw [Objects.generateInvocation, Objects.wrapper, hpath, hop, ← hcontext, List.map_map,
    List.map_congr_left hstatic]
  rfl

variable [LinearOrder ι] [LinearOrder κ] {session : Session ι κ} {fuel : ℕ}

theorem newInvocation_spec {invocationID : InvocationID ι} {path : List TypeID}
    {invocation : CachedInvocation ι κ}
    (h : newInvocation session fuel invocationID path = .ok invocation) :
    invocation.m_invocationID = invocationID ∧ invocation.m_implicitTypePath = path := by
  unfold newInvocation at h
  cases hc : constructInvocation session invocationID with
  | error e => simp only [hc, reduceCtorEq] at h
  | ok p =>
    obtain ⟨context, typePath⟩ := p
    simp only [hc] at h
    split at h
    · cases h
    · cases h
    · split at h
      · cases h
      · rw [← Except.ok.inj h]
        exact ⟨rfl, rfl⟩

variable {requests : List Request} {answers : List ℕ}
  {m_invocations : MemoTable.Table (InvocationID ι) (CachedInvocation ι κ)}

/-- An answer is a solution with the key of the request, built for some request with that key. -/
theorem exists_invocation (h : getInvocations session fuel O requests = .ok (answers, m_invocations))
    {p : Request × ℕ} (hp : p ∈ requests.zip answers) :
    ∃ invocation, m_invocations[p.2]? = some (O.invocationIDFromTypeIDs p.1, invocation) ∧
      invocation.m_invocationID = O.invocationIDFromTypeIDs p.1 ∧
        ∃ r ∈ requests, O.invocationIDFromTypeIDs r = O.invocationIDFromTypeIDs p.1 ∧
          invocation.m_implicitTypePath = r.typePathTypes := by
  obtain ⟨invocation, hentry, r, hr, hkey, hnew⟩ := MemoTable.exists_entry h (r := p.1) (i := p.2) hp
  obtain ⟨hid, hpath⟩ := newInvocation_spec hnew
  exact ⟨invocation, hentry, hid.trans hkey, r, hr, hkey, hpath⟩

/-- **The cache is coherent** over the requests of a session exactly when they are told apart by what
their keys keep. -/
theorem coherent_iff (h : getInvocations session fuel O requests = .ok (answers, m_invocations)) :
    Coherent O requests answers m_invocations ↔ Distinguished O requests := by
  constructor
  · intro hcoherent
    have hcontext : ∀ r ∈ requests, O.NamesElements r.contextTypes := by
      intro r hr
      obtain ⟨i, hi⟩ := MemoTable.exists_answer h hr
      obtain ⟨_, invocation, hentry, hids, -⟩ := hcoherent.returned _ hi
      obtain ⟨invocation', hentry', hid, -⟩ := exists_invocation h hi
      rw [hentry] at hentry'
      rw [(Prod.mk.inj (Option.some.inj hentry')).2, hid] at hids
      exact Objects.index_contextElements_iff.mp hids
    refine ⟨hcontext, ?_⟩
    intro r hr r' hr' hids hop hspelled
    obtain ⟨i, hi⟩ := MemoTable.exists_answer h hr
    obtain ⟨i', hi'⟩ := MemoTable.exists_answer h hr'
    have hkey : O.invocationIDFromTypeIDs r = O.invocationIDFromTypeIDs r' :=
      Objects.invocationIDFromTypeIDs_eq_iff.mpr ⟨by rw [hids], hspelled, hop⟩
    obtain rfl : i = i' := (MemoTable.answer_eq_iff h hi hi').mpr hkey
    obtain ⟨_, invocation, hentry, -, hpath, -⟩ := hcoherent.returned _ hi
    obtain ⟨_, invocation', hentry', -, hpath', -⟩ := hcoherent.returned _ hi'
    rw [hentry] at hentry'
    rw [← hpath, ← hpath', (Prod.mk.inj (Option.some.inj hentry')).2]
  · intro hdistinct
    have hreturned : ∀ p ∈ requests.zip answers, ∃ invocationID invocation,
        m_invocations[p.2]? = some (invocationID, invocation) ∧
          O.generateInvocation invocation = O.wrapper p.1 ∧
          invocation.m_invocationID.context.map (fun e => (O.getIndex e : TypeID)) =
            p.1.contextTypes ∧
          invocation.m_implicitTypePath = p.1.typePathTypes ∧
          invocation.m_invocationID.operation = p.1.operationTypeID := by
      intro p hp
      have hmem : p.1 ∈ requests := (List.of_mem_zip (a := p.1) (b := p.2) hp).1
      obtain ⟨invocation, hentry, hid, r, hr, hkey, hpath⟩ := exists_invocation h hp
      obtain ⟨helements, hspelled, hop⟩ := Objects.invocationIDFromTypeIDs_eq_iff.mp hkey
      have hids : r.contextTypes = p.1.contextTypes :=
        (Objects.contextElements_inj (hdistinct.contexts r hr) (hdistinct.contexts _ hmem)).mp helements
      have hsame : r.typePathTypes = p.1.typePathTypes :=
        hdistinct.paths r hr p.1 hmem hids hop hspelled
      have hcontext : invocation.m_invocationID.context.map (fun e => (O.getIndex e : TypeID)) =
          p.1.contextTypes := by
        rw [hid]
        exact Objects.index_contextElements_iff.mpr (hdistinct.contexts _ hmem)
      have hoperation : invocation.m_invocationID.operation = p.1.operationTypeID := by
        rw [hid]
        rfl
      refine ⟨_, invocation, hentry, ?_, hcontext, hpath.trans hsame, hoperation⟩
      refine generateInvocation_eq (fun e he => ?_) hcontext (hpath.trans hsame) hoperation
      rw [hid] at he
      exact Objects.mem_objects_of_contextElements he
    refine ⟨?_, ?_, ?_⟩
    · intro p hp
      obtain ⟨id, invocation, hentry, -, hrest⟩ := hreturned p hp
      exact ⟨id, invocation, hentry, hrest⟩
    · intro r hr
      obtain ⟨i, hi⟩ := MemoTable.exists_answer h hr
      obtain ⟨id, invocation, hentry, hwrapper, -⟩ := hreturned _ hi
      exact List.mem_map.mpr ⟨_, List.mem_of_getElem? hentry, hwrapper⟩
    · intro p hp q hq hne heq
      obtain ⟨_, invocation, hentry, hwrapper, -⟩ := hreturned p hp
      obtain ⟨_, invocation', hentry', hwrapper', -⟩ := hreturned q hq
      rw [heq, hentry'] at hentry
      rw [(Prod.mk.inj (Option.some.inj hentry)).2] at hwrapper'
      exact hne (hwrapper.symm.trans hwrapper')

end Coherence

/-! ## A program with one action -/

/-- A root, which is `false`, and in it the action `Foo`, which is `true`. -/
def fooSession : Session Bool Bool where
  kind e := .action e
  children e := if e then [] else [true]
  isContext _ := true
  baseContexts _ := []
  rank _ := 0
  rank_base h := by simp at h
  instanceMap := [(false, false), (true, true)]
  inheritanceMap := [(false, false), (true, true)]
  inheritance_isAction _ := rfl
  contextTypes_isContext h := by cases h
  isDimension _ := false
  tree := ⟨fun e => if e then some false else none, fun e => if e then 1 else 0, by decide⟩
  root := false
  only_root := by decide
  root_isAction := rfl
  parent_isAction _ := rfl
  getLocalDomainSize _ := 1
  localDomainSize_pos _ := Nat.one_pos
  getIndex e := if e then 2 else 1
  index_injective := by decide
  hasLinkGroup _ := false

def fooObjects : Objects Bool where
  objects := [none, some false, some true]
  getType e := if e then .eAbstractAction else .eAbstractRoot .eInterfaceRoot
  getIdentifier e := if e then "Foo" else ""
  getIndex e := if e then 2 else 1
  index_eq {i e} h := by
    rcases i with _ | _ | _ | i
    · cases h
    · cases h
      rfl
    · cases h
      rfl
    · cases h

/-- From the root, `Foo` is started: by its identifier, and by its declaration. -/
def fooByIdentifier : Request := ⟨[1], [-2], .id_Start⟩
def fooByDeclaration : Request := ⟨[1], [2], .id_Start⟩

theorem foo_answers : ∃ m_invocations,
    getInvocations fooSession 2 fooObjects [fooByIdentifier, fooByDeclaration] =
      .ok ([0, 0], m_invocations) := by
  have h : (getInvocations fooSession 2 fooObjects [fooByIdentifier, fooByDeclaration]).map Prod.fst =
      .ok [0, 0] := by
    decide +kernel
  cases hrun : getInvocations fooSession 2 fooObjects [fooByIdentifier, fooByDeclaration] with
  | error e =>
    rw [hrun] at h
    cases h
  | ok p =>
    rw [hrun] at h
    exact ⟨p.2, congrArg Except.ok (Prod.ext (Except.ok.inj h) rfl)⟩

/-- The second request is answered with the solution of the first one. -/
theorem foo_not_coherent : ∃ m_invocations,
    getInvocations fooSession 2 fooObjects [fooByIdentifier, fooByDeclaration] =
        .ok ([0, 0], m_invocations) ∧
      ¬ Coherent fooObjects [fooByIdentifier, fooByDeclaration] [0, 0] m_invocations := by
  obtain ⟨m_invocations, h⟩ := foo_answers
  refine ⟨m_invocations, h, fun hcoherent => ?_⟩
  obtain ⟨_, invocation, hentry, -, hpath, -⟩ :=
    hcoherent.returned (fooByIdentifier, 0) List.mem_cons_self
  obtain ⟨_, invocation', hentry', -, hpath', -⟩ :=
    hcoherent.returned (fooByDeclaration, 0) (List.mem_cons_of_mem _ List.mem_cons_self)
  rw [hentry] at hentry'
  rw [← (Prod.mk.inj (Option.some.inj hentry')).2, hpath] at hpath'
  exact absurd hpath' (by decide)

theorem foo_coherent_iff : ∃ m_invocations,
    getInvocations fooSession 2 fooObjects [fooByIdentifier, fooByDeclaration] =
        .ok ([0, 0], m_invocations) ∧
      (Coherent fooObjects [fooByIdentifier, fooByDeclaration] [0, 0] m_invocations ↔
        Distinguished fooObjects [fooByIdentifier, fooByDeclaration]) := by
  obtain ⟨m_invocations, h⟩ := foo_answers
  exact ⟨m_invocations, h, coherent_iff h⟩

end EgLang.Compiler
