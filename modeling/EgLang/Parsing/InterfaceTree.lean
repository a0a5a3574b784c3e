import EgLang.Library.RoseTree
import EgLang.Parsing.Includes

/-!
# The interface tree

The tree has a node for every element of the main root. An include with an identifier becomes a node
for the root of its file, and the elements of a file that is included without one stand in its
place. The builder follows every include, so it ends only where the includes do not lead in a circle.
-/

namespace EgLang.Parsing

open EgLang.Library

set_option autoImplicit false

/-! ## Nodes -/

/-- The classes of `interface::Element`. -/
inductive InterfaceType
  | eDimension | eInclude | eUsing | eExport
  | eAbstract | eEvent | eFunction | eAction | eLink | eObject | eRoot
deriving DecidableEq, Repr

/-- `interface::Element`: its class, the input element it was made for, `pIncludeIdentifier` and, for
a context, its definition file. -/
structure InterfaceNode where
  type : InterfaceType
  element : Element
  visibility : VisibilityType
  includeIdentifier : Option Inclusion
  definitionFile : Option String

abbrev InterfaceTree := RoseTree InterfaceNode

/-- `addChild`, for a context. -/
def contextNodeType (h : Heading) : Except SessionError InterfaceType :=
  if h.isRoot then .ok .eRoot
  else
    match h.contextType with
    | .eAbstract => .ok .eAbstract
    | .eEvent => .ok .eEvent
    | .eFunction => .ok .eFunction
    | .eAction => .ok .eAction
    | .eLink => .ok .eLink
    | .eObject => .ok .eObject
    | .eUnknown => .error (.undefinedContextType h.identifier)

/-- `addChild`, for an element without children. -/
def leafNode (type : InterfaceType) (e : Element) (visibility : VisibilityType) : InterfaceTree :=
  .node ⟨type, e, visibility, none, none⟩ []

/-! ## The builder -/

section Builder

/-- A call of `buildTree`: the context, `includeDefinitionFile`, `bInIncludeTree`, `visibility`. The
result are the children that it adds to the parent node. -/
abbrev BuildTree :=
  Context → Option String → Bool → VisibilityType → Except SessionError (List InterfaceTree)

variable (find : String → Option Context) (build : BuildTree)
  (includeDefinitionFile : Option String) (bInIncludeTree : Bool)

/-- The body of the loop of `buildTree`, for all elements but a visibility. -/
def buildChild (visibility : VisibilityType) :
    Element → Except SessionError (List InterfaceTree)
  | .inclusion i =>
    if i.isEGInclude then
      match find i.path with
      | none => .error (.includeNotFound i.path)
      | some root =>
        if i.identifier = "" then build root includeDefinitionFile true visibility
        else do
          let children ← build root includeDefinitionFile true visibility
          let e : Element := .context root.heading root.elements
          pure [.node ⟨.eRoot, e, visibility, some i, none⟩ children]
    else pure [leafNode .eInclude (.inclusion i) visibility]
  | .context h es => do
    let type ← contextNodeType h
    if bInIncludeTree then
      match includeDefinitionFile with
      | none => .error .includeFileProblem
      | some file => do
        let children ← build ⟨h, es⟩ includeDefinitionFile true visibility
        -- a context without a body of its own keeps no definition file
        let definitionFile := if h.definitionFile.isSome then some file else none
        pure [.node ⟨type, .context h es, visibility, none, definitionFile⟩ children]
    else do
      let children ← build ⟨h, es⟩ h.sourceFile false visibility
      pure [.node ⟨type, .context h es, visibility, none, h.definitionFile⟩ children]
  | .exported e => pure [leafNode .eExport (.exported e) visibility]
  | .dimension d => pure [leafNode .eDimension (.dimension d) visibility]
  | .usingType u => pure [leafNode .eUsing (.usingType u) visibility]
  | .visibility _ => pure []

def buildElements : List Element → VisibilityType → Except SessionError (List InterfaceTree)
  | [], _ => pure []
  | .visibility v :: es, _ => buildElements es v
  | e :: es, visibility => do
    let ts ← buildChild find build includeDefinitionFile bInIncludeTree visibility e
    let us ← buildElements es visibility
    pure (ts ++ us)

/-- `buildTree`; the fuel bounds the depth of the calls. -/
def buildTree : ℕ → BuildTree
  | 0, _, _, _, _ => .error .outOfFuel
  | fuel + 1, c, includeDefinitionFile, bInIncludeTree, visibility =>
    buildElements find (buildTree fuel) includeDefinitionFile bInIncludeTree c.elements visibility

/-- `buildAbstractTree`, from the main root on. -/
def buildAbstractTree (fuel : ℕ) (main : Context) : Except SessionError InterfaceTree := do
  let children ← buildTree find fuel main main.heading.sourceFile false .eVisPublic
  let e : Element := .context main.heading main.elements
  pure (.node ⟨.eRoot, e, .eVisPublic, none, main.heading.definitionFile⟩ children)

end Builder

/-! ## What the tree should show -/

/-- An element that has a node and no children: an own one, or an include of another kind of
file. -/
def Element.isLeaf : Element → Bool
  | .dimension _ | .usingType _ | .exported _ => true
  | .inclusion i => !i.isEGInclude
  | .visibility _ | .context _ _ => false

/-- The children of a node are these trees: for each of its elements, in their order, the node of a
leaf, of a nested context or of a named root, and the trees of a file that is spliced in. -/
inductive Shows (find : String → Option Context) : List Element → List InterfaceTree → Prop
  | nil : Shows find [] []
  | visibility {v : VisibilityType} {es : List Element} {ts : List InterfaceTree} :
      Shows find es ts → Shows find (.visibility v :: es) ts
  | leaf {e : Element} {es : List Element} {n : InterfaceNode} {ts : List InterfaceTree} :
      e.isLeaf = true → n.element = e → n.includeIdentifier = none → Shows find es ts →
      Shows find (e :: es) (.node n [] :: ts)
  | context {h : Heading} {kids es : List Element} {n : InterfaceNode}
      {us ts : List InterfaceTree} :
      n.element = .context h kids → n.includeIdentifier = none → Shows find kids us →
      Shows find es ts → Shows find (.context h kids :: es) (.node n us :: ts)
  | named {i : Inclusion} {root : Context} {es : List Element} {n : InterfaceNode}
      {us ts : List InterfaceTree} :
      i.isEGInclude = true → i.identifier ≠ "" → find i.path = some root → n.type = .eRoot →
      n.element = .context root.heading root.elements → n.includeIdentifier = some i →
      Shows find root.elements us → Shows find es ts →
      Shows find (.inclusion i :: es) (.node n us :: ts)
  | spliced {i : Inclusion} {root : Context} {es : List Element} {us ts : List InterfaceTree} :
      i.isEGInclude = true → i.identifier = "" → find i.path = some root →
      Shows find root.elements us → Shows find es ts →
      Shows find (.inclusion i :: es) (us ++ ts)

/-- A context whose type was never given. -/
def Heading.untyped (h : Heading) : Prop := h.isRoot = false ∧ h.contextType = .eUnknown

/-- What the builder refuses among these elements, below nested contexts and in included files: an
EG include without a root of its own, a context without a type, and a context of an included file
that has no definition file. -/
inductive Refused (find : String → Option Context) : Option String → Bool → List Element → Prop
  | notFound {file : Option String} {inTree : Bool} {es : List Element} {i : Inclusion} :
      .inclusion i ∈ es → i.isEGInclude = true → find i.path = none → Refused find file inTree es
  | untyped {file : Option String} {inTree : Bool} {es kids : List Element} {h : Heading} :
      .context h kids ∈ es → h.untyped → Refused find file inTree es
  | noFile {es kids : List Element} {h : Heading} :
      .context h kids ∈ es → Refused find none true es
  | context {file : Option String} {inTree : Bool} {es kids : List Element} {h : Heading} :
      .context h kids ∈ es → Refused find (if inTree then file else h.sourceFile) inTree kids →
      Refused find file inTree es
  | inclusion {file : Option String} {inTree : Bool} {es : List Element} {i : Inclusion}
      {root : Context} :
      .inclusion i ∈ es → i.isEGInclude = true → find i.path = some root →
      Refused find file true root.elements → Refused find file inTree es

section Lists
variable {find : String → Option Context} {file : Option String} {inTree : Bool}
  {e : Element} {es : List Element} {ts us : List InterfaceTree}

theorem Refused.mono {es' : List Element} (h : Refused find file inTree es)
    (hsub : ∀ e ∈ es, e ∈ es') : Refused find file inTree es' := by
  cases h with
  | notFound hi hEG hfind => exact .notFound (hsub _ hi) hEG hfind
  | untyped hc hh => exact .untyped (hsub _ hc) hh
  | noFile hc => exact .noFile (hsub _ hc)
  | context hc hkids => exact .context (hsub _ hc) hkids
  | inclusion hi hEG hfind hroot => exact .inclusion (hsub _ hi) hEG hfind hroot

theorem refused_cons :
    Refused find file inTree (e :: es) ↔
      Refused find file inTree [e] ∨ Refused find file inTree es := by
  constructor
  · intro h
    have hsplit {x : Element} (hx : x ∈ e :: es) : x ∈ [e] ∨ x ∈ es := by
      rwa [List.mem_cons, ← List.mem_singleton] at hx
    cases h with
    | notFound hi hEG hfind =>
      exact (hsplit hi).imp (fun hi => .notFound hi hEG hfind) (fun hi => .notFound hi hEG hfind)
    | untyped hc hh => exact (hsplit hc).imp (fun hc => .untyped hc hh) (fun hc => .untyped hc hh)
    | noFile hc => exact (hsplit hc).imp (fun hc => .noFile hc) (fun hc => .noFile hc)
    | context hc hkids =>
      exact (hsplit hc).imp (fun hc => .context hc hkids) (fun hc => .context hc hkids)
    | inclusion hi hEG hfind hroot =>
      exact (hsplit hi).imp (fun hi => .inclusion hi hEG hfind hroot)
        (fun hi => .inclusion hi hEG hfind hroot)
  · rintro (h | h)
    · exact h.mono fun x hx => List.mem_cons.mpr (.inl (List.mem_singleton.mp hx))
    · exact h.mono fun x hx => List.mem_cons_of_mem e hx

theorem not_refused_nil : ¬ Refused find file inTree [] := by
  intro h
  cases h with
  | notFound hi => cases hi
  | untyped hc => cases hc
  | noFile hc => cases hc
  | context hc => cases hc
  | inclusion hi => cases hi

theorem Shows.append (h : Shows find [e] ts) (h' : Shows find es us) :
    Shows find (e :: es) (ts ++ us) := by
  cases h with
  | visibility h =>
    cases h
    exact .visibility h'
  | leaf hleaf helem hid h =>
    cases h
    exact .leaf hleaf helem hid h'
  | context helem hid hkids h =>
    cases h
    exact .context helem hid hkids h'
  | named hEG hid hfind htype helem hincl hroot h =>
    cases h
    exact .named hEG hid hfind htype helem hincl hroot h'
  | spliced hEG hid hfind hroot h =>
    cases h
    rw [List.append_nil]
    exact .spliced hEG hid hfind hroot h'

end Lists

/-! ## What the builder does -/

section Meaning
variable {find : String → Option Context} {build : BuildTree} {file : Option String}
  {inTree : Bool} {v : VisibilityType} {e : Element} {es : List Element}
  {ts : List InterfaceTree} {x : SessionError}

theorem contextNodeType_error {h : Heading} (hx : contextNodeType h = .error x) : h.untyped := by
  unfold contextNodeType at hx
  split at hx
  · cases hx
  · rename_i hroot
    split at hx <;> cases hx
    exact ⟨by simpa using hroot, by assumption⟩

theorem contextNodeType_ok {h : Heading} {t : InterfaceType} (hx : contextNodeType h = .ok t) :
    ¬ h.untyped := by
  rintro ⟨hroot, htype⟩
  rw [contextNodeType, hroot, htype] at hx
  cases hx

/-- What `buildTree` returns and where it fails, for all calls. -/
structure Builds (find : String → Option Context) (build : BuildTree) : Prop where
  shows : ∀ {c file inTree v ts}, build c file inTree v = .ok ts →
    Shows find c.elements ts ∧ ¬ Refused find file inTree c.elements
  refused : ∀ {c file inTree v x}, build c file inTree v = .error x → x ≠ .outOfFuel →
    Refused find file inTree c.elements

theorem refused_inclusion {i : Inclusion} (hi : Refused find file inTree [.inclusion i]) :
    i.isEGInclude = true ∧ (find i.path = none ∨
      ∃ root, find i.path = some root ∧ Refused find file true root.elements) := by
  cases hi with
  | notFound hi hEG hfind =>
    cases List.mem_singleton.mp hi
    exact ⟨hEG, .inl hfind⟩
  | untyped hc => cases List.mem_singleton.mp hc
  | noFile hc => cases List.mem_singleton.mp hc
  | context hc => cases List.mem_singleton.mp hc
  | inclusion hi hEG hfind hroot =>
    cases List.mem_singleton.mp hi
    exact ⟨hEG, .inr ⟨_, hfind, hroot⟩⟩

theorem refused_context {h : Heading} {kids : List Element}
    (hc : Refused find file inTree [.context h kids]) :
    h.untyped ∨ inTree = true ∧ file = none ∨
      Refused find (if inTree then file else h.sourceFile) inTree kids := by
  cases hc with
  | notFound hi => cases List.mem_singleton.mp hi
  | untyped hc hh =>
    cases List.mem_singleton.mp hc
    exact .inl hh
  | noFile hc => exact .inr (.inl ⟨rfl, rfl⟩)
  | context hc hkids =>
    cases List.mem_singleton.mp hc
    exact .inr (.inr hkids)
  | inclusion hi => cases List.mem_singleton.mp hi

theorem Refused.exists_mem (h : Refused find file inTree es) :
    ∃ e ∈ es, e.isLeaf = false ∧ ∀ w, e ≠ .visibility w := by
  cases h with
  | notFound hi hEG => exact ⟨_, hi, by simp [Element.isLeaf, hEG], fun w h => by cases h⟩
  | inclusion hi hEG => exact ⟨_, hi, by simp [Element.isLeaf, hEG], fun w h => by cases h⟩
  | untyped hc => exact ⟨_, hc, rfl, fun w h => by cases h⟩
  | noFile hc => exact ⟨_, hc, rfl, fun w h => by cases h⟩
  | context hc => exact ⟨_, hc, rfl, fun w h => by cases h⟩

theorem not_refused_leaf (he : e.isLeaf = true) : ¬ Refused find file inTree [e] := by
  intro h
  obtain ⟨e', hmem, hleaf, -⟩ := h.exists_mem
  rw [List.mem_singleton.mp hmem, he] at hleaf
  cases hleaf

theorem not_refused_visibility (w : VisibilityType) :
    ¬ Refused find file inTree [.visibility w] := by
  intro h
  obtain ⟨e', hmem, -, hne⟩ := h.exists_mem
  exact hne w (List.mem_singleton.mp hmem)

theorem shows_leaf (t : InterfaceType) (he : e.isLeaf = true) :
    Shows find [e] [leafNode t e v] :=
  .leaf he rfl rfl .nil

/-- One element, if the calls below it are right. -/
theorem Builds.child_inclusion (hb : Builds find build) {i : Inclusion} :
    (∀ ts, buildChild find build file inTree v (.inclusion i) = .ok ts →
      Shows find [.inclusion i] ts ∧ ¬ Refused find file inTree [.inclusion i]) ∧
    ∀ x, buildChild find build file inTree v (.inclusion i) = .error x → x ≠ .outOfFuel →
      Refused find file inTree [.inclusion i] := by
  rw [buildChild]
  split
  · rename_i hEG
    cases hfind : find i.path with
    | none =>
      refine ⟨fun ts h => ?_, fun x _ _ => ?_⟩
      · cases h
      · exact .notFound List.mem_cons_self hEG hfind
    | some root =>
      have hrefused : Refused find file inTree [.inclusion i] ↔
          Refused find file true root.elements := by
        refine ⟨fun h => ?_, .inclusion List.mem_cons_self hEG hfind⟩
        obtain ⟨-, hnone | ⟨root', hroot', h⟩⟩ := refused_inclusion h
        · rw [hfind] at hnone
          cases hnone
        · rw [hfind] at hroot'
          cases hroot'
          exact h
      rw [hrefused]
      dsimp only
      split
      · rename_i hid
        refine ⟨fun ts h => ?_, fun x h hx => hb.refused h hx⟩
        obtain ⟨hshows, hnot⟩ := hb.shows h
        refine ⟨?_, hnot⟩
        have := Shows.spliced (i := i) hEG hid hfind hshows .nil
        rwa [List.append_nil] at this
      · rename_i hid
        constructor
        · intro ts h
          obtain ⟨us, hus, h⟩ := except_bind_ok.mp h
          cases h
          obtain ⟨hshows, hnot⟩ := hb.shows hus
          exact ⟨.named hEG hid hfind rfl rfl rfl hshows .nil, hnot⟩
        · intro x h hx
          rcases except_bind_error.mp h with h | ⟨us, -, h⟩
          · exact hb.refused h hx
          · cases h
  · rename_i hEG
    have hleaf : (Element.inclusion i).isLeaf = true := by simpa [Element.isLeaf] using hEG
    refine ⟨fun ts h => ?_, fun x h _ => ?_⟩
    · cases h
      exact ⟨shows_leaf _ hleaf, not_refused_leaf hleaf⟩
    · cases h

theorem Builds.child_context (hb : Builds find build) {h : Heading} {kids : List Element} :
    (∀ ts, buildChild find build file inTree v (.context h kids) = .ok ts →
      Shows find [.context h kids] ts ∧ ¬ Refused find file inTree [.context h kids]) ∧
    ∀ x, buildChild find build file inTree v (.context h kids) = .error x → x ≠ .outOfFuel →
      Refused find file inTree [.context h kids] := by
  rw [buildChild]
  cases htype : contextNodeType h with
  | error y =>
    refine ⟨fun ts h => ?_, fun x _ _ => ?_⟩
    · cases h
    · exact .untyped List.mem_cons_self (contextNodeType_error htype)
  | ok t =>
    have htyped := contextNodeType_ok htype
    -- with the file and the flag that the call below gets
    have hcall {file' : Option String} {inTree' : Bool} {definitionFile : Option String}
        (hnofile : ¬ (inTree = true ∧ file = none))
        (hargs : ∀ {es}, Refused find file' inTree' es ↔
          Refused find (if inTree then file else h.sourceFile) inTree es) :
        let r := build ⟨h, kids⟩ file' inTree' v >>= fun us =>
          pure [RoseTree.node ⟨t, .context h kids, v, none, definitionFile⟩ us]
        (∀ ts, r = .ok ts → Shows find [.context h kids] ts ∧
          ¬ Refused find file inTree [.context h kids]) ∧
        ∀ x, r = .error x → x ≠ .outOfFuel → Refused find file inTree [.context h kids] := by
      constructor
      · intro ts hts
        obtain ⟨us, hus, hts⟩ := except_bind_ok.mp hts
        cases hts
        obtain ⟨hshows, hnot⟩ := hb.shows hus
        refine ⟨.context rfl rfl hshows .nil, fun hrefused => ?_⟩
        rcases refused_context hrefused with hun | hfile | hkids
        · exact htyped hun
        · exact hnofile hfile
        · exact hnot (hargs.mpr hkids)
      · intro x hx hne
        rcases except_bind_error.mp hx with hx | ⟨us, -, hx⟩
        · exact .context List.mem_cons_self (hargs.mp (hb.refused hx hne))
        · cases hx
    cases inTree with
    | false => exact hcall (by simp) (by simp)
    | true =>
      cases file with
      | none =>
        refine ⟨fun ts hts => ?_, fun x _ _ => .noFile List.mem_cons_self⟩
        cases hts
      | some file => exact hcall (by simp) (by simp)

theorem buildElements_cons (he : ∀ w, e ≠ .visibility w) :
    buildElements find build file inTree (e :: es) v = (do
      let ts ← buildChild find build file inTree v e
      let us ← buildElements find build file inTree es v
      pure (ts ++ us)) := by
  cases e with
  | visibility w => exact absurd rfl (he w)
  | _ => rfl

theorem Builds.child (hb : Builds find build) (he : ∀ w, e ≠ .visibility w) :
    (∀ ts, buildChild find build file inTree v e = .ok ts →
      Shows find [e] ts ∧ ¬ Refused find file inTree [e]) ∧
    ∀ x, buildChild find build file inTree v e = .error x → x ≠ .outOfFuel →
      Refused find file inTree [e] := by
  have leaf {t : InterfaceType} (hleaf : e.isLeaf = true)
      (heq : buildChild find build file inTree v e = .ok [leafNode t e v]) :
      (∀ ts, buildChild find build file inTree v e = .ok ts →
        Shows find [e] ts ∧ ¬ Refused find file inTree [e]) ∧
      ∀ x, buildChild find build file inTree v e = .error x → x ≠ .outOfFuel →
        Refused find file inTree [e] := by
    rw [heq]
    refine ⟨fun ts h => ?_, fun x h _ => ?_⟩
    · cases h
      exact ⟨shows_leaf t hleaf, not_refused_leaf hleaf⟩
    · cases h
  cases e with
  | dimension d => exact leaf rfl rfl
  | inclusion i => exact hb.child_inclusion
  | usingType u => exact leaf rfl rfl
  | exported x => exact leaf rfl rfl
  | visibility w => exact absurd rfl (he w)
  | context h kids => exact hb.child_context

/-- The loop, if the calls below it are right. -/
theorem Builds.elements (hb : Builds find build) :
    (∀ ts, buildElements find build file inTree es v = .ok ts →
      Shows find es ts ∧ ¬ Refused find file inTree es) ∧
    ∀ x, buildElements find build file inTree es v = .error x → x ≠ .outOfFuel →
      Refused find file inTree es := by
  induction es generalizing v with
  | nil =>
    refine ⟨fun ts h => ?_, fun x h _ => ?_⟩
    · cases h
      exact ⟨.nil, not_refused_nil⟩
    · cases h
  | cons e es ih =>
    rw [refused_cons]
    by_cases hvis : ∃ w, e = .visibility w
    · obtain ⟨w, rfl⟩ := hvis
      obtain ⟨hok, herr⟩ := ih (v := w)
      refine ⟨fun ts h => ?_, fun x h hx => .inr (herr x h hx)⟩
      obtain ⟨hshows, hnot⟩ := hok ts h
      exact ⟨.visibility hshows, not_or.mpr ⟨not_refused_visibility w, hnot⟩⟩
    · have he : ∀ w, e ≠ .visibility w := not_exists.mp hvis
      obtain ⟨hchild, hchilderr⟩ := @Builds.child _ _ file inTree v _ hb he
      obtain ⟨hok, herr⟩ := ih (v := v)
      rw [buildElements_cons he]
      constructor
      · intro ts h
        obtain ⟨us, hus, h⟩ := except_bind_ok.mp h
        obtain ⟨ws, hws, h⟩ := except_bind_ok.mp h
        cases h
        obtain ⟨hshows, hnot⟩ := hchild us hus
        obtain ⟨hshows', hnot'⟩ := hok ws hws
        exact ⟨hshows.append hshows', not_or.mpr ⟨hnot, hnot'⟩⟩
      · intro x h hx
        rcases except_bind_error.mp h with h | ⟨us, -, h⟩
        · exact .inl (hchilderr x h hx)
        rcases except_bind_error.mp h with h | ⟨ws, -, h⟩
        · exact .inr (herr x h hx)
        · cases h

/-- **Step and run.** Whatever the builder returns is right, with any fuel. -/
theorem builds_buildTree (find : String → Option Context) (n : ℕ) :
    Builds find (buildTree find n) := by
  induction n with
  | zero =>
    refine ⟨fun h => ?_, fun h hx => ?_⟩
    · cases h
    · exact absurd (Except.error.inj h).symm hx
  | succ n ih => exact ⟨fun h => ih.elements.1 _ h, fun h hx => ih.elements.2 _ h hx⟩

end Meaning

/-! ## Where the builder ends -/

section Ends
variable {find : String → Option Context}

/-- A file includes another one. -/
def IncludesFile (find : String → Option Context) (p q : String) : Prop :=
  ∃ root, find p = some root ∧ q ∈ egIncludes root.elements

/-- The calls of the second builder that are not out of fuel in the first one are the same. -/
def BuildImproves (build build' : BuildTree) : Prop :=
  ∀ c file inTree v, Improves .outOfFuel (build c file inTree v) (build' c file inTree v)

theorem BuildImproves.child {build build' : BuildTree} (h : BuildImproves build build')
    (file : Option String) (inTree : Bool) (v : VisibilityType) (e : Element) :
    Improves .outOfFuel (buildChild find build file inTree v e)
      (buildChild find build' file inTree v e) := by
  cases e with
  | inclusion i =>
    rw [buildChild, buildChild]
    split
    · split
      · exact .refl _
      · split
        · exact h _ _ _ _
        · exact (h _ _ _ _).bind fun us => .refl _
    · exact .refl _
  | context hd kids =>
    refine (Improves.refl _).bind fun t => ?_
    split
    · split
      · exact .refl _
      · exact (h _ _ _ _).bind fun us => .refl _
    · exact (h _ _ _ _).bind fun us => .refl _
  | _ => exact .refl _

theorem BuildImproves.elements {build build' : BuildTree} (h : BuildImproves build build')
    (file : Option String) (inTree : Bool) (v : VisibilityType) (es : List Element) :
    Improves .outOfFuel (buildElements find build file inTree es v)
      (buildElements find build' file inTree es v) := by
  induction es generalizing v with
  | nil => exact .refl _
  | cons e es ih =>
    by_cases hvis : ∃ w, e = .visibility w
    · obtain ⟨w, rfl⟩ := hvis
      exact ih w
    · rw [buildElements_cons (not_exists.mp hvis), buildElements_cons (not_exists.mp hvis)]
      exact (h.child file inTree v e).bind fun ts => (ih v).bind fun us => .refl _

theorem buildTree_improves (n : ℕ) :
    BuildImproves (buildTree find n) (buildTree find (n + 1)) := by
  induction n with
  | zero => exact fun c file inTree v => .inl rfl
  | succ n ih => exact fun c file inTree v => ih.elements file inTree v c.elements

/-- The fuel is enough for this context. -/
def EnoughFor (find : String → Option Context) (n : ℕ) (c : Context) : Prop :=
  ∀ file inTree v, buildTree find n c file inTree v ≠ .error .outOfFuel

theorem EnoughFor.mono {n m : ℕ} {c : Context} (hnm : n ≤ m) (h : EnoughFor find n c) :
    EnoughFor find m c := fun file inTree v =>
  (improves_of_le (fun k => buildTree_improves k c file inTree v) hnm).ne_error (h file inTree v)

/-- The contexts that the builder is called on for an element. -/
def Calls (find : String → Option Context) (e : Element) (c : Context) : Prop :=
  e = .context c.heading c.elements ∨
    ∃ i, e = .inclusion i ∧ i.isEGInclude = true ∧ find i.path = some c

theorem child_ne_outOfFuel {n : ℕ} {e : Element} (he : ∀ c, Calls find e c → EnoughFor find n c)
    (file : Option String) (inTree : Bool) (v : VisibilityType) :
    buildChild find (buildTree find n) file inTree v e ≠ .error .outOfFuel := by
  intro h
  cases e with
  | inclusion i =>
    rw [buildChild] at h
    split at h
    · rename_i hEG
      split at h
      · cases h
      · rename_i root hfind
        have hroot := he root (.inr ⟨i, rfl, hEG, hfind⟩)
        split at h
        · exact hroot _ _ _ h
        · rcases except_bind_error.mp h with h | ⟨us, -, h⟩
          · exact hroot _ _ _ h
          · cases h
    · cases h
  | context hd kids =>
    have hkids := he ⟨hd, kids⟩ (.inl rfl)
    rcases except_bind_error.mp h with h | ⟨t, -, h⟩
    · unfold contextNodeType at h
      split at h
      · cases h
      · split at h <;> cases h
    split at h
    · split at h
      · cases h
      · rcases except_bind_error.mp h with h | ⟨us, -, h⟩
        · exact hkids _ _ _ h
        · cases h
    · rcases except_bind_error.mp h with h | ⟨us, -, h⟩
      · exact hkids _ _ _ h
      · cases h
  | _ => cases h

theorem elements_ne_outOfFuel {n : ℕ} {es : List Element}
    (hes : ∀ e ∈ es, ∀ c, Calls find e c → EnoughFor find n c)
    (file : Option String) (inTree : Bool) (v : VisibilityType) :
    buildElements find (buildTree find n) file inTree es v ≠ .error .outOfFuel := by
  induction es generalizing v with
  | nil =>
    intro h
    cases h
  | cons e es ih =>
    rw [List.forall_mem_cons] at hes
    by_cases hvis : ∃ w, e = .visibility w
    · obtain ⟨w, rfl⟩ := hvis
      exact ih hes.2 w
    · rw [buildElements_cons (not_exists.mp hvis)]
      intro h
      rcases except_bind_error.mp h with h | ⟨ts, -, h⟩
      · exact child_ne_outOfFuel hes.1 file inTree v h
      rcases except_bind_error.mp h with h | ⟨us, -, h⟩
      · exact ih hes.2 v h
      · cases h

/-- Induction over an element, with the hypothesis for every element of a context. -/
theorem element_induction {P : Element → Prop}
    (leaf : ∀ e, (∀ h es, e ≠ .context h es) → P e)
    (context : ∀ h es, (∀ e ∈ es, P e) → P (.context h es)) (e : Element) : P e :=
  @Element.rec P (fun es => ∀ e ∈ es, P e) (fun d => leaf _ fun h es heq => by cases heq)
    (fun i => leaf _ fun h es heq => by cases heq) (fun u => leaf _ fun h es heq => by cases heq)
    (fun x => leaf _ fun h es heq => by cases heq) (fun v => leaf _ fun h es heq => by cases heq)
    context (fun _ h => absurd h List.not_mem_nil)
    (fun _ _ h hs e he => (List.mem_cons.mp he).elim (fun heq => heq ▸ h) (hs e)) e

theorem mem_egIncludes {es : List Element} {p : String} :
    p ∈ egIncludes es ↔ ∃ e ∈ es, p ∈ e.egIncludes := by
  induction es with
  | nil => simp [egIncludes]
  | cons e es ih => simp [egIncludes, ih]

/-- If the builder ends on all included files, it ends. -/
theorem exists_enough {es : List Element} {hd : Heading}
    (hes : ∀ p ∈ egIncludes es, ∀ root, find p = some root → ∃ n, EnoughFor find n root) :
    ∃ n, EnoughFor find n ⟨hd, es⟩ := by
  have hlist (es : List Element) (hd : Heading) (h : ∀ e ∈ es, ∃ n, ∀ c, Calls find e c →
      EnoughFor find n c) : ∃ n, EnoughFor find n ⟨hd, es⟩ := by
    obtain ⟨n, hn⟩ := exists_common_fuel
      (P := fun n e => ∀ c, Calls find e c → EnoughFor find n c)
      (fun hnm hn c hc => (hn c hc).mono hnm) h
    exact ⟨n + 1, fun file inTree v => elements_ne_outOfFuel hn file inTree v⟩
  have helem (e : Element) (he : ∀ p ∈ e.egIncludes, ∀ root, find p = some root →
      ∃ n, EnoughFor find n root) : ∃ n, ∀ c, Calls find e c → EnoughFor find n c := by
    induction e using element_induction with
    | leaf e hleaf =>
      by_cases hcall : ∃ c, Calls find e c
      · obtain ⟨c, hctx | ⟨i, rfl, hEG, hfind⟩⟩ := hcall
        · exact absurd hctx (hleaf _ _)
        · obtain ⟨n, hn⟩ := he i.path (by simp [Element.egIncludes, hEG]) c hfind
          refine ⟨n, fun c' hc' => ?_⟩
          rcases hc' with hctx | ⟨i', hi', -, hfind'⟩
          · cases hctx
          · cases hi'
            rw [hfind] at hfind'
            cases hfind'
            exact hn
      · exact ⟨0, fun c hc => absurd ⟨c, hc⟩ hcall⟩
    | context h es ih =>
      obtain ⟨n, hn⟩ := hlist es h fun e hmem => ih e hmem fun p hp =>
        he p (mem_egIncludes.mpr ⟨e, hmem, hp⟩)
      refine ⟨n, fun c hc => ?_⟩
      rcases hc with hctx | ⟨i, hi, -⟩
      · cases hctx
        exact hn
      · cases hi
  exact hlist es hd fun e hmem => helem e fun p hp => hes p (mem_egIncludes.mpr ⟨e, hmem, hp⟩)

/-- The builder ends on a file below which every way through the includes ends. -/
theorem exists_enough_of_acc {p : String} (h : Acc (fun q p => IncludesFile find p q) p)
    (root : Context) (hroot : find p = some root) : ∃ n, EnoughFor find n root := by
  induction h generalizing root with
  | intro p _ ih => exact exists_enough fun q hq => ih q ⟨root, hroot, hq⟩

end Ends

/-! ## Parsing and building -/

section Main

theorem Session.mem_included_of_includesFile {s : Session} {p q : String}
    (h : IncludesFile s.findFile p q) : q ∈ s.included := by
  obtain ⟨root, hroot, hq⟩ := h
  obtain ⟨r, hr, rfl⟩ := Option.map_eq_some_iff.mp hroot
  exact List.mem_flatMap.mpr ⟨r, List.mem_of_find?_eq_some hr, hq⟩

/-- The includes do not lead from a file of the main root in a circle. -/
def AcyclicIncludes (s : Session) (main : Context) : Prop :=
  ∀ p ∈ egIncludes main.elements, AcyclicFrom (IncludesFile s.findFile) p

/-- What is refused in the tree of the main root. -/
def RefusedMain (s : Session) (main : Context) : Prop :=
  Refused s.findFile main.heading.sourceFile false main.elements

theorem buildAbstractTree_spec {s : Session} {main : Context} (h : AcyclicIncludes s main) :
    ∃ n, (RefusedMain s main ∧
        ∃ x, x ≠ .outOfFuel ∧ buildAbstractTree s.findFile n main = .error x) ∨
      ¬ RefusedMain s main ∧
        ∃ t, buildAbstractTree s.findFile n main = .ok t ∧
          Shows s.findFile main.elements t.children := by
  have hacc (p : String) (hp : p ∈ egIncludes main.elements) :
      Acc (fun q p => IncludesFile s.findFile p q) p :=
    (h p hp).acc Session.mem_included_of_includesFile
  obtain ⟨n, hn⟩ := @exists_enough _ _ main.heading fun p hp root hroot =>
    exists_enough_of_acc (hacc p hp) root hroot
  refine ⟨n, ?_⟩
  have hbuilds := builds_buildTree s.findFile n
  cases hres : buildTree s.findFile n main main.heading.sourceFile false .eVisPublic with
  | error x =>
    have hx : x ≠ .outOfFuel := by
      rintro rfl
      exact hn _ _ _ hres
    refine .inl ⟨hbuilds.refused hres hx, x, hx, ?_⟩
    rw [buildAbstractTree, hres]
    rfl
  | ok ts =>
    obtain ⟨hshows, hnot⟩ := hbuilds.shows hres
    refine .inr ⟨hnot, .node ⟨.eRoot, .context main.heading main.elements, .eVisPublic, none,
      main.heading.definitionFile⟩ ts, ?_, hshows⟩
    rw [buildAbstractTree, hres]
    rfl

/-- **Main result.** The rounds end: at a file that the parser refuses, or with exactly one root for
each path that is included and is not a main file. Where the includes do not lead in a circle, the
builder then ends too: with an exception if it comes to something that it refuses, and else with the
tree that shows the elements of the main root. -/
theorem includes_spec (files : SourceFiles) (includePaths : List String) (main : Context) :
    let s0 := mainSession includePaths main
    let wanted := fun p => IncludedFrom files s0 p ∧ p ∉ includePaths
    ∃ n, (∃ p, handleInputIncludes files n s0 = .error (.parse p) ∧ wanted p ∧
        files.parse p (includeRoot p) = none) ∨
      ∃ s, handleInputIncludes files n s0 = .ok s ∧
        (s.parsed.Nodup ∧ (∀ p, p ∈ s.parsed ↔ wanted p) ∧
          ∀ p ∈ s.parsed, s.findFile p = files.parse p (includeRoot p)) ∧
        (AcyclicIncludes s main →
          ∃ m, (RefusedMain s main ∧
              ∃ x, x ≠ .outOfFuel ∧ buildAbstractTree s.findFile m main = .error x) ∨
            ¬ RefusedMain s main ∧
              ∃ t, buildAbstractTree s.findFile m main = .ok t ∧
                Shows s.findFile main.elements t.children) := by
  intro s0 wanted
  obtain ⟨n, herr | ⟨s, hs, hnodup, hmem, hfind⟩⟩ :=
    @handleInputIncludes_spec files includePaths main
  · exact ⟨n, .inl herr⟩
  · exact ⟨n, .inr ⟨s, hs, ⟨hnodup, hmem, hfind⟩, buildAbstractTree_spec⟩⟩

end Main

/-! ## A main file that is included -/

/-- No other files than the main ones. -/
def noFiles : SourceFiles where
  paths := []
  less a b := a < b
  parse _ _ := none
  finite := by simp

/-- The main root of `/a.eg`, which includes `/b.eg`, and of `/b.eg`, which is empty. -/
def mainIncludesMain : Context :=
  ⟨⟨true, "", .eUnknown, none, none, [], some "/b.eg", none, []⟩,
    [.inclusion ⟨"", "/b.eg", true, false⟩]⟩

theorem mainFile_included_refused :
    let s0 := mainSession ["/a.eg", "/b.eg"] mainIncludesMain
    handleInputIncludes noFiles 1 s0 = .ok s0 ∧ AcyclicIncludes s0 mainIncludesMain ∧
      ∀ n t, buildAbstractTree s0.findFile n mainIncludesMain ≠ .ok t := by
  refine ⟨rfl, ?_, ?_⟩
  · intro p _ q _ hcycle
    obtain ⟨r, ⟨root, hroot, -⟩, -⟩ := Relation.TransGen.head'_iff.mp hcycle
    cases hroot
  · intro n t h
    cases n with
    | zero => cases h
    | succ n => cases h

end EgLang.Parsing
