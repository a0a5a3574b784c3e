import EgLang.Compiler.InstructionArchive

/-!
# Elements and what is loaded for them

When two instructions or variables are the same but for the addresses they point to, the static types
of their pointers, and the elements that have been met while storing and loading. What a stored element
loses are the types of the context variable and of a dimension reference variable.
-/

namespace EgLang.Compiler.Archive

open EgLang.Library

set_option autoImplicit false

/-! ## Equal instructions -/

section Pointers
variable {φ ψ χ : Address → Address → Prop}

theorem rel_mp (h : ∀ a b, φ a b → ψ a b → χ a b) {p q : Option Address} (hφ : Option.Rel φ p q)
    (hψ : Option.Rel ψ p q) : Option.Rel χ p q := by
  cases hφ with
  | none => exact .none
  | some hab =>
    cases hψ with
    | some hab' => exact .some (h _ _ hab hab')

theorem rel_imp_of_mem {p q : Option Address} (h : ∀ a ∈ p.toList, ∀ b, φ a b → ψ a b)
    (hφ : Option.Rel φ p q) : Option.Rel ψ p q := by
  cases hφ with
  | none => exact .none
  | some hab => exact .some (h _ (List.mem_singleton_self _) _ hab)

theorem rel_imp (h : ∀ a b, φ a b → ψ a b) {p q : Option Address} (hφ : Option.Rel φ p q) :
    Option.Rel ψ p q := rel_imp_of_mem (fun a _ => h a) hφ

theorem forall₂_imp_of_mem {as bs : List Address} (h : ∀ a ∈ as, ∀ b, φ a b → ψ a b)
    (hφ : List.Forall₂ φ as bs) : List.Forall₂ ψ as bs := by
  induction hφ with
  | nil => exact .nil
  | cons hab _ ih =>
    rw [List.forall_mem_cons] at h
    exact .cons (h.1 _ hab) (ih h.2)

theorem exists_of_mem_rel {p q : Option Address} (h : Option.Rel φ p q) {a : Address}
    (ha : a ∈ p.toList) : ∃ a', φ a a' := by
  cases h with
  | none => exact absurd ha List.not_mem_nil
  | some hab =>
    rw [Option.toList_some, List.mem_singleton] at ha
    exact ⟨_, ha ▸ hab⟩

theorem exists_of_mem_forall₂ {as bs : List Address} (h : List.Forall₂ φ as bs) {a : Address}
    (ha : a ∈ as) : ∃ a', φ a a' := by
  induction h with
  | nil => exact absurd ha List.not_mem_nil
  | cons hab _ ih =>
    rcases List.mem_cons.mp ha with rfl | ha
    · exact ⟨_, hab⟩
    · exact ih ha

end Pointers

namespace Element

/-- The elements that an element points to. -/
def pointers : Element → List Address
  | .instanceVariable m_pParent _ => m_pParent.toList
  | .referenceVariable m_pParent _ => m_pParent.toList
  | .dimensionReferenceVariable m_pParent _ => m_pParent.toList
  | .contextVariable m_pParent _ => m_pParent.toList
  | .derivation _ m_children m_pFrom m_pTo => m_children ++ m_pFrom.toList ++ m_pTo.toList
  | .enumeration m_children m_pContext _ _ => m_children ++ m_pContext.toList
  | .transient _ m_children => m_children
  | .dimensionReferenceRead m_children m_pInstance m_pReference _ =>
    m_children ++ m_pInstance.toList ++ m_pReference.toList
  | .monoReference m_children m_pFrom m_pInstance =>
    m_children ++ m_pFrom.toList ++ m_pInstance.toList
  | .polyReference m_children m_pFrom => m_children ++ m_pFrom.toList
  | .polyCase m_children m_pReference m_pTo => m_children ++ m_pReference.toList ++ m_pTo.toList
  | .actionOperation _ m_children m_pInstance _ _ => m_children ++ m_pInstance.toList
  | .dimensionOperation _ m_children m_pInstance _ _ => m_children ++ m_pInstance.toList
  | .writeLinkOperation m_children m_pInstance _ _ _ => m_children ++ m_pInstance.toList
  | .rangeOperation m_children m_pInstance _ _ _ => m_children ++ m_pInstance.toList

/-- Two elements have the same class and the same values, and what they point to is related. -/
inductive Same (φ : Address → Address → Prop) : Element → Element → Prop
  | instanceVariable {p p' t} (hp : Option.Rel φ p p') :
      Same φ (.instanceVariable p t) (.instanceVariable p' t)
  | referenceVariable {p p' ts} (hp : Option.Rel φ p p') :
      Same φ (.referenceVariable p ts) (.referenceVariable p' ts)
  | dimensionReferenceVariable {p p' ts} (hp : Option.Rel φ p p') :
      Same φ (.dimensionReferenceVariable p ts) (.dimensionReferenceVariable p' ts)
  | contextVariable {p p' ts} (hp : Option.Rel φ p p') :
      Same φ (.contextVariable p ts) (.contextVariable p' ts)
  | derivation {kind cs cs' p p' q q'} (hcs : List.Forall₂ φ cs cs') (hp : Option.Rel φ p p')
      (hq : Option.Rel φ q q') : Same φ (.derivation kind cs p q) (.derivation kind cs' p' q')
  | enumeration {cs cs' p p' ts n} (hcs : List.Forall₂ φ cs cs') (hp : Option.Rel φ p p') :
      Same φ (.enumeration cs p ts n) (.enumeration cs' p' ts n)
  | transient {kind cs cs'} (hcs : List.Forall₂ φ cs cs') :
      Same φ (.transient kind cs) (.transient kind cs')
  | dimensionReferenceRead {cs cs' p p' q q' d} (hcs : List.Forall₂ φ cs cs')
      (hp : Option.Rel φ p p') (hq : Option.Rel φ q q') :
      Same φ (.dimensionReferenceRead cs p q d) (.dimensionReferenceRead cs' p' q' d)
  | monoReference {cs cs' p p' q q'} (hcs : List.Forall₂ φ cs cs') (hp : Option.Rel φ p p')
      (hq : Option.Rel φ q q') : Same φ (.monoReference cs p q) (.monoReference cs' p' q')
  | polyReference {cs cs' p p'} (hcs : List.Forall₂ φ cs cs') (hp : Option.Rel φ p p') :
      Same φ (.polyReference cs p) (.polyReference cs' p')
  | polyCase {cs cs' p p' q q'} (hcs : List.Forall₂ φ cs cs') (hp : Option.Rel φ p p')
      (hq : Option.Rel φ q q') : Same φ (.polyCase cs p q) (.polyCase cs' p' q')
  | actionOperation {kind cs cs' p p' i t} (hcs : List.Forall₂ φ cs cs') (hp : Option.Rel φ p p') :
      Same φ (.actionOperation kind cs p i t) (.actionOperation kind cs' p' i t)
  | dimensionOperation {kind cs cs' p p' i t} (hcs : List.Forall₂ φ cs cs')
      (hp : Option.Rel φ p p') :
      Same φ (.dimensionOperation kind cs p i t) (.dimensionOperation kind cs' p' i t)
  | writeLinkOperation {cs cs' p p' i t g} (hcs : List.Forall₂ φ cs cs') (hp : Option.Rel φ p p') :
      Same φ (.writeLinkOperation cs p i t g) (.writeLinkOperation cs' p' i t g)
  | rangeOperation {cs cs' p p' i t r} (hcs : List.Forall₂ φ cs cs') (hp : Option.Rel φ p p') :
      Same φ (.rangeOperation cs p i t r) (.rangeOperation cs' p' i t r)

/-- What is left of an element when it has been stored. -/
def archived : Element → Element
  | .dimensionReferenceVariable m_pParent _ => .dimensionReferenceVariable m_pParent []
  | .contextVariable m_pParent _ => .contextVariable m_pParent []
  | element => element

/-- The element is one that elimination is to remove. -/
def isTransient : Element → Bool
  | .transient .. => true
  | _ => false

variable {φ ψ χ : Address → Address → Prop} {e e' : Element}

theorem getType_archived (e : Element) : e.archived.getType = e.getType := by cases e <;> rfl

theorem Same.getType_eq (h : Same φ e e') : e'.getType = e.getType := by
  cases h with
  | @derivation kind => cases kind <;> rfl
  | @transient kind => cases kind <;> rfl
  | @actionOperation kind => cases kind <;> rfl
  | @dimensionOperation kind => cases kind <;> rfl
  | _ => rfl

/-- Only what the element points to matters. -/
theorem Same.imp_of_mem (h : Same φ e e') (himp : ∀ a ∈ e.pointers, ∀ a', φ a a' → ψ a a') :
    Same ψ e e' := by
  cases h <;> simp only [pointers, List.mem_append, or_imp, forall_and] at himp
  case instanceVariable hp => exact .instanceVariable (rel_imp_of_mem himp hp)
  case referenceVariable hp => exact .referenceVariable (rel_imp_of_mem himp hp)
  case dimensionReferenceVariable hp => exact .dimensionReferenceVariable (rel_imp_of_mem himp hp)
  case contextVariable hp => exact .contextVariable (rel_imp_of_mem himp hp)
  case transient hcs => exact .transient (forall₂_imp_of_mem himp hcs)
  case enumeration hcs hp =>
    exact .enumeration (forall₂_imp_of_mem himp.1 hcs) (rel_imp_of_mem himp.2 hp)
  case polyReference hcs hp =>
    exact .polyReference (forall₂_imp_of_mem himp.1 hcs) (rel_imp_of_mem himp.2 hp)
  case actionOperation hcs hp =>
    exact .actionOperation (forall₂_imp_of_mem himp.1 hcs) (rel_imp_of_mem himp.2 hp)
  case dimensionOperation hcs hp =>
    exact .dimensionOperation (forall₂_imp_of_mem himp.1 hcs) (rel_imp_of_mem himp.2 hp)
  case writeLinkOperation hcs hp =>
    exact .writeLinkOperation (forall₂_imp_of_mem himp.1 hcs) (rel_imp_of_mem himp.2 hp)
  case rangeOperation hcs hp =>
    exact .rangeOperation (forall₂_imp_of_mem himp.1 hcs) (rel_imp_of_mem himp.2 hp)
  all_goals
    rename_i hcs hp hq
    obtain ⟨⟨hcs', hp'⟩, hq'⟩ := himp
    constructor
    · exact forall₂_imp_of_mem hcs' hcs
    · exact rel_imp_of_mem hp' hp
    · exact rel_imp_of_mem hq' hq

theorem Same.imp (hmono : ∀ a a', φ a a' → ψ a a') (h : Same φ e e') : Same ψ e e' :=
  h.imp_of_mem fun a _ => hmono a

/-- What an element points to has a counterpart. -/
theorem Same.exists_of_mem (h : Same φ e e') {a : Address} (ha : a ∈ e.pointers) : ∃ a', φ a a' := by
  cases h <;> simp only [pointers, List.mem_append, or_assoc] at ha
  case instanceVariable hp | referenceVariable hp | dimensionReferenceVariable hp | contextVariable hp =>
    exact exists_of_mem_rel hp ha
  case transient hcs => exact exists_of_mem_forall₂ hcs ha
  case enumeration hcs hp | polyReference hcs hp | actionOperation hcs hp |
      dimensionOperation hcs hp | writeLinkOperation hcs hp | rangeOperation hcs hp =>
    exact ha.elim (exists_of_mem_forall₂ hcs) (exists_of_mem_rel hp)
  case derivation hcs hp hq | dimensionReferenceRead hcs hp hq | monoReference hcs hp hq |
      polyCase hcs hp hq =>
    exact ha.elim (exists_of_mem_forall₂ hcs) fun ha =>
      ha.elim (exists_of_mem_rel hp) (exists_of_mem_rel hq)

/-- An element that is the same as one that has been loaded has lost nothing. -/
theorem Same.and_archived (h : Same φ e.archived e') (h' : Same ψ e e') :
    e.archived = e ∧ Same (fun a a' => φ a a' ∧ ψ a a') e e' := by
  have both : ∀ a a', φ a a' → ψ a a' → φ a a' ∧ ψ a a' := fun _ _ => And.intro
  have rels {p q} (h : Option.Rel φ p q) (h' : Option.Rel ψ p q) := rel_mp both h h'
  have lists {as bs} (h : List.Forall₂ φ as bs) (h' : List.Forall₂ ψ as bs) := h.mp both h'
  cases h' with
  | instanceVariable hp' =>
    cases h with
    | instanceVariable hp => exact ⟨rfl, .instanceVariable (rels hp hp')⟩
  | referenceVariable hp' =>
    cases h with
    | referenceVariable hp => exact ⟨rfl, .referenceVariable (rels hp hp')⟩
  | dimensionReferenceVariable hp' =>
    cases h with
    | dimensionReferenceVariable hp => exact ⟨rfl, .dimensionReferenceVariable (rels hp hp')⟩
  | contextVariable hp' =>
    cases h with
    | contextVariable hp => exact ⟨rfl, .contextVariable (rels hp hp')⟩
  | derivation hcs' hp' hq' =>
    cases h with
    | derivation hcs hp hq =>
      exact ⟨rfl, .derivation (lists hcs hcs') (rels hp hp') (rels hq hq')⟩
  | enumeration hcs' hp' =>
    cases h with
    | enumeration hcs hp => exact ⟨rfl, .enumeration (lists hcs hcs') (rels hp hp')⟩
  | transient hcs' =>
    cases h with
    | transient hcs => exact ⟨rfl, .transient (lists hcs hcs')⟩
  | dimensionReferenceRead hcs' hp' hq' =>
    cases h with
    | dimensionReferenceRead hcs hp hq =>
      exact ⟨rfl, .dimensionReferenceRead (lists hcs hcs') (rels hp hp') (rels hq hq')⟩
  | monoReference hcs' hp' hq' =>
    cases h with
    | monoReference hcs hp hq =>
      exact ⟨rfl, .monoReference (lists hcs hcs') (rels hp hp') (rels hq hq')⟩
  | polyReference hcs' hp' =>
    cases h with
    | polyReference hcs hp => exact ⟨rfl, .polyReference (lists hcs hcs') (rels hp hp')⟩
  | polyCase hcs' hp' hq' =>
    cases h with
    | polyCase hcs hp hq =>
      exact ⟨rfl, .polyCase (lists hcs hcs') (rels hp hp') (rels hq hq')⟩
  | actionOperation hcs' hp' =>
    cases h with
    | actionOperation hcs hp => exact ⟨rfl, .actionOperation (lists hcs hcs') (rels hp hp')⟩
  | dimensionOperation hcs' hp' =>
    cases h with
    | dimensionOperation hcs hp => exact ⟨rfl, .dimensionOperation (lists hcs hcs') (rels hp hp')⟩
  | writeLinkOperation hcs' hp' =>
    cases h with
    | writeLinkOperation hcs hp => exact ⟨rfl, .writeLinkOperation (lists hcs hcs') (rels hp hp')⟩
  | rangeOperation hcs' hp' =>
    cases h with
    | rangeOperation hcs hp => exact ⟨rfl, .rangeOperation (lists hcs hcs') (rels hp hp')⟩

end Element
/-! ## Static types -/

/-- A pointer is null, or refers to an element whose class is as `is` says. -/
def Refers (elements : List Element) (is : ASTElementType → Bool) (p : Option Address) : Prop :=
  ∀ a ∈ p, ∃ e, elements[a]? = some e ∧ is e.getType = true

section Typed
variable {κ : Type} (files : ObjectFiles κ) (elements : List Element)

/-- The children of an instruction are instructions. -/
def Children (m_children : List Address) : Prop :=
  ∀ c ∈ m_children, Refers elements ASTElementType.isInstruction (some c)

open ASTElementType in
/-- The fields of an element are as they are declared. -/
def Element.Typed : Element → Prop
  | .instanceVariable m_pParent m_pType =>
    Refers elements isVariable m_pParent ∧ files.Holds .concreteAction m_pType
  | .referenceVariable m_pParent m_types =>
    Refers elements isVariable m_pParent ∧ ∀ p ∈ m_types, files.Holds .concreteElement p
  | .dimensionReferenceVariable m_pParent m_types =>
    Refers elements isVariable m_pParent ∧ ∀ p ∈ m_types, files.Holds .concreteElement p
  | .contextVariable m_pParent m_types =>
    Refers elements isVariable m_pParent ∧ ∀ p ∈ m_types, files.Holds .concreteElement p
  | .derivation _ m_children m_pFrom m_pTo =>
    Children elements m_children ∧ Refers elements isInstanceVariable m_pFrom ∧
      Refers elements isInstanceVariable m_pTo
  | .enumeration m_children m_pContext m_returnTypes _ =>
    Children elements m_children ∧ Refers elements isInstanceVariable m_pContext ∧
      ∀ p ∈ m_returnTypes, files.Holds .interfaceElement p
  | .transient _ m_children => Children elements m_children
  | .dimensionReferenceRead m_children m_pInstance m_pReference m_pDimension =>
    Children elements m_children ∧ Refers elements isInstanceVariable m_pInstance ∧
      Refers elements isDimensionReferenceVariable m_pReference ∧
      files.Holds .concreteDimension m_pDimension
  | .monoReference m_children m_pFrom m_pInstance =>
    Children elements m_children ∧ Refers elements isReferenceVariable m_pFrom ∧
      Refers elements isInstanceVariable m_pInstance
  | .polyReference m_children m_pFrom =>
    Children elements m_children ∧ Refers elements isReferenceVariable m_pFrom
  | .polyCase m_children m_pReference m_pTo =>
    Children elements m_children ∧ Refers elements isReferenceVariable m_pReference ∧
      Refers elements isInstanceVariable m_pTo
  | .actionOperation _ m_children m_pInstance m_pInterface m_pTarget =>
    Children elements m_children ∧ Refers elements isInstanceVariable m_pInstance ∧
      files.Holds .interfaceContext m_pInterface ∧ files.Holds .concreteAction m_pTarget
  | .dimensionOperation _ m_children m_pInstance m_pInterface m_pTarget =>
    Children elements m_children ∧ Refers elements isInstanceVariable m_pInstance ∧
      files.Holds .interfaceDimension m_pInterface ∧ files.Holds .concreteDimensionUser m_pTarget
  | .writeLinkOperation m_children m_pInstance m_pInterface m_pTarget m_pLinkGroup =>
    Children elements m_children ∧ Refers elements isInstanceVariable m_pInstance ∧
      files.Holds .interfaceDimension m_pInterface ∧ files.Holds .concreteDimensionUser m_pTarget ∧
      files.Holds .linkGroup m_pLinkGroup
  | .rangeOperation m_children m_pInstance m_pInterface m_pTarget _ =>
    Children elements m_children ∧ Refers elements isInstanceVariable m_pInstance ∧
      files.Holds .interfaceContext m_pInterface ∧ files.Holds .concreteAction m_pTarget

variable {files elements}

theorem Refers.exists_of_mem {is : ASTElementType → Bool} {p : Option Address}
    (h : Refers elements is p) {a : Address} (ha : a ∈ p.toList) : ∃ e, elements[a]? = some e := by
  obtain ⟨e, he, -⟩ := h a (Option.mem_toList.mp ha)
  exact ⟨e, he⟩

theorem Children.exists_of_mem {cs : List Address} (h : Children elements cs) {a : Address}
    (ha : a ∈ cs) : ∃ e, elements[a]? = some e :=
  (h a ha).exists_of_mem (List.mem_singleton_self a)

/-- What a typed element points to is there. -/
theorem Element.Typed.exists_of_mem {e : Element} (h : e.Typed files elements) {a : Address}
    (ha : a ∈ e.pointers) : ∃ e', elements[a]? = some e' := by
  cases e <;> simp only [pointers, List.mem_append, or_assoc] at ha
  case instanceVariable | referenceVariable | dimensionReferenceVariable | contextVariable =>
    exact h.1.exists_of_mem ha
  case transient => exact Children.exists_of_mem h ha
  case polyReference => exact ha.elim h.1.exists_of_mem h.2.exists_of_mem
  case enumeration | actionOperation | dimensionOperation | writeLinkOperation | rangeOperation =>
    exact ha.elim h.1.exists_of_mem h.2.1.exists_of_mem
  case derivation | monoReference | polyCase =>
    exact ha.elim h.1.exists_of_mem fun ha => ha.elim h.2.1.exists_of_mem h.2.2.exists_of_mem
  case dimensionReferenceRead =>
    exact ha.elim h.1.exists_of_mem fun ha => ha.elim h.2.1.exists_of_mem h.2.2.1.exists_of_mem

variable (files elements)

/-- Every element is typed. -/
def Typed : Prop := ∀ (a : Address) (e : Element), elements[a]? = some e → e.Typed files elements

end Typed

/-! ## Elements that have been met -/

theorem getElem?_of_prefix {α : Type} {as bs : List α} (h : as <+: bs) {i : ℕ} {a : α}
    (ha : as[i]? = some a) : bs[i]? = some a := by
  obtain ⟨hlt, hget⟩ := List.getElem?_eq_some_iff.mp ha
  rw [List.prefix_iff_getElem?.mp h i hlt, hget]

theorem mem_of_lookup {α β : Type} [BEq α] [LawfulBEq α] {l : List (α × β)} {k : α} {b : β}
    (h : l.lookup k = some b) : (k, b) ∈ l := by
  obtain ⟨l₁, l₂, rfl, -⟩ := List.lookup_eq_some_iff.mp h
  exact List.mem_append_right _ List.mem_cons_self

theorem lookup_of_mem {α β : Type} [BEq α] [LawfulBEq α] {l : List (α × β)} {k : α} {b : β}
    (hmem : (k, b) ∈ l) (hunique : ∀ b', (k, b') ∈ l → b' = b) : l.lookup k = some b := by
  cases hlookup : l.lookup k with
  | none => exact absurd (List.lookup_eq_none_iff.mp hlookup _ hmem) (by simp)
  | some b' => rw [hunique b' (mem_of_lookup hlookup)]

section World
variable (elements : List Element)

/-- The elements that have been stored and loaded, in the order in which they were met, and the
loaded elements. -/
structure World where
  pairs : List (Address × Address)
  loaded : List Element
  stored_nodup : (pairs.map Prod.fst).Nodup
  loaded_nodup : (pairs.map Prod.snd).Nodup
  sameType : ∀ p ∈ pairs, ∃ e e', elements[p.1]? = some e ∧ loaded[p.2]? = some e' ∧
    e'.getType = e.getType

namespace World
variable {elements}

/-- One element has been loaded as the other. -/
def Linked (w : World elements) (a a' : Address) : Prop := (a, a') ∈ w.pairs

/-- An element has been loaded with all its fields. -/
def Done (w : World elements) (p : Address × Address) : Prop :=
  ∃ e e', elements[p.1]? = some e ∧ e.isTransient = false ∧ w.loaded[p.2]? = some e' ∧
    e.archived.Same w.Linked e'

/-- The elements that are met are loaded with all their fields, and no other ones are changed. -/
structure Grows (w w' : World elements) : Prop where
  pairs : w.pairs <+: w'.pairs
  loaded : w.loaded <+: w'.loaded
  done : ∀ p ∈ w'.pairs, p ∉ w.pairs → w'.Done p

theorem Grows.linked {w w' : World elements} (h : Grows w w') {a a' : Address}
    (hlinked : w.Linked a a') : w'.Linked a a' := h.pairs.subset hlinked

theorem Grows.keeps_done {w w' : World elements} (h : Grows w w') {p : Address × Address}
    (hdone : w.Done p) : w'.Done p := by
  obtain ⟨e, e', he, htransient, he', hsame⟩ := hdone
  exact ⟨e, e', he, htransient, getElem?_of_prefix h.loaded he', hsame.imp fun _ _ => h.linked⟩

instance : Preorder (World elements) where
  le := Grows
  le_refl w := ⟨List.prefix_rfl, List.prefix_rfl, fun p hp hnot => absurd hp hnot⟩
  le_trans w₁ w₂ w₃ h₁₂ h₂₃ := by
    refine ⟨h₁₂.pairs.trans h₂₃.pairs, h₁₂.loaded.trans h₂₃.loaded, fun p hp hnot => ?_⟩
    by_cases hmem : p ∈ w₂.pairs
    · exact h₂₃.keeps_done (h₁₂.done p hmem hnot)
    · exact h₂₃.done p hp hmem

/-- The numbers of the elements that have been met are those of the serialisers. -/
def Agrees (w : World elements) (serialiser : ASTSerialiser) (state : LoadState) : Prop :=
  serialiser.m_addressMap = w.pairs.zipIdx.map (fun p => (p.1.1, p.2)) ∧
    state.serialiser.m_addressMapBack = w.pairs.zipIdx.map (fun p => (p.2, p.1.2)) ∧
    state.elements = w.loaded

variable {w : World elements} {serialiser : ASTSerialiser} {state : LoadState} {a a' : Address}

theorem Linked.lt_length (h : w.Linked a a') : a' < w.loaded.length := by
  obtain ⟨e, e', -, he', -⟩ := w.sameType _ h
  exact (List.getElem?_eq_some_iff.mp he').choose

/-- Only one element is loaded for an element, and only for one. -/
theorem linked_unique {b b' : Address} (ha : w.Linked a a') (hb : w.Linked b b') :
    a = b ↔ a' = b' := by
  constructor
  · rintro rfl
    exact congrArg Prod.snd (List.inj_on_of_nodup_map w.stored_nodup ha hb rfl)
  · rintro rfl
    exact congrArg Prod.fst (List.inj_on_of_nodup_map w.loaded_nodup ha hb rfl)

theorem Agrees.exists_of_lookup (h : w.Agrees serialiser state) {szIndex : ℕ}
    (hlookup : serialiser.m_addressMap.lookup a = some szIndex) :
    ∃ a', w.Linked a a' ∧ state.serialiser.m_addressMapBack.lookup szIndex = some a' := by
  obtain ⟨hmap, hback, -⟩ := h
  have hmem := mem_of_lookup hlookup
  rw [hmap, List.mem_map] at hmem
  obtain ⟨⟨⟨b, a'⟩, i⟩, hpair, heq⟩ := hmem
  obtain ⟨rfl, rfl⟩ := Prod.mk.inj heq
  have hget := List.mem_zipIdx_iff_getElem?.mp hpair
  refine ⟨a', List.mem_of_getElem? hget, ?_⟩
  rw [hback]
  refine lookup_of_mem (List.mem_map.mpr ⟨_, hpair, rfl⟩) fun b' hb' => ?_
  obtain ⟨⟨q, j⟩, hq, heq'⟩ := List.mem_map.mp hb'
  obtain ⟨rfl, rfl⟩ := Prod.mk.inj heq'
  have hget' := List.mem_zipIdx_iff_getElem?.mp hq
  rw [hget] at hget'
  rw [← Option.some.inj hget']

theorem Agrees.length_eq (h : w.Agrees serialiser state) :
    serialiser.m_addressMap.length = w.pairs.length := by
  rw [h.1, List.length_map, List.length_zipIdx]

theorem Agrees.not_linked (h : w.Agrees serialiser state)
    (hlookup : serialiser.m_addressMap.lookup a = none) (a' : Address) : ¬ w.Linked a a' := by
  intro hlinked
  obtain ⟨i, hi⟩ := List.getElem?_of_mem hlinked
  have hmem : (a, i) ∈ serialiser.m_addressMap := by
    rw [h.1]
    exact List.mem_map.mpr ⟨((a, a'), i), List.mem_zipIdx_iff_getElem?.mpr hi, rfl⟩
  exact absurd (List.lookup_eq_none_iff.mp hlookup _ hmem) (by simp)

theorem Agrees.lookup_length (h : w.Agrees serialiser state) :
    state.serialiser.m_addressMapBack.lookup serialiser.m_addressMap.length = none := by
  rw [h.length_eq, h.2.1, List.lookup_eq_none_iff]
  intro p hp
  obtain ⟨⟨q, j⟩, hq, rfl⟩ := List.mem_map.mp hp
  have hlt := (List.getElem?_eq_some_iff.mp (List.mem_zipIdx_iff_getElem?.mp hq)).choose
  simpa using hlt.ne'

/-- An element is met: another one of its class is created. -/
def insert (w : World elements) {a : Address} {e new : Element} (he : elements[a]? = some e)
    (htype : new.getType = e.getType) (hnew : ∀ a', ¬ w.Linked a a') : World elements where
  pairs := w.pairs ++ [(a, w.loaded.length)]
  loaded := w.loaded ++ [new]
  stored_nodup := by
    rw [List.map_append, List.nodup_append]
    refine ⟨w.stored_nodup, List.nodup_singleton _, fun b hb c hc hbc => ?_⟩
    obtain ⟨p, hp, rfl⟩ := List.mem_map.mp hb
    rw [List.map_singleton, List.mem_singleton] at hc
    have hfst : p.1 = a := hbc.trans hc
    exact hnew p.2 (hfst ▸ hp)
  loaded_nodup := by
    rw [List.map_append, List.nodup_append]
    refine ⟨w.loaded_nodup, List.nodup_singleton _, fun b hb c hc hbc => ?_⟩
    obtain ⟨p, hp, rfl⟩ := List.mem_map.mp hb
    rw [List.map_singleton, List.mem_singleton] at hc
    exact absurd (Linked.lt_length (a := p.1) hp) (by rw [hbc, hc]; exact lt_irrefl _)
  sameType p hp := by
    rcases List.mem_append.mp hp with hp | hp
    · obtain ⟨e₀, e', he₀, he', hsame⟩ := w.sameType p hp
      exact ⟨e₀, e', he₀, getElem?_of_prefix (List.prefix_append _ _) he', hsame⟩
    · rw [List.mem_singleton] at hp
      subst hp
      exact ⟨e, new, he, List.getElem?_concat_length, htype⟩

/-- A loaded element gets its fields. -/
def setElement (w : World elements) {a a' : Address} {e e' : Element} (hlinked : w.Linked a a')
    (he : elements[a]? = some e) (htype : e'.getType = e.getType) : World elements where
  pairs := w.pairs
  loaded := w.loaded.set a' e'
  stored_nodup := w.stored_nodup
  loaded_nodup := w.loaded_nodup
  sameType p hp := by
    by_cases hsnd : p.2 = a'
    · have hfst : p.1 = a := (linked_unique (b := a) hp hlinked).mpr hsnd
      refine ⟨e, e', hfst ▸ he, ?_, htype⟩
      rw [hsnd, List.getElem?_set_self hlinked.lt_length]
    · obtain ⟨e₀, e'', he₀, he'', hsame⟩ := w.sameType p hp
      exact ⟨e₀, e'', he₀, by rw [List.getElem?_set_ne (Ne.symm hsnd), he''], hsame⟩

@[simp] theorem loaded_setElement {e e' : Element} {hlinked : w.Linked a a'}
    {he : elements[a]? = some e} {htype : e'.getType = e.getType} :
    (w.setElement hlinked he htype).loaded = w.loaded.set a' e' := rfl

theorem linked_insert {e new : Element} {he : elements[a]? = some e}
    {htype : new.getType = e.getType} {hnew : ∀ a', ¬ w.Linked a a'} :
    (w.insert he htype hnew).Linked a w.loaded.length :=
  List.mem_append_right _ List.mem_cons_self

/-- From before an element is met to when its fields have been loaded. -/
theorem Grows.insert_setElement {e new e' : Element} {he : elements[a]? = some e}
    {htype : new.getType = e.getType} {hnew : ∀ a', ¬ w.Linked a a'} {w₁ : World elements}
    (h : w.insert he htype hnew ≤ w₁) {hlinked : w₁.Linked a w.loaded.length}
    {htype' : e'.getType = e.getType} (htransient : e.isTransient = false)
    (hsame : e.archived.Same w₁.Linked e') : w ≤ w₁.setElement hlinked he htype' := by
  have hloaded : w.loaded ++ [new] <+: w₁.loaded := h.loaded
  refine ⟨(List.prefix_append _ _).trans h.pairs, ?_, fun p hp hnot => ?_⟩
  · obtain ⟨rest, hrest⟩ := hloaded
    refine ⟨e' :: rest, ?_⟩
    rw [loaded_setElement, ← hrest, List.append_assoc, List.set_append_right _ _ le_rfl]
    simp
  · by_cases hsnd : p.2 = w.loaded.length
    · have hfst : p.1 = a := (linked_unique (w := w₁) (b := a) hp hlinked).mpr hsnd
      refine ⟨e, e', hfst ▸ he, htransient, ?_, hsame⟩
      rw [loaded_setElement, hsnd, List.getElem?_set_self hlinked.lt_length]
    · have hmem : p ∉ (w.insert he htype hnew).pairs := by
        intro hmem
        rcases List.mem_append.mp hmem with hmem | hmem
        · exact hnot hmem
        · exact hsnd (congrArg Prod.snd (List.mem_singleton.mp hmem))
      obtain ⟨e₀, e₀', he₀, htransient₀, he₀', hsame₀⟩ := h.done p hp hmem
      refine ⟨e₀, e₀', he₀, htransient₀, ?_, hsame₀⟩
      rw [loaded_setElement, List.getElem?_set_ne (Ne.symm hsnd), he₀']

theorem Agrees.insert (h : w.Agrees serialiser state) {e new : Element}
    (he : elements[a]? = some e) (htype : new.getType = e.getType) (hnew : ∀ a', ¬ w.Linked a a') :
    (w.insert he htype hnew).Agrees (serialiser.insert a serialiser.m_addressMap.length)
      (state.insert serialiser.m_addressMap.length new) := by
  rw [h.length_eq]
  obtain ⟨hmap, hback, hloaded⟩ := h
  refine ⟨?_, ?_, ?_⟩
  · rw [ASTSerialiser.insert, World.insert, List.zipIdx_append, List.map_append, hmap]
    simp
  · rw [LoadState.insert, ASTSerialiser.insert, World.insert, List.zipIdx_append, List.map_append, hback]
    simp [hloaded]
  · rw [LoadState.insert, World.insert, hloaded]

theorem Agrees.setElement (h : w.Agrees serialiser state) {e e' : Element} (hlinked : w.Linked a a')
    (he : elements[a]? = some e) (htype : e'.getType = e.getType) :
    (w.setElement hlinked he htype).Agrees serialiser (state.setElement a' e') :=
  ⟨h.1, h.2.1, congrArg (List.set · a' e') h.2.2⟩

end World
end World

end EgLang.Compiler.Archive
