import EgLang.Compiler.Derivations
import EgLang.Compiler.GenericTrees

/-!
# Walks along a type path

What an invocation is for: from an instance of its context, a walk moves to the elements of a type path,
from action to action and through the references that dimensions store, and ends at the instance that
the operation on its target needs. Beside it, what it is for an instruction to be well typed, and what the
steps of `commonRootDerivation` do.
-/

namespace EgLang.Compiler

open EgLang.Library

set_option autoImplicit false

namespace Invocation
variable {ι κ : Type}

/-! ## Types -/

/-- The element that an operation on a target is applied to an instance of. -/
def needed (session : Session ι κ) (type : OperationType) (target : κ) : Option κ :=
  match type with
  | .call => session.getParent target
  | .start => session.getParent target
  | .read => session.owner target
  | .write => session.owner target
  | .writeLink => session.owner target
  | .getDimension => session.owner target
  | .waitDimension => session.owner target
  | _ => some target

/-- The variables of an instruction have the types that it needs. -/
def WellTyped (session : Session ι κ) : Head (Option κ) (Option ι) → Prop
  | .parentDerivation pFrom pTo => ∃ e p, pFrom.concreteType = some e ∧
      session.getParent e = some p ∧ pTo.concreteType = some p
  | .childDerivation pFrom pTo => ∃ e d, pFrom.concreteType = some e ∧
      session.getParent d = some e ∧ session.getLocalDomainSize d = 1 ∧ pTo.concreteType = some d
  | .operation op => ∃ target e, op.concreteType = some target ∧
      needed session op.type target = some e ∧ op.pInstance.concreteType = some e
  | _ => True

/-- What else is true of the instructions that read references. -/
def Instructs [DecidableEq ι] [DecidableEq κ] (session : Session ι κ) :
    Head (Option κ) (Option ι) → Prop
  | .dimensionReferenceRead pInstance pReference pDimension => ∃ d o, pDimension = some d ∧
      session.owner d = some o ∧ pInstance.concreteType = some o ∧
      session.isEGType (some d) = true ∧ pReference.types =
        (session.getElementVector (session.getContextTypes (some d)) true).map ElementPair.second
  | .monoReference pFrom pInstance => pFrom.types = [pInstance.concreteType] ∧
      pInstance.concreteType ≠ none
  | .polyCase _ pTo => pTo.concreteType ≠ none
  | head => WellTyped session head

theorem Instructs.wellTyped [DecidableEq ι] [DecidableEq κ] {session : Session ι κ}
    {head : Head (Option κ) (Option ι)} (h : Instructs session head) : WellTyped session head := by
  cases head with
  | parentDerivation pFrom pTo => exact h
  | childDerivation pFrom pTo => exact h
  | operation op => exact h
  | _ => trivial

/-- The operations are no ranges, and the types that a reference is told apart by are different. -/
def Generic : Head (Option κ) (Option ι) → Prop
  | .operation op => ∀ rangeType, op.type ≠ .range rangeType
  | .polyReference pFrom => pFrom.types.Nodup
  | _ => True

variable {session : Session ι κ}

theorem operationOn_ne_range {operation : OperationID} {e : κ} {type : OperationType}
    {pTo : Option κ} (h : operationOn session operation e = .ok (type, pTo)) (rangeType : RangeType) :
    type ≠ .range rangeType := by
  rw [operationOn] at h
  cases hkind : session.kind e with
  | action context =>
    simp only [hkind] at h
    cases operation <;> cases h <;> simp
  | userDimension contextTypes =>
    simp only [hkind] at h
    cases operation with
    | id_Imp_Params =>
      cases h
      cases session.hasLinkGroup e <;> simp
    | _ => cases h <;> simp
  | generatedDimension =>
    simp only [hkind] at h
    cases h

/-- Where an operation derives a variable, it derives one of the element that it needs. -/
theorem needed_of_operationOn {operation : OperationID} {e : κ} {type : OperationType}
    {pTo : Option κ} (h : operationOn session operation e = .ok (type, pTo)) :
    needed session type e = pTo.bind session.owner := by
  rw [operationOn] at h
  cases hkind : session.kind e with
  | action context =>
    have haction : (session.kind e).isAction = true := by rw [hkind]; rfl
    have hself : session.owner e = some e := session.owner_of_action haction
    have hparent : session.getParent e = (session.getParent e).bind session.owner := by
      cases hp : session.getParent e with
      | none => rfl
      | some p => exact (session.owner_of_action (session.parent_isAction hp)).symm
    simp only [hkind] at h
    cases operation <;> cases h <;> first | exact hparent | exact hself.symm
  | userDimension contextTypes =>
    simp only [hkind] at h
    cases operation with
    | id_Imp_Params =>
      cases h
      cases session.hasLinkGroup e <;> rfl
    | _ => cases h <;> rfl
  | generatedDimension =>
    simp only [hkind] at h
    cases h

/-- The operations that need the parent of an action. -/
def appliesToParent : OperationID → Bool
  | .id_Imp_NoParams => true
  | .id_Imp_Params => true
  | .id_Start => true
  | _ => false

/-- An action that is no root has an element that an operation on it needs. -/
theorem operationOn_ne_none {operation : OperationID} {e : κ} {type : OperationType}
    {pTo : Option κ} (h : operationOn session operation e = .ok (type, pTo))
    (hroot : appliesToParent operation = true → e ≠ session.root) : ∃ e', pTo = some e' := by
  rw [operationOn] at h
  have hparent : appliesToParent operation = true → ∃ p, session.getParent e = some p := fun hp =>
    Option.ne_none_iff_exists'.mp fun hnone => hroot hp (session.only_root hnone)
  cases hkind : session.kind e with
  | action context =>
    simp only [hkind] at h
    cases operation <;> cases h <;> first | exact hparent rfl | exact ⟨e, rfl⟩
  | userDimension contextTypes =>
    simp only [hkind] at h
    cases operation <;> cases h <;> exact ⟨e, rfl⟩
  | generatedDimension =>
    simp only [hkind] at h
    cases h

/-- An action that an operation does not need the parent of is what it needs. -/
theorem operationOn_self {operation : OperationID} {e : κ} {type : OperationType} {pTo : Option κ}
    (he : (session.kind e).isAction = true) (hself : appliesToParent operation = false)
    (h : operationOn session operation e = .ok (type, pTo)) : pTo = some e := by
  rw [operationOn] at h
  cases hkind : session.kind e with
  | action context =>
    simp only [hkind] at h
    cases operation <;> cases h <;> first | rfl | cases hself
  | _ =>
    rw [hkind] at he
    cases he

/-! ## Walks -/

section Walk
variable [DecidableEq κ]

/-- An instance of an action and the one of another element that lies in the same instance of their
nearest common ancestor, and is the only one there. -/
def Reaches (session : Session ι κ) (a : κ) (x : Reference) (b : κ) (y : Reference) : Prop :=
  y.type = session.getIndex b ∧ y.timestamp = x.timestamp ∧
    ∃ r, session.tree.Moves session.getLocalDomainSize a x.inst b y.inst r

/-- From an instance of an action, a walk along a type path ends at a target, with the instance that the
operation on it needs. Stored references are followed between path elements, and by `done` also after the
last. -/
inductive Walk (session : Session ι κ) (operation : OperationID)
    (dereferenceDimension : Reference → ℤ → Reference) :
    List (List (ElementPair ι κ)) → κ → Reference → OperationType → κ → Reference → Prop
  | here {a b : κ} {x y : Reference} {type : OperationType} {pTo : Option κ}
      (htype : operationOn session operation a = .ok (type, pTo))
      (hneeded : needed session type a = some b) (hreaches : Reaches session a x b y) :
      Walk session operation dereferenceDimension [] a x type a y
  | target {pathElement : List (ElementPair ι κ)} {p : ElementPair ι κ} {a b e : κ} {x y : Reference}
      {type : OperationType} {pTo : Option κ} (hp : p ∈ pathElement) (he : p.second = some e)
      (htype : operationOn session operation e = .ok (type, pTo))
      (hneeded : needed session type e = some b) (hreaches : Reaches session a x b y) :
      Walk session operation dereferenceDimension [pathElement] a x type e y
  | action {pathElement : List (ElementPair ι κ)} {typePath : List (List (ElementPair ι κ))}
      {p : ElementPair ι κ} {a c e : κ} {x y z : Reference} {type : OperationType}
      (hp : p ∈ pathElement) (hc : p.second = some c) (haction : (session.kind c).isAction = true)
      (hpath : typePath ≠ []) (hreaches : Reaches session a x c y)
      (h : Walk session operation dereferenceDimension typePath c y type e z) :
      Walk session operation dereferenceDimension (pathElement :: typePath) a x type e z
  | dimension {pathElement : List (ElementPair ι κ)} {typePath : List (List (ElementPair ι κ))}
      {p : ElementPair ι κ} {a c d o e : κ} {x y z : Reference} {type : OperationType}
      (hp : p ∈ pathElement) (hd : p.second = some d) (howner : session.owner d = some o)
      (hdimension : session.isEGType (some d) = true)
      (hpath : typePath = [] → operation = .id_Done) (hreaches : Reaches session a x o y)
      (hc : session.getIndex c = (dereferenceDimension y (session.getIndex d)).type)
      (h : Walk session operation dereferenceDimension typePath c
        (dereferenceDimension y (session.getIndex d)) type e z) :
      Walk session operation dereferenceDimension (pathElement :: typePath) a x type e z

/-- A walk ends at no range. -/
theorem Walk.type_ne_range {operation : OperationID}
    {dereferenceDimension : Reference → ℤ → Reference} {typePath : List (List (ElementPair ι κ))}
    {a e : κ} {x y : Reference} {type : OperationType}
    (h : Walk session operation dereferenceDimension typePath a x type e y) (rangeType : RangeType) :
    type ≠ .range rangeType := by
  induction h with
  | here htype => exact operationOn_ne_range htype rangeType
  | target _ _ htype => exact operationOn_ne_range htype rangeType
  | action _ _ _ _ _ _ ih => exact ih
  | dimension _ _ _ _ _ _ _ _ ih => exact ih

theorem reaches_self {a : κ} {x : Reference} (hx : x.type = session.getIndex a) :
    Reaches session a x a x :=
  ⟨hx, rfl, a, session.tree.isNearest_self a, fun e he => by simp at he, rfl⟩

/-! ## Steps -/

/-- Some steps from an element come to another one, with the instance that a function gives, or end in a
failure. -/
inductive Passes (session : Session ι κ) : κ → List (Step κ) → Option κ → (ℕ → ℕ) → Prop
  | nil {e : κ} : Passes session e [] (some e) id
  | parent {e p : κ} {steps : List (Step κ)} {last : Option κ} {f : ℕ → ℕ}
      (hp : session.getParent e = some p) (h : Passes session p steps last f) :
      Passes session e (.parent (some p) :: steps) last (f ∘ (· / session.getLocalDomainSize e))
  | child {e d : κ} {steps : List (Step κ)} {last : Option κ} {f : ℕ → ℕ}
      (hd : session.getParent d = some e) (hsize : session.getLocalDomainSize d = 1)
      (h : Passes session d steps last f) : Passes session e (.child d :: steps) last f
  | failure {e : κ} {f : ℕ → ℕ} : Passes session e [.failure] none f

omit [DecidableEq κ] in
theorem Passes.append {e d : κ} {steps steps' : List (Step κ)} {last : Option κ} {f g : ℕ → ℕ}
    (h : Passes session e steps (some d) f) (h' : Passes session d steps' last g) :
    Passes session e (steps ++ steps') last (g ∘ f) := by
  generalize hmiddle : some d = middle at h
  induction h with
  | nil =>
    obtain rfl := Option.some.inj hmiddle
    exact h'
  | parent hp _ ih => exact .parent hp (ih hmiddle)
  | child hd hsize _ ih => exact .child hd hsize (ih hmiddle)
  | failure => cases hmiddle

/-- Up to an ancestor. -/
theorem passes_parentSteps {e r : κ} (hr : r ∈ session.tree.wayUp e) :
    Passes session e (Evaluation.parentSteps session (session.tree.below r e)) (some r)
      (climb session.getLocalDomainSize (session.tree.below r e)) := by
  induction e using session.tree.induction with
  | step e ih =>
    by_cases hself : e = r
    · subst hself
      rw [Hierarchy.below_self]
      exact .nil
    · cases hp : session.tree.parent e with
      | none => exact absurd ((session.tree.mem_wayUp_root hp).mp hr).symm hself
      | some p =>
        have hmem := ((session.tree.mem_wayUp_child hp).mp hr).resolve_left (Ne.symm hself)
        have hparent : session.getParent e = some p := hp
        rw [session.tree.below_child hself hp, Evaluation.parentSteps, List.map_cons, hparent]
        exact .parent hparent (ih p hp hmem)

/-- Each of some elements is the parent of the next. -/
def Descending (session : Session ι κ) : List κ → Prop :=
  List.IsChain fun e d => session.getParent d = some e

/-- The way down from an ancestor. -/
theorem descending_below {e r : κ} (hr : r ∈ session.tree.wayUp e) :
    Descending session (r :: (session.tree.below r e).reverse) := by
  induction e using session.tree.induction with
  | step e ih =>
    by_cases hself : e = r
    · subst hself
      rw [Hierarchy.below_self]
      exact List.isChain_singleton e
    · cases hp : session.tree.parent e with
      | none => exact absurd ((session.tree.mem_wayUp_root hp).mp hr).symm hself
      | some p =>
        have hmem := ((session.tree.mem_wayUp_child hp).mp hr).resolve_left (Ne.symm hself)
        have hlast := Evaluation.below_last hmem
        rw [session.tree.below_child hself hp, List.reverse_cons, ← List.cons_append]
        refine List.isChain_append.mpr ⟨ih p hp hmem, List.isChain_singleton e, ?_⟩
        intro d hd c hc
        rw [List.getLast?_cons, hlast] at hd
        obtain rfl := Option.some.inj hd
        obtain rfl := Option.some.inj hc
        exact hp

omit [DecidableEq κ] in
/-- Down to the last of some actions, or to a failure, where one of them has more instances. -/
theorem passes_childSteps {r : κ} {es : List κ} (hes : Descending session (r :: es))
    (hactions : ∀ e ∈ es, (session.kind e).isAction = true) {steps : List (Step κ)}
    (hsteps : childSteps session es = .ok steps) :
    ∃ last, Passes session r steps last id ∧ ∀ b, last = some b →
      b = es.getLast?.getD r ∧ ∀ e ∈ es, session.getLocalDomainSize e = 1 := by
  induction es generalizing r steps with
  | nil =>
    cases hsteps
    exact ⟨some r, .nil, fun b hb => ⟨(Option.some.inj hb).symm, by simp⟩⟩
  | cons d es ih =>
    obtain ⟨hparent, hes⟩ := List.isChain_cons_cons.mp hes
    rw [List.forall_mem_cons] at hactions
    rw [childSteps] at hsteps
    cases hkind : session.kind d with
    | action context =>
      simp only [hkind] at hsteps
      split at hsteps
      · cases hsteps
        exact ⟨none, .failure, fun b hb => by cases hb⟩
      · rename_i hsize
        cases hrest : childSteps session es with
        | error e =>
          rw [hrest] at hsteps
          cases hsteps
        | ok rest =>
          rw [hrest] at hsteps
          obtain rfl := Except.ok.inj hsteps
          obtain ⟨last, hpasses, hlast⟩ := ih hes hactions.2 hrest
          refine ⟨last, .child hparent (not_not.mp hsize) hpasses, fun b hb => ?_⟩
          obtain ⟨hb, hones⟩ := hlast b hb
          rw [List.getLast?_cons]
          exact ⟨hb, List.forall_mem_cons.mpr ⟨not_not.mp hsize, hones⟩⟩
    | _ =>
      rw [hkind] at hactions
      cases hactions.1

omit [DecidableEq κ] in
/-- For a dimension no step is made. -/
theorem childSteps_append_dimension {e : κ} (he : (session.kind e).isAction = false) {es : List κ}
    {steps : List (Step κ)} (h : childSteps session (es ++ [e]) = .ok steps) :
    childSteps session es = .ok steps := by
  induction es generalizing steps with
  | nil =>
    rw [List.nil_append, childSteps] at h
    cases hkind : session.kind e with
    | action context =>
      rw [hkind] at he
      cases he
    | userDimension contextTypes =>
      simp only [hkind] at h
      exact h
    | generatedDimension =>
      simp only [hkind] at h
      cases h
  | cons d es ih =>
    rw [List.cons_append, childSteps] at h
    rw [childSteps]
    cases hkind : session.kind d with
    | action context =>
      simp only [hkind] at h ⊢
      split at h
      · rename_i hsize
        rw [if_pos hsize]
        exact h
      · rename_i hsize
        rw [if_neg hsize]
        cases hrest : childSteps session (es ++ [e]) with
        | error e =>
          rw [hrest] at h
          cases h
        | ok rest =>
          rw [ih hrest]
          rw [hrest] at h
          exact h
    | userDimension contextTypes =>
      simp only [hkind] at h ⊢
      exact ih h
    | generatedDimension =>
      simp only [hkind] at h
      cases h

/-- **The steps between two elements**, the first of them an action: up to the nearest common ancestor,
and down to the action that has the second. -/
theorem passes_commonRootSteps {a e o : κ} (ha : (session.kind a).isAction = true)
    (ho : session.owner e = some o) {steps : List (Step κ)}
    (hsteps : commonRootSteps session (some a) (some e) = .ok steps) :
    ∃ common last, session.tree.IsNearest a o common ∧
      Passes session a steps last (climb session.getLocalDomainSize (session.tree.below common a)) ∧
      ∀ b, last = some b → b = o ∧
        ∀ d ∈ session.tree.below common o, session.getLocalDomainSize d = 1 := by
  obtain ⟨common, hnearest, heq⟩ := @Evaluation.commonRootSteps_eq _ _ session _ a e
  rw [heq] at hsteps
  cases hdown : childSteps session (session.tree.below common e).reverse with
  | error f =>
    rw [hdown] at hsteps
    cases hsteps
  | ok downs =>
    rw [hdown] at hsteps
    obtain rfl := Except.ok.inj hsteps
    have hups := passes_parentSteps hnearest.left
    have hcase : session.tree.IsNearest a o common ∧
        childSteps session (session.tree.below common o).reverse = .ok downs ∧
          (session.kind o).isAction = true := by
      cases he : (session.kind e).isAction with
      | true =>
        obtain rfl := Option.some.inj ((session.owner_of_action he).symm.trans ho)
        exact ⟨hnearest, hdown, he⟩
      | false =>
        -- the common ancestor is an action, and so it lies above the dimension
        have hp : session.tree.parent e = some o := (session.owner_of_dimension he).symm.trans ho
        have hne : e ≠ common := by
          rintro rfl
          rw [isAction_of_mem_wayUp ha hnearest.left] at he
          cases he
        have hmem := ((session.tree.mem_wayUp_child hp).mp hnearest.right).resolve_left hne.symm
        refine ⟨⟨hnearest.left, hmem, fun s hs hs' => hnearest.nearest s hs ?_⟩, ?_,
          session.parent_isAction hp⟩
        · exact (session.tree.mem_wayUp_child hp).mpr (.inr hs')
        · rw [session.tree.below_child hne hp, List.reverse_cons] at hdown
          exact childSteps_append_dimension he hdown
    obtain ⟨hnear, hdowns, hoaction⟩ := hcase
    obtain ⟨last, hpasses, hlast⟩ := passes_childSteps (descending_below hnear.right)
      (Evaluation.below_isAction hoaction) hdowns
    refine ⟨common, last, hnear, hups.append hpasses, fun b hb => ?_⟩
    obtain ⟨hb, hones⟩ := hlast b hb
    rw [Evaluation.below_last hnear.right] at hb
    exact ⟨hb, fun d hd => hones d (List.mem_reverse.mpr hd)⟩

/-- From a dimension to an action beside it: up to their parent, and down. -/
theorem passes_beside {a d o : κ} (ha : (session.kind a).isAction = true)
    (hd : (session.kind d).isAction = false) (hpa : session.getParent a = some o)
    (hpd : session.getParent d = some o) {steps : List (Step κ)}
    (hsteps : commonRootSteps session (some d) (some a) = .ok steps) :
    ∃ last f, Passes session a steps last f ∧ ∀ b, last = some b → b = a ∧ f = id := by
  obtain ⟨common, hnearest, heq⟩ := @Evaluation.commonRootSteps_eq _ _ session _ d a
  have hcommon : common = o := by
    have hne : d ≠ common := by
      rintro rfl
      rw [isAction_of_mem_wayUp ha hnearest.right] at hd
      cases hd
    have hup := ((session.tree.mem_wayUp_child hpd).mp hnearest.left).resolve_left hne.symm
    have hdown := hnearest.nearest o
      ((session.tree.mem_wayUp_child hpd).mpr (.inr (session.tree.mem_wayUp_self o)))
      ((session.tree.mem_wayUp_child hpa).mpr (.inr (session.tree.mem_wayUp_self o)))
    by_contra hne'
    cases hp : session.tree.parent common with
    | none => exact hne' ((session.tree.mem_wayUp_root hp).mp hdown).symm
    | some p =>
      have habove := ((session.tree.mem_wayUp_child hp).mp hdown).resolve_left (Ne.symm hne')
      have hle := session.tree.depth_le habove
      have hle' := session.tree.depth_le hup
      have hlt := session.tree.depth_parent hp
      omega
  subst hcommon
  have hself : session.tree.below common common = [] := session.tree.below_self common
  have hda : d ≠ common := fun h => by
    have := session.tree.depth_parent hpd
    rw [h] at this
    omega
  have haa : a ≠ common := fun h => by
    have := session.tree.depth_parent hpa
    rw [h] at this
    omega
  rw [heq, session.tree.below_child hda hpd, session.tree.below_child haa hpa, hself,
    List.reverse_singleton, childSteps] at hsteps
  cases hkind : session.kind a with
  | action context =>
    simp only [hkind, Evaluation.parentSteps, List.map_cons, List.map_nil, hpd] at hsteps
    split at hsteps
    · obtain rfl := Except.ok.inj hsteps
      exact ⟨none, _, .parent hpa (.failure (f := id)), fun b hb => by cases hb⟩
    · rename_i hsize
      obtain rfl := Except.ok.inj hsteps
      refine ⟨some a, _, .parent hpa (.child hpa (not_not.mp hsize) .nil), fun b hb => ?_⟩
      refine ⟨(Option.some.inj hb).symm, funext fun i => ?_⟩
      show i / session.getLocalDomainSize a = i
      rw [not_not.mp hsize, Nat.div_one]
  | _ =>
    rw [hkind] at ha
    cases ha

end Walk
end Invocation
end EgLang.Compiler
