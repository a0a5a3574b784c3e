import EgLang.Compiler.ResolvedNames
import EgLang.Compiler.Walks

/-!
# Names in step

The builders pass the element before a name, the name and a variable separately. Where the three stay in
step, the tree of an invocation is a well typed route, each run of which takes a walk along the type path.
-/

namespace EgLang.Compiler

open EgLang.Library NameResolution

set_option autoImplicit false

namespace Invocation
variable {ι κ : Type}

/-! ## Names -/

section Names
variable [DecidableEq κ]

/-- What is built for a name, after an element, begins with a failure. -/
inductive FailsFirst (session : Session ι κ) (operation : OperationID) :
    Option κ → NameTree ℕ ι κ → Prop
  | leaf {prev pTo : Option κ} {a : ℕ × Mark ι κ} {e : κ} {type : OperationType}
      {rest : List (Step κ)} (he : a.2.element.second = some e)
      (htype : operationOn session operation e = .ok (type, pTo))
      (hsteps : commonRootSteps session prev pTo = .ok (.failure :: rest)) :
      FailsFirst session operation prev (.node a [])
  | node {prev : Option κ} {a : ℕ × Mark ι κ} {ts : List (NameTree ℕ ι κ)} {rest : List (Step κ)}
      (hts : ts ≠ [])
      (hsteps : commonRootSteps session prev a.2.element.second = .ok (.failure :: rest)) :
      FailsFirst session operation prev (.node a ts)
  | through {prev : Option κ} {a : ℕ × Mark ι κ} {c : NameTree ℕ ι κ}
      (hreference : a.2.isReference = false)
      (hsteps : commonRootSteps session prev a.2.element.second = .ok [])
      (h : FailsFirst session operation a.2.element.second c) :
      FailsFirst session operation prev (.node a [c])

/-- The names below a name stay in step: a last one that a dimension refers to has the parent of the
dimension, a root is not called or started, and no alternative begins with a failure. -/
inductive InStep (session : Session ι κ) (operation : OperationID) : NameTree ℕ ι κ → Prop
  | node {a : ℕ × Mark ι κ} {ts : List (NameTree ℕ ι κ)}
      (hreferent : a.2.isReference = true → ∀ c ∈ ts, c.children = [] →
        c.label.2.element.second.bind session.getParent = a.2.element.second.bind session.getParent)
      (htarget : appliesToParent operation = true → ts = [] → a.2.element.second ≠ some session.root)
      (hgroup : a.2.isReference = false → 1 < ts.length →
        ∀ c ∈ ts, ¬ FailsFirst session operation a.2.element.second c)
      (hts : ∀ t ∈ ts, InStep session operation t) : InStep session operation (.node a ts)

/-- The names of an invocation stay in step, and a context is not itself called or started. -/
def InStepAt (session : Session ι κ) (operation : OperationID) (nodes : Nodes ι κ) : Prop :=
  ∃ t, StandsIn nodes t ∧ t.index = 0 ∧ ∀ c ∈ t.children,
    InStep session operation c ∧ (appliesToParent operation = true → c.children ≠ [])

end Names

/-! ## Derivations -/

section Derived
variable [DecidableEq ι] [DecidableEq κ] {session : Session ι κ}

/-- What a run reads of a session. -/
def reading (session : Session ι κ) (dereferenceDimension : Reference → ℤ → Reference) :
    Reading (Option κ) where
  size e := (e.map session.getLocalDomainSize).getD 1
  index e := (e.map session.getIndex).getD 0
  content d x := (d.map fun d => dereferenceDimension x (session.getIndex d)).getD x

/-- The instructions of a derivation, from a variable of an element. -/
structure Derives (session : Session ι κ) (e : κ) (v : Variable κ)
    (heads : List (Head (Option κ) (Option ι))) (w : Variable κ) (last : Option κ) (f : ℕ → ℕ) :
    Prop where
  type : ∀ b, last = some b → w.concreteType = some b
  route : ∀ {t : Tree ι κ}, (∀ b, last = some b → Route (Instructs session) True (.inst w) t) →
    Route (Instructs session) True (.inst v) (.nest heads t)
  run : ∀ {dereferenceDimension : Reference → ℤ → Reference} {t : Tree ι κ} {x y : Reference}
    {op : Operation (Option κ) (Option ι)}, x.type = session.getIndex e →
    Run (reading session dereferenceDimension) (.nest heads t) x op y → ∃ b, last = some b ∧
      Run (reading session dereferenceDimension) t ⟨f x.inst, session.getIndex b, x.timestamp⟩ op y

theorem Passes.derives {e : κ} {steps : List (Step κ)} {last : Option κ} {f : ℕ → ℕ}
    (h : Passes session e steps last f) {v w : Variable κ} {n m : ℕ}
    {heads : List (Head (Option κ) (Option ι))} (hv : v.concreteType = some e)
    (hderive : derive steps v n = (heads, w, m)) : Derives session e v heads w last f := by
  induction h generalizing v n heads with
  | @nil e =>
    cases hderive
    refine ⟨fun b hb => hv.trans hb, fun h => h e rfl, fun {_ _ x _ _} hx hrun => ⟨e, rfl, ?_⟩⟩
    rw [id_eq, ← hx]
    exact hrun
  | @parent e p steps last f hp h ih =>
    obtain ⟨rest, hrest⟩ : ∃ rest, derive (ι := ι) steps ⟨n, some p⟩ (n + 1) = rest := ⟨_, rfl⟩
    obtain ⟨heads', w', m'⟩ := rest
    rw [derive, hrest] at hderive
    cases hderive
    obtain ⟨htype, hroute, hrun⟩ := ih rfl hrest
    refine ⟨htype, fun h => .parentDerivation ⟨e, p, hv, hp, rfl⟩ (hroute h),
      fun {_ _ x _ _} hx h => ?_⟩
    cases h with
    | parentDerivation h =>
      simp only [reading, hv, Option.map_some, Option.getD_some] at h
      exact hrun rfl h
  | @child e d steps last f hd hsize h ih =>
    obtain ⟨rest, hrest⟩ : ∃ rest, derive (ι := ι) steps ⟨n, some d⟩ (n + 1) = rest := ⟨_, rfl⟩
    obtain ⟨heads', w', m'⟩ := rest
    rw [derive, hrest] at hderive
    cases hderive
    obtain ⟨htype, hroute, hrun⟩ := ih rfl hrest
    refine ⟨htype, fun h => .childDerivation ⟨e, d, hv, hd, hsize, rfl⟩ (hroute h),
      fun {_ _ x _ _} hx h => ?_⟩
    cases h with
    | @childDerivation _ _ _ _ y op h =>
      have hnext := hrun (x := ⟨x.inst, session.getIndex d, x.timestamp⟩) rfl h
      exact hnext
  | failure =>
    cases hderive
    refine ⟨fun b hb => (by cases hb), fun _ => .failure trivial, fun _ h => ?_⟩
    cases h

/-- **From an action to another element**, a derivation comes to the action that has it. -/
theorem exists_derives {a e o : κ} (ha : (session.kind a).isAction = true)
    (ho : session.owner e = some o) {v w : Variable κ} {n m : ℕ}
    {heads : List (Head (Option κ) (Option ι))} (hv : v.concreteType = some a)
    (hderive : commonRootDerivation session (some a) (some e) v n = .ok (heads, w, m)) :
    ∃ last f, Derives session a v heads w last f ∧ ∀ b, last = some b → b = o ∧
      ∀ x, Reaches session a x b ⟨f x.inst, session.getIndex b, x.timestamp⟩ := by
  rw [commonRootDerivation] at hderive
  cases hsteps : commonRootSteps session (some a) (some e) with
  | error f =>
    rw [hsteps] at hderive
    cases hderive
  | ok steps =>
    rw [hsteps] at hderive
    obtain ⟨common, last, hnearest, hpasses, hlast⟩ := passes_commonRootSteps ha ho hsteps
    refine ⟨last, _, hpasses.derives hv (Except.ok.inj hderive), fun b hb => ?_⟩
    obtain ⟨rfl, hones⟩ := hlast b hb
    exact ⟨rfl, fun x => ⟨rfl, rfl, common, hnearest, hones, (climb_of_one _ hones _).symm⟩⟩

/-! ## Failures -/

omit [DecidableEq ι] [DecidableEq κ] in
/-- A derivation begins with a failure, or it has no instruction. -/
theorem head_nest_derive {steps : List (Step κ)} {v w : Variable κ} {n m : ℕ}
    {heads : List (Head (Option κ) (Option ι))} (hderive : derive steps v n = (heads, w, m))
    {t : Tree ι κ} (h : (Instruction.nest heads t).head = .failure) :
    (∃ rest, steps = .failure :: rest) ∨ (steps = [] ∧ t.head = .failure) := by
  cases steps with
  | nil =>
    cases hderive
    exact .inr ⟨rfl, h⟩
  | cons step steps =>
    cases step with
    | parent pParent =>
      obtain rfl := (Prod.mk.inj hderive).1
      cases h
    | child pAction =>
      obtain rfl := (Prod.mk.inj hderive).1
      cases h
    | failure => exact .inl ⟨steps, rfl⟩

omit [DecidableEq ι] in
theorem head_nest_commonRoot {prev pTo : Option κ} {v w : Variable κ} {n m : ℕ}
    {heads : List (Head (Option κ) (Option ι))}
    (hderive : commonRootDerivation session prev pTo v n = .ok (heads, w, m)) {t : Tree ι κ}
    (h : (Instruction.nest heads t).head = .failure) :
    (∃ rest, commonRootSteps session prev pTo = .ok (.failure :: rest)) ∨
      (commonRootSteps session prev pTo = .ok [] ∧ t.head = .failure) := by
  rw [commonRootDerivation] at hderive
  cases hsteps : commonRootSteps session prev pTo with
  | error f =>
    rw [hsteps] at hderive
    cases hderive
  | ok steps =>
    rw [hsteps] at hderive
    rcases head_nest_derive (Except.ok.inj hderive) h with ⟨rest, rfl⟩ | ⟨rfl, ht⟩
    · exact .inl ⟨rest, rfl⟩
    · exact .inr ⟨rfl, ht⟩

variable {operation : OperationID}

omit [DecidableEq ι] in
/-- What has been built begins with a failure where the name does. -/
theorem GenericTree.failsFirst {stage : Stage} {prev : Option κ} {t : NameTree ℕ ι κ} {v : Variable κ}
    {u : Tree ι κ} (h : GenericTree session operation stage prev t v u)
    (hu : u.head = .failure) :
    (stage = .member → FailsFirst session operation prev t) ∧
      (stage = .below → ∃ a c, t = .node a [c] ∧
        FailsFirst session operation a.2.element.second c) := by
  induction h with
  | @operation stage prev pTo a e type v w n m heads hstage he htype hderive =>
    refine ⟨fun _ => ?_, fun hbelow => absurd hbelow hstage⟩
    rcases head_nest_commonRoot hderive hu with ⟨rest, hsteps⟩ | ⟨-, hop⟩
    · exact .leaf he htype hsteps
    · cases hop
  | referent _ _ => exact ⟨fun h => (by cases h), fun h => (by cases h)⟩
  | @member prev a ts v w n m heads t hreference hderive h ih =>
    refine ⟨fun _ => ?_, fun h => (by cases h)⟩
    have hts : ts ≠ [] := by
      rintro rfl
      generalize hleaf : (RoseTree.node a [] : NameTree ℕ ι κ) = leaf at h
      cases h with
      | operation hstage => exact hstage rfl
      | single h => cases hleaf
      | @group a' v' alternatives hlength h =>
        have hnil : alternatives.map Prod.fst = [] := (RoseTree.node.inj hleaf).2.symm
        rw [List.map_eq_nil_iff.mp hnil] at hlength
        simp at hlength
    rcases head_nest_commonRoot hderive hu with ⟨rest, hsteps⟩ | ⟨hsteps, ht⟩
    · exact .node hts hsteps
    · obtain ⟨a', c, heq, hfails⟩ := (ih ht).2 rfl
      obtain ⟨rfl, rfl⟩ := RoseTree.node.inj heq
      exact .through hreference hsteps hfails
  | @mono prev a c v w n m i heads t hreference hderive h ih =>
    refine ⟨fun _ => ?_, fun h => (by cases h)⟩
    rcases head_nest_commonRoot hderive hu with ⟨rest, hsteps⟩ | ⟨-, hread⟩
    · exact .node (List.cons_ne_nil _ _) hsteps
    · cases hread
  | @poly prev a v w n m heads cases hreference hderive hlength hvariable h ih =>
    refine ⟨fun _ => ?_, fun h => (by cases h)⟩
    rcases head_nest_commonRoot hderive hu with ⟨rest, hsteps⟩ | ⟨-, hread⟩
    · refine .node (fun hnil => ?_) hsteps
      rw [List.map_eq_nil_iff.mp hnil] at hlength
      simp at hlength
    · cases hread
  | @single a c v t h ih =>
    exact ⟨fun h => (by cases h), fun _ => ⟨a, c, rfl, (ih hu).1 rfl⟩⟩
  | group _ _ _ => cases hu

end Derived
end Invocation
end EgLang.Compiler
