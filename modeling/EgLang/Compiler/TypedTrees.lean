import EgLang.Compiler.InStep

/-!
# Typed trees

The tree that is built for names that stay in step is a well typed route, and its runs are walks.
-/

namespace EgLang.Compiler

open EgLang.Library NameResolution

set_option autoImplicit false

namespace Invocation
variable {ι κ : Type} [DecidableEq ι] [DecidableEq κ] {session : Session ι κ} {operation : OperationID}

/-- The element that a variable is at when a name is come to. A last name that a dimension refers to is
beside the dimension; a last context is not called or started. -/
def At (session : Session ι κ) (operation : OperationID) (prev : Option κ) (t : NameTree ℕ ι κ)
    (a : κ) : Stage → Prop
  | .member => prev = some a
  | .below => t.label.2.element.second = some a
  | .referent => t.label.2.element.second = some a ∧ (t.children = [] →
      prev = none ∧ appliesToParent operation = false ∨
        operation = .id_Done ∧ ∃ d o, prev = some d ∧ (session.kind d).isAction = false ∧
          session.getParent d = some o ∧ session.getParent a = some o)

/-- The walks on from a name: a member is itself in the next path element. -/
def WalksFrom (session : Session ι κ) (operation : OperationID)
    (dereferenceDimension : Reference → ℤ → Reference) (typePath : List (List (ElementPair ι κ)))
    (t : NameTree ℕ ι κ) (a : κ) (x : Reference) (type : OperationType) (e : κ) (y : Reference) :
    Stage → Prop
  | .member => ∀ pathElement, t.label.2.element ∈ pathElement →
      Walk session operation dereferenceDimension (pathElement :: typePath) a x type e y
  | _ => Walk session operation dereferenceDimension typePath a x type e y

/-- A tree from a variable of an action is a well typed route, the runs of which are walks. -/
structure Sound (session : Session ι κ) (operation : OperationID) (stage : Stage)
    (typePath : List (List (ElementPair ι κ))) (t : NameTree ℕ ι κ) (a : κ) (v : Variable κ)
    (u : Tree ι κ) : Prop where
  route : Route (Instructs session) True (.inst v) u
  walks : ∀ {dereferenceDimension : Reference → ℤ → Reference} {x y : Reference}
    {op : Operation (Option κ) (Option ι)}, x.type = session.getIndex a →
    Run (reading session dereferenceDimension) u x op y → ∃ e, op.concreteType = some e ∧
      WalksFrom session operation dereferenceDimension typePath t a x op.type e y stage

/-! ## Operations -/

/-- The operation on a member. -/
theorem sound_target {a : κ} (ha : (session.kind a).isAction = true) {b : ℕ × Mark ι κ} {e : κ}
    {type : OperationType} {pTo : Option κ} {v w : Variable κ} {n m : ℕ}
    {heads : List (Head (Option κ) (Option ι))} (hv : v.concreteType = some a)
    (he : b.2.element.second = some e)
    (hroot : appliesToParent operation = true → e ≠ session.root)
    (htype : operationOn session operation e = .ok (type, pTo))
    (hderive : commonRootDerivation session (some a) pTo v n = .ok (heads, w, m)) (first : Option ι) :
    Sound session operation .member [] (.node b []) a v
      (.nest heads (.node (.operation ⟨m, type, w, first, some e⟩) [])) := by
  obtain ⟨e', rfl⟩ := operationOn_ne_none htype hroot
  obtain ⟨o, ho, -⟩ := session.exists_owner e'
  have hneeded : needed session type e = some o := (needed_of_operationOn htype).trans ho
  obtain ⟨last, f, hderives, hlast⟩ := exists_derives ha ho hv hderive
  refine ⟨hderives.route fun b hb => ?_, fun {_ x y op} hx hrun => ?_⟩
  · obtain ⟨rfl, -⟩ := hlast b hb
    exact .operation rfl ⟨e, b, rfl, hneeded, hderives.type b hb⟩
  · obtain ⟨b, hb, hrun⟩ := hderives.run hx hrun
    obtain ⟨rfl, hreaches⟩ := hlast b hb
    cases hrun
    exact ⟨e, rfl, fun pathElement hmem => .target hmem he htype hneeded (hreaches x)⟩

/-- The operation on a context itself. -/
theorem sound_context {a : κ} (ha : (session.kind a).isAction = true) {b : ℕ × Mark ι κ}
    {type : OperationType} {pTo : Option κ} {v w : Variable κ} {n m : ℕ}
    {heads : List (Head (Option κ) (Option ι))} (hv : v.concreteType = some a)
    (hself : appliesToParent operation = false)
    (htype : operationOn session operation a = .ok (type, pTo))
    (hderive : commonRootDerivation session none pTo v n = .ok (heads, w, m)) (first : Option ι) :
    Sound session operation .referent [] (.node b []) a v
      (.nest heads (.node (.operation ⟨m, type, w, first, some a⟩) [])) := by
  obtain rfl := operationOn_self ha hself htype
  have hneeded : needed session type a = some a :=
    (needed_of_operationOn htype).trans (session.owner_of_action ha)
  have hnone : commonRootDerivation (ι := ι) session none (some a) v n = .ok ([], v, n) := by
    rw [commonRootDerivation, commonRootSteps, if_neg (by simp)]
    rfl
  rw [hnone] at hderive
  obtain ⟨rfl, hrest⟩ := Prod.mk.inj (Except.ok.inj hderive)
  obtain ⟨rfl, rfl⟩ := Prod.mk.inj hrest
  refine ⟨.operation rfl ⟨a, a, rfl, hneeded, hv⟩, fun {_ x y op} hx hrun => ?_⟩
  cases hrun
  exact ⟨a, rfl, .here htype hneeded (reaches_self hx)⟩

/-- `done` on what a last dimension refers to. -/
theorem sound_done {a d o : κ} (ha : (session.kind a).isAction = true)
    (hd : (session.kind d).isAction = false) (hpd : session.getParent d = some o)
    (hpa : session.getParent a = some o) {b : ℕ × Mark ι κ} {type : OperationType} {pTo : Option κ}
    {v w : Variable κ} {n m : ℕ} {heads : List (Head (Option κ) (Option ι))}
    (hv : v.concreteType = some a) (hdone : operation = .id_Done)
    (htype : operationOn session operation a = .ok (type, pTo))
    (hderive : commonRootDerivation session (some d) pTo v n = .ok (heads, w, m)) (first : Option ι) :
    Sound session operation .referent [] (.node b []) a v
      (.nest heads (.node (.operation ⟨m, type, w, first, some a⟩) [])) := by
  have hself : appliesToParent operation = false := by rw [hdone]; rfl
  obtain rfl := operationOn_self ha hself htype
  have hneeded : needed session type a = some a :=
    (needed_of_operationOn htype).trans (session.owner_of_action ha)
  rw [commonRootDerivation] at hderive
  cases hsteps : commonRootSteps session (some d) (some a) with
  | error f =>
    rw [hsteps] at hderive
    cases hderive
  | ok steps =>
    rw [hsteps] at hderive
    obtain ⟨last, f, hpasses, hlast⟩ := passes_beside ha hd hpa hpd hsteps
    have hderives := hpasses.derives hv (Except.ok.inj hderive)
    refine ⟨hderives.route fun b hb => ?_, fun {_ x y op} hx hrun => ?_⟩
    · obtain ⟨rfl, -⟩ := hlast b hb
      exact .operation rfl ⟨b, b, rfl, hneeded, hderives.type b hb⟩
    · obtain ⟨b, hb, hrun⟩ := hderives.run hx hrun
      obtain ⟨rfl, rfl⟩ := hlast b hb
      rw [id_eq, ← hx] at hrun
      cases hrun
      exact ⟨b, rfl, .here htype hneeded (reaches_self hx)⟩

/-! ## References -/

/-- A dimension is read from the action that has it. -/
theorem sound_read {a d o : κ} (ha : (session.kind a).isAction = true)
    (ho : session.owner d = some o) (hdimension : session.isEGType (some d) = true)
    {typePath : List (List (ElementPair ι κ))} (hpath : typePath = [] → operation = .id_Done)
    {b : ℕ × Mark ι κ} {ts : List (NameTree ℕ ι κ)} (hsecond : b.2.element.second = some d)
    {v w : Variable κ} {n m : ℕ} {heads : List (Head (Option κ) (Option ι))}
    (hv : v.concreteType = some a)
    (hderive : commonRootDerivation session (some a) (some d) v n = .ok (heads, w, m))
    {r : ReferenceVariable (Option κ)} (htypes : r.types =
      (session.getElementVector (session.getContextTypes (some d)) true).map ElementPair.second)
    {u : Tree ι κ} (hroute : Route (Instructs session) True (.ref r) u)
    (hwalks : ∀ {dereferenceDimension : Reference → ℤ → Reference} {x y : Reference}
      {op : Operation (Option κ) (Option ι)}, Run (reading session dereferenceDimension) u x op y →
        ∃ c e, session.getIndex c = x.type ∧ op.concreteType = some e ∧
          Walk session operation dereferenceDimension typePath c x op.type e y) :
    Sound session operation .member typePath (.node b ts) a v
      (.nest heads (.node (.dimensionReferenceRead w r (some d)) [u])) := by
  obtain ⟨last, f, hderives, hlast⟩ := exists_derives ha ho hv hderive
  refine ⟨hderives.route fun b hb => ?_, fun {_ x y op} hx hrun => ?_⟩
  · obtain ⟨rfl, -⟩ := hlast b hb
    exact .read ⟨d, b, rfl, ho, hderives.type b hb, hdimension, htypes⟩ hroute
  · obtain ⟨b, hb, hrun⟩ := hderives.run hx hrun
    obtain ⟨rfl, hreaches⟩ := hlast b hb
    cases hrun with
    | read hrun =>
      obtain ⟨c, e, hc, he, hwalk⟩ := hwalks hrun
      exact ⟨e, he, fun pathElement hmem =>
        .dimension hmem hsecond ho hdimension hpath (hreaches x) hc hwalk⟩

/-! ## Trees -/

omit [DecidableEq ι] [DecidableEq κ] in
theorem asAction_of_isAction {e : Option κ} (h : session.isAction e = true) :
    asAction session e = e := by
  cases e with
  | none => cases h
  | some a => exact Option.filter_some_pos h

omit [DecidableEq ι] [DecidableEq κ] in
theorem exists_action {e : Option κ} (h : session.isAction e = true) :
    ∃ a, e = some a ∧ (session.kind a).isAction = true := by
  cases e with
  | none => cases h
  | some a => exact ⟨a, rfl, h⟩

omit [DecidableEq ι] [DecidableEq κ] in
/-- A reference dimension is no action, and so it lies in one. -/
theorem exists_dimension {e : Option κ} (h : session.isEGType e = true) :
    ∃ d o, e = some d ∧ (session.kind d).isAction = false ∧ session.owner d = some o ∧
      session.getParent d = some o := by
  cases e with
  | none => simp [DerivationAnalysis.isEGType, DerivationAnalysis.getContextTypes] at h
  | some d =>
    have hd : (session.kind d).isAction = false := by
      cases hk : (session.kind d).isAction with
      | false => rfl
      | true =>
        have hnone := session.isEGType_of_isAction (e := some d) hk
        rw [hnone] at h
        cases h
    obtain ⟨o, ho, -⟩ := session.exists_owner d
    exact ⟨d, o, rfl, hd, ho, (session.owner_of_dimension hd).symm.trans ho⟩

/-- What a dimension refers to is an action. -/
theorem referent_isAction {bExpandFinalReferences : Bool} {b : ℕ × Mark ι κ}
    {ts : List (NameTree ℕ ι κ)} (hreference : b.2.isReference = true)
    {typePath : List (List (ElementPair ι κ))}
    (hfollows : Follows session.toDerivationAnalysis bExpandFinalReferences typePath (.node b ts))
    {c : NameTree ℕ ι κ} (hc : c ∈ ts) : session.isAction c.label.2.element.second = true := by
  obtain ⟨-, helements, -⟩ := hfollows.of_reference (List.ne_nil_of_mem hc) hreference
  refine session.isAction_of_reference (e := b.2.element.second) ?_
  rw [← helements]
  exact List.mem_map_of_mem hc

/-- What a dimension refers to at the end of the path is beside the dimension. -/
theorem exists_referent {b : ℕ × Mark ι κ} {ts : List (NameTree ℕ ι κ)}
    (hstep : InStep session operation (.node b ts)) (hreference : b.2.isReference = true)
    {typePath : List (List (ElementPair ι κ))}
    (hfollows : Follows session.toDerivationAnalysis (decide (operation = .id_Done)) typePath
      (.node b ts)) {c : NameTree ℕ ι κ} (hc : c ∈ ts) :
    ∃ k, c.label.2.element.second = some k ∧ (session.kind k).isAction = true ∧
      asAction session c.label.2.element.second = some k ∧
      At session operation b.2.element.second c k .referent := by
  obtain ⟨hdimension, -, hpath, hbelow⟩ :=
    hfollows.of_reference (List.ne_nil_of_mem hc) hreference
  have haction := referent_isAction hreference hfollows hc
  obtain ⟨k, hk, hkaction⟩ := exists_action haction
  refine ⟨k, hk, hkaction, (asAction_of_isAction haction).trans hk, hk, fun hleaf => .inr ?_⟩
  obtain ⟨d, o, hd, hkind, -, hparent⟩ := exists_dimension hdimension
  have hnil : typePath = [] := by
    have hfollow := hbelow c hc
    cases c with
    | node label ts => exact hfollow.of_leaf hleaf
  cases hstep with
  | node hreferent htarget hgroup hts =>
    have heq := hreferent hreference c hc hleaf
    rw [hk, hd] at heq
    exact ⟨of_decide_eq_true (hpath hnil), d, o, hd, hkind, hparent, heq.trans hparent⟩

omit [DecidableEq ι] in
/-- A tree below a name has names below it. -/
theorem GenericTree.children_ne_nil {b : ℕ × Mark ι κ} {ts : List (NameTree ℕ ι κ)} {v : Variable κ}
    {u : Tree ι κ} (h : GenericTree session operation .below none (.node b ts) v u) : ts ≠ [] := by
  generalize ht : (RoseTree.node b ts : NameTree ℕ ι κ) = t at h
  rintro rfl
  cases h with
  | operation hstage => exact hstage rfl
  | single => cases ht
  | @group b' v' alternatives hlength =>
    have hnil : alternatives.map Prod.fst = [] := (RoseTree.node.inj ht).2.symm
    rw [List.map_eq_nil_iff.mp hnil] at hlength
    simp at hlength

omit [DecidableEq ι] [DecidableEq κ] in
/-- The cases of a reference. -/
theorem route_cases {ok : Head (Option κ) (Option ι) → Prop} {strict : Prop}
    {cases : List (NameTree ℕ ι κ × Variable κ × Tree ι κ)} {r : ReferenceVariable (Option κ)}
    (hok : ok (.polyReference r)) (htypes : cases.map (fun c => c.2.1.concreteType) = r.types)
    (h : ∀ c ∈ cases, ok (.polyCase r c.2.1) ∧ Route ok strict (.inst c.2.1) c.2.2) :
    Route ok strict (.ref r)
      (.node (.polyReference r) (cases.map fun c => .node (.polyCase r c.2.1) [c.2.2])) := by
  have hpairs : (cases.map fun c => Instruction.node (.polyCase r c.2.1) [c.2.2]) =
      (cases.map Prod.snd).map fun c => .node (.polyCase r c.1) [c.2] := by
    rw [List.map_map]
    rfl
  rw [hpairs]
  refine .polyReference hok ?_ (fun p hp => ?_) fun p hp => ?_
  · rw [← htypes, List.map_map]
    rfl
  · obtain ⟨c, hc, rfl⟩ := List.mem_map.mp hp
    exact (h c hc).1
  · obtain ⟨c, hc, rfl⟩ := List.mem_map.mp hp
    exact (h c hc).2

/-- **The tree of names that stay in step** is a well typed route, the runs of which are walks along the
type path. -/
theorem GenericTree.sound {stage : Stage} {prev : Option κ} {t : NameTree ℕ ι κ} {v : Variable κ}
    {u : Tree ι κ} (h : GenericTree session operation stage prev t v u)
    {typePath : List (List (ElementPair ι κ))}
    (hfollows : Follows session.toDerivationAnalysis (decide (operation = .id_Done)) typePath t)
    (hstep : InStep session operation t) {a : κ} (ha : (session.kind a).isAction = true)
    (hv : v.concreteType = some a) (hat : At session operation prev t a stage) :
    Sound session operation stage typePath t a v u := by
  induction h generalizing typePath a with
  | @operation stage prev pTo b e type v w n m heads hstage he htype hderive =>
    obtain rfl := hfollows.of_leaf rfl
    cases stage with
    | below => exact absurd rfl hstage
    | member =>
      obtain rfl : prev = some a := hat
      refine sound_target ha hv he (fun hp heq => ?_) htype hderive _
      cases hstep with
      | node hreferent htarget hgroup hts => exact htarget hp rfl (he.trans (congrArg some heq))
    | referent =>
      obtain ⟨hsecond, hlast⟩ := hat
      obtain rfl : e = a := Option.some.inj (he.symm.trans hsecond)
      rcases hlast rfl with ⟨rfl, hself⟩ | ⟨hdone, d, o, rfl, hd, hpd, hpa⟩
      · exact sound_context ha hv hself htype hderive _
      · exact sound_done ha hd hpd hpa hv hdone htype hderive _
  | referent h ih =>
    obtain ⟨hroute, hwalks⟩ := ih hfollows hstep ha hv hat.1
    exact ⟨hroute, hwalks⟩
  | @member prev b ts v w n m heads u hreference hderive h ih =>
    obtain rfl : prev = some a := hat
    obtain ⟨pathElement, typePath, rfl, haction, -⟩ :=
      hfollows.of_member h.children_ne_nil hreference
    obtain ⟨c, hc, hcaction⟩ := exists_action haction
    rw [hc] at hderive
    obtain ⟨last, f, hderives, hlast⟩ :=
      exists_derives ha (session.owner_of_action hcaction) hv hderive
    refine ⟨hderives.route fun d hd => ?_, fun {_ x y op} hx hrun => ?_⟩
    · obtain ⟨rfl, -⟩ := hlast d hd
      exact (ih hfollows hstep hcaction (hderives.type d hd) hc).route
    · obtain ⟨d, hd, hrun⟩ := hderives.run hx hrun
      obtain ⟨rfl, hreaches⟩ := hlast d hd
      obtain ⟨e, he, hwalk⟩ := (ih hfollows hstep hcaction (hderives.type d hd) hc).walks rfl hrun
      exact ⟨e, he, fun element hmem =>
        .action hmem hc hcaction (List.cons_ne_nil _ _) (hreaches x) hwalk⟩
  | @mono prev b c v w n m i heads u hreference hderive h ih =>
    obtain rfl : prev = some a := hat
    obtain ⟨hdimension, helements, hpath, hbelow⟩ :=
      hfollows.of_reference (List.cons_ne_nil _ _) hreference
    obtain ⟨d, o, hd, hkind, ho, -⟩ := exists_dimension hdimension
    have hasDimension : asDimensionElement session b.2.element.second = some d := by
      rw [hd]
      exact Option.filter_some_pos (by rw [hkind]; rfl)
    rw [hasDimension]
    obtain ⟨k, hk, hkaction, hvariable, hreferent⟩ :=
      exists_referent hstep hreference hfollows List.mem_cons_self
    have hstep' : InStep session operation c := by
      cases hstep with
      | node hreferent htarget hgroup hts => exact hts c List.mem_cons_self
    have hsound := ih (hbelow c List.mem_cons_self) hstep' hkaction hvariable hreferent
    rw [hd] at hderive hdimension helements
    refine sound_read ha ho hdimension (fun hnil => of_decide_eq_true (hpath hnil)) hd hv hderive ?_
      (.monoReference ⟨?_, ?_⟩ hsound.route) fun {_ x y op} hrun => ?_
    · rw [← helements]
      rfl
    · rw [hvariable, hk]
    · rw [hvariable]
      exact Option.some_ne_none k
    · cases hrun with
      | monoReference htype hrun =>
        rw [hvariable] at htype
        obtain ⟨e, he, hwalk⟩ := hsound.walks htype.symm hrun
        exact ⟨k, e, htype, he, hwalk⟩
  | @poly prev b v w n m heads cases hreference hderive hlength hvariable h ih =>
    obtain rfl : prev = some a := hat
    have hne : cases.map Prod.fst ≠ [] := fun hnil => by
      rw [List.map_eq_nil_iff.mp hnil] at hlength
      simp at hlength
    obtain ⟨hdimension, helements, hpath, hbelow⟩ := hfollows.of_reference hne hreference
    obtain ⟨d, o, hd, hkind, ho, -⟩ := exists_dimension hdimension
    have hasDimension : asDimensionElement session b.2.element.second = some d := by
      rw [hd]
      exact Option.filter_some_pos (by rw [hkind]; rfl)
    rw [hasDimension]
    have hcase : ∀ c ∈ cases, ∃ k, c.1.label.2.element.second = some k ∧
        c.2.1.concreteType = some k ∧
        Sound session operation .referent typePath c.1 k c.2.1 c.2.2 := fun c hc => by
      have hmem : c.1 ∈ cases.map Prod.fst := List.mem_map_of_mem hc
      obtain ⟨k, hk, hkaction, hself, hreferent⟩ :=
        exists_referent hstep hreference hfollows hmem
      have hstep' : InStep session operation c.1 := by
        cases hstep with
        | node hreferent htarget hgroup hts => exact hts c.1 hmem
      have htype := (hvariable c hc).trans hself
      exact ⟨k, hk, htype, ih c hc (hbelow c.1 hmem) hstep' hkaction htype hreferent⟩
    rw [hd] at hderive hdimension helements
    refine sound_read ha ho hdimension (fun hnil => of_decide_eq_true (hpath hnil)) hd hv hderive ?_
      (route_cases trivial ?_ fun c hc => ?_) fun {_ x y op} hrun => ?_
    · rw [← helements, List.map_map, List.map_map]
      rfl
    · refine List.map_congr_left fun c hc => ?_
      obtain ⟨k, hk, htype, -⟩ := hcase c hc
      rw [htype, hk]
    · obtain ⟨k, -, htype, hsound⟩ := hcase c hc
      exact ⟨fun hnone => (by cases htype.symm.trans hnone), hsound.route⟩
    · cases hrun with
      | polyReference hmem htype hrun =>
        obtain ⟨c, hc, heq⟩ := List.mem_map.mp hmem
        cases heq
        obtain ⟨k, -, hk, hsound⟩ := hcase c hc
        rw [hk] at htype
        obtain ⟨e, he, hwalk⟩ := hsound.walks htype.symm hrun
        exact ⟨k, e, htype, he, hwalk⟩
  | @single b c v u h ih =>
    have haction : session.isAction b.2.element.second = true := by
      rw [show b.2.element.second = some a from hat]
      exact ha
    obtain ⟨pathElement, typePath, rfl, -, helements, hbelow⟩ := hfollows.of_member
      (List.cons_ne_nil _ _) (hfollows.not_isReference (List.cons_ne_nil _ _) haction)
    have hstep' : InStep session operation c := by
      cases hstep with
      | node hreferent htarget hgroup hts => exact hts c List.mem_cons_self
    obtain ⟨hroute, hwalks⟩ := ih (hbelow c List.mem_cons_self) hstep' ha hv hat
    refine ⟨hroute, fun {_ x y op} hx hrun => ?_⟩
    obtain ⟨e, he, hwalk⟩ := hwalks hx hrun
    exact ⟨e, he, hwalk pathElement (helements c List.mem_cons_self)⟩
  | @group b v alternatives hlength h ih =>
    have hne : alternatives.map Prod.fst ≠ [] := fun hnil => by
      rw [List.map_eq_nil_iff.mp hnil] at hlength
      simp at hlength
    have haction : session.isAction b.2.element.second = true := by
      rw [show b.2.element.second = some a from hat]
      exact ha
    have hreference := hfollows.not_isReference hne haction
    obtain ⟨pathElement, typePath, rfl, -, helements, hbelow⟩ := hfollows.of_member hne hreference
    cases hstep with
    | node hreferent htarget hgroup hts =>
      have hsound : ∀ c ∈ alternatives,
          Sound session operation .member typePath c.1 a v c.2 := fun c hc => by
        have hmem : c.1 ∈ alternatives.map Prod.fst := List.mem_map_of_mem hc
        exact ih c hc (hbelow c.1 hmem) (hts c.1 hmem) ha hv hat
      refine ⟨.elimination trivial (fun _ u hu => ?_) fun u hu => ?_, fun {_ x y op} hx hrun => ?_⟩
      · -- an alternative that begins with a failure would have been out of step
        obtain ⟨c, hc, rfl⟩ := List.mem_map.mp hu
        intro hfailure
        refine hgroup hreference (by rwa [List.length_map]) c.1 (List.mem_map_of_mem hc) ?_
        exact ((h c hc).failsFirst hfailure).1 rfl
      · obtain ⟨c, hc, rfl⟩ := List.mem_map.mp hu
        exact (hsound c hc).route
      · cases hrun with
        | alternative hu hrun =>
          obtain ⟨c, hc, rfl⟩ := List.mem_map.mp hu
          obtain ⟨e, he, hwalk⟩ := (hsound c hc).walks hx hrun
          exact ⟨e, he, hwalk pathElement (helements c.1 (List.mem_map_of_mem hc))⟩

/-! ## Variables -/

omit [DecidableEq ι] [DecidableEq κ] in
theorem placed_derive {steps : List (Step κ)} {v w : Variable κ} {n m : ℕ}
    {heads : List (Head (Option κ) (Option ι))} (hderive : derive steps v n = (heads, w, m))
    {t : Tree ι κ} (ht : Route Generic False (.inst w) t) :
    Route Generic False (.inst v) (.nest heads t) := by
  induction steps generalizing v n heads with
  | nil =>
    cases hderive
    exact ht
  | cons step steps ih =>
    cases step with
    | parent pParent =>
      obtain ⟨rest, hrest⟩ : ∃ rest, derive (ι := ι) steps ⟨n, pParent⟩ (n + 1) = rest := ⟨_, rfl⟩
      obtain ⟨heads', w', m'⟩ := rest
      rw [derive, hrest] at hderive
      cases hderive
      exact .parentDerivation trivial (ih hrest)
    | child pAction =>
      obtain ⟨rest, hrest⟩ : ∃ rest, derive (ι := ι) steps ⟨n, some pAction⟩ (n + 1) = rest :=
        ⟨_, rfl⟩
      obtain ⟨heads', w', m'⟩ := rest
      rw [derive, hrest] at hderive
      cases hderive
      exact .childDerivation trivial (ih hrest)
    | failure =>
      cases hderive
      exact .failure trivial

omit [DecidableEq ι] in
theorem placed_commonRoot {prev pTo : Option κ} {v w : Variable κ} {n m : ℕ}
    {heads : List (Head (Option κ) (Option ι))}
    (hderive : commonRootDerivation session prev pTo v n = .ok (heads, w, m)) {t : Tree ι κ}
    (ht : Route Generic False (.inst w) t) :
    Route Generic False (.inst v) (.nest heads t) := by
  rw [commonRootDerivation] at hderive
  cases hsteps : commonRootSteps session prev pTo with
  | error f =>
    rw [hsteps] at hderive
    cases hderive
  | ok steps =>
    rw [hsteps] at hderive
    exact placed_derive (Except.ok.inj hderive) ht

/-- **Every tree that is built** goes on from one variable to the next, whether or not its names stay in
step. -/
theorem GenericTree.placed {stage : Stage} {prev : Option κ} {t : NameTree ℕ ι κ} {v : Variable κ}
    {u : Tree ι κ} (h : GenericTree session operation stage prev t v u)
    {bExpandFinalReferences : Bool} {typePath : List (List (ElementPair ι κ))}
    (hfollows : Follows session.toDerivationAnalysis bExpandFinalReferences typePath t) :
    Route Generic False (.inst v) u := by
  induction h generalizing typePath with
  | operation _ _ htype hderive =>
    exact placed_commonRoot hderive (.operation rfl (operationOn_ne_range htype))
  | referent _ ih => exact ih hfollows
  | member _ hderive _ ih => exact placed_commonRoot hderive (ih hfollows)
  | mono hreference hderive _ ih =>
    obtain ⟨-, -, -, hbelow⟩ := hfollows.of_reference (List.cons_ne_nil _ _) hreference
    exact placed_commonRoot hderive
      (.read trivial (.monoReference trivial (ih (hbelow _ List.mem_cons_self))))
  | @poly prev b v w n m heads cases hreference hderive hlength hvariable _ ih =>
    have hne : cases.map Prod.fst ≠ [] := fun hnil => by
      rw [List.map_eq_nil_iff.mp hnil] at hlength
      simp at hlength
    obtain ⟨-, helements, -, hbelow⟩ := hfollows.of_reference hne hreference
    have hnodup : (cases.map fun c => c.1.label.2.element.second).Nodup := by
      have hseconds := congrArg (List.map ElementPair.second) helements
      rw [List.map_map, List.map_map] at hseconds
      have heach := (session.getElementVector_instances
        (session.getContextTypes b.2.element.second) true).1
      rw [← hseconds] at heach
      exact heach
    refine placed_commonRoot hderive (.read trivial (route_cases hnodup ?_ fun c hc => ⟨trivial, ?_⟩))
    · refine List.map_congr_left fun c hc => (hvariable c hc).trans ?_
      exact asAction_of_isAction (referent_isAction hreference hfollows (List.mem_map_of_mem hc))
    · exact ih c hc (hbelow c.1 (List.mem_map_of_mem hc))
  | single _ ih =>
    obtain ⟨rest, hbelow⟩ := hfollows.exists_below
    exact ih (hbelow _ List.mem_cons_self)
  | group hlength _ ih =>
    obtain ⟨rest, hbelow⟩ := hfollows.exists_below
    refine .elimination trivial (fun h => absurd h id) fun u hu => ?_
    obtain ⟨c, hc, rfl⟩ := List.mem_map.mp hu
    exact ih c hc (hbelow c.1 (List.mem_map_of_mem hc))

end Invocation
end EgLang.Compiler
