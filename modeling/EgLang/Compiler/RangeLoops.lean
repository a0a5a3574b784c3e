import EgLang.Compiler.InvocationRanges
import EgLang.Runtime.Iterators

/-!
# What a range enumerates

A loop over the range that a range invocation returns, from a reference to an instance of its context, comes
to the instances of the targets that lie in the instance of the context, in order.
-/

namespace EgLang.Compiler

open EgLang.Library NameResolution Invocation Evaluation Codegen EgLang.Runtime

set_option autoImplicit false

/-! ## Loops -/

/-- A range as iterators are made of it. -/
def SubRange.toSubrange (r : SubRange) : Subrange :=
  ⟨r.runtimeType, UInt32.ofNat r.first, UInt32.ofNat r.last⟩

/-- The iterators of a range. -/
def RangeDescription.kind (description : RangeDescription) : IteratorKind :=
  if description.raw then .raw else .active

/-- The loop over a range that is generated for at most `iMaxRanges` ranges, for at most `n` looks at its
iterator. -/
def rangeLoop (data : ActionData) (iMaxRanges : ℕ) (description : RangeDescription) (n : ℕ) :
    Option (List Reference × List ActionInstance) :=
  let ranges := description.ranges.map SubRange.toSubrange
  let kind := description.kind
  if iMaxRanges = 1 then
    match ranges with
    | [r] => ((ReferenceIterator.iteratorType data kind).cursor r.behind).loop n (r.begin data kind).1
    | _ => none
  else
    (MultiIterator.cursor (ReferenceIterator.iteratorType data kind)
      (multiEnd data kind ranges iMaxRanges)).loop n (multiBegin data kind ranges iMaxRanges)

/-- The iterators of several ranges come to the instances of one after the other. -/
theorem multi_visits (data : ActionData) (kind : IteratorKind) (ranges : List Subrange)
    (hranges : ∀ r ∈ ranges, r.iBegin ≤ r.iEnd) :
    ∃ n tests, (MultiIterator.cursor (ReferenceIterator.iteratorType data kind)
        (multiEnd data kind ranges ranges.length)).loop n
          (multiBegin data kind ranges ranges.length) =
      some (ranges.flatMap (Subrange.visited data kind), tests) := by
  have hown : ∀ r : Subrange, ∃ later, r ∈ ranges →
      (MultiIterator.own (ReferenceIterator.iteratorType data kind)).Visits (r.begin data kind).1
        (r.visited data kind) later := by
    intro r
    by_cases hr : r ∈ ranges
    · obtain ⟨later, hlater, -⟩ := r.visits_begin data kind (hranges r hr) (sweeps_own data kind r)
      exact ⟨later, fun _ => hlater⟩
    · exact ⟨[], fun hmem => absurd hmem hr⟩
  choose later hlater using hown
  have hbegin : iterators_begin data kind ranges ranges.length =
      ranges.map fun r => (r.begin data kind).1 := by
    simp [iterators_begin]
  have hvisits := @MultiIterator.visits_all _ _ _ (ReferenceIterator.iteratorType data kind)
    (multiEnd data kind ranges ranges.length)
    (ranges.map fun r => ((r.begin data kind).1, r.visited data kind, later r))
    (iterators_begin data kind ranges ranges.length) 0
    (by rw [hbegin, List.drop_zero, List.map_map]; rfl) (Nat.zero_le _)
    (by rw [szIndex_multiEnd data kind ranges, hbegin, List.length_map]; omega)
    (fun e he => by
      obtain ⟨r, hr, rfl⟩ := List.mem_map.mp he
      exact hlater r hr)
  obtain ⟨n, hn⟩ := hvisits.exists_loop
  refine ⟨n, ranges.flatMap later, ?_⟩
  rw [multiBegin, MultiIterator.construct, hn]
  simp [List.flatMap_map]

/-- **A loop over a range** comes to the instances of its subranges, in order. -/
theorem exists_rangeLoop (data : ActionData) (description : RangeDescription) {iMaxRanges : ℕ}
    (hlength : description.ranges.length = iMaxRanges)
    (hranges : ∀ r ∈ description.ranges, r.toSubrange.iBegin ≤ r.toSubrange.iEnd) :
    ∃ n tests, rangeLoop data iMaxRanges description n =
      some (description.ranges.flatMap fun r => r.toSubrange.visited data description.kind, tests) := by
  subst hlength
  by_cases hone : description.ranges.length = 1
  · obtain ⟨r, hr⟩ := List.length_eq_one_iff.mp hone
    obtain ⟨later, hvisits, -⟩ := r.toSubrange.visits_begin data description.kind
      (hranges r (by rw [hr]; exact List.mem_singleton_self r))
      (sweeps_cursor data description.kind r.toSubrange)
    obtain ⟨n, hn⟩ := hvisits.exists_loop
    refine ⟨n, later, ?_⟩
    rw [rangeLoop, if_pos hone, hr, List.map_singleton, List.flatMap_singleton]
    exact hn
  · obtain ⟨n, tests, hn⟩ := multi_visits data description.kind
      (description.ranges.map SubRange.toSubrange) fun r hr => by
        obtain ⟨r', hr', rfl⟩ := List.mem_map.mp hr
        exact hranges r' hr'
    refine ⟨n, tests, ?_⟩
    rw [rangeLoop, if_neg hone]
    rw [List.length_map] at hn
    rw [hn, List.flatMap_map]

/-! ## Instances -/

section Instances
variable {ι κ : Type} [DecidableEq κ] (session : Session ι κ)

/-- The instances of an element whose parents, one after the other, lead to an instance of an action. -/
def instancesBelow (e : κ) (i : ℕ) (pTarget : κ) : List ℕ :=
  (List.range (session.getTotalDomainSize pTarget)).filter fun j =>
    climb session.getLocalDomainSize (session.tree.below e pTarget) j = i

variable {session} {e pTarget : κ} {i : ℕ}

/-- The instances below an instance are a range. -/
theorem instancesBelow_eq (hbelow : e ∈ session.tree.wayUp pTarget)
    (hi : i < session.getTotalDomainSize e) :
    instancesBelow session e i pTarget =
      List.range' (i * multiplier session e pTarget) (multiplier session e pTarget) := by
  have hle : (i + 1) * multiplier session e pTarget ≤ session.getTotalDomainSize pTarget := by
    rw [getTotalDomainSize_eq hbelow]
    exact Nat.mul_le_mul_right _ hi
  refine List.Pairwise.eq_of_mem_iff (r := (· < ·)) ?_ List.pairwise_lt_range' fun j => ?_
  · exact List.Pairwise.filter _ List.pairwise_lt_range
  · rw [instancesBelow, List.mem_filter, List.mem_range, List.mem_range'_1, decide_eq_true_eq,
      climb_below_iff, Nat.succ_mul]
    rw [Nat.succ_mul] at hle
    omega

variable (session) in
/-- The references that a range of a target comes to. -/
def referencesBelow (data : ActionData) (kind : IteratorKind) (e : κ) (i : ℕ) (pTarget : κ) :
    List Reference :=
  Runtime.visited data kind (session.getIndex pTarget)
    ((instancesBelow session e i pTarget).map UInt32.ofNat)

theorem rangeOf_visited (data : ActionData) (kind : IteratorKind)
    (hbelow : e ∈ session.tree.wayUp pTarget) (hi : i < session.getTotalDomainSize e)
    (hsize : session.getTotalDomainSize pTarget < 2 ^ 32) :
    (rangeOf session e i pTarget).toSubrange.iBegin ≤ (rangeOf session e i pTarget).toSubrange.iEnd ∧
    (rangeOf session e i pTarget).toSubrange.visited data kind =
      referencesBelow session data kind e i pTarget ∧
    inst32 (rangeOf session e i pTarget) = rangeOf session e i pTarget := by
  have hle : (i + 1) * multiplier session e pTarget ≤ session.getTotalDomainSize pTarget := by
    rw [getTotalDomainSize_eq hbelow]
    exact Nat.mul_le_mul_right _ hi
  have hsucc : (i + 1) * multiplier session e pTarget =
      i * multiplier session e pTarget + multiplier session e pTarget := Nat.succ_mul ..
  have hfirst : i * multiplier session e pTarget < 2 ^ 32 := by omega
  have hlast : (i + 1) * multiplier session e pTarget < 2 ^ 32 := by omega
  have hbegin : (UInt32.ofNat (i * multiplier session e pTarget)).toNat =
      i * multiplier session e pTarget := UInt32.toNat_ofNat_of_lt' hfirst
  have hend : (UInt32.ofNat ((i + 1) * multiplier session e pTarget)).toNat =
      (i + 1) * multiplier session e pTarget := UInt32.toNat_ofNat_of_lt' hlast
  refine ⟨?_, ?_, ?_⟩
  · show UInt32.ofNat (i * multiplier session e pTarget) ≤
      UInt32.ofNat ((i + 1) * multiplier session e pTarget)
    rw [UInt32.le_iff_toNat_le, hbegin, hend]
    omega
  · show Runtime.visited data kind (session.getIndex pTarget)
      (instances (UInt32.ofNat (i * multiplier session e pTarget))
        (UInt32.ofNat ((i + 1) * multiplier session e pTarget))) = _
    rw [referencesBelow, instancesBelow_eq hbelow hi, instances, hbegin, hend, hsucc,
      Nat.add_sub_cancel_left]
  · rw [inst32, rangeOf, Nat.mod_eq_of_lt hfirst, Nat.mod_eq_of_lt hlast]

end Instances

/-! ## Range invocations -/

section Range
variable {ι κ : Type} [LinearOrder ι] [LinearOrder κ] {session : Session ι κ} {rangeType : RangeType}
  {nodes : Nodes ι κ} {context : List (ElementPair ι κ)}
  {typePath : List (List (ElementPair ι κ))} {invocationID : InvocationID ι} {fuel : ℕ}
  {solution : InvocationSolution ι κ}

/-- The range of a context, from an instance of its action. -/
def described (session : Session ι κ) (rangeType : RangeType) (nodes : Nodes ι κ) (c : Name ι κ) (e : κ)
    (i : ℕ) : RangeDescription :=
  ⟨(targets nodes c).map (rangeOf session e i), rangeType = .eRaw⟩

/-- Evaluation, the code and a loop over its range go through the instances of the targets, from a
reference to an instance of any context. The code compiles where all contexts have as many targets. -/
structure Enumerates (session : Session ι κ) (rangeType : RangeType) (nodes : Nodes ι κ)
    (context : List (ElementPair ι κ)) (solution : InvocationSolution ι κ) (code : List (Statement κ)) :
    Prop where
  evaluated : ∀ (dereferenceDimension : Reference → ℤ → Reference) (x : Reference),
    ∀ c ∈ contexts nodes, ∀ e, c.element.second = some e → session.getIndex e = x.type →
      evaluateSolution session dereferenceDimension solution x =
        .ok (.range (described session rangeType nodes c e x.inst))
  executed : ∀ (content : κ → ℕ → Reference) (x : Reference),
    ∀ c ∈ contexts nodes, ∀ e, c.element.second = some e → session.getIndex e = x.type →
      (∀ c' ∈ contexts nodes, (targets nodes c').length = (targets nodes c).length) →
      x.inst < session.getTotalDomainSize e →
      (∀ pTarget ∈ targets nodes c, session.getTotalDomainSize pTarget < 2 ^ 32) →
      executeAll content x code =
        .ok ⟨[.range (described session rangeType nodes c e x.inst)], true⟩
  visited : ∀ (data : ActionData), ∀ c ∈ contexts nodes, ∀ e, c.element.second = some e →
    ∀ i < session.getTotalDomainSize e,
      (∀ pTarget ∈ targets nodes c, session.getTotalDomainSize pTarget < 2 ^ 32) →
      ∃ n tests, rangeLoop data (targets nodes c).length (described session rangeType nodes c e i) n =
        some ((targets nodes c).flatMap (referencesBelow session data
          (described session rangeType nodes c e i).kind e i), tests)
  refused : ∀ (dereferenceDimension : Reference → ℤ → Reference) (content : κ → ℕ → Reference)
    (x : Reference), context.length > 1 →
      (∀ c ∈ contexts nodes, ∀ e, c.element.second = some e → session.getIndex e ≠ x.type) →
      evaluateSolution session dereferenceDimension solution x = .error .noCase ∧
        executeAll content x code = .error .typeError

/-- **Main result.** A range invocation enumerates the instances of its targets below the instance of its
context. -/
theorem range_enumerates (hoperation : invocationID.operation = operationOf rangeType)
    (hconstruct : constructInvocation session invocationID = .ok (context, typePath))
    (hcontext : ∀ p ∈ context, session.isAction p.second = true)
    (hresolve : nameResolution session.toDerivationAnalysis fuel invocationID.operation context
      typePath = some (.ok nodes))
    (hbuild : build session invocationID.operation context typePath nodes = .ok solution)
    (elements : Elements κ) (getFriendlyName : κ → String) :
    ∃ code, generateInstructions session elements getFriendlyName solution = .ok code ∧
      Enumerates session rangeType nodes context solution code := by
  obtain ⟨hne, tree, hholds, hfollows⟩ :=
    follows_of_nameResolution (constructInvocation_path hconstruct) hresolve
  rw [hoperation] at hbuild
  obtain ⟨cases, hsolution⟩ :=
    exists_rangeSolution hholds ⟨hfollows.reference, hfollows.elements⟩ hne hbuild
  have hnodup := constructInvocation_context hconstruct
  have hdifferent := nodup_contexts hsolution.casesFrom.contexts hsolution.elements hnodup
  obtain ⟨code, hcode, hcodes⟩ := hsolution.generate hcontext elements getFriendlyName
  have hcase : ∀ c ∈ contexts nodes, ∃ c' ∈ cases, c'.context = c := fun c hc => by
    rw [← hsolution.casesFrom.contexts] at hc
    exact List.mem_map.mp hc
  have hbelow : ∀ c ∈ contexts nodes, ∀ e, c.element.second = some e →
      ∀ pTarget ∈ targets nodes c, e ∈ session.tree.wayUp pTarget := by
    intro c hc e he pTarget htarget
    obtain ⟨c', hc', rfl⟩ := hcase c hc
    obtain ⟨e', he'⟩ := hsolution.ready hcontext hc'
    obtain rfl : e' = e := Option.some.inj (he'.element.symm.trans he)
    obtain ⟨op, -, hop⟩ := exists_forall₂ he'.ranges htarget
    exact hop.below
  refine ⟨code, hcode, ?_, ?_, ?_, ?_⟩
  · intro dereferenceDimension x c hc e he htype
    obtain ⟨c', hc', rfl⟩ := hcase c hc
    exact (hsolution.evaluate_eq hcontext hnodup).1 c' hc' e he fun _ => htype
  · intro content x c hc e he htype hcount hi hsize
    obtain ⟨c', hc', rfl⟩ := hcase c hc
    have hmax := hsolution.maxRanges_eq hcontext hcount
    rw [hcodes.execute_eq hdifferent hc' he (fun _ => htype) hmax.le, described]
    have hranges : ((targets nodes c'.context).map (rangeOf session e x.inst)).map inst32 =
        (targets nodes c'.context).map (rangeOf session e x.inst) := by
      rw [List.map_map]
      refine List.map_congr_left fun pTarget htarget => ?_
      exact (rangeOf_visited ⟨fun _ => none, fun _ => 0, fun _ => 0, fun _ => 0⟩ .raw
        (hbelow _ hc e he pTarget htarget) hi (hsize pTarget htarget)).2.2
    rw [hranges]
  · intro data c hc e he i hi hsize
    have hrange : ∀ pTarget ∈ targets nodes c, _ := fun pTarget htarget =>
      rangeOf_visited data (described session rangeType nodes c e i).kind
        (hbelow c hc e he pTarget htarget) hi (hsize pTarget htarget)
    obtain ⟨n, tests, hn⟩ := exists_rangeLoop data (described session rangeType nodes c e i)
      (List.length_map ..) fun r hr => by
        obtain ⟨pTarget, htarget, rfl⟩ := List.mem_map.mp hr
        exact (hrange pTarget htarget).1
    refine ⟨n, tests, hn.trans ?_⟩
    have hvisited : (described session rangeType nodes c e i).ranges.flatMap (fun r =>
        r.toSubrange.visited data (described session rangeType nodes c e i).kind) =
          (targets nodes c).flatMap (referencesBelow session data
            (described session rangeType nodes c e i).kind e i) := by
      show ((targets nodes c).map (rangeOf session e i)).flatMap _ = _
      rw [List.flatMap_map]
      exact List.flatMap_congr fun pTarget htarget => (hrange pTarget htarget).2.1
    rw [hvisited]
  · intro dereferenceDimension content x hmany htype
    have htypes : ∀ c ∈ cases, ∀ e, c.context.element.second = some e →
        session.getIndex e ≠ x.type := fun c hc e he => by
      refine htype c.context ?_ e he
      rw [← hsolution.casesFrom.contexts]
      exact List.mem_map_of_mem hc
    exact ⟨(hsolution.evaluate_eq hcontext hnodup).2 hmany htypes, hcodes.execute_none hmany htypes⟩

end Range

/-! ## Rows -/

/-- Action `1` has two instances, with three rows `2` each, and an action `3` in each row. -/
def rows : Session (Fin 4) (Fin 4) where
  kind e := .action e
  children e := if e = 0 then [1] else if e = 1 then [2] else if e = 2 then [3] else []
  isContext _ := true
  baseContexts _ := []
  rank _ := 0
  rank_base h := by simp at h
  instanceMap := [(0, 0), (1, 1), (2, 2), (3, 3)]
  inheritanceMap := [(0, 0), (1, 1), (2, 2), (3, 3)]
  inheritance_isAction _ := rfl
  contextTypes_isContext h := by cases h
  isDimension _ := false
  tree := ⟨fun e => if e = 0 then none else if e = 1 then some 0 else if e = 2 then some 1 else some 2,
    fun e => e.val, by decide⟩
  root := 0
  only_root := by decide
  root_isAction := rfl
  parent_isAction _ := rfl
  getLocalDomainSize e := if e = 1 then 2 else if e = 2 then 3 else 1
  localDomainSize_pos := by decide
  getIndex e := e.val
  index_injective := by decide
  hasLinkGroup _ := false

/-- The range of `3`, from `1`. -/
def rowsID : InvocationID (Fin 4) := ⟨[1], [[3]], .id_Range⟩

def rowsContext : List (ElementPair (Fin 4) (Fin 4)) := [⟨some 1, some 1⟩]

def rowsPath : List (List (ElementPair (Fin 4) (Fin 4))) := [[⟨some 3, some 3⟩]]

def rowsNodes : Nodes (Fin 4) (Fin 4) :=
  [⟨⟨none, none⟩, false, true, [1]⟩, ⟨⟨some 1, some 1⟩, false, false, [2]⟩,
    ⟨⟨some 3, some 3⟩, false, false, []⟩]

theorem rows_resolved : constructInvocation rows rowsID = .ok (rowsContext, rowsPath) ∧
    nameResolution rows.toDerivationAnalysis 2 .id_Range rowsContext rowsPath =
      some (.ok rowsNodes) := by
  constructor <;> decide +kernel

theorem rows_built :
    ∃ solution, build rows .id_Range rowsContext rowsPath rowsNodes = .ok solution :=
  ⟨_, rfl⟩

/-- Nothing is known of the elements; the code of a range asks for nothing. -/
def rowsElements : Elements (Fin 4) :=
  ⟨fun _ => none, fun _ => none, fun _ => false, fun _ => none, fun _ => [], fun _ => none⟩

theorem rows_enumerates : ∃ solution code,
    build rows .id_Range rowsContext rowsPath rowsNodes = .ok solution ∧
      generateInstructions rows rowsElements toString solution = .ok code ∧
      Enumerates rows .eRange rowsNodes rowsContext solution code := by
  obtain ⟨solution, hbuild⟩ := rows_built
  have hoperation : rowsID.operation = operationOf .eRange := rfl
  obtain ⟨code, hcode, henumerates⟩ := range_enumerates hoperation rows_resolved.1 (by decide)
    rows_resolved.2 hbuild rowsElements toString
  exact ⟨solution, code, hbuild, hcode, henumerates⟩

-- from the second instance of `1`: those of `3` in its three rows
example : instancesBelow rows 1 1 3 = [3, 4, 5] := by decide

end EgLang.Compiler
