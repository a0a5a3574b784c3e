import EgLang.Compiler.Matching
import EgLang.Compiler.TreeGrowth

/-!
# Resolution on trees

Name resolution as an operation on trees of names: what it would come to if there were no nodes but
those that node 0 reaches.
-/

namespace EgLang.Compiler

open EgLang.Library NameResolution

set_option autoImplicit false

namespace NameTree
variable {ι κ : Type} [LinearOrder ι] [LinearOrder κ] (analysis : DerivationAnalysis ι κ)

/-- A reference dimension whose context types have no instance. -/
def isStarved (element : ElementPair ι κ) : Bool :=
  analysis.isEGType element.second &&
    (analysis.getElementVector (analysis.getContextTypes element.second) true).isEmpty

/-- The leaves that are reference dimensions get their instances; where one has none there is no
end. -/
def expandTree (t : NameTree Unit ι κ) : Option (NameTree Unit ι κ) :=
  if (leaves t).any fun m => isStarved analysis m.element then none
  else some (growTree (expansion analysis) t)

/-- The leaves get their matches, if all of them are actions. -/
def addTypeTree (pathElement : List (ElementPair ι κ)) (t : NameTree Unit ι κ) :
    Except ResolutionFault (NameTree Unit ι κ) :=
  if (leaves t).any fun m => isBlocked analysis m.element then .error .afterDimension
  else .ok (growTree (matching analysis pathElement) t)

/-- The tree that resolution starts from. -/
def startTree {ι κ : Type} (context : List (ElementPair ι κ)) : NameTree Unit ι κ :=
  .node ((), ⟨⟨none, none⟩, false, true⟩) (context.map (newLeaf false))

/-- Resolution of a type path, from a tree. -/
def resolveTreeFrom (bExpandFinalReferences : Bool) :
    List (List (ElementPair ι κ)) → NameTree Unit ι κ →
      Option (Except ResolutionFault (NameTree Unit ι κ))
  | [], t =>
    if bExpandFinalReferences then (expandTree analysis t).map fun t => .ok (prune t)
    else some (.ok t)
  | pathElement :: typePath, t =>
    match expandTree analysis t with
    | none => none
    | some t =>
      match addTypeTree analysis pathElement t with
      | .error e => some (.error e)
      | .ok t => resolveTreeFrom bExpandFinalReferences typePath (prune t)

/-- Name resolution on trees. -/
def resolveTree (operation : OperationID) (context : List (ElementPair ι κ))
    (typePath : List (List (ElementPair ι κ))) :
    Option (Except ResolutionFault (NameTree Unit ι κ)) :=
  if context = [] then some (.error .noContext)
  else
    match operation with
    | .HIGHEST_OPERATION_TYPE => some (.error .invalidOperation)
    | .id_Done => resolveTreeFrom analysis true typePath (startTree context)
    | _ => resolveTreeFrom analysis false typePath (startTree context)

end NameTree

/-! ## Resolution from a vector -/

namespace NameResolution
variable {ι κ : Type} [LinearOrder ι] [LinearOrder κ] (analysis : DerivationAnalysis ι κ) (fuel : ℕ)

/-- `resolve`, once the context has been added. -/
def resolveFrom (bExpandFinalReferences : Bool) (typePath : List (List (ElementPair ι κ)))
    (nodes : Nodes ι κ) : Option (Except ResolutionFault (Nodes ι κ)) :=
  match resolvePath analysis fuel typePath nodes with
  | some (.ok nodes) => resolveFinal analysis fuel bExpandFinalReferences nodes
  | stopped => stopped

variable {analysis fuel}

theorem resolve_eq (context : List (ElementPair ι κ)) (typePath : List (List (ElementPair ι κ)))
    (b : Bool) : resolve analysis fuel context typePath b =
      resolveFrom analysis fuel b typePath (start context) := rfl

/-- Whether expansion ends can be told from the elements of the leaves. -/
theorem expandReferences_eq (hfuel : 2 ≤ fuel) (nodes : Nodes ι κ) :
    expandReferences analysis fuel nodes =
      if nodes.any (leafWith (NameTree.isStarved analysis)) then none
      else some (grow (expansion analysis) nodes) := by
  have hiff : Supplied analysis nodes ↔
      nodes.any (leafWith (NameTree.isStarved analysis)) = false := by
    rw [List.any_eq_false]
    unfold Supplied
    refine forall₂_congr fun node _ => ?_
    rw [← analysis.getElementVector_ne_nil]
    unfold isOpen leafWith NameTree.isStarved
    by_cases hc : node.children = [] <;> simp [hc]
  by_cases hs : Supplied analysis nodes
  · obtain ⟨more, rfl⟩ := Nat.exists_eq_add_of_le' hfuel
    rw [expandReferences_of_supplied hs, hiff.mp hs]
    rfl
  · rw [expandReferences_of_not_supplied hs]
    have hany : nodes.any (leafWith (NameTree.isStarved analysis)) = true := by
      rw [← Bool.not_eq_false]
      exact mt hiff.mpr hs
    rw [hany]
    rfl

theorem resolveFrom_nil (hfuel : 2 ≤ fuel) (b : Bool) (nodes : Nodes ι κ) :
    resolveFrom analysis fuel b [] nodes =
      if b then
        if nodes.any (leafWith (NameTree.isStarved analysis)) then none
        else some (.ok (pruneRoot (grow (expansion analysis) nodes)))
      else some (.ok nodes) := by
  show resolveFinal analysis fuel b nodes = _
  rw [resolveFinal, expandReferences_eq hfuel]
  by_cases hany : nodes.any (leafWith (NameTree.isStarved analysis)) = true
  · simp only [hany, if_true, Option.map_none]
  · simp only [hany, Bool.false_eq_true, if_false, Option.map_some]

theorem resolveFrom_cons (hfuel : 2 ≤ fuel) (b : Bool) (pathElement : List (ElementPair ι κ))
    (typePath : List (List (ElementPair ι κ))) (nodes : Nodes ι κ) :
    resolveFrom analysis fuel b (pathElement :: typePath) nodes =
      if nodes.any (leafWith (NameTree.isStarved analysis)) then none
      else if (grow (expansion analysis) nodes).any (leafWith (isBlocked analysis)) then
        some (.error .afterDimension)
      else resolveFrom analysis fuel b typePath
        (pruneRoot (grow (matching analysis pathElement) (grow (expansion analysis) nodes))) := by
  rw [resolveFrom, resolvePath, expandReferences_eq hfuel]
  by_cases hany : nodes.any (leafWith (NameTree.isStarved analysis)) = true
  · simp only [hany, if_true]
  · simp only [hany, Bool.false_eq_true, if_false, addType_eq]
    by_cases hblocked :
        (grow (expansion analysis) nodes).any (leafWith (isBlocked analysis)) = true
    · simp only [hblocked, if_true]
    · simp only [hblocked, Bool.false_eq_true, if_false]
      rfl

end NameResolution
end EgLang.Compiler
