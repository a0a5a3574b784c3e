import EgLang.Compiler.Elimination
import EgLang.Library.StepSystem

/-!
# What elimination means

The outcome of a tree by recursion on it, the tree that is left of one that succeeds, and that the
two passes compute both on every well nested tree.
-/

namespace EgLang.Compiler

open EgLang.Library

set_option autoImplicit false

/-! ## Outcomes -/

namespace Elimination

/-- An elimination group: exactly one alternative is to succeed. -/
def choose (os : List Elimination) : Elimination :=
  if .eAmbiguous ∈ os ∨ 1 < os.count .eSuccess then .eAmbiguous
  else if os.count .eSuccess = 1 then .eSuccess
  else .eFailure

/-- A prune group: some alternative is to succeed. -/
def anyOf (os : List Elimination) : Elimination :=
  if .eSuccess ∈ os then .eSuccess else .eFailure

/-- An ordinary instruction: every child is to succeed. -/
def allOf (os : List Elimination) : Elimination :=
  if .eAmbiguous ∈ os then .eAmbiguous
  else if .eFailure ∈ os then .eFailure
  else .eSuccess

@[simp] theorem merge_fail (e : Elimination) : e.merge .eFailure = e.fail := rfl

theorem fail_ne_success (e : Elimination) : e.fail ≠ .eSuccess := by
  cases e <;> decide

@[simp] theorem merge_eq_success {e o : Elimination} :
    e.merge o = .eSuccess ↔ e = .eSuccess ∧ o = .eSuccess := by
  cases e <;> cases o <;> decide

theorem merge_eq_ambiguous {e o : Elimination} :
    e.merge o = .eAmbiguous ↔ e = .eAmbiguous ∨ o = .eAmbiguous := by
  cases e <;> cases o <;> decide

theorem merge_assoc (a b c : Elimination) : (a.merge b).merge c = a.merge (b.merge c) := by
  cases a <;> cases b <;> cases c <;> rfl

@[simp] theorem success_merge (e : Elimination) : merge .eSuccess e = e := by
  cases e <;> rfl

theorem allOf_cons (o : Elimination) (os : List Elimination) :
    allOf (o :: os) = o.merge (allOf os) := by
  unfold allOf
  by_cases ha : Elimination.eAmbiguous ∈ os <;> by_cases hf : Elimination.eFailure ∈ os <;>
    cases o <;> simp [ha, hf, merge, fail]

end Elimination

namespace Instruction
variable {ε ι : Type}

section Meaning
variable (rejects : Operation ε ι → Bool)

mutual

/-- The outcome of a tree. -/
def meaning : Instruction ε ι → Elimination
  | .node head children =>
    if head.isFailure || rejected rejects head then .eFailure
    else if head.isElimination then .choose (meanings children)
    else if head.isPrune then .anyOf (meanings children)
    else .allOf (meanings children)

def meanings : List (Instruction ε ι) → List Elimination
  | [] => []
  | c :: cs => meaning c :: meanings cs

end

mutual

/-- What stands in the place of a tree that succeeds: a group gives way to its successful
alternatives. -/
def remains : Instruction ε ι → List (Instruction ε ι)
  | .node head children =>
    if head.isElimination || head.isPrune then successes children
    else [.node head (remainsAll children)]

def remainsAll : List (Instruction ε ι) → List (Instruction ε ι)
  | [] => []
  | c :: cs => remains c ++ remainsAll cs

/-- What remains of those that succeed. -/
def successes : List (Instruction ε ι) → List (Instruction ε ι)
  | [] => []
  | c :: cs => (if meaning rejects c = .eSuccess then remains c else []) ++ successes cs

end

/-- No failure, elimination or prune node is left in the tree. -/
abbrev Clean : Instruction ε ι → Prop := Every fun head => head.transient = false

/-- Groups stand below ordinary instructions and have ordinary alternatives. A prune group has no
ambiguous alternative and no ambiguous sibling, and where it has siblings it fails. -/
inductive WellNested : Instruction ε ι → Prop
  | node {head : Head ε ι} {children : List (Instruction ε ι)} (hhead : head.transient = false)
      (hordinary : ∀ c ∈ children, c.head.transient = false → WellNested c)
      (halternative : ∀ c ∈ children, c.head.isElimination || c.head.isPrune →
        ∀ a ∈ c.children, WellNested a)
      (hprune : ∀ c ∈ children, c.head.isPrune →
        (∀ a ∈ c.children, meaning rejects a ≠ .eAmbiguous) ∧
          (∀ s ∈ children, meaning rejects s ≠ .eAmbiguous) ∧
            (children.length = 1 ∨ meaning rejects c = .eFailure)) :
      WellNested (.node head children)

end Meaning

section
variable {rejects : Operation ε ι → Bool}

theorem WellNested.ordinary {t : Instruction ε ι} (h : WellNested rejects t) :
    t.head.transient = false := by
  cases h with
  | node hhead => exact hhead

theorem WellNested.of_ordinary {head : Head ε ι} {children : List (Instruction ε ι)}
    (hhead : head.transient = false) (h : ∀ c ∈ children, WellNested rejects c) :
    WellNested rejects (.node head children) := by
  have hgroup : ∀ c ∈ children, c.head.isElimination = false ∧ c.head.isPrune = false :=
    fun c hc => by
      have hord := (h c hc).ordinary
      simp only [Head.transient, Bool.or_eq_false_iff] at hord
      exact ⟨hord.1.2, hord.2⟩
  refine .node hhead (fun c hc _ => h c hc) (fun c hc hg => ?_) fun c hc hp => ?_
  · simp [hgroup c hc] at hg
  · simp [hgroup c hc] at hp

theorem WellNested.of_elimination {head : Head ε ι} {alternatives : List (Instruction ε ι)}
    (hhead : head.transient = false) (h : ∀ a ∈ alternatives, WellNested rejects a) :
    WellNested rejects (.node head [.node .elimination alternatives]) := by
  refine .node hhead (fun c hc hord => ?_) (fun c hc _ => ?_) fun c hc hp => ?_ <;>
    obtain rfl := List.mem_singleton.mp hc
  · cases hord
  · exact h
  · cases hp

theorem remains_ordinary {head : Head ε ι} (hhead : head.transient = false)
    (cs : List (Instruction ε ι)) :
    remains rejects (.node head cs) = [.node head (remainsAll rejects cs)] := by
  simp only [Head.transient, Bool.or_eq_false_iff] at hhead
  simp [remains, hhead]

theorem mem_meanings {cs : List (Instruction ε ι)} {o : Elimination} :
    o ∈ meanings rejects cs ↔ ∃ c ∈ cs, meaning rejects c = o := by
  induction cs with
  | nil => simp [meanings]
  | cons c cs ih => simp [meanings, ih, eq_comm]

/-! ## The alternatives of a group -/

/-- A pass answers for a tree what the tree means. -/
def Answers (rejects : Operation ε ι → Bool) (t : Instruction ε ι)
    (r : Elimination × Instruction ε ι) : Prop :=
  r.1 = meaning rejects t ∧
    (r.1 = .eSuccess → remains rejects t = [r.2] ∧ Clean r.2)

theorem eliminateNested_answers {pruning : Bool} {alternatives : List (Instruction ε ι)}
    (hordinary : ∀ a ∈ alternatives, a.head.transient = false)
    (hsure : pruning → ∀ a ∈ alternatives, meaning rejects a ≠ .eAmbiguous)
    (h : ∀ a ∈ alternatives, ∃ r, eliminateWith rejects a = .ok r ∧ Answers rejects a r) :
    ∃ rs, eliminateNested rejects pruning alternatives = .ok rs ∧
      List.Forall₂ (Answers rejects) alternatives rs := by
  induction alternatives with
  | nil => exact ⟨[], rfl, .nil⟩
  | cons a as ih =>
    obtain ⟨r, hr, ha⟩ := h a List.mem_cons_self
    obtain ⟨rs, hrs, has⟩ := ih (fun b hb => hordinary b (List.mem_cons_of_mem a hb))
      (fun hp b hb => hsure hp b (List.mem_cons_of_mem a hb))
      fun b hb => h b (List.mem_cons_of_mem a hb)
    refine ⟨r :: rs, ?_, .cons ha has⟩
    have hkind := hordinary a List.mem_cons_self
    cases a with
    | node head children =>
      simp only [head_node, Head.transient, Bool.or_eq_false_iff] at hkind
      have hnot : ¬ (pruning = true ∧ r.1 = .eAmbiguous) := fun hamb =>
        hsure hamb.1 _ List.mem_cons_self (ha.1 ▸ hamb.2)
      rw [eliminateNested, hr, hrs]
      simp [hkind, hnot, bind, Except.bind]

/-- The outcomes of the alternatives that have been tried. -/
theorem outcomes_of_answers {as : List (Instruction ε ι)} {rs : List (Elimination × Instruction ε ι)}
    (h : List.Forall₂ (Answers rejects) as rs) : rs.map Prod.fst = meanings rejects as := by
  induction h with
  | nil => rfl
  | cons ha _ ih => rw [List.map_cons, ih, ha.1, meanings]

theorem length_withOutcome (o : Elimination) (rs : List (Elimination × Instruction ε ι)) :
    (withOutcome o rs).length = (rs.map Prod.fst).count o := by
  rw [withOutcome, List.length_map, List.count, List.countP_map, List.countP_eq_length_filter]
  rfl

theorem withOutcome_eq_nil (o : Elimination) (rs : List (Elimination × Instruction ε ι)) :
    withOutcome o rs = [] ↔ o ∉ rs.map Prod.fst := by
  rw [← List.length_eq_zero_iff, length_withOutcome, List.count_eq_zero]

/-- The successful alternatives are what remains of the group. -/
theorem withOutcome_success {as : List (Instruction ε ι)}
    {rs : List (Elimination × Instruction ε ι)} (h : List.Forall₂ (Answers rejects) as rs) :
    withOutcome .eSuccess rs = successes rejects as ∧
      ∀ c ∈ withOutcome .eSuccess rs, Clean c := by
  induction h with
  | nil => exact ⟨rfl, fun _ hc => absurd hc List.not_mem_nil⟩
  | @cons a r as rs ha _ ih =>
    by_cases hr : r.1 = .eSuccess
    · have hw : withOutcome .eSuccess (r :: rs) = r.2 :: withOutcome .eSuccess rs := by
        simp [withOutcome, hr]
      obtain ⟨hrem, hclean⟩ := ha.2 hr
      rw [hw, successes, if_pos (ha.1 ▸ hr), hrem, ih.1]
      refine ⟨rfl, fun c hc => ?_⟩
      rcases List.mem_cons.mp hc with rfl | hc
      · exact hclean
      · exact ih.2 c (ih.1 ▸ hc)
    · have hw : withOutcome .eSuccess (r :: rs) = withOutcome .eSuccess rs := by
        simp [withOutcome, hr]
      rw [hw, successes, if_neg (ha.1 ▸ hr)]
      exact ih

/-- An elimination group answers what it means, and a single success takes its place. -/
theorem eliminateGroup_answers (e : Elimination) {as : List (Instruction ε ι)}
    {rs : List (Elimination × Instruction ε ι)} (h : List.Forall₂ (Answers rejects) as rs) :
    (eliminateGroup e rs).1 = e.merge (.choose (meanings rejects as)) ∧
      ((eliminateGroup e rs).1 = .eSuccess →
        successes rejects as = [(eliminateGroup e rs).2] ∧ Clean (eliminateGroup e rs).2) := by
  obtain ⟨hsucc, hclean⟩ := withOutcome_success h
  have hcount := length_withOutcome .eSuccess rs
  have hamb := withOutcome_eq_nil .eAmbiguous rs
  rw [outcomes_of_answers h] at hcount hamb
  unfold eliminateGroup
  by_cases hmany : withOutcome .eAmbiguous rs ≠ [] ∨ (withOutcome .eSuccess rs).length > 1
  · have hchoose : Elimination.choose (meanings rejects as) = .eAmbiguous := by
      refine if_pos (hmany.imp (fun hne => ?_) fun hlen => hcount ▸ hlen)
      exact not_not.mp (mt hamb.mpr hne)
    simp [hmany, hchoose, Elimination.merge]
  · have hnot := hmany
    rw [not_or, not_not, hamb] at hnot
    simp only [hmany, if_false]
    cases hw : withOutcome .eSuccess rs with
    | nil =>
      have hchoose : Elimination.choose (meanings rejects as) = .eFailure := by
        rw [Elimination.choose, if_neg, if_neg] <;> rw [← hcount] <;> simp [hw, hnot.1]
      refine ⟨by rw [hchoose, Elimination.merge_fail], fun hs => ?_⟩
      exact absurd hs e.fail_ne_success
    | cons c cs =>
      have hcs : cs = [] := by
        rw [hw, List.length_cons] at hnot
        exact List.length_eq_zero_iff.mp (by omega)
      subst hcs
      have hchoose : Elimination.choose (meanings rejects as) = .eSuccess := by
        rw [Elimination.choose, if_neg, if_pos] <;> rw [← hcount] <;> simp [hw, hnot.1]
      refine ⟨by rw [hchoose]; rfl, fun _ => ⟨hsucc ▸ hw, hclean c (hw ▸ List.mem_cons_self)⟩⟩

/-- A prune group answers what it means, and its successes take its place. -/
theorem pruneGroup_answers {size : ℕ} {e : Elimination} {as : List (Instruction ε ι)}
    {rs : List (Elimination × Instruction ε ι)} (h : List.Forall₂ (Answers rejects) as rs)
    (he : e ≠ .eAmbiguous) (hsize : size = 1 ∨ Elimination.anyOf (meanings rejects as) = .eFailure) :
    ∃ spliced, pruneGroup size e rs = .ok (e.merge (.anyOf (meanings rejects as)), spliced) ∧
      (e.merge (.anyOf (meanings rejects as)) = .eSuccess →
        successes rejects as = spliced ∧ ∀ c ∈ spliced, Clean c) := by
  obtain ⟨hsucc, hclean⟩ := withOutcome_success h
  have hnil := withOutcome_eq_nil .eSuccess rs
  rw [outcomes_of_answers h] at hnil
  unfold pruneGroup
  cases hw : withOutcome .eSuccess rs with
  | nil =>
    have hany : Elimination.anyOf (meanings rejects as) = .eFailure := if_neg (hnil.mp hw)
    refine ⟨_, by rw [hany, Elimination.merge_fail, Elimination.fail, if_pos he], fun hs => ?_⟩
    rw [hany] at hs
    exact absurd hs e.fail_ne_success
  | cons c cs =>
    have hany : Elimination.anyOf (meanings rejects as) = .eSuccess := by
      refine if_pos (not_not.mp fun hno => ?_)
      rw [hnil.mpr hno] at hw
      cases hw
    have hone : size = 1 := hsize.resolve_right fun hf => by rw [hany] at hf; cases hf
    refine ⟨_, by rw [hany]; exact if_pos hone, fun _ => ⟨hsucc ▸ hw, fun b hb => ?_⟩⟩
    exact hclean b (hw ▸ hb)

/-! ## The children of an instruction -/

/-- What is known of a child when the loop comes to it: an ordinary one is answered, and so is every
alternative of a group. -/
structure Ready (rejects : Operation ε ι → Bool) (size : ℕ) (c : Instruction ε ι) : Prop where
  ordinary : c.head.transient = false →
    ∃ r, eliminateWith rejects c = .ok r ∧ Answers rejects c r
  alternative : c.head.isElimination || c.head.isPrune → ∀ a ∈ c.children,
    a.head.transient = false ∧ ∃ r, eliminateWith rejects a = .ok r ∧ Answers rejects a r
  prune : c.head.isPrune → (∀ a ∈ c.children, meaning rejects a ≠ .eAmbiguous) ∧
    (size = 1 ∨ meaning rejects c = .eFailure)

theorem Ready.nested {size : ℕ} {head : Head ε ι} {as : List (Instruction ε ι)}
    (h : Ready rejects size (.node head as)) (pruning : Bool) (hgroup : head.isElimination || head.isPrune)
    (hpruning : pruning → head.isPrune) :
    ∃ rs, eliminateNested rejects pruning as = .ok rs ∧ List.Forall₂ (Answers rejects) as rs := by
  have ha := h.alternative hgroup
  exact eliminateNested_answers (fun a hmem => (ha a hmem).1)
    (fun hp => (h.prune (hpruning hp)).1) fun a hmem => (ha a hmem).2

/-- **One round** of the loop merges the outcome of a child and splices what remains of it. -/
theorem eliminateChildren_cons {size : ℕ} {e : Elimination} {c : Instruction ε ι}
    (hc : Ready rejects size c) (he : c.head.isPrune → e ≠ .eAmbiguous) :
    ∃ spliced, (∀ rest, eliminateChildren rejects size e (c :: rest) =
        (eliminateChildren rejects size (e.merge (meaning rejects c)) rest).map
          fun r => (r.1, spliced ++ r.2)) ∧
      (e.merge (meaning rejects c) = .eSuccess →
        remains rejects c = spliced ∧ ∀ d ∈ spliced, Clean d) := by
  cases c with
  | node head as =>
    rcases head.kind_cases with rfl | rfl | rfl | hordinary
    · obtain ⟨rs, hrs, has⟩ := hc.nested false rfl (by simp)
      obtain ⟨hgroup, hclean⟩ := eliminateGroup_answers e has
      have hm : meaning rejects (.node .elimination as) = .choose (meanings rejects as) := rfl
      refine ⟨[(eliminateGroup e rs).2], fun rest => ?_, fun hs => ?_⟩
      · rw [eliminateChildren, hrs, hm, ← hgroup]
        rfl
      · rw [hm, ← hgroup] at hs
        obtain ⟨hrem, hcl⟩ := hclean hs
        exact ⟨hrem, fun d hd => List.mem_singleton.mp hd ▸ hcl⟩
    · refine ⟨[.node .failure as], fun rest => by rw [eliminateChildren]; rfl, fun hs => ?_⟩
      exact absurd hs e.fail_ne_success
    · obtain ⟨rs, hrs, has⟩ := hc.nested true rfl fun _ => rfl
      have hm : meaning rejects (.node .prune as) = .anyOf (meanings rejects as) := rfl
      obtain ⟨spliced, hgroup, hclean⟩ := pruneGroup_answers has (he rfl) (hm ▸ (hc.prune rfl).2)
      refine ⟨spliced, fun rest => ?_, hm ▸ hclean⟩
      rw [eliminateChildren, hrs, hm]
      simp only [Head.isElimination, Head.isFailure, Head.isPrune, Bool.false_eq_true, if_false,
        if_true, bind, Except.bind, hgroup]
      rfl
    · obtain ⟨r, hr, hout, hrem⟩ := hc.ordinary hordinary
      refine ⟨[r.2], fun rest => ?_, fun hs => ?_⟩
      · simp only [Head.transient, Bool.or_eq_false_iff] at hordinary
        rw [eliminateChildren, hr, ← hout]
        simp only [hordinary, Bool.false_eq_true, if_false, bind, Except.bind]
        rfl
      · rw [← hout, Elimination.merge_eq_success] at hs
        obtain ⟨hrem, hcl⟩ := hrem hs.2
        exact ⟨hrem, fun d hd => List.mem_singleton.mp hd ▸ hcl⟩

/-- **The loop** over the children merges their outcomes, and splices what remains of them. -/
theorem eliminateChildren_answers {size : ℕ} (e : Elimination) {cs : List (Instruction ε ι)}
    (hready : ∀ c ∈ cs, Ready rejects size c)
    (hamb : ∀ c ∈ cs, c.head.isPrune →
      e ≠ .eAmbiguous ∧ ∀ s ∈ cs, meaning rejects s ≠ .eAmbiguous) :
    ∃ cs', eliminateChildren rejects size e cs =
        .ok (e.merge (.allOf (meanings rejects cs)), cs') ∧
      (e.merge (.allOf (meanings rejects cs)) = .eSuccess →
        remainsAll rejects cs = cs' ∧ ∀ c ∈ cs', Clean c) := by
  induction cs generalizing e with
  | nil =>
    refine ⟨[], ?_, fun _ => ⟨rfl, fun _ hc => absurd hc List.not_mem_nil⟩⟩
    cases e <;> rfl
  | cons c cs ih =>
    obtain ⟨spliced, hround, hspliced⟩ := eliminateChildren_cons (hready c List.mem_cons_self)
      fun hp => (hamb c List.mem_cons_self hp).1
    obtain ⟨cs', hcs', hrem⟩ := ih (e.merge (meaning rejects c))
      (fun s hs => hready s (List.mem_cons_of_mem c hs)) fun s hs hp => by
        obtain ⟨he, hall⟩ := hamb s (List.mem_cons_of_mem c hs) hp
        refine ⟨fun hm => ?_, fun s hs => hall s (List.mem_cons_of_mem c hs)⟩
        rcases Elimination.merge_eq_ambiguous.mp hm with hm | hm
        · exact he hm
        · exact hall c List.mem_cons_self hm
    have hmerge : e.merge (.allOf (meanings rejects (c :: cs))) =
        (e.merge (meaning rejects c)).merge (.allOf (meanings rejects cs)) := by
      rw [Elimination.merge_assoc, meanings, Elimination.allOf_cons]
    rw [hmerge, hround, hcs']
    refine ⟨_, rfl, fun hs => ?_⟩
    obtain ⟨hone, hclean⟩ := hspliced (Elimination.merge_eq_success.mp hs).1
    obtain ⟨hall, hcleans⟩ := hrem hs
    refine ⟨by rw [remainsAll, hone, hall], fun d hd => ?_⟩
    rcases List.mem_append.mp hd with hd | hd
    · exact hclean d hd
    · exact hcleans d hd

/-! ## The pass -/

/-- **Elimination answers what the tree means.** -/
theorem eliminateWith_answers {t : Instruction ε ι} (h : WellNested rejects t) :
    ∃ r, eliminateWith rejects t = .ok r ∧ Answers rejects t r := by
  induction h with
  | @node head children hhead hordinary halternative hprune ihordinary ihalternative =>
    have hkind := hhead
    simp only [Head.transient, Bool.or_eq_false_iff] at hkind
    by_cases hrej : rejected rejects head
    · have hm : meaning rejects (.node head children) = .eFailure := by simp [meaning, hrej]
      refine ⟨(.eFailure, .node head children), ?_, hm.symm, by simp⟩
      rw [eliminateWith, if_pos hrej]
    · have hm : meaning rejects (.node head children) = .allOf (meanings rejects children) := by
        simp [meaning, hrej, hkind]
      have hready : ∀ c ∈ children, Ready rejects children.length c := fun c hc =>
        ⟨ihordinary c hc, fun hg a ha =>
          ⟨(halternative c hc hg a ha).ordinary, ihalternative c hc hg a ha⟩,
          fun hp => ⟨(hprune c hc hp).1, (hprune c hc hp).2.2⟩⟩
      obtain ⟨cs', hcs', hrem⟩ := eliminateChildren_answers .eSuccess hready
        fun c hc hp => ⟨by simp, (hprune c hc hp).2.1⟩
      rw [Elimination.success_merge] at hcs' hrem
      refine ⟨(.allOf (meanings rejects children), .node head cs'), ?_, hm.symm, fun hs => ?_⟩
      · rw [eliminateWith, if_neg hrej, hcs']
        rfl
      · obtain ⟨hall, hclean⟩ := hrem hs
        exact ⟨by rw [remains_ordinary hhead, hall], .node hhead hclean⟩

end

section
variable [DecidableEq ε] [DecidableEq ι]

/-- **Main result.** On every well nested tree both passes answer what the tree means, the second
with the operations that are no candidates as failures, and what is left of a tree that succeeds is
clean and has its groups replaced by their successes. -/
theorem elimination_answers :
    (∀ t : Instruction ε ι, WellNested (fun _ => false) t →
      ∃ r, eliminate t = .ok r ∧ Answers (fun _ => false) t r) ∧
    ∀ (candidateOperations : List (Operation ε ι)) (t : Instruction ε ι),
      WellNested (fun op => op ∉ candidateOperations) t →
        ∃ r, secondStageElimination candidateOperations t = .ok r ∧
          Answers (fun op => op ∉ candidateOperations) t r :=
  ⟨fun _ h => eliminateWith_answers h, fun _ _ h => eliminateWith_answers h⟩

end

/-! ## Two trees -/

/-- A stop operation. -/
def stop (address : ℕ) : Instruction ℕ ℕ :=
  .node (.operation ⟨address, .stop, ⟨0, 0⟩, 0, 0⟩) []

/-- A dereference with two alternatives, of which the first derives an instance and then fails. -/
def oneOfTwo : Instruction ℕ ℕ :=
  .node (.root ⟨0, [0]⟩) [.node (.monoReference ⟨0, [0]⟩ ⟨1, 0⟩)
    [.node .elimination [.node (.parentDerivation ⟨1, 0⟩ ⟨2, 1⟩) [.node .failure [stop 0]],
      .node (.childDerivation ⟨1, 0⟩ ⟨3, 2⟩) [stop 1]]]]

/-- An elimination group as the only alternative of another one. -/
def nestedGroups : Instruction ℕ ℕ :=
  .node (.root ⟨0, [0]⟩) [.node .elimination [.node .elimination [stop 0]]]

/-- The second alternative is left. -/
theorem elimination_answers_oneOfTwo : ∃ t, eliminate oneOfTwo = .ok (.eSuccess, t) ∧ Clean t ∧
    t = .node (.root ⟨0, [0]⟩) [.node (.monoReference ⟨0, [0]⟩ ⟨1, 0⟩)
      [.node (.childDerivation ⟨1, 0⟩ ⟨3, 2⟩) [stop 1]]] := by
  have hfails : WellNested (fun _ => false)
      (.node (.parentDerivation ⟨1, 0⟩ ⟨2, 1⟩) [.node .failure [stop 0]] : Instruction ℕ ℕ) := by
    refine .node rfl (fun c hc hord => ?_) (fun c hc hg => ?_) fun c hc hp => ?_ <;>
      obtain rfl := List.mem_singleton.mp hc
    · cases hord
    · cases hg
    · cases hp
  have hstops : WellNested (fun _ => false)
      (.node (.childDerivation ⟨1, 0⟩ ⟨3, 2⟩) [stop 1] : Instruction ℕ ℕ) :=
    .of_ordinary rfl fun c hc => List.mem_singleton.mp hc ▸ .of_ordinary rfl (by simp)
  have hmono : WellNested (fun _ => false) (.node (.monoReference ⟨0, [0]⟩ ⟨1, 0⟩)
      [.node .elimination [.node (.parentDerivation ⟨1, 0⟩ ⟨2, 1⟩) [.node .failure [stop 0]],
        .node (.childDerivation ⟨1, 0⟩ ⟨3, 2⟩) [stop 1]]] : Instruction ℕ ℕ) := by
    refine .of_elimination rfl fun a ha => ?_
    rcases List.mem_pair.mp ha with rfl | rfl
    · exact hfails
    · exact hstops
  obtain ⟨⟨o, t⟩, hr, hout, hrem⟩ := elimination_answers.1 oneOfTwo
    (.of_ordinary rfl fun c hc => List.mem_singleton.mp hc ▸ hmono)
  have ho : o = .eSuccess := hout
  subst ho
  obtain ⟨hall, hclean⟩ := hrem rfl
  exact ⟨t, hr, hclean, (List.singleton_inj.mp hall).symm⟩

/-- The pass throws where an elimination group is the alternative of another one. -/
theorem nestedGroups_thrown : eliminate nestedGroups = .error .verify ∧
    meaning (fun _ => false) nestedGroups = .eSuccess ∧
      ¬ ∃ r, eliminate nestedGroups = .ok r ∧ Answers (fun _ => false) nestedGroups r := by
  have h : eliminate nestedGroups = .error .verify := rfl
  refine ⟨h, rfl, ?_⟩
  rintro ⟨r, hr, -⟩
  rw [h] at hr
  cases hr

end Instruction
end EgLang.Compiler
