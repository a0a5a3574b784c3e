import EgLang.Compiler.ResolutionTree
import EgLang.Library.Arena

/-!
# Pruning the vector

`pruneBranches` touches no node outside of the tree that it goes down, and leaves the pruned tree
where the tree stood.
-/

namespace EgLang.Compiler.NameResolution

open EgLang.Library NameTree

set_option autoImplicit false

variable {ι κ : Type} {nodes nodes' : Nodes ι κ} {depth : ℕ}

/-- The children of each node stand behind it, and have no other parent. -/
abbrev IsForest (nodes : Nodes ι κ) : Prop := Forest Name.children nodes

/-- The tree stands in the vector. -/
abbrev StandsIn (nodes : Nodes ι κ) (t : NameTree ℕ ι κ) : Prop :=
  Stands Name.mark Name.children nodes t

/-! ## Single nodes -/

@[simp] theorem length_setMember (nodes : Nodes ι κ) (i : ℕ) :
    (setMember nodes i).length = nodes.length := List.length_modify ..

@[simp] theorem length_setChildren (nodes : Nodes ι κ) (i : ℕ) (cs : List ℕ) :
    (setChildren nodes i cs).length = nodes.length := List.length_modify ..

theorem getElem?_setMember_of_ne {i j : ℕ} (h : j ≠ i) : (setMember nodes i)[j]? = nodes[j]? := by
  rw [setMember, List.getElem?_modify]
  simp [h.symm]

theorem getElem?_setMember_self {i : ℕ} {node : Name ι κ} (h : nodes[i]? = some node) :
    (setMember nodes i)[i]? = some { node with isMember := true } := by
  simp [setMember, h]

theorem getElem?_setChildren_of_ne {i j : ℕ} {cs : List ℕ} (h : j ≠ i) :
    (setChildren nodes i cs)[j]? = nodes[j]? := by
  rw [setChildren, List.getElem?_modify]
  simp [h.symm]

theorem getElem?_setChildren_self {i : ℕ} {cs : List ℕ} {node : Name ι κ}
    (h : nodes[i]? = some node) :
    (setChildren nodes i cs)[i]? = some { node with children := cs } := by
  simp [setChildren, h]

theorem memberAt_of_stands {t : NameTree ℕ ι κ} (h : StandsIn nodes t) :
    memberAt nodes t.index = isMember t := by
  obtain ⟨node, hget, hmark, -⟩ := h.get
  rw [memberAt, hget, isMember, ← hmark]
  rfl

/-! ## The children of a node -/

/-- Some children of node `i` have been pruned, the others are still to come. -/
structure PruningChildren (nodes₀ : Nodes ι κ) (i : ℕ) (ds ws : List (NameTree ℕ ι κ))
    (nodes : Nodes ι κ) : Prop where
  pruned : ∀ s ∈ ds, StandsIn nodes (prune s)
  waiting : ∀ s ∈ ws, StandsIn nodes s
  frame : ∀ j, j ≠ i → (∀ s ∈ ds, j ∉ s.indices) → nodes[j]? = nodes₀[j]?
  length : nodes.length = nodes₀.length

/-- What pruning a tree does to the vector. -/
structure PrunedTo (t : NameTree ℕ ι κ) (nodes nodes' : Nodes ι κ) : Prop where
  stands : StandsIn nodes' (prune t)
  frame : ∀ j ∉ t.indices, nodes'[j]? = nodes[j]?
  length : nodes'.length = nodes.length

theorem index_prune (t : NameTree ℕ ι κ) : (prune t).index = t.index := (label_prune t).1

/-- Pruning adds no index. -/
theorem indices_prune (t : NameTree ℕ ι κ) : ∀ j ∈ (prune t).indices, j ∈ t.indices := by
  induction t using RoseTree.tree_induction with
  | step a ts ih =>
    intro j hj
    have hkids : ∀ us : List (NameTree ℕ ι κ), (∀ u ∈ us, ∃ t ∈ ts, u = prune t) →
        ∀ b : ℕ × Mark ι κ, b.1 = a.1 → j ∈ (RoseTree.node b us).indices →
          j ∈ (RoseTree.node a ts).indices := by
      rintro us hus ⟨b, m⟩ rfl hj
      rcases RoseTree.mem_indices_node.mp hj with rfl | ⟨u, hu, hj⟩
      · exact RoseTree.mem_indices_node.mpr (.inl rfl)
      · obtain ⟨t, ht, rfl⟩ := hus u hu
        exact RoseTree.mem_indices_node.mpr (.inr ⟨t, ht, ih t ht j hj⟩)
    have hall : ∀ u ∈ ts.map prune, ∃ t ∈ ts, u = prune t := fun u hu => by
      obtain ⟨t, ht, rfl⟩ := List.mem_map.mp hu
      exact ⟨t, ht, rfl⟩
    by_cases hts : ts = []
    · subst hts
      rwa [prune_leaf] at hj
    · cases hr : a.2.isReference with
      | false =>
        rw [prune_best hts hr, pruneBest] at hj
        split at hj
        · exact hkids _ (fun u hu => hall u (List.mem_filter.mp hu).1) _ rfl hj
        · exact hkids _ hall a rfl hj
      | true =>
        cases hm : a.2.isMember with
        | false =>
          rw [prune_reference hts hr hm] at hj
          exact hkids _ hall _ rfl hj
        | true => rwa [prune_flagged ts hr hm] at hj

variable {nodes₀ : Nodes ι κ} {i : ℕ} {ds ws : List (NameTree ℕ ι κ)}

/-- **One child** is pruned: it has no index in common with its siblings. -/
theorem PruningChildren.next {s : NameTree ℕ ι κ} (h : PruningChildren nodes₀ i ds (s :: ws) nodes)
    (hp : PrunedTo s nodes nodes') (hi : i ∉ s.indices)
    (hds : ∀ d ∈ ds, ∀ j ∈ d.indices, j ∉ s.indices)
    (hws : ∀ d ∈ ws, ∀ j ∈ d.indices, j ∉ s.indices) :
    PruningChildren nodes₀ i (ds ++ [s]) ws nodes' ∧ nodes'[i]? = nodes[i]? := by
  refine ⟨⟨fun d hd => ?_, fun d hd => ?_, fun j hji hj => ?_, hp.length.trans h.length⟩,
    hp.frame i hi⟩
  · rcases List.mem_append.mp hd with hd | hd
    · exact (h.pruned d hd).congr fun j hj => hp.frame j (hds d hd j (indices_prune d j hj))
    · rw [List.mem_singleton.mp hd]
      exact hp.stands
  · exact (h.waiting d (List.mem_cons_of_mem s hd)).congr fun j hj => hp.frame j (hws d hd j hj)
  · have hjs := hj s (List.mem_append_right _ List.mem_cons_self)
    rw [hp.frame j hjs]
    exact h.frame j hji fun d hd => hj d (List.mem_append_left _ hd)

/-- The parent is no part of its children. -/
theorem PruningChildren.root (h : PruningChildren nodes₀ i ds ws nodes)
    (hi : ∀ s, s ∈ ds ∨ s ∈ ws → i ∉ s.indices) (hoff : ∀ j, j ≠ i → nodes'[j]? = nodes[j]?)
    (hlength : nodes'.length = nodes.length) : PruningChildren nodes₀ i ds ws nodes' where
  pruned s hs := (h.pruned s hs).congr fun j hj => hoff j fun hji =>
    hi s (.inl hs) (hji ▸ indices_prune s j hj)
  waiting s hs := (h.waiting s hs).congr fun j hj => hoff j fun hji => hi s (.inr hs) (hji ▸ hj)
  frame j hji hj := (hoff j hji).trans (h.frame j hji hj)
  length := hlength.trans h.length

/-- The siblings of a tree are apart from each other and from their parent. -/
structure Apart (i : ℕ) (ts : List (NameTree ℕ ι κ)) : Prop where
  parent : ∀ s ∈ ts, i ∉ s.indices
  siblings : ts.Pairwise fun s t => ∀ j ∈ s.indices, j ∉ t.indices

theorem apart_of_nodup {a : ℕ × Mark ι κ} {ts : List (NameTree ℕ ι κ)}
    (h : (RoseTree.node a ts).indices.Nodup) : Apart a.1 ts ∧ ∀ s ∈ ts, s.indices.Nodup := by
  rw [RoseTree.indices_node, List.nodup_cons, List.nodup_flatten, List.pairwise_map] at h
  refine ⟨⟨fun s hs hi => h.1 (List.mem_flatten.mpr ⟨_, List.mem_map_of_mem hs, hi⟩),
    h.2.2.imp fun hd _ hs ht => hd hs ht⟩, List.forall_mem_map.mp h.2.1⟩

/-- The two loops over the children of a node: one child is pruned after the other, and what is noted
of it in `s` is its membership flag. -/
theorem pruneChildren_loop {σ : Type} (get : σ → Nodes ι κ) (step : σ → ℕ → σ)
    (Noted : List (NameTree ℕ ι κ) → σ → Prop) (s₀ : σ) {ts : List (NameTree ℕ ι κ)}
    (hapart : Apart i ts)
    (hstep : ∀ ds (c : NameTree ℕ ι κ) ws s, c ∈ ts → PruningChildren nodes₀ i ds (c :: ws) (get s) →
      Noted ds s → (∀ d ∈ ds, ∀ j ∈ d.indices, j ∉ c.indices) →
      (∀ d ∈ ws, ∀ j ∈ d.indices, j ∉ c.indices) → (∀ d, d ∈ ds ∨ d ∈ ws → i ∉ d.indices) →
        PruningChildren nodes₀ i (ds ++ [c]) ws (get (step s c.index)) ∧
          Noted (ds ++ [c]) (step s c.index))
    (h : PruningChildren nodes₀ i [] ts (get s₀)) (hn : Noted [] s₀) :
    PruningChildren nodes₀ i ts [] (get ((ts.map RoseTree.index).foldl step s₀)) ∧
      Noted ts ((ts.map RoseTree.index).foldl step s₀) := by
  suffices hall : ∀ (ws ds : List (NameTree ℕ ι κ)) (s : σ), ds ++ ws = ts →
      PruningChildren nodes₀ i ds ws (get s) → Noted ds s →
        PruningChildren nodes₀ i ts [] (get ((ws.map RoseTree.index).foldl step s)) ∧
          Noted ts ((ws.map RoseTree.index).foldl step s) from hall ts [] s₀ rfl h hn
  intro ws
  induction ws with
  | nil =>
    intro ds s heq hp hn
    rw [List.append_nil] at heq
    subst heq
    exact ⟨hp, hn⟩
  | cons c ws ih =>
    intro ds s heq hp hn
    have hpair := hapart.siblings
    rw [← heq, List.pairwise_append, List.pairwise_cons] at hpair
    have hmem : ∀ d, d ∈ ds ∨ d ∈ ws → d ∈ ts := fun d hd => by
      rw [← heq, List.mem_append, List.mem_cons]
      exact hd.imp_right .inr
    have hc : c ∈ ts := by
      rw [← heq]
      exact List.mem_append_right _ List.mem_cons_self
    obtain ⟨hp', hn'⟩ := hstep ds c ws s hc hp hn
      (fun d hd => hpair.2.2 d hd c List.mem_cons_self)
      (fun d hd j hj hjc => hpair.2.1.1 d hd j hjc hj) fun d hd => hapart.parent d (hmem d hd)
    exact ih (ds ++ [c]) _ (by rw [List.append_assoc]; exact heq) hp' hn'

section Loops
variable {node : Name ι κ} {ts : List (NameTree ℕ ι κ)}

/-- The loop of a reference node notes whether a child is a member. -/
theorem pruneReference_loop (hapart : Apart i ts) (hget : nodes[i]? = some node)
    (hm : node.isMember = false) (hstands : ∀ s ∈ ts, StandsIn nodes s)
    (hprune : ∀ {nodes' : Nodes ι κ} {c}, c ∈ ts → StandsIn nodes' c →
      PrunedTo c nodes' (pruneBranches depth nodes' c.index)) :
    ∃ nodes', (ts.map RoseTree.index).foldl (fun nodes index =>
        noteMember i (pruneBranches depth nodes index) index) nodes = nodes' ∧
      PruningChildren nodes i ts [] nodes' ∧
      nodes'[i]? = some { node with isMember := (ts.map prune).any isMember } := by
  refine ⟨_, rfl, pruneChildren_loop id _
    (fun ds s => s[i]? = some { node with isMember := (ds.map prune).any isMember }) nodes
    hapart (fun ds c ws s hc hp hn hds hws hi => ?_)
    ⟨fun _ hs => absurd hs List.not_mem_nil, hstands, fun _ _ _ => rfl, rfl⟩ ?_⟩
  · have hp : PruningChildren nodes i ds (c :: ws) s := hp
    have hpc := hprune hc (hp.waiting c List.mem_cons_self)
    obtain ⟨hp', hsame⟩ := hp.next hpc (hapart.parent c hc) hds hws
    have hflag : memberAt (pruneBranches depth s c.index) c.index = isMember (prune c) := by
      rw [← memberAt_of_stands hpc.stands, index_prune]
    have hnext := hsame.trans hn
    unfold noteMember
    rw [hflag, List.map_append, List.any_append]
    cases hf : isMember (prune c) with
    | true =>
      refine ⟨hp'.root (fun d hd => ?_) (fun j => getElem?_setMember_of_ne) (length_setMember _ i),
        ?_⟩
      · rcases hd with hd | hd
        · rcases List.mem_append.mp hd with hd | hd
          · exact hi d (.inl hd)
          · exact List.mem_singleton.mp hd ▸ hapart.parent c hc
        · exact hi d (.inr hd)
      · rw [if_pos rfl, getElem?_setMember_self hnext]
        simp [hf]
    | false => exact ⟨hp', by simpa [hf] using hnext⟩
  · rw [hget, List.map_nil, List.any_nil, ← hm]

/-- The loop of any other node collects the members among its children. -/
theorem pruneBest_loop (hapart : Apart i ts) (hget : nodes[i]? = some node)
    (hstands : ∀ s ∈ ts, StandsIn nodes s)
    (hprune : ∀ {nodes' : Nodes ι κ} {c}, c ∈ ts → StandsIn nodes' c →
      PrunedTo c nodes' (pruneBranches depth nodes' c.index)) :
    ∃ nodes', (ts.map RoseTree.index).foldl (fun s index =>
        noteBest (pruneBranches depth s.1 index, s.2) index) (nodes, [], false) =
        (nodes', ((ts.map prune).filter isMember).map RoseTree.index,
          (ts.map prune).any fun u => !isMember u) ∧
      PruningChildren nodes i ts [] nodes' ∧ nodes'[i]? = some node := by
  obtain ⟨hp, hn, hbest, hremoved⟩ := pruneChildren_loop Prod.fst
    (fun s index => noteBest (pruneBranches depth s.1 index, s.2) index)
    (fun ds s => s.1[i]? = some node ∧
      s.2.1 = ((ds.map prune).filter isMember).map RoseTree.index ∧
        s.2.2 = (ds.map prune).any fun u => !isMember u)
    ((nodes, [], false) : Nodes ι κ × List ℕ × Bool)
    hapart (fun ds c ws s hc hp hn hds hws hi => by
      have hpc := hprune hc (hp.waiting c List.mem_cons_self)
      obtain ⟨hp', hsame⟩ := hp.next hpc (hapart.parent c hc) hds hws
      have hflag : memberAt (pruneBranches depth s.1 c.index) c.index = isMember (prune c) := by
        rw [← memberAt_of_stands hpc.stands, index_prune]
      obtain ⟨hsi, hbest, hremoved⟩ := hn
      unfold noteBest
      rw [hflag, List.map_append, List.filter_append, List.map_append, List.any_append]
      cases hf : isMember (prune c) with
      | true =>
        refine ⟨hp', hsame.trans hsi, ?_, ?_⟩
        · simp [hbest, hf, index_prune]
        · simp [hremoved, hf]
      | false =>
        refine ⟨hp', hsame.trans hsi, ?_, ?_⟩
        · simp [hbest, hf]
        · simp [hf])
    ⟨fun _ hs => absurd hs List.not_mem_nil, hstands, fun _ _ _ => rfl, rfl⟩ ⟨hget, rfl, rfl⟩
  exact ⟨_, Prod.ext rfl (Prod.ext hbest hremoved), hp, hn⟩

end Loops

/-! ## A whole tree -/

/-- A node whose children have been pruned stands with those it keeps. -/
theorem stands_of_pruned {node : Name ι κ} {ts us : List (NameTree ℕ ι κ)}
    (h : PruningChildren nodes₀ i ts [] nodes) (hget : nodes[i]? = some node)
    (hus : ∀ u ∈ us, u ∈ ts.map prune) (hchildren : node.children = us.map RoseTree.index) :
    StandsIn nodes (.node (i, node.mark) us) := by
  refine .node hget hchildren fun u hu => ?_
  obtain ⟨s, hs, rfl⟩ := List.mem_map.mp (hus u hu)
  exact h.pruned s hs

/-- **Pruning the vector prunes the tree** that stands in it, and nothing else. -/
theorem pruneBranches_prunes (depth : ℕ) {nodes : Nodes ι κ} {t : NameTree ℕ ι κ}
    (h : StandsIn nodes t) (hnd : t.indices.Nodup) (hdepth : t.depth ≤ depth) :
    PrunedTo t nodes (pruneBranches depth nodes t.index) := by
  induction depth generalizing nodes t with
  | zero =>
    cases t with
    | node a ts => rw [RoseTree.depth_node] at hdepth; omega
  | succ depth ih =>
    cases h with
    | @node i node ts hget hchildren hstands =>
      obtain ⟨hapart, hnds⟩ := apart_of_nodup hnd
      have hkids : node.children = ts.map RoseTree.index := hchildren
      have hprune : ∀ {nodes' : Nodes ι κ} {c}, c ∈ ts → StandsIn nodes' c →
          PrunedTo c nodes' (pruneBranches depth nodes' c.index) := fun {_ c} hc hs =>
        ih hs (hnds c hc) (by have := RoseTree.depth_lt_of_mem (a := (i, node.mark)) hc; omega)
      have hframe : ∀ {nodes' : Nodes ι κ}, PruningChildren nodes i ts [] nodes' →
          ∀ j ∉ (RoseTree.node (i, node.mark) ts).indices, nodes'[j]? = nodes[j]? :=
        fun hp j hj => hp.frame j (fun hji => hj (RoseTree.mem_indices_node.mpr (.inl hji)))
          fun s hs hjs => hj (RoseTree.mem_indices_node.mpr (.inr ⟨s, hs, hjs⟩))
      have hindex : (ts.map prune).map RoseTree.index = ts.map RoseTree.index := by
        rw [List.map_map]
        exact List.map_congr_left fun u _ => index_prune u
      rw [RoseTree.index_node, pruneBranches, hget]
      dsimp only
      by_cases hts : ts = []
      · subst hts
        have hnil : node.children = [] := hkids
        rw [if_pos hnil]
        exact ⟨by rw [prune_leaf]; exact .node hget hchildren hstands, fun _ _ => rfl, rfl⟩
      rw [if_neg (by rw [hkids]; simpa using hts)]
      cases hr : node.isReference with
      | true =>
        rw [if_pos rfl]
        cases hm : node.isMember with
        | true =>
          rw [if_pos rfl]
          refine ⟨?_, fun _ _ => rfl, rfl⟩
          rw [prune_flagged (a := (i, node.mark)) ts hr hm]
          exact .node hget hchildren hstands
        | false =>
          obtain ⟨nodes', hloop, hp, hget'⟩ := pruneReference_loop hapart hget hm hstands hprune
          rw [if_neg (by decide), hkids, hloop]
          refine ⟨?_, hframe hp, hp.length⟩
          have hs := stands_of_pruned hp hget' (fun u hu => hu) (hkids.trans hindex.symm)
          have hmark : node.mark.isMember = false := hm
          rw [prune_reference (a := (i, node.mark)) hts hr hm, pruneReference]
          simp only [hmark, Bool.false_or]
          exact hs
      | false =>
        obtain ⟨nodes', hloop, hp, hget'⟩ := pruneBest_loop hapart hget hstands hprune
        have hi : ∀ s, s ∈ ts ∨ s ∈ [] → i ∉ s.indices := fun s hs =>
          hapart.parent s (hs.resolve_right List.not_mem_nil)
        rw [if_neg (by decide), hkids, hloop]
        cases hany : (ts.map prune).any isMember with
        | false =>
          have hnone : (ts.map prune).filter isMember = [] := by
            rw [List.filter_eq_nil_iff]
            exact List.any_eq_false.mp hany
          rw [hnone, keepBest, if_neg (by simp)]
          refine ⟨?_, hframe hp, hp.length⟩
          rw [prune_best (a := (i, node.mark)) hts hr, pruneBest, hany, if_neg (by decide)]
          exact stands_of_pruned hp hget' (fun u hu => hu) (hkids.trans hindex.symm)
        | true =>
          have hsome : ((ts.map prune).filter isMember).map RoseTree.index ≠ [] := by
            obtain ⟨u, hu, hmu⟩ := List.any_eq_true.mp hany
            exact List.ne_nil_of_mem (List.mem_map_of_mem (List.mem_filter.mpr ⟨hu, hmu⟩))
          have hset : PruningChildren nodes i ts [] (setMember nodes' i) :=
            hp.root hi (fun j => getElem?_setMember_of_ne) (length_setMember _ i)
          have hgets := getElem?_setMember_self hget'
          have hfilter : ∀ u ∈ (ts.map prune).filter isMember, u ∈ ts.map prune :=
            fun u hu => (List.mem_filter.mp hu).1
          have hpruned : prune (.node (i, node.mark) ts) =
              .node (i, { node.mark with isMember := true }) ((ts.map prune).filter isMember) := by
            rw [prune_best (a := (i, node.mark)) hts hr, pruneBest, hany, if_pos rfl]
          rw [keepBest, if_pos hsome]
          dsimp only
          cases hremoved : (ts.map prune).any fun u => !isMember u with
          | true =>
            have hp' : PruningChildren nodes i ts []
                (setChildren (setMember nodes' i) i
                  (((ts.map prune).filter isMember).map RoseTree.index)) :=
              hset.root hi (fun j => getElem?_setChildren_of_ne) (length_setChildren _ i _)
            rw [if_pos rfl]
            refine ⟨?_, hframe hp', hp'.length⟩
            rw [hpruned]
            exact stands_of_pruned hp' (getElem?_setChildren_self hgets) hfilter rfl
          | false =>
            have hkeep : (ts.map prune).filter isMember = ts.map prune := by
              rw [List.filter_eq_self]
              intro u hu
              simpa using List.any_eq_false.mp hremoved u hu
            rw [if_neg (by decide)]
            refine ⟨?_, hframe hset, hset.length⟩
            rw [hpruned, hkeep]
            exact stands_of_pruned hset hgets (fun u hu => hu) (hkids.trans hindex.symm)

/-- Pruning from node 0: no way down is longer than the vector. -/
theorem pruneRoot_prunes (hf : IsForest nodes) {t : NameTree ℕ ι κ} (h : StandsIn nodes t)
    (hi : t.index = 0) : PrunedTo t nodes (pruneRoot nodes) := by
  have hdepth := h.index_add_depth_le hf
  have hp := pruneBranches_prunes nodes.length h (h.indices_nodup hf) (by omega)
  rwa [hi] at hp

/-! ## The forest -/

/-- Every node keeps its element, and some of its children. -/
structure Shrunk (nodes nodes' : Nodes ι κ) : Prop where
  length : nodes'.length = nodes.length
  get : ∀ {i : ℕ} {node' : Name ι κ}, nodes'[i]? = some node' → ∃ node, nodes[i]? = some node ∧
    node'.children.Sublist node.children ∧ node'.element = node.element ∧
      (node'.children = [] → node.children = [])

theorem Shrunk.refl (nodes : Nodes ι κ) : Shrunk nodes nodes :=
  ⟨rfl, fun h => ⟨_, h, .refl _, rfl, id⟩⟩

theorem Shrunk.trans {nodes'' : Nodes ι κ} (h : Shrunk nodes nodes') (h' : Shrunk nodes' nodes'') :
    Shrunk nodes nodes'' := by
  refine ⟨h'.length.trans h.length, fun hget => ?_⟩
  obtain ⟨node', hget', hsub', heq', hnil'⟩ := h'.get hget
  obtain ⟨node, hget, hsub, heq, hnil⟩ := h.get hget'
  exact ⟨node, hget, hsub'.trans hsub, heq'.trans heq, hnil ∘ hnil'⟩

theorem Shrunk.forest (h : Shrunk nodes nodes') (hf : IsForest nodes) : IsForest nodes' where
  child_lt hget c hc := by
    obtain ⟨node, hget, hsub, -⟩ := h.get hget
    rw [h.length]
    exact hf.child_lt hget c (hsub.subset hc)
  children_nodup hget := by
    obtain ⟨node, hget, hsub, -⟩ := h.get hget
    exact (hf.children_nodup hget).sublist hsub
  parent_unique hi hj hci hcj := by
    obtain ⟨ni, hi, hsubi, -⟩ := h.get hi
    obtain ⟨nj, hj, hsubj, -⟩ := h.get hj
    exact hf.parent_unique hi hj (hsubi.subset hci) (hsubj.subset hcj)

theorem shrunk_modify {f : Name ι κ → Name ι κ} {i : ℕ} (hf : ∀ node, nodes[i]? = some node →
    (f node).children.Sublist node.children ∧ (f node).element = node.element ∧
      ((f node).children = [] → node.children = [])) : Shrunk nodes (nodes.modify i f) := by
  refine ⟨List.length_modify .., fun {j node'} hget => ?_⟩
  rw [List.getElem?_modify] at hget
  cases hj : nodes[j]? with
  | none => rw [hj] at hget; cases hget
  | some node =>
    rw [hj] at hget
    obtain rfl := Option.some.inj hget
    by_cases hij : i = j
    · subst hij
      exact ⟨node, rfl, by simpa using hf node hj⟩
    · exact ⟨node, rfl, by simp [hij]⟩

theorem shrunk_setMember (nodes : Nodes ι κ) (i : ℕ) : Shrunk nodes (setMember nodes i) :=
  shrunk_modify fun _ _ => ⟨.refl _, rfl, id⟩

theorem shrunk_noteMember (nodes : Nodes ι κ) (i index : ℕ) :
    Shrunk nodes (noteMember i nodes index) := by
  unfold noteMember
  split
  · exact shrunk_setMember nodes i
  · exact .refl nodes

/-- **Pruning shrinks**: no node gets a child, and none loses all of them. -/
theorem pruneBranches_shrunk (depth : ℕ) (nodes : Nodes ι κ) (i : ℕ) :
    Shrunk nodes (pruneBranches depth nodes i) := by
  induction depth generalizing nodes i with
  | zero => exact .refl nodes
  | succ depth ih =>
    rw [pruneBranches]
    cases hget : nodes[i]? with
    | none => exact .refl nodes
    | some node =>
      dsimp only
      split
      · exact .refl nodes
      split
      · split
        · exact .refl nodes
        · suffices hall : ∀ (cs : List ℕ) (s : Nodes ι κ), Shrunk nodes s →
              Shrunk nodes (cs.foldl (fun nodes index =>
                noteMember i (pruneBranches depth nodes index) index) s) from
            hall node.children nodes (.refl nodes)
          intro cs
          induction cs with
          | nil => exact fun s hs => hs
          | cons c cs ihc =>
            intro s hs
            exact ihc _ (hs.trans ((ih s c).trans (shrunk_noteMember _ i c)))
      · -- the best children are among those that the loop has come by
        suffices hall : ∀ (cs ds : List ℕ) (s : Nodes ι κ × List ℕ × Bool), Shrunk nodes s.1 →
            s.2.1.Sublist ds →
            Shrunk nodes (cs.foldl (fun s index =>
                noteBest (pruneBranches depth s.1 index, s.2) index) s).1 ∧
              (cs.foldl (fun s index =>
                noteBest (pruneBranches depth s.1 index, s.2) index) s).2.1.Sublist (ds ++ cs) by
          obtain ⟨hs, hbest⟩ := hall node.children [] (nodes, [], false) (.refl nodes) (.refl _)
          unfold keepBest
          split
          · rename_i hne
            dsimp only
            split
            · have hset := hs.trans (shrunk_setMember _ i)
              refine ⟨(length_setChildren _ i _).trans hset.length, fun {j node'} hj => ?_⟩
              by_cases hji : j = i
              · subst hji
                obtain ⟨x, hx⟩ : ∃ x, (setMember (node.children.foldl (fun s index =>
                    noteBest (pruneBranches depth s.1 index, s.2) index)
                      (nodes, [], false)).1 j)[j]? = some x := by
                  refine ⟨_, List.getElem?_eq_getElem ?_⟩
                  rw [hset.length]
                  exact (List.getElem?_eq_some_iff.mp hget).1
                obtain ⟨node₀, hnode₀, -, helement, -⟩ := hset.get hx
                rw [getElem?_setChildren_self hx, Option.some.injEq] at hj
                subst hj
                rw [hget, Option.some.injEq] at hnode₀
                subst hnode₀
                exact ⟨node, hget, hbest, helement, fun hnil => absurd hnil hne⟩
              · rw [getElem?_setChildren_of_ne hji] at hj
                exact hset.get hj
            · exact hs.trans (shrunk_setMember _ i)
          · exact hs
        intro cs
        induction cs with
        | nil => exact fun ds s hs hbest => ⟨hs, by rwa [List.append_nil]⟩
        | cons c cs ihc =>
          intro ds s hs hbest
          have hnext := hs.trans (ih s.1 c)
          rw [List.foldl_cons, List.append_cons]
          unfold noteBest at ihc ⊢
          dsimp only
          split
          · exact ihc _ _ hnext (hbest.append (.refl [c]))
          · exact ihc _ _ hnext (hbest.trans (List.sublist_append_left ds [c]))

end EgLang.Compiler.NameResolution
